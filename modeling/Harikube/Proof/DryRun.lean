import Harikube.Proof.KeyPaths
import Harikube.Proof.Resources
import Harikube.Spec.DryRun

/-!
# The target of a dry run from the key alone

The message of a delete has no value, so its target is read from the key. The first part of the key
is taken for the plural of a resource, and a kind is inferred from it.

* `target_object`: the target that the object itself gives.
* `grouped_apart`: for a group in the key the inferred kind has another group.
* `target_agrees_iff`: **both targets are the same exactly if the inferred kind maps back** to the
  group, registry prefix and scope of the object.
-/

namespace Harikube

open SelectorSql (trimSuffix)

/-- The registry prefix of the resources whose path is `raw`. -/
def underRegistry (raw : Bytes) : Bytes := registry ++ raw ++ [slash]

/-! ## Words -/

theorem lowerByte_slash : ∀ c : Fin 256, lowerByte c = slash → c = slash := by decide +kernel

theorem upperByte_slash : ∀ c : Fin 256, upperByte c = slash → c = slash := by decide +kernel

theorem titleLoop_slash (s : Bytes) : ∀ prev, slash ∉ s → slash ∉ titleLoop prev s := by
  induction s with
  | nil => intro prev h; exact h
  | cons c cs ih =>
    intro prev h
    rw [List.mem_cons, not_or] at h
    unfold titleLoop
    rw [List.mem_cons, not_or]
    refine ⟨?_, ih c h.2⟩
    intro hc
    split at hc
    · exact h.1 (upperByte_slash c hc.symm).symm
    · exact h.1 hc

namespace Words

variable (t : Words) {s : Bytes}

theorem toLower_slash (h : slash ∉ s) : slash ∉ t.toLower s := by
  unfold toLower
  split
  · intro hm
    obtain ⟨c, hc, hlow⟩ := List.mem_map.1 hm
    exact h (lowerByte_slash c hlow ▸ hc)
  · exact t.lower_slash s h

theorem toLower_ne (h : s ≠ []) : t.toLower s ≠ [] := by
  unfold toLower
  split
  · exact fun hn => h (List.map_eq_nil_iff.1 hn)
  · exact t.lower_ne s h

theorem title_no_slash (h : slash ∉ s) : slash ∉ t.title s := by
  unfold title
  split
  · exact titleLoop_slash s _ h
  · exact t.title_slash s h

/-- The plural that a kind is stored under. -/
theorem plural_segment (h : Segment s) : Segment (t.plural (t.toLower s)) :=
  ⟨t.plural_ne _ (t.toLower_ne h.1), t.plural_slash _ (t.toLower_slash h.2)⟩

end Words

/-! ## Registry prefixes -/

/-- The switch of `GetResourceMappingByGVK` names the kind. -/
def NamedGVK (gvk : GroupVersionKind) : Prop := ∃ n ∈ namedKinds, gvk.group = n.group ∧ gvk.kind = n.kind

/-- The registry prefix of a named kind has one part. -/
theorem namedKinds_prefix : ∀ n ∈ namedKinds,
    n.mapping.registryPrefix = underRegistry (prefixPlural n.mapping.registryPrefix) ∧
      prefixPlural n.mapping.registryPrefix ≠ [] ∧ slash ∉ prefixPlural n.mapping.registryPrefix := by
  unfold namedKinds namedKind underRegistry registry
  repeat rw [ascii_ofList]
  decide +kernel

theorem mapping_named {t : Words} {gvk : GroupVersionKind} (h : NamedGVK gvk) :
    ∃ w, Segment w ∧ (getResourceMappingByGVK t gvk).registryPrefix = underRegistry w := by
  obtain ⟨n, hn, hg, hk⟩ := h
  unfold getResourceMappingByGVK
  cases hf : namedKinds.find? fun n => gvk.group = n.group && gvk.kind = n.kind with
  | none =>
    have hno := List.find?_eq_none.1 hf n hn
    simp [hg, hk] at hno
  | some n' =>
    obtain ⟨hp, hne, hslash⟩ := namedKinds_prefix n' (List.mem_of_find?_eq_some hf)
    exact ⟨_, ⟨hne, hslash⟩, hp⟩

/-- The mapping of a kind that the switch does not name. -/
theorem mapping_other {t : Words} {gvk : GroupVersionKind} (h : ¬ NamedGVK gvk) :
    (getResourceMappingByGVK t gvk).registryPrefix =
      if gvk.group = [] then underRegistry (t.plural (t.toLower gvk.kind))
      else registry ++ gvk.group ++ slash :: (t.plural (t.toLower gvk.kind) ++ [slash]) := by
  have hf : (namedKinds.find? fun n => gvk.group = n.group && gvk.kind = n.kind) = none := by
    rw [List.find?_eq_none]
    intro n hn hand
    simp only [Bool.and_eq_true, decide_eq_true_eq] at hand
    exact h ⟨n, hn, hand⟩
  unfold getResourceMappingByGVK underRegistry registry
  rw [hf, ascii_slash]
  simp only
  split <;> simp

/-- In the core group, and for every named kind, the registry prefix has one part. -/
theorem mapping_one {t : Words} {gvk : GroupVersionKind} (h : NamedGVK gvk ∨ gvk.group = [])
    (hkind : slash ∉ gvk.kind) :
    ∃ w, slash ∉ w ∧ (getResourceMappingByGVK t gvk).registryPrefix = underRegistry w := by
  by_cases hn : NamedGVK gvk
  · obtain ⟨w, hw, hp⟩ := mapping_named (t := t) hn
    exact ⟨w, hw.2, hp⟩
  · have hg : gvk.group = [] := h.resolve_left hn
    refine ⟨_, t.plural_slash _ (t.toLower_slash hkind), ?_⟩
    rw [mapping_other hn, if_pos hg]

/-! ## The inferred kind -/

theorem knownKinds_named : ∀ p ∈ knownKinds, (∃ n ∈ namedKinds, p.2.group = n.group ∧ p.2.kind = n.kind) ∧
    p.2.group ≠ p.1 ∧ slash ∉ p.2.kind := by
  unfold knownKinds namedKinds namedKind
  repeat rw [ascii_ofList]
  decide +kernel

theorem trimSuffix_slash {l s : Bytes} (h : slash ∉ l) : slash ∉ trimSuffix l s := by
  unfold trimSuffix
  split
  · exact fun hm => h (List.mem_of_mem_take hm)
  · exact h

/-- What is inferred is a named kind or one of the core group, and has no slash. -/
theorem inferGVK_one {t : Words} {w : Bytes} (hw : slash ∉ w) :
    (NamedGVK (inferGVK t w) ∨ (inferGVK t w).group = []) ∧ slash ∉ (inferGVK t w).kind := by
  unfold inferGVK
  cases hf : knownKinds.find? fun p => p.1 = w with
  | none => exact ⟨.inr rfl, t.title_no_slash (trimSuffix_slash hw)⟩
  | some p =>
    obtain ⟨hnamed, -, hkind⟩ := knownKinds_named p (List.mem_of_find?_eq_some hf)
    exact ⟨.inl hnamed, hkind⟩

/-- **A group in the place of the plural is not recognised**: another group is inferred. -/
theorem grouped_apart {t : Words} {group : Bytes} (h : group ≠ []) : (inferGVK t group).group ≠ group := by
  unfold inferGVK
  cases hf : knownKinds.find? fun p => p.1 = group with
  | none => exact fun hg => h hg.symm
  | some p =>
    obtain ⟨-, hne, -⟩ := knownKinds_named p (List.mem_of_find?_eq_some hf)
    have hp : p.1 = group := by simpa using List.find?_some hf
    exact hp ▸ hne

/-! ## Objects and their keys -/

/-- An object with a kind, a name and, if its kind is namespaced, a namespace. Each of them is one
part of a path, as the API server demands of them. -/
structure KubeObject (t : Words) where
  gvk : GroupVersionKind
  name : Bytes
  ns : Bytes
  group_slash : slash ∉ gvk.group
  kind_segment : Segment gvk.kind
  name_segment : Segment name
  ns_segment : if (getResourceMappingByGVK t gvk).namespaced then Segment ns else ns = []

namespace KubeObject

variable {t : Words} (o : KubeObject t)

def mapping : ResourceMapping := getResourceMappingByGVK t o.gvk

def unstructured : Unstructured := ⟨o.gvk, o.name, o.ns⟩

/-- The namespace and the name in the key. -/
def path : Bytes := if o.mapping.namespaced then o.ns ++ slash :: o.name else o.name

/-- The key that the object is stored under. -/
def key : Bytes := o.mapping.registryPrefix ++ o.path

/-- The first part of the key, which is taken for the plural. -/
def firstPart : Bytes := ((trimPrefix o.key registry).splitOn slash).headD []

/-- The kind inferred from the key has the group, the registry prefix and the scope of the object. -/
structure MapsBack : Prop where
  group : (inferGVK t o.firstPart).group = o.gvk.group
  registryPrefix : (getResourceMappingByGVK t (inferGVK t o.firstPart)).registryPrefix = o.mapping.registryPrefix
  namespaced : (getResourceMappingByGVK t (inferGVK t o.firstPart)).namespaced = o.mapping.namespaced

/-- The key has one part before its path, or the group and the plural. -/
theorem key_cases :
    (∃ w, Segment w ∧ o.mapping.registryPrefix = underRegistry w) ∨
      (o.gvk.group ≠ [] ∧ ∃ l, o.mapping.registryPrefix = registry ++ o.gvk.group ++ slash :: l) := by
  unfold mapping
  by_cases hn : NamedGVK o.gvk
  · exact .inl (mapping_named hn)
  · rw [mapping_other hn]
    by_cases hg : o.gvk.group = []
    · rw [if_pos hg]
      exact .inl ⟨_, t.plural_segment o.kind_segment, rfl⟩
    · rw [if_neg hg]
      exact .inr ⟨hg, _, rfl⟩

theorem ns_of_namespaced (h : o.mapping.namespaced = true) : Segment o.ns := by
  have hns := o.ns_segment
  unfold mapping at h
  rwa [if_pos h] at hns

theorem ns_of_clustered (h : o.mapping.namespaced = false) : o.ns = [] := by
  have hns := o.ns_segment
  unfold mapping at h
  rwa [if_neg (by simp [h])] at hns

theorem registry_prefix_key : registry <+: o.key := by
  unfold key
  rcases o.key_cases with ⟨w, -, hp⟩ | ⟨-, l, hp⟩
  · rw [hp]
    unfold underRegistry
    simp only [List.append_assoc]
    exact List.prefix_append _ _
  · rw [hp]
    simp only [List.append_assoc]
    exact List.prefix_append _ _

/-- The target that the object itself gives. -/
def target : Target :=
  ⟨prefixPlural o.mapping.registryPrefix, o.gvk.group, o.mapping.namespaced, o.ns, o.name⟩

/-- **The target of a decoded object** is made of what the object says. -/
theorem target_object : dryRunTarget t (some o.unstructured) o.key = .ok o.target := by
  have hreg : registry.isPrefixOf o.key = true := List.isPrefixOf_iff_prefix.2 o.registry_prefix_key
  have hname := o.name_segment.1
  unfold dryRunTarget determineResourceAndGVK resolveNameNamespace
  -- the plural is only used in the texts of errors, and there is none
  cases hns : o.mapping.namespaced with
  | true =>
    have hne := (o.ns_of_namespaced hns).1
    unfold mapping at hns
    by_cases hpl : prefixPlural (getResourceMappingByGVK t o.gvk).registryPrefix = [] <;>
      simp [unstructured, hns, hname, hne, hreg, hpl, target, mapping, bind, Except.bind, pure, Except.pure]
  | false =>
    have hnil := o.ns_of_clustered hns
    unfold mapping at hns
    by_cases hpl : prefixPlural (getResourceMappingByGVK t o.gvk).registryPrefix = [] <;>
      simp [unstructured, hns, hname, hnil, hreg, hpl, target, mapping, bind, Except.bind, pure, Except.pure]

end KubeObject

/-! ## From the key alone -/

theorem registry_underRegistry (w : Bytes) : registry.isPrefixOf (underRegistry w) = true := by
  rw [List.isPrefixOf_iff_prefix]
  unfold underRegistry
  rw [List.append_assoc]
  exact List.prefix_append _ _

theorem prefixPlural_underRegistry {w : Bytes} (hw : slash ∉ w) : prefixPlural (underRegistry w) = w := by
  have hreg := registry_underRegistry w
  have hraw : trimSuffix (trimPrefix (underRegistry w) registry) (ascii "/") = w := by
    unfold underRegistry
    rw [List.append_assoc, trimPrefix_append, ascii_slash, trimSuffix_append]
  unfold prefixPlural
  rw [if_pos hreg]
  simp only [hraw]
  rw [List.splitOn_eq_singleton hw]
  simp

/-- The parts of a key after a prefix. -/
def partsAfter (key pre : Bytes) : List Bytes :=
  if trimPrefix key pre = [] then [] else (trimPrefix key pre).splitOn slash

/-- `resolveNameNamespace` without an object, for a registry prefix of one part. -/
theorem resolve_none {res : Resource} {w key : Bytes} (hplural : res.plural ≠ [])
    (hp : res.registryPrefix = underRegistry w) :
    resolveNameNamespace none res key =
      if res.namespaced then do
        let ns ← keyPart (partsAfter key (underRegistry w)) 2 0
          (invalidKey res.plural (ascii "namespace is missing for namespaced") key)
        let name ← keyPart (partsAfter key (underRegistry w)) 2 1
          (invalidKey res.plural (ascii "name is missing for namespaced") key)
        return (name, ns)
      else do
        let name ← keyPart (partsAfter key (underRegistry w)) 1 0
          (invalidKey res.plural (ascii "name is missing for clustered") key)
        return (name, []) := by
  have hreg := registry_underRegistry w
  have hne : underRegistry w ≠ [] := by
    unfold underRegistry
    simp
  have htrim : trimSuffix (underRegistry w) (ascii "/") ++ ascii "/" = underRegistry w := by
    unfold underRegistry
    rw [ascii_slash, trimSuffix_append]
  unfold resolveNameNamespace partsAfter
  simp only [Option.map_none, Option.getD_none, if_neg hplural, hp, hreg, and_true, ne_eq, hne,
    not_false_eq_true, if_true, htrim]
  rfl

theorem keyPart_ok {parts : List Bytes} {least i : ℕ} {err part : Bytes} (hlen : least ≤ parts.length)
    (hi : parts[i]? = some part) (hne : part ≠ []) : keyPart parts least i err = .ok part := by
  have hlt : ¬ parts.length < least := by omega
  unfold keyPart
  simp [hi, hlt, hne]

/-- A key that is not under the prefix begins with a slash, and its first part is empty. -/
theorem partsAfter_apart {key pre : Bytes} (hkey : registry <+: key) (h : ¬ pre <+: key) :
    (partsAfter key pre)[0]?.getD [] = [] := by
  obtain ⟨l, rfl⟩ := hkey
  have hcons : registry ++ l = [] ++ slash :: (registry.tail ++ l) := by
    have hr : registry = slash :: registry.tail := by decide
    rw [List.nil_append, ← List.cons_append, ← hr]
  unfold partsAfter
  rw [trimPrefix_of_not h, if_neg (by rw [hcons]; simp), hcons, splitOn_segment List.not_mem_nil]
  rfl

namespace KubeObject

variable {t : Words} {o : KubeObject t} {res : Resource} {w w' : Bytes}

/-- After its registry prefix the key has the namespace and the name, or the name. -/
theorem partsAfter_key :
    partsAfter o.key o.mapping.registryPrefix = if o.mapping.namespaced then [o.ns, o.name] else [o.name] := by
  have hpath : o.path ≠ [] := by
    unfold path
    split
    · simp
    · exact o.name_segment.1
  have hname := List.splitOn_eq_singleton o.name_segment.2
  unfold partsAfter key
  rw [trimPrefix_append, if_neg hpath]
  unfold path
  split
  · rename_i hns
    rw [splitOn_segment (o.ns_of_namespaced hns).2, hname]
  · exact hname

/-- With the registry prefix and the scope of the object, the key gives its name and namespace. -/
theorem resolve_same (hplural : res.plural ≠ []) (hp : res.registryPrefix = underRegistry w)
    (ho : o.mapping.registryPrefix = underRegistry w) (hns : res.namespaced = o.mapping.namespaced) :
    resolveNameNamespace none res o.key = .ok (o.name, o.ns) := by
  have hparts := o.partsAfter_key
  rw [ho] at hparts
  rw [resolve_none hplural hp, hparts, hns]
  have hname := o.name_segment.1
  cases h : o.mapping.namespaced with
  | true =>
    have hne := (o.ns_of_namespaced h).1
    simp only [if_true]
    rw [keyPart_ok (by simp) rfl hne, keyPart_ok (by simp) rfl hname]
    rfl
  | false =>
    simp only [Bool.false_eq_true, if_false]
    rw [keyPart_ok (by simp) rfl hname, o.ns_of_clustered h]
    rfl

/-- With another registry prefix of one part, the key is refused. -/
theorem resolve_other (hplural : res.plural ≠ []) (hp : res.registryPrefix = underRegistry w') (hw : slash ∉ w)
    (hw' : slash ∉ w') (ho : o.mapping.registryPrefix = underRegistry w) (hne : w' ≠ w) :
    ∃ err, resolveNameNamespace none res o.key = .error err := by
  have hnot : ¬ underRegistry w' <+: o.key := by
    rintro ⟨l, hl⟩
    unfold key at hl
    rw [ho] at hl
    unfold underRegistry at hl
    simp only [List.append_assoc, List.singleton_append, List.append_cancel_left_eq] at hl
    exact hne (segment_unique hw' hw hl)
  have hempty := partsAfter_apart o.registry_prefix_key hnot
  rw [resolve_none hplural hp]
  unfold keyPart
  cases res.namespaced <;> simp [hempty, bind, Except.bind]

theorem firstPart_one (hw : slash ∉ w) (ho : o.mapping.registryPrefix = underRegistry w) :
    (trimPrefix o.key registry).splitOn slash = w :: o.path.splitOn slash := by
  unfold key
  rw [ho]
  unfold underRegistry
  rw [List.append_assoc, List.append_assoc, trimPrefix_append, List.singleton_append, splitOn_segment hw]

/-- What is inferred from the first part of a key. -/
def inferred (t : Words) (part : Bytes) : Resource :=
  let mapping := getResourceMappingByGVK t (inferGVK t part)
  ⟨part, mapping.registryPrefix, mapping.namespaced, inferGVK t part⟩

/-- The target without an object. -/
theorem target_key {part : Bytes} {rest : List Bytes} (hne : part ≠ [])
    (hsplit : (trimPrefix o.key registry).splitOn slash = part :: rest) :
    dryRunTarget t none o.key = (resolveNameNamespace none (inferred t part) o.key).map fun r =>
      ⟨part, (inferGVK t part).group, (inferred t part).namespaced, r.2, r.1⟩ := by
  have hreg : registry.isPrefixOf o.key = true := List.isPrefixOf_iff_prefix.2 o.registry_prefix_key
  have hdet : determineResourceAndGVK t none o.key = .ok (inferred t part) := by
    unfold determineResourceAndGVK
    simp only [hreg, if_true, hsplit, if_neg hne]
    rfl
  unfold dryRunTarget
  rw [hdet]
  change (resolveNameNamespace none (inferred t part) o.key >>= _) = _
  cases resolveNameNamespace none (inferred t part) o.key <;> rfl

/-- A target from the key has the group and the scope of the inferred kind. -/
theorem target_key_ok {part : Bytes} {rest : List Bytes} {target : Target} (hne : part ≠ [])
    (hsplit : (trimPrefix o.key registry).splitOn slash = part :: rest)
    (h : dryRunTarget t none o.key = .ok target) :
    (∃ r, resolveNameNamespace none (inferred t part) o.key = .ok r) ∧
      target.group = (inferGVK t part).group ∧ target.namespaced = (inferred t part).namespaced := by
  rw [target_key hne hsplit] at h
  cases hr : resolveNameNamespace none (inferred t part) o.key with
  | error err =>
    rw [hr] at h
    cases h
  | ok r =>
    rw [hr] at h
    cases h
    exact ⟨⟨r, rfl⟩, rfl, rfl⟩

variable (o) in
/-- **The target read from the key alone is that of the object** exactly if the kind inferred from
the first part of the key maps back to the group, the registry prefix and the scope of the object. -/
theorem target_agrees_iff :
    dryRunTarget t none o.key = dryRunTarget t (some o.unstructured) o.key ↔ o.MapsBack := by
  rw [target_object]
  rcases o.key_cases with ⟨w, hw, ho⟩ | ⟨hg, l, ho⟩
  · have hsplit := firstPart_one hw.2 ho
    have hfirst : o.firstPart = w := by
      unfold firstPart
      rw [hsplit]
      rfl
    obtain ⟨hone, hkind⟩ := inferGVK_one (t := t) hw.2
    obtain ⟨w', hw', hp⟩ := mapping_one (t := t) hone hkind
    constructor
    · intro h
      obtain ⟨⟨r, hr⟩, hgroup, hns⟩ := target_key_ok hw.1 hsplit h
      have hsame : w' = w := by
        by_contra hne
        have hplural : (inferred t w).plural ≠ [] := hw.1
        obtain ⟨err, herr⟩ := resolve_other hplural hp hw.2 hw' ho hne
        rw [hr] at herr
        cases herr
      refine ⟨?_, ?_, ?_⟩
      · rw [hfirst]
        exact hgroup.symm
      · rw [hfirst, hp, ho, hsame]
      · rw [hfirst]
        exact hns.symm
    · rintro ⟨hgroup, hpre, hns⟩
      rw [hfirst] at hgroup hpre hns
      rw [target_key hw.1 hsplit, resolve_same hw.1 (hpre.trans ho) ho hns]
      unfold target
      rw [ho, prefixPlural_underRegistry hw.2]
      exact congrArg Except.ok (by simp only [hgroup]; exact congrArg (Target.mk w o.gvk.group · o.ns o.name) hns)
  · -- the group stands first, and its inferred kind has another group
    have hsplit : (trimPrefix o.key registry).splitOn slash = o.gvk.group :: (l ++ o.path).splitOn slash := by
      unfold key
      rw [ho, List.append_assoc, List.append_assoc, trimPrefix_append, List.cons_append,
        splitOn_segment o.group_slash]
    have hfirst : o.firstPart = o.gvk.group := by
      unfold firstPart
      rw [hsplit]
      rfl
    constructor
    · intro h
      obtain ⟨-, hgroup, -⟩ := target_key_ok hg hsplit h
      exact absurd hgroup.symm (grouped_apart hg)
    · intro h
      have hgroup := h.group
      rw [hfirst] at hgroup
      exact absurd hgroup (grouped_apart hg)

end KubeObject

/-- The pod `x` of the namespace `default`. -/
def podObject : KubeObject plainWords where
  gvk := ⟨[], ascii "v1", ascii "Pod"⟩
  name := ascii "x"
  ns := ascii "default"
  group_slash := List.not_mem_nil
  kind_segment := ⟨by decide, by decide⟩
  name_segment := ⟨by decide, by decide⟩
  ns_segment := ⟨by decide, by decide⟩

/-- The key of a pod gives its target. -/
theorem target_agrees_pod :
    dryRunTarget plainWords none podObject.key =
      dryRunTarget plainWords (some podObject.unstructured) podObject.key :=
  podObject.target_agrees_iff.2 ⟨rfl, rfl, rfl⟩

/-- A namespaced custom resource of a group. -/
def shirt : Unstructured :=
  ⟨⟨ascii "stable.example.com", ascii "v1", ascii "Shirt"⟩, ascii "x", ascii "default"⟩

/-- The group is taken for the plural of a core resource, whose registry prefix the key does not
have: the delete of a custom resource is refused. -/
theorem target_grouped_lost :
    let key := ascii "/registry/stable.example.com/shirts/default/x"
    (getResourceMappingByGVK plainWords shirt.gvk).registryPrefix ++ ascii "default/x" = key ∧
      dryRunTarget plainWords (some shirt) key =
        .ok ⟨ascii "shirts", ascii "stable.example.com", true, ascii "default", ascii "x"⟩ ∧
      dryRunTarget plainWords none key =
        .error (invalidKey (ascii "stable.example.com") (ascii "namespace is missing for namespaced") key) := by
  refine ⟨?_, ?_, ?_⟩
  · decide +kernel
  · rfl
  · rfl

end Harikube
