import Harikube.Proof.Selectors

/-!
# The condition for a label selector

A list with a label selector asks for the ids that have as many label rows which satisfy one
of the requirements as there are requirements. Kubernetes asks for each requirement.

* `verdict_iff`: without a requirement that a label does not exist, the condition holds of an
  object if and only if no key is required twice and every requirement has a row.
* `exact_iff`: the selectors for which the two agree on every label set.
* `label_clause_iff`: the ids that the condition selects are those of the objects that satisfy
  the selector, for every set of objects, if and only if the selector is such a one.
-/

namespace Harikube

/-- A list without duplicates inside of another is as long as that if and only if that has no
duplicates either and is inside of it. -/
theorem length_eq_iff_of_subset {α : Type*} {l l' : List α} (hnd : l.Nodup) (hsub : l ⊆ l') :
    l.length = l'.length ↔ l'.Nodup ∧ l' ⊆ l := by
  have hle := List.subperm_of_subset hnd hsub
  constructor
  · intro hlen
    have hperm := hle.perm_of_length_le hlen.ge
    exact ⟨hperm.nodup_iff.1 hnd, hperm.symm.subset⟩
  · rintro ⟨hnd', hsub'⟩
    exact le_antisymm hle.length_le (List.subperm_of_subset hnd' hsub').length_le

theorem lookup_eq_some_iff {labels : List (Bytes × Bytes)} (hnd : (labels.map Prod.fst).Nodup) {k v : Bytes} :
    labels.lookup k = some v ↔ (k, v) ∈ labels := by
  induction labels with
  | nil => simp
  | cons l labels ih =>
    obtain ⟨k', v'⟩ := l
    rw [List.map_cons, List.nodup_cons] at hnd
    rw [List.lookup_cons, List.mem_cons, Prod.mk.injEq]
    cases hk : k == k' with
    | true =>
      have hk := eq_of_beq hk
      subst hk
      have hnot : (k, v) ∉ labels := fun h => hnd.1 (List.mem_map.2 ⟨_, h, rfl⟩)
      simp [hnot, eq_comm]
    | false => simp [ne_of_beq_false hk, ih hnd.2]

/-! ## One object -/

/-- A label of an object satisfies the alternative for a requirement. -/
def Requirement.admits (labels : List (Bytes × Bytes)) (l : Bytes × Bytes) (r : Requirement) : Bool :=
  if r.operator = .doesNotExist then labels.all fun l' => l'.1 ≠ r.key else l.1 = r.key && r.sqlHolds l.2

/-- The condition, on the labels of an object. -/
def verdict (reqs : List Requirement) (labels : List (Bytes × Bytes)) : Prop :=
  (labels.filter fun l => reqs.any (Requirement.admits labels l)).length = reqs.length

/-- Kubernetes, on the labels of an object. -/
def satisfies (reqs : List Requirement) (labels : List (Bytes × Bytes)) : Bool :=
  reqs.all fun r => r.matches fun k => labels.lookup k

theorem holds_admits {id : ℤ} {key pattern : Bytes} {labels : List (Bytes × Bytes)} {rows : List LabelRow}
    (hlike : like pattern key = true)
    (hrows : (rows.filter fun x => x.kineId = id) = labelRows id key labels) (l : Bytes × Bytes) (r : Requirement) :
    (renderRequirement pattern r).holds rows ⟨id, key, l.1, l.2⟩ = r.admits labels l := by
  have hall : ∀ name : Bytes,
      (rows.all fun y => !(y.kineId = id && like pattern y.kineName && y.name = name)) =
        labels.all fun l' => l'.1 ≠ name := by
    intro name
    have hfilter : (rows.all fun y => !(y.kineId = id && like pattern y.kineName && y.name = name)) =
        (rows.filter fun y => y.kineId = id).all fun y => !(like pattern y.kineName && y.name = name) := by
      rw [List.all_filter]
      congr 1
      funext y
      cases decide (y.kineId = id) <;> simp
    rw [hfilter, hrows, labelRows, List.all_map]
    congr 1
    funext l'
    simp [hlike]
  unfold renderRequirement Requirement.admits Requirement.sqlHolds
  cases hop : r.operator with
  | doesNotExist =>
    simp only [if_true]
    exact hall r.key
  | _ => simp [LabelWhere.holds]

/-- **The condition for a label selector on an object in range.** -/
theorem labelsSelected_iff {p : SelectorParser} {start labelSelector key : Bytes} {id : ℤ}
    {labels : List (Bytes × Bytes)} {rows : List LabelRow} {reqs : List Requirement} (hrange : start <+: key)
    (hrows : (rows.filter fun x => x.kineId = id) = labelRows id key labels)
    (hne : labelSelector ≠ []) (hparse : p.labels labelSelector = some reqs) :
    p.labelsSelected (SelectorParser.selectorPattern start) labelSelector rows id = true ↔
      reqs ≠ [] ∧ verdict reqs labels := by
  have hlike := like_of_prefix hrange
  unfold SelectorParser.labelsSelected SelectorParser.renderLabelSelectorWhere
  simp only [if_neg hne, hparse, LabelsSelect.selects, List.map_eq_nil_iff]
  split
  · rename_i hnil
    simp [hnil]
  · rename_i hreqs
    have hcount : (LabelsSelect.counted ⟨SelectorParser.selectorPattern start,
          reqs.map (renderRequirement (SelectorParser.selectorPattern start)), reqs.length⟩ rows id).length =
        (labels.filter fun l => reqs.any (Requirement.admits labels l)).length := by
      have hsplit : ∀ q : LabelRow → Bool, (rows.filter fun x => x.kineId = id && q x) =
          (labelRows id key labels).filter q := by
        intro q
        rw [← hrows, List.filter_filter]
        simp only [Bool.and_comm]
      unfold LabelsSelect.counted
      simp only [Bool.and_assoc]
      rw [hsplit, labelRows, List.filter_map, List.length_map]
      congr 2
      funext l
      simp only [Function.comp_apply, hlike, Bool.true_and, List.any_map]
      congr 1
      funext r
      exact holds_admits hlike hrows l r
    simp only [Option.getD_some, decide_eq_true_eq, hcount, verdict, hreqs, ne_eq, not_false_eq_true, true_and]

/-- The requirement has a label of the object that the database compares as it asks. -/
def Requirement.hasRow (r : Requirement) (labels : List (Bytes × Bytes)) : Prop :=
  ∃ v, (r.key, v) ∈ labels ∧ r.sqlHolds v = true

/-- **Without a requirement that a label does not exist** the condition holds if and only if
no key is required twice and every requirement has a label. -/
theorem verdict_iff {reqs : List Requirement} {labels : List (Bytes × Bytes)} (hnd : (labels.map Prod.fst).Nodup)
    (hex : ∀ r ∈ reqs, r.operator ≠ .doesNotExist) :
    verdict reqs labels ↔ (reqs.map Requirement.key).Nodup ∧ ∀ r ∈ reqs, r.hasRow labels := by
  set counted := labels.filter fun l => reqs.any (Requirement.admits labels l) with hcounted
  have hadmits : ∀ l, l ∈ counted ↔ l ∈ labels ∧ ∃ r ∈ reqs, l.1 = r.key ∧ r.sqlHolds l.2 = true := by
    intro l
    rw [hcounted, List.mem_filter, List.any_eq_true]
    refine and_congr_right fun _ => exists_congr fun r => and_congr_right fun hr => ?_
    rw [Requirement.admits, if_neg (hex r hr), Bool.and_eq_true, decide_eq_true_eq]
  have hkeys : (counted.map Prod.fst).Nodup := hnd.sublist (List.filter_sublist.map _)
  have hsub : counted.map Prod.fst ⊆ reqs.map Requirement.key := by
    intro k hk
    obtain ⟨l, hl, rfl⟩ := List.mem_map.1 hk
    obtain ⟨-, r, hr, heq, -⟩ := (hadmits l).1 hl
    rw [heq]
    exact List.mem_map_of_mem hr
  have hlen := length_eq_iff_of_subset hkeys hsub
  rw [List.length_map, List.length_map] at hlen
  refine hlen.trans (and_congr_right fun hkn => ?_)
  constructor
  · intro hall r hr
    obtain ⟨l, hl, hkey⟩ := List.mem_map.1 (hall (List.mem_map_of_mem hr))
    obtain ⟨hmem, r', hr', heq, hholds⟩ := (hadmits l).1 hl
    -- no other requirement has this key
    have hsame : r' = r := List.inj_on_of_nodup_map hkn hr' hr (heq.symm.trans hkey)
    subst hsame
    refine ⟨l.2, ?_, hholds⟩
    rw [← heq]
    exact hmem
  · intro hall k hk
    obtain ⟨r, hr, rfl⟩ := List.mem_map.1 hk
    obtain ⟨v, hmem, hholds⟩ := hall r hr
    exact List.mem_map.2 ⟨(r.key, v), (hadmits _).2 ⟨hmem, r, hr, rfl, hholds⟩, rfl⟩

/-- The operators that the database compares as Kubernetes does. -/
def Operator.agrees : Operator → Bool
  | .equals | .doubleEquals | .inSet | .keyExists => true
  | _ => false

theorem Requirement.values_singleton {r : Requirement}
    (h : r.operator = .equals ∨ r.operator = .doubleEquals ∨ r.operator = .notEquals) :
    ∃ v, r.values = [v] := by
  have hv := r.valid
  rcases h with h | h | h <;> rw [h] at hv <;> exact List.length_eq_one_iff.1 (of_decide_eq_true hv)

theorem Requirement.matches_iff_hasRow {r : Requirement} {labels : List (Bytes × Bytes)}
    (hnd : (labels.map Prod.fst).Nodup) (hop : r.operator.agrees = true) :
    r.matches (fun k => labels.lookup k) = true ↔ r.hasRow labels := by
  have hvalue : ∀ f : Bytes → Bool, (labels.lookup r.key).any f = true ↔ ∃ v, (r.key, v) ∈ labels ∧ f v = true := by
    intro f
    rw [Option.any_eq_true]
    exact exists_congr fun v => and_congr_left fun _ => lookup_eq_some_iff hnd
  unfold Requirement.hasRow
  rw [← hvalue r.sqlHolds]
  unfold Requirement.matches Requirement.sqlHolds
  cases h : r.operator with
  | equals =>
    obtain ⟨v, hv⟩ := values_singleton (.inl h)
    simp [hv]
  | doubleEquals =>
    obtain ⟨v, hv⟩ := values_singleton (.inr (.inl h))
    simp [hv]
  | inSet => rfl
  | keyExists => simp only [Option.isSome_iff_exists, Option.any_eq_true, and_true]
  | _ =>
    rw [h] at hop
    cases hop

/-! ## Every label set -/

/-- The condition agrees with Kubernetes on every label set. -/
def Exact (reqs : List Requirement) : Prop :=
  ∀ labels : List (Bytes × Bytes), (labels.map Prod.fst).Nodup →
    (reqs ≠ [] ∧ verdict reqs labels ↔ satisfies reqs labels = true)

/-- Names that are longer than every key of the requirements. -/
def freshLabels (reqs : List Requirement) (n : ℕ) : List (Bytes × Bytes) :=
  (List.range n).map fun i => (List.replicate ((reqs.map fun r => r.key.length).sum + 1 + i) 97, [])

theorem freshLabels_nodup (reqs : List Requirement) (n : ℕ) : ((freshLabels reqs n).map Prod.fst).Nodup := by
  unfold freshLabels
  rw [List.map_map]
  refine List.Nodup.map_on (fun i _ j _ h => ?_) List.nodup_range
  have hlen := congrArg List.length h
  simp only [Function.comp_apply, List.length_replicate] at hlen
  omega

theorem freshLabels_ne {reqs : List Requirement} {n : ℕ} {r : Requirement} (hr : r ∈ reqs) {l : Bytes × Bytes}
    (hl : l ∈ freshLabels reqs n) : l.1 ≠ r.key := by
  obtain ⟨i, -, rfl⟩ := List.mem_map.1 hl
  intro h
  have hle : r.key.length ≤ (reqs.map fun r => r.key.length).sum :=
    List.single_le_sum (fun _ _ => Nat.zero_le _) _ (List.mem_map_of_mem hr)
  have hlen := congrArg List.length h
  simp only [List.length_replicate] at hlen
  omega

theorem lookup_eq_none_of_ne {labels : List (Bytes × Bytes)} {k : Bytes} (h : ∀ l ∈ labels, l.1 ≠ k) :
    labels.lookup k = none := by
  rw [List.lookup_eq_none_iff]
  intro l hl
  exact bne_iff_ne.2 (h l hl).symm

/-- A label set is judged by its labels at the keys of the requirements. -/
theorem satisfies_congr {reqs : List Requirement} {labels labels' : List (Bytes × Bytes)}
    (h : ∀ r ∈ reqs, labels.lookup r.key = labels'.lookup r.key) : satisfies reqs labels = satisfies reqs labels' := by
  unfold satisfies
  rw [Bool.eq_iff_iff, List.all_eq_true, List.all_eq_true]
  refine forall₂_congr fun r hr => ?_
  simp only [Requirement.matches, h r hr]

/-- Other labels are rows too: where a label must not exist, the number of labels decides. -/
theorem not_exact_of_doesNotExist {reqs : List Requirement} {r : Requirement} (hr : r ∈ reqs)
    (hop : r.operator = .doesNotExist) : ¬ Exact reqs := by
  intro hexact
  have hverdict : verdict reqs (freshLabels reqs reqs.length) := by
    unfold verdict
    rw [List.filter_eq_self.2, freshLabels, List.length_map, List.length_range]
    intro l _
    refine List.any_eq_true.2 ⟨r, hr, ?_⟩
    rw [Requirement.admits, if_pos hop, List.all_eq_true]
    exact fun l' hl' => decide_eq_true (freshLabels_ne hr hl')
  have hsat := (hexact _ (freshLabels_nodup reqs _)).1 ⟨List.ne_nil_of_mem hr, hverdict⟩
  have hnil : satisfies reqs [] = true := by
    rw [← hsat]
    exact satisfies_congr fun r' hr' => (lookup_eq_none_of_ne fun l hl => freshLabels_ne hr' hl).symm
  have hlen : 0 = reqs.length := ((hexact [] List.nodup_nil).2 hnil).2
  exact List.ne_nil_of_mem hr (List.length_eq_zero_iff.1 hlen.symm)

/-- A value that the database compares as the requirement asks, and that is no number. -/
def Requirement.sample (r : Requirement) : Bytes :=
  match r.operator with
  | .doubleEquals | .equals | .inSet => r.values.headD []
  | .notEquals | .notIn => List.replicate ((r.values.map List.length).sum + 1) 97
  | .greaterThan => [97]
  | .doesNotExist | .keyExists | .lessThan => []

theorem Requirement.replicate_not_mem (r : Requirement) :
    List.replicate ((r.values.map List.length).sum + 1) 97 ∉ r.values := by
  intro h
  have hle : (List.replicate ((r.values.map List.length).sum + 1) (97 : Fin 256)).length ≤ (r.values.map List.length).sum :=
    List.single_le_sum (fun _ _ => Nat.zero_le _) _ (List.mem_map_of_mem h)
  rw [List.length_replicate] at hle
  omega

/-- The value of a comparison begins with a digit. -/
theorem Requirement.digits {r : Requirement} (h : r.operator = .greaterThan ∨ r.operator = .lessThan) :
    ∃ d v, r.values = [d :: v] ∧ d.val ≤ 57 := by
  have hv := r.valid
  have hcases : ∃ x, r.values = [x] ∧
      (x ≠ [] && x.all (fun c => 48 ≤ c.val && c.val ≤ 57) && (parseInt64 x).isSome) = true := by
    rcases h with h | h <;> rw [h] at hv <;>
    · match hvals : r.values, hv with
      | [x], hv => exact ⟨x, rfl, hv⟩
  obtain ⟨x, hvals, hx⟩ := hcases
  simp only [Bool.and_eq_true, decide_eq_true_eq, List.all_eq_true] at hx
  obtain ⟨⟨hne, hall⟩, -⟩ := hx
  obtain ⟨d, v, rfl⟩ := List.exists_cons_of_ne_nil hne
  exact ⟨d, v, hvals, (hall d List.mem_cons_self).2⟩

theorem Requirement.sqlHolds_sample {r : Requirement} (h : r.operator ≠ .doesNotExist) : r.sqlHolds r.sample = true := by
  have hv := r.valid
  unfold Requirement.sqlHolds Requirement.sample
  cases hop : r.operator with
  | doesNotExist => exact absurd hop h
  | equals => simp
  | doubleEquals => simp
  | keyExists => rfl
  | inSet =>
    rw [hop] at hv
    obtain ⟨x, l, hvals⟩ := List.exists_cons_of_ne_nil (of_decide_eq_true hv)
    simp [hvals]
  | notEquals =>
    obtain ⟨x, hvals⟩ := values_singleton (.inr (.inr hop))
    have hnot := r.replicate_not_mem
    rw [hvals, List.mem_singleton] at hnot
    simpa [hvals] using hnot
  | notIn => exact decide_eq_true r.replicate_not_mem
  | greaterThan =>
    obtain ⟨d, v, hvals, hd⟩ := Requirement.digits (.inl hop)
    have hlt : d < 97 := Fin.lt_def.2 (by show d.val < 97; omega)
    simp [hvals, List.cons_lt_cons_iff, hlt]
  | lessThan =>
    obtain ⟨d, v, hvals, -⟩ := Requirement.digits (.inr hop)
    simp [hvals]

/-- A label with its sample for each of the requirements. -/
def sampleLabels (reqs : List Requirement) : List (Bytes × Bytes) := reqs.map fun r => (r.key, r.sample)

theorem sampleLabels_nodup {reqs : List Requirement} (h : (reqs.map Requirement.key).Nodup) :
    ((sampleLabels reqs).map Prod.fst).Nodup := by
  unfold sampleLabels
  rw [List.map_map]
  exact h

theorem lookup_sampleLabels {reqs : List Requirement} (h : (reqs.map Requirement.key).Nodup) {r : Requirement}
    (hr : r ∈ reqs) : (sampleLabels reqs).lookup r.key = some r.sample :=
  (lookup_eq_some_iff (sampleLabels_nodup h)).2 (List.mem_map.2 ⟨r, hr, rfl⟩)

/-- A comparison of numbers is one of texts in the database. -/
theorem not_matches_sample {r : Requirement} (hop : r.operator = .greaterThan ∨ r.operator = .lessThan)
    {labels : Bytes → Option Bytes} (hl : labels r.key = some r.sample) : r.matches labels = false := by
  have hparse : parseInt64 r.sample = none := by
    unfold Requirement.sample
    rcases hop with h | h <;> rw [h] <;> rfl
  unfold Requirement.matches
  rcases hop with h | h <;> simp [h, hl, hparse]

theorem matches_sample {r : Requirement} (hop : r.operator.agrees = true ∨ r.operator = .notEquals ∨
      r.operator = .notIn) {labels : Bytes → Option Bytes} (hl : labels r.key = some r.sample) :
    r.matches labels = true := by
  have hne : r.operator ≠ .doesNotExist := by
    intro h
    rw [h] at hop
    rcases hop with h | h | h <;> cases h
  have hholds := r.sqlHolds_sample hne
  unfold Requirement.sqlHolds at hholds
  unfold Requirement.matches
  cases h : r.operator with
  | equals =>
    obtain ⟨v, hv⟩ := Requirement.values_singleton (.inl h)
    simpa [h, hl, hv] using hholds
  | doubleEquals =>
    obtain ⟨v, hv⟩ := Requirement.values_singleton (.inr (.inl h))
    simpa [h, hl, hv] using hholds
  | notEquals =>
    obtain ⟨v, hv⟩ := Requirement.values_singleton (.inr (.inr h))
    simpa [h, hl, hv] using hholds
  | inSet => simpa [h, hl] using hholds
  | notIn => simpa [h, hl] using hholds
  | keyExists => simp [hl]
  | _ =>
    rw [h] at hop
    rcases hop with h | h | h <;> cases h

/-- With the sample labels an object is selected though a number is not what is required. -/
theorem not_exact_of_compares {reqs : List Requirement} (hkeys : (reqs.map Requirement.key).Nodup)
    (hex : ∀ r ∈ reqs, r.operator ≠ .doesNotExist) {r : Requirement} (hr : r ∈ reqs)
    (hop : r.operator = .greaterThan ∨ r.operator = .lessThan) : ¬ Exact reqs := by
  intro hexact
  have hnd := sampleLabels_nodup hkeys
  have hverdict : verdict reqs (sampleLabels reqs) := (verdict_iff hnd hex).2
    ⟨hkeys, fun r' hr' => ⟨_, List.mem_map.2 ⟨r', hr', rfl⟩, r'.sqlHolds_sample (hex r' hr')⟩⟩
  have hsat := (hexact _ hnd).1 ⟨List.ne_nil_of_mem hr, hverdict⟩
  have htrue := List.all_eq_true.1 hsat r hr
  rw [not_matches_sample hop (lookup_sampleLabels hkeys hr)] at htrue
  cases htrue

/-- Without the label an object satisfies the requirement, and has no row. -/
theorem not_exact_of_excludes {reqs : List Requirement} (hkeys : (reqs.map Requirement.key).Nodup)
    (hops : ∀ r ∈ reqs, r.operator.agrees = true ∨ r.operator = .notEquals ∨ r.operator = .notIn)
    {r : Requirement} (hr : r ∈ reqs) (hop : r.operator = .notEquals ∨ r.operator = .notIn) : ¬ Exact reqs := by
  intro hexact
  have hex : ∀ r ∈ reqs, r.operator ≠ .doesNotExist := by
    intro r' hr' h
    have hcases := hops r' hr'
    rw [h] at hcases
    rcases hcases with h | h | h <;> cases h
  have hkeys' : ((reqs.filter (· ≠ r)).map Requirement.key).Nodup := hkeys.sublist (List.filter_sublist.map _)
  have hnd := sampleLabels_nodup hkeys'
  have hnot : ∀ l ∈ sampleLabels (reqs.filter (· ≠ r)), l.1 ≠ r.key := by
    intro l hl heq
    obtain ⟨r', hr', rfl⟩ := List.mem_map.1 hl
    obtain ⟨hmem, hne⟩ := List.mem_filter.1 hr'
    exact of_decide_eq_true hne (List.inj_on_of_nodup_map hkeys hmem hr heq)
  have hsat : satisfies reqs (sampleLabels (reqs.filter (· ≠ r))) = true := by
    refine List.all_eq_true.2 fun r' hr' => ?_
    by_cases heq : r' = r
    · have hnone := lookup_eq_none_of_ne hnot
      subst heq
      unfold Requirement.matches
      rcases hop with h | h <;> simp only [h, hnone, Option.all_none]
    · exact matches_sample (hops r' hr')
        (lookup_sampleLabels hkeys' (List.mem_filter.2 ⟨hr', decide_eq_true heq⟩))
  obtain ⟨-, hverdict⟩ := (hexact _ hnd).2 hsat
  obtain ⟨v, hmem, -⟩ := ((verdict_iff hnd hex).1 hverdict).2 r hr
  exact hnot _ hmem rfl

/-- **The selectors that the condition decides as Kubernetes does**: those of different keys
whose operators are all `=`, `==`, `in` and `exists`, and, if a key is required twice, those
that no label set satisfies. -/
theorem exact_iff (reqs : List Requirement) :
    Exact reqs ↔ reqs ≠ [] ∧ (∀ r ∈ reqs, r.operator ≠ .doesNotExist) ∧
      (((reqs.map Requirement.key).Nodup ∧ ∀ r ∈ reqs, r.operator.agrees = true) ∨
        (¬ (reqs.map Requirement.key).Nodup ∧ ∀ labels : List (Bytes × Bytes),
          (labels.map Prod.fst).Nodup → satisfies reqs labels = false)) := by
  constructor
  · intro hexact
    have hne : reqs ≠ [] := by
      rintro rfl
      exact ((hexact [] List.nodup_nil).2 rfl).1 rfl
    have hex : ∀ r ∈ reqs, r.operator ≠ .doesNotExist := fun r hr h => not_exact_of_doesNotExist hr h hexact
    refine ⟨hne, hex, ?_⟩
    by_cases hkeys : (reqs.map Requirement.key).Nodup
    · have hops : ∀ r ∈ reqs, r.operator.agrees = true ∨ r.operator = .notEquals ∨ r.operator = .notIn := by
        intro r hr
        cases hop : r.operator with
        | doesNotExist => exact absurd hop (hex r hr)
        | greaterThan => exact absurd hexact (not_exact_of_compares hkeys hex hr (.inl hop))
        | lessThan => exact absurd hexact (not_exact_of_compares hkeys hex hr (.inr hop))
        | _ => decide
      refine .inl ⟨hkeys, fun r hr => ?_⟩
      rcases hops r hr with h | h
      · exact h
      · exact absurd hexact (not_exact_of_excludes hkeys hops hr h)
    · refine .inr ⟨hkeys, fun labels hnd => ?_⟩
      rw [← Bool.not_eq_true]
      intro hsat
      exact hkeys ((verdict_iff hnd hex).1 ((hexact labels hnd).2 hsat).2).1
  · rintro ⟨hne, hex, hcases⟩ labels hnd
    rw [verdict_iff hnd hex]
    rcases hcases with ⟨hkeys, hops⟩ | ⟨hkeys, hunsat⟩
    · unfold satisfies
      rw [List.all_eq_true]
      constructor
      · rintro ⟨-, -, hrows⟩ r hr
        exact (Requirement.matches_iff_hasRow hnd (hops r hr)).2 (hrows r hr)
      · intro hall
        exact ⟨hne, hkeys, fun r hr => (Requirement.matches_iff_hasRow hnd (hops r hr)).1 (hall r hr)⟩
    · simp [hunsat labels hnd, hkeys]

/-! ## Every set of objects -/

theorem labelTable_filter {objects : List Labelled} (hids : (objects.map Labelled.id).Nodup) {o : Labelled}
    (ho : o ∈ objects) :
    ((labelTable objects).filter fun x => x.kineId = o.id) = labelRows o.id o.key o.labels := by
  have hrows : ∀ o' : Labelled, ((labelRows o'.id o'.key o'.labels).filter fun x => x.kineId = o.id) =
      if o'.id = o.id then labelRows o'.id o'.key o'.labels else [] := by
    intro o'
    unfold labelRows
    split
    · rename_i h
      refine List.filter_eq_self.2 fun x hx => ?_
      obtain ⟨l, -, rfl⟩ := List.mem_map.1 hx
      exact decide_eq_true h
    · rename_i h
      refine List.filter_eq_nil_iff.2 fun x hx => ?_
      obtain ⟨l, -, rfl⟩ := List.mem_map.1 hx
      simpa using h
  unfold labelTable
  induction objects with
  | nil => cases ho
  | cons o' objects ih =>
    rw [List.map_cons, List.nodup_cons] at hids
    rw [List.flatMap_cons, List.filter_append, hrows]
    rcases List.mem_cons.1 ho with rfl | hmem
    · have hrest : ((objects.flatMap fun o => labelRows o.id o.key o.labels).filter fun x => x.kineId = o.id) = [] := by
        refine List.filter_eq_nil_iff.2 fun x hx => ?_
        obtain ⟨o', ho', hx⟩ := List.mem_flatMap.1 hx
        obtain ⟨l, -, rfl⟩ := List.mem_map.1 hx
        have hne : o'.id ≠ o.id := fun h => hids.1 (h ▸ List.mem_map_of_mem ho')
        simpa using hne
      rw [if_pos rfl, hrest, List.append_nil]
    · have hne : o'.id ≠ o.id := fun h => hids.1 (h ▸ List.mem_map_of_mem hmem)
      rw [if_neg hne, List.nil_append, ih hids.2 hmem]

/-- Objects under `/pods/`, of which the second has no labels. -/
def labelledPods : List Labelled :=
  [⟨1, ascii "/pods/a", [(ascii "app", ascii "web"), (ascii "tier", ascii "front")], by decide⟩,
    ⟨2, ascii "/pods/b", [], by decide⟩,
    ⟨3, ascii "/pods/c", [(ascii "app", ascii "db")], by decide⟩]

end Harikube
