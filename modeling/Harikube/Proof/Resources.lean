import Harikube.Proof.Inserts
import Harikube.Spec.Resources

/-!
# The metadata of an object

The type that a key selects has to be one of those that the type switches name.

* `switch_eq_iff`: a switch reads the metadata of an object unless the object is a cluster role or
  a binding of one.
* `decodeObject_metadata_iff`: **UID, labels, owners and finalizers are those of the metadata**
  exactly if the key is not one of these two, or the metadata has none of them.
* `codec_insert_metadata`: what `Generic.Insert` records is what `decodeObject` has returned.
-/

namespace Harikube

open Sorted

/-! ## The type of a key -/

/-- The key of a cluster role or of a binding of one. -/
def ClusterGrantKey (key : Bytes) : Prop :=
  ascii "/registry/clusterroles/" <+: key ∨ ascii "/registry/clusterrolebindings/" <+: key

/-- No prefix of the switch is a prefix of another, so the order of its cases does not matter. -/
theorem keyTypes_apart : ∀ p ∈ keyTypes, ∀ q ∈ keyTypes, p.1 <+: q.1 → p = q := by
  unfold keyTypes
  repeat rw [ascii_ofList]
  decide +kernel

theorem getObjectByKey_of_mem {p : Bytes × ObjectType} {key : Bytes} (hp : p ∈ keyTypes) (hkey : p.1 <+: key) :
    getObjectByKey key = p.2 := by
  have hfind : keyTypes.find? (fun q => q.1.isPrefixOf key) = some p := by
    cases h : keyTypes.find? (fun q => q.1.isPrefixOf key) with
    | none =>
      have hno := List.find?_eq_none.1 h p hp
      exact absurd (List.isPrefixOf_iff_prefix.2 hkey) hno
    | some q =>
      have hsome : q.1.isPrefixOf key = true := by simpa using List.find?_some h
      have hq : q.1 <+: key := List.isPrefixOf_iff_prefix.1 hsome
      have hmem := List.mem_of_find?_eq_some h
      -- of two prefixes of one key the shorter is a prefix of the longer
      rcases List.prefix_or_prefix_of_prefix hq hkey with hqp | hpq
      · rw [keyTypes_apart q hmem p hp hqp]
      · rw [keyTypes_apart p hp q hmem hpq]
  unfold getObjectByKey
  rw [hfind]

/-- The types that no type switch names. -/
def Unnamed (ty : ObjectType) : Prop := ty = .clusterRole ∨ ty = .clusterRoleBinding

theorem keyTypes_unnamed : ∀ p ∈ keyTypes, Unnamed p.2 →
    p.1 = ascii "/registry/clusterroles/" ∨ p.1 = ascii "/registry/clusterrolebindings/" := by
  intro p hp hty
  unfold keyTypes at hp
  simp only [List.mem_cons, List.not_mem_nil, or_false] at hp
  rcases hp with rfl | rfl | rfl | rfl | rfl | rfl | rfl | rfl | rfl | rfl | rfl <;>
    simp [Unnamed] at hty ⊢

theorem unnamed_getObjectByKey_iff {key : Bytes} : Unnamed (getObjectByKey key) ↔ ClusterGrantKey key := by
  constructor
  · intro h
    unfold getObjectByKey at h
    cases hfind : keyTypes.find? (fun q => q.1.isPrefixOf key) with
    | none => simp [hfind, Unnamed] at h
    | some p =>
      simp only [hfind] at h
      have hsome : p.1.isPrefixOf key = true := by simpa using List.find?_some hfind
      have hpre : p.1 <+: key := List.isPrefixOf_iff_prefix.1 hsome
      rcases keyTypes_unnamed p (List.mem_of_find?_eq_some hfind) h with hp | hp
      · exact .inl (hp ▸ hpre)
      · exact .inr (hp ▸ hpre)
  · rintro (h | h)
    · have hty := getObjectByKey_of_mem (p := (ascii "/registry/clusterroles/", .clusterRole))
        (by simp [keyTypes]) h
      exact .inl hty
    · have hty := getObjectByKey_of_mem (p := (ascii "/registry/clusterrolebindings/", .clusterRoleBinding))
        (by simp [keyTypes]) h
      exact .inr hty

/-! ## The type switches -/

/-- **A switch reads the metadata**, but for the types that it does not name. -/
theorem switch_eq_iff {α : Type} (read : ObjectMeta → α) (other : α) (obj : RuntimeObject) :
    obj.switch read other = read obj.om ↔ (Unnamed obj.type → read obj.om = other) := by
  cases obj <;> simp [RuntimeObject.switch, RuntimeObject.om, RuntimeObject.type, Unnamed, eq_comm]

/-- What `decodeObject` returns is what the metadata has. -/
structure Reflects (m : Meta) (om : ObjectMeta) : Prop where
  uid : m.uid = om.uid
  labels : m.labels = om.labels
  owners : m.owners = om.ownerReferences
  finalizers : m.finalizers = om.finalizers

/-- The metadata has nothing that the switches read. -/
structure ObjectMeta.Bare (om : ObjectMeta) : Prop where
  uid : om.uid = []
  labels : om.labels = []
  owners : om.ownerReferences = []
  finalizers : om.finalizers = []

namespace ObjectDecoder

variable {d : ObjectDecoder} {t : Words} {j : JsonPath} {defs : CustomResourceDefs} {key value : Bytes} {m : Meta}

/-- What a `decodeObject` without an error has decoded. -/
theorem decodeObject_ok (h : d.decodeObject t j defs key value = .ok m) :
    ∃ obj, d.decode (getObjectByKey key) value = some obj ∧ m.uid = getUIDByObject obj ∧
      m.labels = getLabelsSetByObject obj ∧ m.owners = getOwnersByObject obj ∧
      m.finalizers = getFinalizersByObject obj := by
  unfold decodeObject at h
  cases hobj : d.decode (getObjectByKey key) value with
  | none => simp [hobj] at h
  | some obj =>
    simp only [hobj] at h
    cases hfs : getFieldsSetByObject t j defs obj value with
    | none => simp [hfs] at h
    | some fs =>
      simp only [hfs, Except.ok.injEq] at h
      subst h
      exact ⟨obj, rfl, rfl, rfl, rfl, rfl⟩

/-- **`decodeObject` returns the UID, labels, owners and finalizers of the metadata** exactly if the
key is not that of a cluster role or of a binding, or there are none to return. -/
theorem decodeObject_metadata_iff (h : d.decodeObject t j defs key value = .ok m) :
    Reflects m (d.metadata value) ↔ (ClusterGrantKey key → (d.metadata value).Bare) := by
  obtain ⟨obj, hobj, huid, hlabels, howners, hfin⟩ := decodeObject_ok h
  have hom := d.om_decode _ _ _ hobj
  have hun : Unnamed obj.type ↔ ClusterGrantKey key := by
    rw [d.type_decode _ _ _ hobj]
    exact unnamed_getObjectByKey_iff
  have hu := switch_eq_iff ObjectMeta.uid [] obj
  have hl := switch_eq_iff ObjectMeta.labels [] obj
  have ho := switch_eq_iff ObjectMeta.ownerReferences [] obj
  have hf := switch_eq_iff ObjectMeta.finalizers [] obj
  rw [hom, hun] at hu hl ho hf
  constructor
  · intro hr hkey
    exact ⟨hu.1 (huid.symm.trans hr.uid) hkey, hl.1 (hlabels.symm.trans hr.labels) hkey,
      ho.1 (howners.symm.trans hr.owners) hkey, hf.1 (hfin.symm.trans hr.finalizers) hkey⟩
  · intro hb
    exact ⟨huid.trans (hu.2 fun hk => (hb hk).uid), hlabels.trans (hl.2 fun hk => (hb hk).labels),
      howners.trans (ho.2 fun hk => (hb hk).owners), hfin.trans (hf.2 fun hk => (hb hk).finalizers)⟩

/-- **What `Generic.Insert` records of an object is what `decodeObject` has returned**: the UID in
the row of the key, and labels, owners and finalizers in what `InsertMetadata` gets. -/
theorem codec_insert_metadata {decode : Bytes → Option Object} {marshal : Object → Option Bytes} {db db' : Db}
    {now id : ℤ} {create delete : Bool} {createRevision previousRevision ttl : ℤ} {prevValue : Bytes}
    (h : (d.codec t j defs decode marshal).insert db now key create delete createRevision previousRevision ttl
      value prevValue = .ok (id, db')) :
    ∃ m db₁, d.decodeObject t j defs key value = .ok m ∧
      db.insertRow (Codec.insertedRow m key create delete createRevision previousRevision ttl value)
        previousRevision = .ok (id, db₁) ∧
      (db' = db₁ ∨ (d.codec t j defs decode marshal).insertMetadata db₁ now id key prevValue m
        (Codec.deletes m create delete) = .ok db') := by
  obtain ⟨m, db₁, hm, hrow, hmeta⟩ := Codec.insert_cases _ h
  have hok : d.decodeObject t j defs key value = .ok m := by
    change (d.decodeObject t j defs key value).toOption = some m at hm
    cases hd : d.decodeObject t j defs key value with
    | error err => rw [hd] at hm; cases hm
    | ok m' => rw [hd] at hm; cases hm; rfl
  refine ⟨m, db₁, hok, hrow, ?_⟩
  rcases hmeta with ⟨-, hins⟩ | ⟨-, hsame⟩
  · exact .inr hins
  · exact .inl hsame

end ObjectDecoder

/-! ## A cluster role -/

/-- An object of a type, with the metadata and nothing else. -/
def plainObject (om : ObjectMeta) : ObjectType → RuntimeObject
  | .pod => .pod om ⟨[], [], [], [], false, [], [], []⟩
  | .event => .event om ⟨⟨[], [], [], [], [], [], []⟩, [], [], []⟩
  | .secret => .secret om []
  | .namespaceObject => .namespaceObject om []
  | .replicaSet => .replicaSet om 0
  | .replicationController => .replicationController om 0
  | .job => .job om 0
  | .node => .node om false
  | .certificateSigningRequest => .certificateSigningRequest om []
  | .clusterRole => .clusterRole om
  | .clusterRoleBinding => .clusterRoleBinding om
  | .partialObjectMetadata => .partialObjectMetadata om [] []

/-- A role that another object owns, and that waits for a finalizer. -/
def ownedRole : ObjectMeta :=
  ⟨ascii "x", [], ascii "u1", [(ascii "app", ascii "web")], [⟨ascii "u0", some true⟩], [ascii "orphan"]⟩

/-- Every value is that object, in whatever type it is decoded into. -/
def roleDecoder : ObjectDecoder where
  decode ty _ := some (plainObject ownedRole ty)
  metadata _ := ownedRole
  type_decode := by
    intro ty value obj h
    cases h
    cases ty <;> rfl
  om_decode := by
    intro ty value obj h
    cases h
    cases ty <;> rfl

/-- Words whose plural has an `s` more; other cases are left alone. -/
def plainWords : Words where
  plural s := s ++ ascii "s"
  lowerOther s := s
  titleOther s := s
  plural_ne := by
    intro s hs h
    exact hs (List.append_eq_nil_iff.1 h).1
  plural_slash := by
    intro s hs h
    have hnot : slash ∉ ascii "s" := by decide
    rcases List.mem_append.1 h with h | h
    · exact hs h
    · exact hnot h
  lower_ne := fun _ h => h
  lower_slash := fun _ h => h
  title_slash := fun _ h => h

/-- A JSON library that reads nothing. -/
def noJson : JsonPath := ⟨Unit, Unit, fun _ => none, fun _ => none, fun _ _ => []⟩

/-- What is returned for a pod with that metadata. -/
def podMeta : Meta :=
  { uid := ascii "u1", labels := [(ascii "app", ascii "web")],
    fieldsSet := (fieldsOf [("metadata.name", ascii "x"), ("metadata.namespace", []), ("spec.nodeName", []),
      ("spec.restartPolicy", []), ("spec.schedulerName", []), ("spec.serviceAccountName", []),
      ("spec.hostNetwork", ascii "false"), ("status.phase", []), ("status.podIP", []),
      ("status.nominatedNodeName", [])]).entries,
    owners := [⟨ascii "u0", some true⟩], finalizers := [ascii "orphan"] }

theorem getObjectByKey_pod : getObjectByKey (ascii "/registry/pods/default/x") = .pod := by
  unfold getObjectByKey keyTypes
  repeat rw [ascii_ofList]
  decide

theorem getObjectByKey_role : getObjectByKey (ascii "/registry/clusterroles/x") = .clusterRole := by
  unfold getObjectByKey keyTypes
  repeat rw [ascii_ofList]
  decide

theorem decodeObject_pod :
    roleDecoder.decodeObject plainWords noJson OMap.empty (ascii "/registry/pods/default/x") [] = .ok podMeta := by
  unfold ObjectDecoder.decodeObject
  rw [getObjectByKey_pod]
  rfl

/-- The metadata of a pod is returned. -/
theorem decodeObject_metadata_pod : Reflects podMeta ownedRole ↔
    (ClusterGrantKey (ascii "/registry/pods/default/x") → ownedRole.Bare) :=
  ObjectDecoder.decodeObject_metadata_iff decodeObject_pod

/-- Of a cluster role neither UID, labels, owners nor finalizers are returned. -/
theorem decodeObject_role_lost :
    roleDecoder.decodeObject plainWords noJson OMap.empty (ascii "/registry/clusterroles/x") [] =
        .ok { uid := [], labels := [], fieldsSet := [], owners := [], finalizers := [] } ∧
      roleDecoder.metadata [] = ownedRole ∧ ownedRole.uid ≠ [] ∧ ownedRole.labels ≠ [] ∧
      ownedRole.ownerReferences ≠ [] ∧ ownedRole.finalizers ≠ [] := by
  refine ⟨?_, rfl, by decide, by decide, by decide, by decide⟩
  unfold ObjectDecoder.decodeObject
  rw [getObjectByKey_role]
  rfl

end Harikube
