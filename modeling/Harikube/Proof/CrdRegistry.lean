import Harikube.Proof.KeyPaths
import Harikube.Proof.Resources
import Harikube.Spec.CrdRegistry

/-!
# The fields that are indexed for custom resources

Definitions are registered under the plural that they declare, and the fields of an object are
looked up under the plural of its kind. A version without fields writes nothing.

* `register_writes`: what one registration writes.
* `storedDefs_find`: after any sequence of definitions, the last write under a text is found.
* `indexed_iff`: **an object's declared fields are indexed, and no others, exactly if the fields
  found for it are the declared ones**, as far as the object has them.
-/

namespace Harikube

open Sorted

/-- A version of a definition: its name and its selectable fields, without the dot in front. -/
structure CrdVersion where
  name : Bytes
  fields : List Bytes

/-- A custom resource definition, as far as it is read. -/
structure Crd where
  group : Bytes
  plural : Bytes
  kind : Bytes
  fields : List Bytes
  versions : List CrdVersion

namespace Crd

/-- The fields that the definition declares for a version. -/
def declares (d : Crd) (v : CrdVersion) : List Bytes := d.fields ++ v.fields

/-- What registering a version writes. -/
def write? (d : Crd) (v : CrdVersion) : Option (Bytes × List Bytes) :=
  if d.declares v = [] then none else some (crdKey v.name d.group d.plural, d.declares v)

def writes (d : Crd) : List (Bytes × List Bytes) := d.versions.filterMap d.write?

end Crd

namespace CrdRegistry

/-- The JSON value of a version. -/
structure DescribesVersion (value : GoValue) (v : CrdVersion) : Prop where
  read : ∃ o, cm value = some o ∧ entry o "name" = .string v.name ∧ selectableFields o = some v.fields

/-- The JSON content of a definition, whatever else it has. -/
structure Describes (content : List (Bytes × GoValue)) (d : Crd) : Prop where
  read : ∃ spec names versions, cm (entry content "spec") = some spec ∧ cm (entry spec "names") = some names ∧
    entry spec "group" = .string d.group ∧ entry names "plural" = .string d.plural ∧
    entry names "kind" = .string d.kind ∧ selectableFields spec = some d.fields ∧
    cs (entry spec "versions") = some versions ∧ List.Forall₂ DescribesVersion versions d.versions

end CrdRegistry

/-- Write entries in order. -/
def writeAll (defs : CustomResourceDefs) (l : List (Bytes × List Bytes)) : CustomResourceDefs :=
  l.foldl (fun defs p => defs.insert p.1 p.2) defs

/-! ## One registration -/

namespace CrdRegistry

theorem versionEntry_version (sprint : GoValue → Bytes) (d : Crd) {value : GoValue} {v : CrdVersion}
    (h : DescribesVersion value v) :
    versionEntry sprint (.string d.group) (.string d.plural) d.fields value = some (d.write? v) := by
  obtain ⟨o, ho, hname, hfields⟩ := h.read
  unfold versionEntry Crd.write? Crd.declares
  simp only [ho, hfields, hname, Option.bind_eq_bind, Option.bind_some]
  split
  · rfl
  · rfl

/-- The loop over the versions writes those that declare fields, in order. -/
theorem versionsLoop_writes (sprint : GoValue → Bytes) (d : Crd) {values : List GoValue} {vs : List CrdVersion}
    (h : List.Forall₂ DescribesVersion values vs) : ∀ (defs : CustomResourceDefs) (stored : Bool),
    ∃ stored', versionsLoop sprint (.string d.group) (.string d.plural) d.fields values defs stored =
      (writeAll defs (vs.filterMap d.write?), stored', false) := by
  induction h with
  | nil => intro defs stored; exact ⟨stored, rfl⟩
  | @cons value v values vs hv _ ih =>
    intro defs stored
    unfold versionsLoop
    rw [versionEntry_version sprint d hv]
    cases hw : d.write? v with
    | none =>
      rw [List.filterMap_cons_none hw]
      exact ih defs stored
    | some p =>
      rw [List.filterMap_cons_some hw]
      exact ih (defs.insert p.1 p.2) true

/-- **What a registration writes.** -/
theorem register_writes {unmarshal : Decoder} {raw : Bytes} {content : List (Bytes × GoValue)} {d : Crd}
    (sprint : GoValue → Bytes) (h : unmarshal raw = some content) (hd : Describes content d)
    (defs : CustomResourceDefs) :
    registerCustomResourceDefinition unmarshal sprint true defs raw = (none, writeAll defs d.writes) := by
  obtain ⟨spec, names, versions, hspec, hnames, hgroup, hplural, -, hfields, hversions, hvs⟩ := hd.read
  obtain ⟨stored, hloop⟩ := versionsLoop_writes sprint d hvs defs false
  unfold registerCustomResourceDefinition
  simp only [h, hspec, hnames, hgroup, hplural, hfields, hversions, Option.bind_eq_bind, Option.bind_some,
    Option.pure_def, hloop]
  simp [Crd.writes]

end CrdRegistry

/-! ## Sequences of definitions -/

/-- A stored value that is a definition. -/
structure StoredCrd (unmarshal : Decoder) where
  raw : Bytes
  crd : Crd
  describes : ∃ content, unmarshal raw = some content ∧ CrdRegistry.Describes content crd

/-- The registry after the values have been stored one after the other. -/
def storedDefs (unmarshal : Decoder) (sprint : GoValue → Bytes) (ds : List (StoredCrd unmarshal)) :
    CustomResourceDefs :=
  ds.foldl (fun defs d =>
    (CrdRegistry.registerCustomResourceDefinition unmarshal sprint true defs d.raw).2) OMap.empty

/-- The last fields that any of the definitions has written under a text. -/
def lastWrite (ds : List Crd) (key : Bytes) : Option (List Bytes) :=
  (((ds.flatMap Crd.writes).filter fun p => p.1 = key).getLast?).map Prod.snd

theorem find_writeAll (l : List (Bytes × List Bytes)) (key : Bytes) : ∀ defs : CustomResourceDefs,
    (writeAll defs l).find? key = (((l.filter fun p => p.1 = key).getLast?).map Prod.snd).or (defs.find? key) := by
  -- on the last write, which hides those before it
  induction l using List.reverseRecOn with
  | nil => intro defs; rfl
  | append_singleton l p ih =>
    intro defs
    have hstep : writeAll defs (l ++ [p]) = (writeAll defs l).insert p.1 p.2 := by
      unfold writeAll
      rw [List.foldl_append]
      rfl
    rw [hstep, OMap.find_insert, List.filter_append]
    by_cases hp : key = p.1
    · rw [if_pos hp]
      simp [hp]
    · rw [if_neg hp, ih defs]
      have hp' : ¬ p.1 = key := fun h => hp h.symm
      simp [hp']

theorem storedDefs_eq {unmarshal : Decoder} (sprint : GoValue → Bytes) (ds : List (StoredCrd unmarshal)) :
    storedDefs unmarshal sprint ds = writeAll OMap.empty ((ds.map StoredCrd.crd).flatMap Crd.writes) := by
  induction ds using List.reverseRecOn with
  | nil => rfl
  | append_singleton ds d ih =>
    obtain ⟨content, hraw, hd⟩ := d.describes
    have hstep : storedDefs unmarshal sprint (ds ++ [d]) = writeAll (storedDefs unmarshal sprint ds) d.crd.writes := by
      unfold storedDefs
      rw [List.foldl_append, List.foldl_cons, List.foldl_nil, CrdRegistry.register_writes sprint hraw hd]
    rw [hstep, ih, List.map_append, List.flatMap_append]
    unfold writeAll
    simp [List.foldl_append]

/-- **After any sequence of definitions the last write under a text is found.** -/
theorem storedDefs_find {unmarshal : Decoder} (sprint : GoValue → Bytes) (ds : List (StoredCrd unmarshal))
    (key : Bytes) : (storedDefs unmarshal sprint ds).find? key = lastWrite (ds.map StoredCrd.crd) key := by
  rw [storedDefs_eq, find_writeAll]
  simp [lastWrite]

/-! ## The fields of an object -/

/-- An object of a custom resource: its metadata, group, version and kind, and its value. -/
structure CustomObject where
  om : ObjectMeta
  group : Bytes
  version : Bytes
  kind : Bytes
  value : Bytes
  name_ne : om.name ≠ []
  group_slash : slash ∉ group
  version_slash : slash ∉ version

namespace CustomObject

variable (x : CustomObject)

def object : RuntimeObject := .partialObjectMetadata x.om (x.group ++ slash :: x.version) x.kind

/-- The text that its fields are looked up under. -/
def key (t : Words) : Bytes := crdKey x.version x.group (t.plural (t.toLower x.kind))

/-- What the object has at a field. -/
def valueAt (j : JsonPath) (field : Bytes) : Option Bytes :=
  (j.parseDoc x.value).bind fun doc => (j.parseQuery (ascii "$." ++ field)).bind fun query => (j.get query doc).head?

/-- The fields declared by the last of the definitions with the group, version and kind of the object. -/
def declared (ds : List Crd) : List Bytes :=
  ((ds.filter fun d => d.group = x.group && d.kind = x.kind && d.versions.any fun v => v.name = x.version).getLast?.bind
    fun d => (d.versions.find? fun v => v.name = x.version).map d.declares).getD []

end CustomObject

/-- The fields that every object has. -/
def IsMetadataField (field : Bytes) : Prop := field = ascii "metadata.name" ∨ field = ascii "metadata.namespace"

theorem customFields_find {j : JsonPath} (doc : j.Doc) (l : List Bytes) : ∀ (fs : OMap Bytes Bytes),
    (∀ f ∈ l, (j.parseQuery (ascii "$." ++ f)).isSome = true) →
    ∃ fs', customFields j doc l fs = some fs' ∧ ∀ f, fs'.find? f =
      if f ∈ l then ((j.parseQuery (ascii "$." ++ f)).bind fun q => (j.get q doc).head?).or (fs.find? f)
      else fs.find? f := by
  induction l with
  | nil => intro fs _; exact ⟨fs, rfl, fun f => by simp⟩
  | cons a l ih =>
    intro fs hq
    obtain ⟨q, ha⟩ := Option.isSome_iff_exists.1 (hq a List.mem_cons_self)
    have hrest : ∀ f ∈ l, (j.parseQuery (ascii "$." ++ f)).isSome = true :=
      fun f hf => hq f (List.mem_cons_of_mem a hf)
    cases hg : j.get q doc with
    | nil =>
      obtain ⟨fs', hfs', hfind⟩ := ih fs hrest
      refine ⟨fs', by simp [customFields, ha, hg, hfs'], fun f => ?_⟩
      rw [hfind f]
      by_cases hfa : f = a
      · subst hfa
        simp [ha, hg]
      · simp [hfa]
    | cons v vs =>
      obtain ⟨fs', hfs', hfind⟩ := ih (fs.insert a v) hrest
      refine ⟨fs', by simp [customFields, ha, hg, hfs'], fun f => ?_⟩
      rw [hfind f, OMap.find_insert]
      by_cases hfa : f = a
      · subst hfa
        simp [ha, hg]
      · simp [hfa]

theorem customFields_parse {j : JsonPath} {doc : j.Doc} (l : List Bytes) : ∀ {fs fs' : OMap Bytes Bytes},
    customFields j doc l fs = some fs' → ∀ f ∈ l, (j.parseQuery (ascii "$." ++ f)).isSome = true := by
  induction l with
  | nil => intro fs fs' _ f hf; cases hf
  | cons a l ih =>
    intro fs fs' h f hf
    unfold customFields at h
    cases ha : j.parseQuery (ascii "$." ++ a) with
    | none => simp [ha] at h
    | some q =>
      have hl : ∀ f ∈ l, (j.parseQuery (ascii "$." ++ f)).isSome = true := by
        cases hg : j.get q doc with
        | nil => simp only [ha, hg] at h; exact ih h
        | cons v vs => simp only [ha, hg] at h; exact ih h
      rcases List.mem_cons.1 hf with rfl | hf
      · rw [ha]; rfl
      · exact hl f hf

section Indexed

variable {t : Words} {j : JsonPath} {x : CustomObject}

theorem registeredFields_object (defs : CustomResourceDefs) :
    registeredFields t defs (x.group ++ slash :: x.version) x.kind = defs.find? (x.key t) := by
  unfold registeredFields
  rw [splitOn_segment x.group_slash, List.splitOn_eq_singleton x.version_slash]
  rfl

/-- The set that every object starts with. -/
def metadataFields (om : ObjectMeta) : OMap Bytes Bytes :=
  fieldsOf [("metadata.name", om.name), ("metadata.namespace", om.ns)]

theorem metadataFields_find {om : ObjectMeta} {f : Bytes} (hf : ¬ IsMetadataField f) :
    (metadataFields om).find? f = none := by
  unfold IsMetadataField at hf
  rw [not_or] at hf
  unfold metadataFields fieldsOf
  simp only [List.foldl_cons, List.foldl_nil]
  rw [OMap.find_insert, if_neg hf.2, OMap.find_insert, if_neg hf.1, OMap.find_empty]

/-- What `GetFieldsSetByObject` does with an object of a custom resource. -/
theorem fieldsSet_object (defs : CustomResourceDefs) :
    getFieldsSetByObject t j defs x.object x.value =
      match defs.find? (x.key t) with
      | none => some (metadataFields x.om)
      | some l =>
        match j.parseDoc x.value with
        | none => none
        | some doc => customFields j doc l (metadataFields x.om) := by
  unfold getFieldsSetByObject CustomObject.object
  simp only [ne_eq, x.name_ne, not_false_eq_true, if_true, registeredFields_object]
  rfl

/-- The index of an object has, besides name and namespace, what the object has at the declared
fields, and nothing else. -/
def Indexed (t : Words) (j : JsonPath) (defs : CustomResourceDefs) (declared : List Bytes) (x : CustomObject) :
    Prop :=
  ∃ fs, getFieldsSetByObject t j defs x.object x.value = some fs ∧
    ∀ f v, ¬ IsMetadataField f → (fs.find? f = some v ↔ f ∈ declared ∧ x.valueAt j f = some v)

/-- The fields found for an object can be read, and are the declared ones as far as it has them. -/
structure FoundDeclared (j : JsonPath) (found : Option (List Bytes)) (declared : List Bytes) (x : CustomObject) :
    Prop where
  doc : ∀ l, found = some l → (j.parseDoc x.value).isSome = true
  queries : ∀ l, found = some l → ∀ f ∈ l, (j.parseQuery (ascii "$." ++ f)).isSome = true
  same : ∀ f, ¬ IsMetadataField f → (x.valueAt j f).isSome = true → (f ∈ found.getD [] ↔ f ∈ declared)

theorem valueAt_of_doc {doc : j.Doc} (h : j.parseDoc x.value = some doc) (f : Bytes) :
    x.valueAt j f = (j.parseQuery (ascii "$." ++ f)).bind fun q => (j.get q doc).head? := by
  unfold CustomObject.valueAt
  rw [h]
  rfl

/-- If the fields found can be read, the index has what the object has at them. -/
theorem fieldsSet_found {defs : CustomResourceDefs}
    (hdoc : ∀ l, defs.find? (x.key t) = some l → (j.parseDoc x.value).isSome = true)
    (hq : ∀ l, defs.find? (x.key t) = some l → ∀ f ∈ l, (j.parseQuery (ascii "$." ++ f)).isSome = true) :
    ∃ fs, getFieldsSetByObject t j defs x.object x.value = some fs ∧ ∀ f, ¬ IsMetadataField f →
      fs.find? f = if f ∈ (defs.find? (x.key t)).getD [] then x.valueAt j f else none := by
  rw [fieldsSet_object]
  cases hl : defs.find? (x.key t) with
  | none => exact ⟨_, rfl, fun f hf => by simp [metadataFields_find hf]⟩
  | some l =>
    obtain ⟨doc, hd⟩ := Option.isSome_iff_exists.1 (hdoc l hl)
    obtain ⟨fs, hfs, hfind⟩ := customFields_find doc l (metadataFields x.om) (hq l hl)
    refine ⟨fs, by simp only [hd, hfs], fun f hf => ?_⟩
    rw [hfind f, metadataFields_find hf, Option.or_none, valueAt_of_doc hd]
    rfl

/-- An index can only be made of fields that can be read. -/
theorem found_of_fieldsSet {defs : CustomResourceDefs} {fs : OMap Bytes Bytes} {l : List Bytes}
    (h : getFieldsSetByObject t j defs x.object x.value = some fs) (hl : defs.find? (x.key t) = some l) :
    (j.parseDoc x.value).isSome = true ∧ ∀ f ∈ l, (j.parseQuery (ascii "$." ++ f)).isSome = true := by
  rw [fieldsSet_object, hl] at h
  cases hd : j.parseDoc x.value with
  | none => simp [hd] at h
  | some doc =>
    simp only [hd] at h
    exact ⟨rfl, customFields_parse l h⟩

/-- **After any sequence of definitions, the index of an object is made of its declared fields**
exactly if the last fields written under the plural of its kind are the declared ones, as far as the
object has them, and can be read. -/
theorem indexed_iff (unmarshal : Decoder) (sprint : GoValue → Bytes) (ds : List (StoredCrd unmarshal))
    (t : Words) (j : JsonPath) (x : CustomObject) :
    Indexed t j (storedDefs unmarshal sprint ds) (x.declared (ds.map StoredCrd.crd)) x ↔
      FoundDeclared j (lastWrite (ds.map StoredCrd.crd) (x.key t)) (x.declared (ds.map StoredCrd.crd)) x := by
  have hfind := storedDefs_find sprint ds (x.key t)
  rw [← hfind]
  constructor
  · rintro ⟨fs, hfs, hindex⟩
    have hread := fun l hl => found_of_fieldsSet (l := l) hfs hl
    obtain ⟨fs', hfs', hfound⟩ := fieldsSet_found (fun l hl => (hread l hl).1) (fun l hl => (hread l hl).2)
    have hsame : fs' = fs := Option.some.inj (hfs'.symm.trans hfs)
    subst hsame
    refine ⟨fun l hl => (hread l hl).1, fun l hl => (hread l hl).2, fun f hf hv => ?_⟩
    -- a field that the object has is in the index if and only if it was found
    obtain ⟨v, hv⟩ := Option.isSome_iff_exists.1 hv
    have hiff := hindex f v hf
    rw [hfound f hf, hv] at hiff
    constructor
    · intro hmem
      rw [if_pos hmem] at hiff
      exact (hiff.1 rfl).1
    · intro hdecl
      have hin := hiff.2 ⟨hdecl, rfl⟩
      by_contra hmem
      rw [if_neg hmem] at hin
      cases hin
  · rintro ⟨hdoc, hq, hsame⟩
    obtain ⟨fs, hfs, hfound⟩ := fieldsSet_found hdoc hq
    refine ⟨fs, hfs, fun f v hf => ?_⟩
    rw [hfound f hf]
    constructor
    · intro h
      split at h
      · rename_i hmem
        exact ⟨(hsame f hf (by rw [h]; rfl)).1 hmem, h⟩
      · cases h
    · rintro ⟨hdecl, hv⟩
      rw [if_pos ((hsame f hf (by rw [hv]; rfl)).2 hdecl), hv]

end Indexed

/-! ## A field that is no longer declared -/

/-- The JSON of a definition of shirts whose version has these selectable fields. -/
def shirtContent (fields : List GoValue) : List (Bytes × GoValue) :=
  [(ascii "spec", .object
    [ (ascii "group", .string (ascii "stable.example.com")),
      (ascii "names", .object [(ascii "plural", .string (ascii "shirts")), (ascii "kind", .string (ascii "Shirt"))]),
      (ascii "versions", .slice
        [.object [(ascii "name", .string (ascii "v1")), (ascii "selectableFields", .slice fields)]]) ])]

/-- The value `1` declares the colour, every other one nothing. -/
def shirtUnmarshal : Decoder := fun raw =>
  if raw = ascii "1" then some (shirtContent [.object [(ascii "jsonPath", .string (ascii ".spec.color"))]])
  else some (shirtContent [])

def shirtCrd (fields : List Bytes) : Crd :=
  ⟨ascii "stable.example.com", ascii "shirts", ascii "Shirt", [], [⟨ascii "v1", fields⟩]⟩

def colouredShirts : StoredCrd shirtUnmarshal where
  raw := ascii "1"
  crd := shirtCrd [ascii "spec.color"]
  describes := ⟨_, rfl, ⟨⟨_, _, _, rfl, rfl, rfl, rfl, rfl, rfl, rfl, .cons ⟨⟨_, rfl, rfl, rfl⟩⟩ .nil⟩⟩⟩

def plainShirts : StoredCrd shirtUnmarshal where
  raw := ascii "2"
  crd := shirtCrd []
  describes := ⟨_, rfl, ⟨⟨_, _, _, rfl, rfl, rfl, rfl, rfl, rfl, rfl, .cons ⟨⟨_, rfl, rfl, rfl⟩⟩ .nil⟩⟩⟩

/-- Every object has the colour red, and nothing else. -/
def colourJson : JsonPath :=
  ⟨Unit, Bytes, fun _ => some (), some, fun query _ => if query = ascii "$.spec.color" then [ascii "red"] else []⟩

def redShirt : CustomObject where
  om := ⟨ascii "x", ascii "default", [], [], [], []⟩
  group := ascii "stable.example.com"
  version := ascii "v1"
  kind := ascii "Shirt"
  value := []
  name_ne := by decide
  group_slash := by decide
  version_slash := by decide

/-- The definition is updated to declare no field, and the colour of a shirt is still indexed. -/
theorem indexed_stale :
    let ds := [colouredShirts, plainShirts]
    redShirt.declared (ds.map StoredCrd.crd) = [] ∧
      (getFieldsSetByObject plainWords colourJson (storedDefs shirtUnmarshal (fun _ => []) ds) redShirt.object
        redShirt.value).map (fun fs => fs.find? (ascii "spec.color")) = some (some (ascii "red")) := by
  refine ⟨?_, ?_⟩
  · decide +kernel
  · decide +kernel

end Harikube
