import Harikube.Proof.Like
import Harikube.Spec.Feed

/-!
# What selectors keep

* `filter_batching_iff`: what a watch is sent does not depend on how its events are batched
  if and only if there is at most one event, or the selectors keep every event in range. A
  batch of one event is not filtered by them.
* `field_selector_keeps_iff`: which of the objects that satisfy a field selector are kept by
  the filter of a watch and by the condition of a list. Both look for the value of a
  requirement inside of the field, so `!=` drops objects that it should keep.
-/

namespace Harikube

open Sorted

/-! ## Batches -/

/-- The events of a batch that are in range. -/
def eventsInRange (key rangeEnd : Bytes) (events : Batch) : List Event :=
  events.filterMap fun e => if Event.inRange e key rangeEnd then e else none

/-- Those of them whose object, as it is or as it was, is selected. -/
def eventsSelected (selected : KeyValue → Bool) (key rangeEnd : Bytes) (events : Batch) : List Event :=
  events.filterMap fun e =>
    if Event.inRange e key rangeEnd && e.any fun e => selected e.kv || e.prevKV.any selected then e else none

section Batches

variable {selected : KeyValue → Bool} {key rangeEnd : Bytes}

theorem filter_eq (events : Batch) :
    SqlLog.filter selected key rangeEnd events =
      if events.length = 1 then eventsInRange key rangeEnd events
      else eventsSelected selected key rangeEnd events := rfl

theorem mem_eventsInRange {events : Batch} {e : Event} :
    e ∈ eventsInRange key rangeEnd events ↔ some e ∈ events ∧ inRange key rangeEnd e.kv.key = true := by
  unfold eventsInRange
  simp only [List.mem_filterMap]
  constructor
  · rintro ⟨o, ho, h⟩
    split at h
    · rename_i hin
      subst h
      exact ⟨ho, hin⟩
    · cases h
  · rintro ⟨he, hin⟩
    exact ⟨some e, he, if_pos hin⟩

theorem mem_eventsSelected {events : Batch} {e : Event} :
    e ∈ eventsSelected selected key rangeEnd events ↔
      some e ∈ events ∧ inRange key rangeEnd e.kv.key = true ∧
        (selected e.kv || e.prevKV.any selected) = true := by
  unfold eventsSelected
  simp only [List.mem_filterMap]
  constructor
  · rintro ⟨o, ho, h⟩
    split at h
    · rename_i hin
      subst h
      exact ⟨ho, Bool.and_eq_true_iff.1 hin⟩
    · cases h
  · rintro ⟨he, hin⟩
    exact ⟨some e, he, if_pos (Bool.and_eq_true_iff.2 hin)⟩

/-- The selectors keep every event in range. -/
def KeepsAll (selected : KeyValue → Bool) (key rangeEnd : Bytes) (events : Batch) : Prop :=
  ∀ e, some e ∈ events → inRange key rangeEnd e.kv.key = true → (selected e.kv || e.prevKV.any selected) = true

theorem KeepsAll.eventsSelected_eq {events : Batch} (h : KeepsAll selected key rangeEnd events) :
    eventsSelected selected key rangeEnd events = eventsInRange key rangeEnd events := by
  apply List.filterMap_congr
  intro o ho
  cases o with
  | none => rfl
  | some e =>
    by_cases hin : inRange key rangeEnd e.kv.key = true
    · have hsel := h e ho hin
      simp only [Event.inRange, Option.any_some, hin, hsel, Bool.and_self]
    · simp only [Event.inRange, Option.any_some, hin, Bool.false_and]

theorem KeepsAll.filter_eq {events : Batch} (h : KeepsAll selected key rangeEnd events) :
    SqlLog.filter selected key rangeEnd events = eventsInRange key rangeEnd events := by
  rw [Harikube.filter_eq]
  split
  · rfl
  · exact h.eventsSelected_eq

theorem eventsInRange_flatten (batches : List Batch) :
    batches.flatMap (eventsInRange key rangeEnd) = eventsInRange key rangeEnd batches.flatten := by
  unfold eventsInRange
  rw [List.filterMap_flatten, List.flatMap_def]

/-- Every event in a batch of its own. -/
theorem filter_singletons (events : Batch) :
    (events.map fun e => [e]).flatMap (SqlLog.filter selected key rangeEnd) = eventsInRange key rangeEnd events := by
  calc (events.map fun e => [e]).flatMap (SqlLog.filter selected key rangeEnd)
      = (events.map fun e => [e]).flatMap (eventsInRange key rangeEnd) := by
        simp only [List.flatMap_map, Harikube.filter_eq, List.length_singleton, if_true]
    _ = eventsInRange key rangeEnd (events.map fun e => [e]).flatten := eventsInRange_flatten _
    _ = eventsInRange key rangeEnd events := by rw [← List.flatMap_def, List.flatMap_singleton']

/-- The batches of at most one event. -/
theorem filter_short {events : Batch} (h : events.length ≤ 1) {batches : List Batch}
    (hflat : batches.flatten = events) :
    batches.flatMap (SqlLog.filter selected key rangeEnd) = eventsInRange key rangeEnd events := by
  rw [← hflat, ← eventsInRange_flatten]
  apply List.flatMap_congr
  intro b hb
  have hlen : b.length ≤ 1 := (List.Sublist.length_le (List.sublist_flatten_of_mem hb)).trans (hflat ▸ h)
  rw [Harikube.filter_eq]
  split
  · rfl
  · have hnil : b = [] := List.length_eq_zero_iff.1 (by omega)
    subst hnil
    rfl

end Batches

/-- **The filter of a watch** gives the same events for every two ways of batching them if
and only if there is at most one event, or the selectors keep every event in range. -/
theorem filter_batching_iff (p : SelectorParser) (c : Codec) (key rangeEnd labelSelector fieldSelector : Bytes)
    (events : Batch) :
    (∀ batches batches' : List Batch, batches.flatten = events → batches'.flatten = events →
      batches.flatMap (SqlLog.filter (p.filterEventBySelectors c labelSelector fieldSelector) key rangeEnd) =
        batches'.flatMap (SqlLog.filter (p.filterEventBySelectors c labelSelector fieldSelector) key rangeEnd)) ↔
    events.length ≤ 1 ∨
      ∀ e, some e ∈ events → inRange key rangeEnd e.kv.key = true →
        p.filterEventBySelectors c labelSelector fieldSelector e.kv = true ∨
          ∃ prev, e.prevKV = some prev ∧ p.filterEventBySelectors c labelSelector fieldSelector prev = true := by
  set selected := p.filterEventBySelectors c labelSelector fieldSelector with hsel
  have hkeeps : KeepsAll selected key rangeEnd events ↔
      ∀ e, some e ∈ events → inRange key rangeEnd e.kv.key = true →
        selected e.kv = true ∨ ∃ prev, e.prevKV = some prev ∧ selected prev = true := by
    simp only [KeepsAll, Bool.or_eq_true, Option.any_eq_true]
  rw [← hkeeps]
  constructor
  · intro h
    by_cases hlen : events.length ≤ 1
    · exact .inl hlen
    refine .inr fun e he hin => ?_
    -- the whole sequence as one batch against every event in a batch of its own
    have heq := h [events] (events.map fun e => [e]) List.flatten_singleton
      (by rw [← List.flatMap_def, List.flatMap_singleton'])
    rw [filter_singletons, List.flatMap_singleton, filter_eq, if_neg (by omega)] at heq
    have hmem : e ∈ eventsSelected selected key rangeEnd events := by
      rw [heq]
      exact mem_eventsInRange.2 ⟨he, hin⟩
    exact (mem_eventsSelected.1 hmem).2.2
  · rintro (hlen | hall) batches batches' hb hb'
    · rw [filter_short hlen hb, filter_short hlen hb']
    · have hone : ∀ bs : List Batch, bs.flatten = events →
          bs.flatMap (SqlLog.filter selected key rangeEnd) = eventsInRange key rangeEnd events := by
        intro bs hbs
        rw [← hbs, ← eventsInRange_flatten]
        apply List.flatMap_congr
        intro b hmem
        have hsub : KeepsAll selected key rangeEnd b :=
          fun e he => hall e (hbs ▸ List.mem_flatten.2 ⟨b, hmem, he⟩)
        exact hsub.filter_eq
      rw [hone batches hb, hone batches' hb']

/-- The parser of texts that are all one selector. -/
def parsesAs (labels : List Requirement) (fields : List FieldRequirement) : SelectorParser where
  labels text := if text = [] then some [] else some labels
  fields text := if text = [] then some [] else some fields
  labels_nil := rfl
  fields_nil := rfl

/-- Objects whose value is their label `app` and their field `spec.nodeName`. -/
def echoCodec : Codec where
  decodeObject _ value := some { labels := [(ascii "app", value)], fieldsSet := [(ascii "spec.nodeName", value)] }
  decode _ := none
  marshal _ := none

/-- Under the selector `app=web` the first of two events, of an object with another label, is
sent only if it is polled alone. -/
theorem filter_batching_lost :
    let filter := SqlLog.filter ((parsesAs [⟨ascii "app", .equals, [ascii "web"], rfl⟩] []).filterEventBySelectors
      echoCodec (ascii "app=web") []) (ascii "/pods/") (ascii "/pods0")
    let first : Event := ⟨false, true, ⟨ascii "/pods/a", ascii "db", 1, 1, 1, 0⟩, none⟩
    let second : Event := ⟨false, true, ⟨ascii "/pods/b", ascii "web", 1, 2, 2, 0⟩, none⟩
    [[some first, some second]].flatMap filter = [second] ∧
    [[some first], [some second]].flatMap filter = [first, second] := by
  decide +kernel

/-! ## Field selectors -/

namespace SelectorParser

variable {p : SelectorParser} {c : Codec} {db : Sqlite}

theorem contains_self (v : Bytes) : contains v v = true := by
  unfold contains
  rw [List.any_eq_true]
  exact ⟨v, (List.mem_tails v v).2 List.suffix_rfl, List.isPrefixOf_iff_prefix.2 List.prefix_rfl⟩

/-- The comparison of a field, by whether the requirement is negated. -/
theorem fieldMatches_eq (fieldsSet : List (Bytes × Bytes)) (r : FieldRequirement) :
    fieldMatches fieldsSet r = (contains ((fieldsSet.lookup r.field).getD []) r.value != r.negated) := by
  unfold fieldMatches FieldRequirement.negated
  rcases r.valid with h | h | h <;> simp [h]

/-- An object that satisfies a requirement passes the comparison unless the requirement is
negated and its value stands inside of the field. -/
theorem fieldMatches_of_matches {fieldsSet : List (Bytes × Bytes)} {r : FieldRequirement}
    (h : r.matches fieldsSet = true) :
    fieldMatches fieldsSet r = true ↔
      (r.negated = true → contains ((fieldsSet.lookup r.field).getD []) r.value = false) := by
  rw [fieldMatches_eq]
  cases hneg : r.negated with
  | true => simp
  | false =>
    have hvalue : (fieldsSet.lookup r.field).getD [] = r.value := by
      simpa [FieldRequirement.matches, hneg] using h
    simp [hvalue, contains_self]

/-- The filter of a watch, on an object whose labels are selected. -/
theorem filterEventBySelectors_fields {kv : KeyValue} {m : Meta} {labelSelector fieldSelector : Bytes}
    {reqs : List FieldRequirement} (hvalue : kv.value ≠ []) (hobj : c.decodeObject kv.key kv.value = some m)
    (hlabels : ((p.labels labelSelector).getD []).all fun r => r.matches fun k => m.labels.lookup k)
    (hparse : p.fields fieldSelector = some reqs) :
    p.filterEventBySelectors c labelSelector fieldSelector kv = true ↔
      ∀ r ∈ reqs, fieldMatches m.fieldsSet r = true := by
  have hls : (if labelSelector ≠ [] then (p.labels labelSelector).getD [] else []).all
      fun r => r.matches fun k => m.labels.lookup k := by
    split
    · exact hlabels
    · rfl
  have hfs : (if fieldSelector ≠ [] then (p.fields fieldSelector).getD [] else []) = reqs := by
    split
    · rw [hparse, Option.getD_some]
    · rename_i hnil
      have hnil := not_not.1 hnil
      rw [hnil, p.fields_nil] at hparse
      exact Option.some.inj hparse
  unfold filterEventBySelectors
  split
  · rename_i hskip
    obtain ⟨-, rfl⟩ := hskip.resolve_left hvalue
    rw [p.fields_nil] at hparse
    cases hparse
    simp
  · simp only [hobj, hls, not_true_eq_false, if_false, hfs, decide_eq_true_eq]
    rw [eq_comm, List.length_filter_eq_length_iff]

/-- The condition of a list, on the row of an object in range. -/
theorem fieldsSelected_iff {start key fieldSelector : Bytes} {id : ℤ} {fieldsSet : List (Bytes × Bytes)}
    {rows : List FieldRow} {reqs : List FieldRequirement} (hrange : start <+: key)
    (hrows : (rows.filter fun x => x.kineId = id) = fieldRows id key fieldsSet)
    (hne : fieldSelector ≠ []) (hparse : p.fields fieldSelector = some reqs) :
    p.fieldsSelected db (selectorPattern start) fieldSelector rows id = true ↔
      reqs ≠ [] ∧ fieldsSet ≠ [] ∧ ∀ r ∈ reqs,
        ∃ text, db.jsonExtract (fieldsMap fieldsSet) (underscored r.field) = some text ∧
          like ([37] ++ r.value ++ [37]) text = !r.negated := by
  have hany : ∀ f : FieldRow → Bool, (rows.any fun x => x.kineId = id && f x) = (fieldRows id key fieldsSet).any f := by
    intro f
    rw [← hrows, List.any_filter]
  unfold fieldsSelected renderFieldSelectorWhere
  simp only [if_neg hne, hparse, FieldsSelect.selects, List.map_eq_nil_iff]
  split
  · rename_i hnil
    simp [hnil]
  · rename_i hreqs
    simp only [Option.getD_some, Bool.and_assoc]
    rw [hany]
    unfold fieldRows
    split
    · rename_i hfields
      simp only [List.any_cons, List.any_nil, Bool.or_false, like_of_prefix hrange, Bool.true_and, List.all_map,
        List.all_eq_true, Function.comp_apply, FieldWhere.holds, Option.any_eq_true, bne_iff_ne, ne_eq, hreqs,
        hfields, not_false_eq_true, true_and]
      refine forall₂_congr fun r _ => exists_congr fun text => and_congr_right fun _ => ?_
      cases r.negated <;> simp
    · rename_i hfields
      simp [not_not.1 hfields]

end SelectorParser

open SelectorParser in
/-- **The objects that satisfy a field selector** are kept by the filter of a watch and by
the condition of a list if and only if there is no selector, or it has a requirement and of
each the stored document has a value for the field, which a pattern around the value of the
requirement matches for `=` and does not match for `!=`, and which, for `!=`, does not
contain that value. -/
theorem field_selector_keeps_iff (p : SelectorParser) (c : Codec) (db : Sqlite) {kv : KeyValue} {m : Meta}
    {start labelSelector fieldSelector : Bytes} {reqs : List FieldRequirement} {id : ℤ} {rows : List FieldRow}
    (hvalue : kv.value ≠ []) (hobj : c.decodeObject kv.key kv.value = some m) (hrange : start <+: kv.key)
    (hrows : (rows.filter fun x => x.kineId = id) = fieldRows id kv.key m.fieldsSet)
    (hlabels : ((p.labels labelSelector).getD []).all fun r => r.matches fun k => m.labels.lookup k)
    (hparse : p.fields fieldSelector = some reqs)
    (hmatch : ∀ r ∈ reqs, r.matches m.fieldsSet = true) :
    (p.filterEventBySelectors c labelSelector fieldSelector kv = true ∧
      p.fieldsSelected db (selectorPattern start) fieldSelector rows id = true) ↔
    fieldSelector = [] ∨
      reqs ≠ [] ∧ m.fieldsSet ≠ [] ∧ ∀ r ∈ reqs,
        (∃ text, db.jsonExtract (fieldsMap m.fieldsSet) (underscored r.field) = some text ∧
          like ([37] ++ r.value ++ [37]) text = !r.negated) ∧
        (r.negated = true → contains ((m.fieldsSet.lookup r.field).getD []) r.value = false) := by
  have hfilter : p.filterEventBySelectors c labelSelector fieldSelector kv = true ↔
      ∀ r ∈ reqs, r.negated = true → contains ((m.fieldsSet.lookup r.field).getD []) r.value = false := by
    rw [filterEventBySelectors_fields hvalue hobj hlabels hparse]
    exact forall₂_congr fun r hr => fieldMatches_of_matches (hmatch r hr)
  rw [hfilter]
  by_cases hne : fieldSelector = []
  · have hnil : reqs = [] := by
      rw [hne, p.fields_nil] at hparse
      exact (Option.some.inj hparse).symm
    subst hne hnil
    simp [fieldsSelected, renderFieldSelectorWhere]
  · rw [fieldsSelected_iff hrange hrows hne hparse]
    simp only [hne, false_or, forall_and]
    tauto

/-- A JSON path is the name of a member. -/
def memberSqlite : Sqlite := ⟨fun doc name => doc.find? name, fun _ _ _ => rfl⟩

/-- `spec.nodeName=node-1` keeps the object on that node. -/
theorem field_selector_keeps_equal :
    (parsesAs [] [⟨ascii "spec.nodeName", .equals, ascii "node-1", .inl rfl⟩]).filterEventBySelectors echoCodec []
        (ascii "spec.nodeName=node-1") ⟨ascii "/pods/a", ascii "node-1", 1, 1, 1, 0⟩ = true ∧
    (parsesAs [] [⟨ascii "spec.nodeName", .equals, ascii "node-1", .inl rfl⟩]).fieldsSelected memberSqlite
        (SelectorParser.selectorPattern (ascii "/pods/")) (ascii "spec.nodeName=node-1")
        (fieldRows 1 (ascii "/pods/a") [(ascii "spec.nodeName", ascii "node-1")]) 1 = true :=
  (field_selector_keeps_iff (parsesAs [] [⟨ascii "spec.nodeName", .equals, ascii "node-1", .inl rfl⟩]) echoCodec
    memberSqlite (by decide) rfl ⟨ascii "a", by decide⟩ rfl rfl rfl (by decide +kernel)).2
    (.inr ⟨by decide, by decide, by
      intro r hr
      obtain rfl := List.mem_singleton.1 hr
      exact ⟨⟨ascii "node-1", by decide +kernel, by decide +kernel⟩, by decide⟩⟩)

/-- `spec.nodeName!=node-1` drops the object on `node-10`, from a watch and from a list. -/
theorem field_selector_drops :
    let r : FieldRequirement := ⟨ascii "spec.nodeName", .notEquals, ascii "node-1", .inr (.inr rfl)⟩
    let p := parsesAs [] [r]
    r.matches [(ascii "spec.nodeName", ascii "node-10")] = true ∧
    p.filterEventBySelectors echoCodec [] (ascii "spec.nodeName!=node-1")
        ⟨ascii "/pods/a", ascii "node-10", 1, 1, 1, 0⟩ = false ∧
    p.fieldsSelected memberSqlite (SelectorParser.selectorPattern (ascii "/pods/")) (ascii "spec.nodeName!=node-1")
        (fieldRows 1 (ascii "/pods/a") [(ascii "spec.nodeName", ascii "node-10")]) 1 = false := by
  decide +kernel

/-! ### Requirements of equality -/

theorem fieldsMap_fold_ne {fieldsSet : List (Bytes × Bytes)} {name : Bytes}
    (h : name ∉ fieldsSet.map fun f => underscored f.1) (doc : OMap Bytes Bytes) :
    (fieldsSet.foldl (fun doc f => doc.insert (underscored f.1) f.2) doc).find? name = doc.find? name := by
  induction fieldsSet generalizing doc with
  | nil => rfl
  | cons g fieldsSet ih =>
    rw [List.map_cons, List.mem_cons, not_or] at h
    rw [List.foldl_cons, ih h.2, OMap.find_insert_ne _ _ h.1]

/-- The stored document has every field under its name with underscores, unless two fields
have the same. -/
theorem fieldsMap_find {fieldsSet : List (Bytes × Bytes)} (hnd : (fieldsSet.map fun f => underscored f.1).Nodup)
    {f : Bytes × Bytes} (hf : f ∈ fieldsSet) : (fieldsMap fieldsSet).find? (underscored f.1) = some f.2 := by
  unfold fieldsMap
  generalize (OMap.empty : OMap Bytes Bytes) = doc
  induction fieldsSet generalizing doc with
  | nil => cases hf
  | cons g fieldsSet ih =>
    rw [List.map_cons, List.nodup_cons] at hnd
    rw [List.foldl_cons]
    rcases List.mem_cons.1 hf with rfl | hmem
    · rw [fieldsMap_fold_ne hnd.1, OMap.find_insert_self]
    · exact ih hnd.2 hmem _

/-- **Requirements of equality on fields that the object has keep it**: looking for the value
inside of the field finds at least what is equal. -/
theorem field_equals_kept (p : SelectorParser) (db : Sqlite) {start key fieldSelector : Bytes} {id : ℤ}
    {fieldsSet : List (Bytes × Bytes)} {rows : List FieldRow} {reqs : List FieldRequirement}
    (hrange : start <+: key) (hrows : (rows.filter fun x => x.kineId = id) = fieldRows id key fieldsSet)
    (hnd : (fieldsSet.map fun f => underscored f.1).Nodup) (hparse : p.fields fieldSelector = some reqs)
    (hne : reqs ≠ []) (hreqs : ∀ r ∈ reqs, r.negated = false ∧ plainLabel (underscored r.field) = true ∧
      (r.field, r.value) ∈ fieldsSet) :
    p.fieldsSelected db (SelectorParser.selectorPattern start) fieldSelector rows id = true := by
  have hsel : fieldSelector ≠ [] := by
    rintro rfl
    rw [p.fields_nil] at hparse
    exact hne (Option.some.inj hparse).symm
  obtain ⟨r₀, hr₀⟩ := List.exists_mem_of_ne_nil reqs hne
  refine (SelectorParser.fieldsSelected_iff hrange hrows hsel hparse).2
    ⟨hne, List.ne_nil_of_mem (hreqs r₀ hr₀).2.2, fun r hr => ?_⟩
  obtain ⟨hneg, hplain, hmem⟩ := hreqs r hr
  refine ⟨r.value, (db.member _ _ hplain).trans (fieldsMap_find hnd hmem), ?_⟩
  rw [like_within_self, hneg, Bool.not_false]

end Harikube
