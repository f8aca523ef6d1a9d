import Harikube.Proof.Version
import Harikube.Spec.SelectorSql

/-!
# Placeholders and arguments

* `labelCase_eq`, `fieldCase_eq`: each case of the two renderers appends the text of a condition and
  the arguments that belong in its holes.
* `render_eq`: so the text is the printed condition of both selectors, and the arguments those of its
  holes.
* `placeholders_bound`: **the placeholders of the text are the holes of the condition, one for each
  argument and numbered from the arguments before.**
-/

namespace Harikube.SelectorSql

open Template

/-! ## Formats -/

theorem sprintf_plain {s : Bytes} (hs : 37 ∉ s) (f : Bytes) (args : List Bytes) :
    sprintf (s ++ f) args = s ++ sprintf f args := by
  induction s with
  | nil => rfl
  | cons c s ih =>
    have hc : c ≠ 37 := fun h => hs (h ▸ List.mem_cons_self)
    have hrest := ih fun h => hs (List.mem_cons_of_mem _ h)
    cases hsf : s ++ f with
    | nil =>
      obtain ⟨rfl, rfl⟩ := List.append_eq_nil_iff.1 hsf
      rfl
    | cons d g =>
      rw [hsf] at hrest
      rw [List.cons_append, List.cons_append, hsf, ← hrest]
      simp only [sprintf, hc, false_and, if_false]

theorem sprintf_verb (f a : Bytes) (args : List Bytes) : sprintf (37 :: 115 :: f) (a :: args) = a ++ sprintf f args := by
  simp [sprintf]

theorem sprintf_percent (f : Bytes) (args : List Bytes) : sprintf (37 :: 37 :: f) args = 37 :: sprintf f args := by
  simp [sprintf]

theorem sprintf_labelsSelect (id wheres : Bytes) :
    sprintf labelsSelect [id, wheres] =
      ascii " AND " ++ (id ++ (ascii " IN (\n\t\tSELECT kine_id\n\t\tFROM kine_labels\n\t\tWHERE kine_name LIKE ? AND (" ++
        (wheres ++ ascii ")\n\t\tGROUP BY kine_id\n\t\tHAVING COUNT(kine_id) = ?\n\t)\n\t"))) := by
  have hsplit : labelsSelect = ascii " AND " ++ 37 :: 115 ::
      (ascii " IN (\n\t\tSELECT kine_id\n\t\tFROM kine_labels\n\t\tWHERE kine_name LIKE ? AND (" ++ 37 :: 115 ::
        (ascii ")\n\t\tGROUP BY kine_id\n\t\tHAVING COUNT(kine_id) = ?\n\t)\n\t" ++ [])) := by
    unfold labelsSelect
    repeat rw [ascii_ofList]
    rfl
  rw [hsplit, sprintf_plain (by rw [ascii_ofList]; decide), sprintf_verb, sprintf_plain (by rw [ascii_ofList]; decide), sprintf_verb,
    sprintf_plain (by rw [ascii_ofList]; decide)]
  simp [sprintf]

theorem sprintf_fieldsSelect (id wheres : Bytes) :
    sprintf fieldsSelect [id, wheres] =
      ascii " AND " ++ (id ++ (ascii " IN (\n\t\tSELECT kine_id\n\t\tFROM kine_fields\n\t\tWHERE kine_name LIKE ? AND (" ++
        (wheres ++ ascii ")\n\t\tGROUP BY kine_id\n\t)\n\t"))) := by
  have hsplit : fieldsSelect = ascii " AND " ++ 37 :: 115 ::
      (ascii " IN (\n\t\tSELECT kine_id\n\t\tFROM kine_fields\n\t\tWHERE kine_name LIKE ? AND (" ++ 37 :: 115 ::
        (ascii ")\n\t\tGROUP BY kine_id\n\t)\n\t" ++ [])) := by
    unfold fieldsSelect
    repeat rw [ascii_ofList]
    rfl
  rw [hsplit, sprintf_plain (by rw [ascii_ofList]; decide), sprintf_verb, sprintf_plain (by rw [ascii_ofList]; decide), sprintf_verb,
    sprintf_plain (by rw [ascii_ofList]; decide)]
  simp [sprintf]

/-! ## Cases -/

/-- The text with `?` for each hole. -/
def questions (ps : Clause) : Bytes := print (fun _ => [63]) 0 ps

theorem questions_append (ps qs : Clause) : questions (ps ++ qs) = questions ps ++ questions qs := by
  unfold questions
  rw [print_append, print_const _ (0 + _) 0]

theorem questions_joined (s : Bytes) (pss : List Clause) :
    questions (joined s pss) = s.intercalate (pss.map questions) := print_joined _ _ _ _

theorem inGen_eq (values : List Bytes) : inGen values.length = questions (valueList values) := by
  have hrepeat : ∀ l : ℕ, (List.replicate (l + 1) (ascii "?,")).flatten =
      (ascii ",").intercalate (List.replicate (l + 1) [63]) ++ ascii "," := by
    intro l
    induction l with
    | zero => decide
    | succ l ih =>
      rw [List.replicate_succ, List.flatten_cons, ih, List.replicate_succ]
      simp only [List.intercalate, List.replicate_succ, List.intersperse_cons_cons, List.flatten_cons]
      rw [show ascii "?," = [63] ++ ascii "," by decide]
      simp only [List.append_assoc]
  have hquestions : questions (valueList values) = (ascii ",").intercalate (List.replicate values.length [63]) := by
    unfold valueList
    rw [questions_joined, List.map_map]
    congr 1
    exact List.map_const'
  rw [hquestions]
  unfold inGen trimSuffix
  cases values.length with
  | zero => decide
  | succ l =>
    rw [hrepeat, if_pos (by rw [List.isSuffixOf_iff_suffix]; exact List.suffix_append _ _), List.length_append,
      Nat.add_sub_cancel, List.take_left']
    rfl

theorem holes_valueList (values : List Bytes) : holes (valueList values) = values.map .string := by
  unfold valueList
  rw [holes_joined, List.flatMap_map, List.map_eq_flatMap]
  rfl

/-- **Each case of `renderLabelSelectorWhere`.** -/
theorem labelCase_eq (pattern : Bytes) (r : Requirement) :
    labelCase pattern r =
      (questions (labelClause (renderRequirement pattern r)), holes (labelClause (renderRequirement pattern r))) := by
  have hin : ∀ name : Bytes, questions [lit "(name = ", str name, lit " AND value IN ("] =
      ascii "(name = ? AND value IN (" := by
    intro name
    simp only [questions, print, lit, str]
    repeat rw [ascii_ofList]
    rfl
  have hnotIn : ∀ name : Bytes, questions [lit "(name = ", str name, lit " AND value NOT IN ("] =
      ascii "(name = ? AND value NOT IN (" := by
    intro name
    simp only [questions, print, lit, str]
    repeat rw [ascii_ofList]
    rfl
  have hclose : questions [lit "))"] = ascii "))" := List.append_nil _
  unfold labelCase renderRequirement
  cases r.operator with
  | inSet =>
    simp only [labelClause, questions_append, holes_append, inGen_eq, holes_valueList, hin, hclose]
    simp only [holes, lit, str, List.append_nil, List.cons_append, List.nil_append]
  | notIn =>
    simp only [labelClause, questions_append, holes_append, inGen_eq, holes_valueList, hnotIn, hclose]
    simp only [holes, lit, str, List.append_nil, List.cons_append, List.nil_append]
  | _ =>
    simp only [labelClause, questions, print, holes, lit, str]
    repeat rw [ascii_ofList]
    rfl

/-- Only SQLite's comparison has the name of the field in its text. -/
theorem fieldReplace_eq (d : Driver) :
    SelectorParser.contains d.selectorLookupSQL (ascii "%s") = decide (d = .sqlite) := by
  unfold Driver.selectorLookupSQL
  cases d with
  | _ =>
    simp only
    repeat rw [ascii_ofList]
    rfl

/-- No driver has a second placeholder for the name of the field. -/
theorem selectorLookupSQL_count (d : Driver) : d.selectorLookupSQL.count 63 = 1 := by
  unfold Driver.selectorLookupSQL
  cases d with
  | _ =>
    simp only
    rw [ascii_ofList]
    decide

/-- What the comparison of a field is rendered to. -/
theorem lookup_eq (d : Driver) (field value : Bytes) :
    (if SelectorParser.contains d.selectorLookupSQL (ascii "%s") = true then sprintf d.selectorLookupSQL [field]
      else d.selectorLookupSQL) = questions (lookupClause field value d) := by
  rw [fieldReplace_eq]
  unfold Driver.selectorLookupSQL questions lookupClause
  cases d with
  | sqlite =>
    have hsplit : ascii "json_extract(value, '$.%s') LIKE CONCAT('%%', ?, '%%')" =
        ascii "json_extract(value, '$." ++ 37 :: 115 :: (ascii "') LIKE CONCAT('" ++ 37 :: 37 ::
          (ascii "', ?, '" ++ 37 :: 37 :: (ascii "')" ++ []))) := by
      repeat rw [ascii_ofList]
      rfl
    rw [if_pos (by decide)]
    simp only [print, lit, str, hsplit]
    repeat rw [ascii_ofList]
    rw [sprintf_plain (by decide), sprintf_verb, sprintf_plain (by decide), sprintf_percent, sprintf_plain (by decide),
      sprintf_percent, sprintf_plain (by decide)]
    rfl
  | mysql =>
    rw [if_neg (by decide)]
    simp only [print, lit, str]
    repeat rw [ascii_ofList]
    rfl
  | pgsql =>
    rw [if_neg (by decide)]
    simp only [print, lit, str]
    repeat rw [ascii_ofList]
    rfl

/-- The conjunct of a requirement. -/
def fieldWhere (r : FieldRequirement) : FieldWhere := ⟨r.negated, underscored r.field, r.value⟩

/-- **Each case of `renderFieldSelectorWhere`.** -/
theorem fieldCase_eq (d : Driver) (r : FieldRequirement) :
    fieldCase d.selectorLookupSQL r =
      ([questions (fieldClause d (fieldWhere r))], holes (fieldClause d (fieldWhere r))) := by
  have hholes : holes (fieldClause d (fieldWhere r)) = [.string r.value] := by
    unfold fieldClause
    cases d <;> rfl
  have hone : ¬ 1 < d.selectorLookupSQL.count 63 := by rw [selectorLookupSQL_count]; decide
  rw [hholes]
  unfold fieldCase
  simp only [gt_iff_lt, hone, and_false, if_false, List.nil_append, lookup_eq d (underscored r.field) r.value]
  unfold fieldClause fieldWhere FieldRequirement.negated
  rcases r.valid with h | h | h
  · simp only [h, questions_append]
    rfl
  · simp only [h, questions_append]
    rfl
  · simp only [h, questions_append]
    rfl

/-! ## The clauses -/

/-- A loop that appends to two lists. -/
theorem foldl_collect {α β γ : Type*} (f : α → List β) (g : α → List γ) (xs : List α) (bs : List β) (cs : List γ) :
    xs.foldl (fun (acc : List β × List γ) x => (acc.1 ++ f x, acc.2 ++ g x)) (bs, cs) =
      (bs ++ xs.flatMap f, cs ++ xs.flatMap g) := by
  induction xs generalizing bs cs with
  | nil => simp
  | cons x xs ih => rw [List.foldl_cons, ih, List.flatMap_cons, List.flatMap_cons, List.append_assoc, List.append_assoc]

/-- Numbering the placeholders afterwards is printing the clause with numbers. -/
theorem numbered_eq {numbered : Bool} {ps : Clause} (h : numbered = true → 63 ∉ letters ps) (n : ℕ) :
    (if numbered = true then replaceParamsToNumbers (questions ps) n else questions ps) =
      print (mark numbered) (n + 1) ps := by
  cases numbered with
  | false => exact print_const _ _ _ _
  | true => exact replaceMarks_print (h rfl) 0 (n + 1)

theorem questions_labelsClause (pattern : Bytes) (reqs : List Requirement) :
    sprintf labelsSelect [ascii "id", (ascii " OR ").intercalate (reqs.map fun r => (labelCase pattern r).1)] =
      questions (labelsClause ⟨pattern, reqs.map (renderRequirement pattern), reqs.length⟩) := by
  rw [sprintf_labelsSelect]
  unfold labelsClause
  simp only [questions_append, questions_joined, List.map_map, labelCase_eq]
  simp only [questions, print, lit, str, List.append_nil, List.append_assoc]
  repeat rw [ascii_ofList]
  rfl

theorem holes_labelsClause (pattern : Bytes) (reqs : List Requirement) :
    .string pattern :: reqs.flatMap (fun r => (labelCase pattern r).2) ++ [.int reqs.length] =
      holes (labelsClause ⟨pattern, reqs.map (renderRequirement pattern), reqs.length⟩) := by
  unfold labelsClause
  simp only [holes_append, holes_joined, List.map_map, labelCase_eq, List.flatMap_map]
  rfl

theorem questions_fieldsClause (d : Driver) (pattern : Bytes) (reqs : List FieldRequirement) :
    sprintf fieldsSelect [ascii "id",
        (ascii " AND ").intercalate (reqs.flatMap fun r => (fieldCase d.selectorLookupSQL r).1)] =
      questions (fieldsClause d ⟨pattern, reqs.map fieldWhere⟩) := by
  rw [sprintf_fieldsSelect]
  unfold fieldsClause
  simp only [questions_append, questions_joined, List.map_map, fieldCase_eq, ← List.map_eq_flatMap]
  simp only [questions, print, lit, str, List.append_nil, List.append_assoc]
  repeat rw [ascii_ofList]
  rfl

theorem holes_fieldsClause (d : Driver) (pattern : Bytes) (reqs : List FieldRequirement) :
    .string pattern :: reqs.flatMap (fun r => (fieldCase d.selectorLookupSQL r).2) =
      holes (fieldsClause d ⟨pattern, reqs.map fieldWhere⟩) := by
  unfold fieldsClause
  simp only [holes_append, holes_joined, List.map_map, fieldCase_eq, List.flatMap_map]
  simp [holes, lit, str]

/-! ## What the texts are made of -/

/-- A letter that begins no placeholder, of either style. -/
def plainLetter (c : Fin 256) : Bool := c ≠ 63 && c ≠ 36

theorem not_mem_of_plain {s : Bytes} (h : s.all plainLetter = true) : 63 ∉ s ∧ 36 ∉ s := by
  constructor
  · intro hc
    exact absurd (List.all_eq_true.1 h _ hc) (by decide)
  · intro hc
    exact absurd (List.all_eq_true.1 h _ hc) (by decide)

theorem plain_joined {s : Bytes} (hs : s.all plainLetter = true) {pss : List Clause}
    (h : ∀ ps ∈ pss, (letters ps).all plainLetter = true) : (letters (joined s pss)).all plainLetter = true := by
  rw [List.all_eq_true]
  intro c hc
  rcases mem_letters_joined hc with hc | ⟨ps, hps, hc⟩
  · exact List.all_eq_true.1 hs c hc
  · exact List.all_eq_true.1 (h ps hps) c hc

theorem plain_valueList (values : List Bytes) : (letters (valueList values)).all plainLetter = true := by
  refine plain_joined (by decide) fun ps hps => ?_
  obtain ⟨v, -, rfl⟩ := List.mem_map.1 hps
  rfl

theorem plain_labelClause (w : LabelWhere) : (letters (labelClause w)).all plainLetter = true := by
  cases w with
  | oneOf name values =>
    simp only [labelClause, letters_append, List.all_append, Bool.and_eq_true, plain_valueList, letters, lit, str]
    repeat rw [ascii_ofList]
    decide
  | noneOf name values =>
    simp only [labelClause, letters_append, List.all_append, Bool.and_eq_true, plain_valueList, letters, lit, str]
    repeat rw [ascii_ofList]
    decide
  | _ =>
    simp only [labelClause, letters, lit, str]
    repeat rw [ascii_ofList]
    decide

/-- The label condition has names and values in its holes only. -/
theorem plain_labelsClause (q : LabelsSelect) : (letters (labelsClause q)).all plainLetter = true := by
  have hwheres : (letters (joined (ascii " OR ") (q.wheres.map labelClause))).all plainLetter = true := by
    refine plain_joined (by rw [ascii_ofList]; decide) fun ps hps => ?_
    obtain ⟨w, -, rfl⟩ := List.mem_map.1 hps
    exact plain_labelClause w
  simp only [labelsClause, letters_append, List.all_append, Bool.and_eq_true, hwheres, letters, lit, str]
  repeat rw [ascii_ofList]
  decide

theorem plain_fieldClause {d : Driver} (hd : d ≠ .sqlite) (w : FieldWhere) :
    (letters (fieldClause d w)).all plainLetter = true := by
  cases d with
  | sqlite => exact absurd rfl hd
  | _ =>
    simp only [fieldClause, lookupClause, letters_append, letters, lit, str, List.all_append, Bool.and_eq_true]
    cases w.negated with
    | _ =>
      simp only [if_true, Bool.false_eq_true, if_false]
      repeat rw [ascii_ofList]
      decide

/-- So has the field condition, but for SQLite. -/
theorem plain_fieldsClause {d : Driver} (hd : d ≠ .sqlite) (q : FieldsSelect) :
    (letters (fieldsClause d q)).all plainLetter = true := by
  have hwheres : (letters (joined (ascii " AND ") (q.wheres.map (fieldClause d)))).all plainLetter = true := by
    refine plain_joined (by rw [ascii_ofList]; decide) fun ps hps => ?_
    obtain ⟨w, -, rfl⟩ := List.mem_map.1 hps
    exact plain_fieldClause hd w
  simp only [fieldsClause, letters_append, List.all_append, Bool.and_eq_true, hwheres, letters, lit, str]
  repeat rw [ascii_ofList]
  decide

/-- A `?` in the text of a conjunct comes from the name of the field. -/
theorem question_fieldClause {d : Driver} {w : FieldWhere} (h : 63 ∈ letters (fieldClause d w)) : 63 ∈ w.field := by
  by_cases hd : d = .sqlite
  · subst hd
    simp only [fieldClause, lookupClause, letters_append, letters, lit, str, List.append_nil, List.mem_append] at h
    have hopen : 63 ∉ ascii (if w.negated = true then "(NOT " else "(") := by
      cases w.negated with
      | _ =>
        simp only [if_true, Bool.false_eq_true, if_false]
        rw [ascii_ofList]
        decide
    rcases h with (h | h | h | h | h) | h
    · exact absurd h hopen
    · exact absurd h (by rw [ascii_ofList]; decide)
    · exact h
    · exact absurd h (by rw [ascii_ofList]; decide)
    · exact absurd h (by rw [ascii_ofList]; decide)
    · exact absurd h (by rw [ascii_ofList]; decide)
  · exact absurd h (not_mem_of_plain (plain_fieldClause hd w)).1

theorem question_fieldsClause {d : Driver} {q : FieldsSelect} (h : 63 ∈ letters (fieldsClause d q)) :
    ∃ w ∈ q.wheres, 63 ∈ w.field := by
  simp only [fieldsClause, letters_append, letters, lit, str, List.append_nil, List.mem_append] at h
  rcases h with ((h | h) | h) | h
  · exact absurd h (by rw [ascii_ofList]; decide)
  · exact absurd h (by rw [ascii_ofList]; decide)
  · rcases mem_letters_joined h with h | ⟨ps, hps, h⟩
    · exact absurd h (by rw [ascii_ofList]; decide)
    · obtain ⟨w, hw, rfl⟩ := List.mem_map.1 hps
      exact ⟨w, hw, question_fieldClause h⟩
  · exact absurd h (by rw [ascii_ofList]; decide)

theorem question_underscored {field : Bytes} (h : 63 ∈ underscored field) : 63 ∈ field := by
  obtain ⟨c, hc, heq⟩ := List.mem_map.1 h
  split at heq
  · exact absurd heq (by decide)
  · exact heq ▸ hc

/-! ## What follows a placeholder -/

theorem closed_valueList (values : List Bytes) : closed isDigit (valueList values ++ [lit "))"]) = true := by
  induction values with
  | nil => rfl
  | cons v rest ih =>
    cases rest with
    | nil => rfl
    | cons u rest => exact ih

theorem closed_labelClause (w : LabelWhere) : closed isDigit (labelClause w) = true := by
  cases w with
  | oneOf name values =>
    rw [labelClause, List.append_assoc]
    exact closed_append rfl (closed_valueList values)
  | noneOf name values =>
    rw [labelClause, List.append_assoc]
    exact closed_append rfl (closed_valueList values)
  | _ => rfl

theorem closed_labelsClause (q : LabelsSelect) : closed isDigit (labelsClause q) = true := by
  refine closed_append (closed_append rfl (closed_joined _ fun ps hps => ?_)) rfl
  obtain ⟨w, -, rfl⟩ := List.mem_map.1 hps
  exact closed_labelClause w

theorem closed_fieldsClause (d : Driver) (q : FieldsSelect) : closed isDigit (fieldsClause d q) = true := by
  refine closed_append (closed_append rfl (closed_joined _ fun ps hps => ?_)) rfl
  obtain ⟨w, -, rfl⟩ := List.mem_map.1 hps
  exact closed_append (closed_append rfl (by cases d <;> rfl)) rfl

/-! ## Rendering -/

section Rendering

variable {p : SelectorParser} {d : Driver} {sql key pattern labelSelector fieldSelector : Bytes} {args : List Arg}

theorem renderLabel_ok {numbered : Bool} {q : Option LabelsSelect}
    (h : p.renderLabelSelectorWhere pattern labelSelector = .ok q) :
    renderLabelSelectorWhere p (ascii "id") pattern labelSelector args numbered =
      (print (mark numbered) (args.length + 1) ((q.map labelsClause).getD []),
        args ++ holes ((q.map labelsClause).getD []), none) := by
  unfold SelectorParser.renderLabelSelectorWhere at h
  unfold renderLabelSelectorWhere
  split at h
  · rename_i hempty
    obtain rfl := Except.ok.inj h
    rw [if_pos hempty]
    simp [print, holes]
  · rename_i hne
    split at h
    · simp at h
    · rename_i reqs hparse
      obtain rfl := Except.ok.inj h
      simp only [if_neg hne, hparse, Option.map_some, Option.getD_some]
      rw [foldl_collect (fun r => [(labelCase pattern r).1]) (fun r => (labelCase pattern r).2), List.nil_append,
        ← List.map_eq_flatMap]
      simp only
      rw [questions_labelsClause, numbered_eq fun _ => (not_mem_of_plain (plain_labelsClause _)).1,
        ← holes_labelsClause]
      simp

theorem renderField_ok {numbered : Bool} {q : Option FieldsSelect} (hnum : numbered = true → d ≠ .sqlite)
    (h : p.renderFieldSelectorWhere pattern fieldSelector = .ok q) :
    renderFieldSelectorWhere p (ascii "id") pattern fieldSelector args numbered d.selectorLookupSQL =
      (print (mark numbered) (args.length + 1) ((q.map (fieldsClause d)).getD []),
        args ++ holes ((q.map (fieldsClause d)).getD []), none) := by
  unfold SelectorParser.renderFieldSelectorWhere at h
  unfold renderFieldSelectorWhere
  split at h
  · rename_i hempty
    obtain rfl := Except.ok.inj h
    rw [if_pos hempty]
    simp [print, holes]
  · rename_i hne
    split at h
    · simp at h
    · rename_i reqs hparse
      obtain rfl := Except.ok.inj h
      simp only [if_neg hne, hparse, Option.map_some, Option.getD_some]
      rw [foldl_collect, List.nil_append]
      simp only
      rw [questions_fieldsClause,
        numbered_eq fun hn => (not_mem_of_plain (plain_fieldsClause (hnum hn) ⟨pattern, reqs.map fieldWhere⟩)).1,
        List.append_assoc, List.singleton_append, holes_fieldsClause]
      rfl

theorem sqlite_not_numbered (hd : d.numbered = true) : d ≠ .sqlite := by
  rintro rfl
  exact absurd hd (by decide)

/-- **The text is the printed condition of both selectors, and the arguments are those of its
holes.** -/
theorem render_ok (hsql : SelectorParser.contains sql (ascii "$") = d.numbered)
    {q : Option LabelsSelect × Option FieldsSelect} (h : p.renderSelectorsWhere key labelSelector fieldSelector = .ok q) :
    renderSelectorsWhere p sql key labelSelector fieldSelector args d.selectorLookupSQL =
      (print (mark d.numbered) (args.length + 1) (clause d q), args ++ holes (clause d q), none) := by
  unfold SelectorParser.renderSelectorsWhere at h
  split at h
  · simp at h
  · rename_i labels hlabels
    split at h
    · simp at h
    · rename_i fields hfields
      obtain rfl := Except.ok.inj h
      unfold renderSelectorsWhere clause
      simp only [hsql, renderLabel_ok hlabels, renderField_ok sqlite_not_numbered hfields]
      rw [print_append, holes_append, List.length_append, List.append_assoc]
      congr 2
      congr 1
      omega

/-- A selector that does not parse is reported. -/
theorem render_error {err : Err} (h : p.renderSelectorsWhere key labelSelector fieldSelector = .error err)
    (lookup : Bytes) : (renderSelectorsWhere p sql key labelSelector fieldSelector args lookup).2.2 = some err := by
  have hlabel : ∀ {e : Err} {n : Bool},
      p.renderLabelSelectorWhere (SelectorParser.selectorPattern key) labelSelector = .error e →
      renderLabelSelectorWhere p (ascii "id") (SelectorParser.selectorPattern key) labelSelector args n =
        ([], args, some e) := by
    intro e n he
    unfold SelectorParser.renderLabelSelectorWhere at he
    unfold renderLabelSelectorWhere
    split at he
    · simp at he
    · rename_i hne
      split at he
      · rename_i hparse
        obtain rfl := Except.error.inj he
        simp only [if_neg hne, hparse]
      · simp at he
  have hfield : ∀ {e : Err} {n : Bool} {as : List Arg},
      p.renderFieldSelectorWhere (SelectorParser.selectorPattern key) fieldSelector = .error e →
      renderFieldSelectorWhere p (ascii "id") (SelectorParser.selectorPattern key) fieldSelector as n lookup =
        ([], as, some e) := by
    intro e n as he
    unfold SelectorParser.renderFieldSelectorWhere at he
    unfold renderFieldSelectorWhere
    split at he
    · simp at he
    · rename_i hne
      split at he
      · rename_i hparse
        obtain rfl := Except.error.inj he
        simp only [if_neg hne, hparse]
      · simp at he
  unfold SelectorParser.renderSelectorsWhere at h
  unfold renderSelectorsWhere
  split at h
  · rename_i e he
    obtain rfl := Except.error.inj h
    simp only [hlabel he]
  · rename_i labels hlabels
    split at h
    · rename_i e he
      obtain rfl := Except.error.inj h
      simp only [renderLabel_ok hlabels, hfield he]
    · simp at h

/-- The requirements that a condition is made of. -/
theorem render_cases {q : Option LabelsSelect × Option FieldsSelect}
    (h : p.renderSelectorsWhere key labelSelector fieldSelector = .ok q) :
    ∃ ls fs, p.labels labelSelector = some ls ∧ p.fields fieldSelector = some fs ∧
      q.1 = (if labelSelector = [] then none
        else some ⟨SelectorParser.selectorPattern key,
          ls.map (renderRequirement (SelectorParser.selectorPattern key)), ls.length⟩) ∧
      q.2 = if fieldSelector = [] then none else some ⟨SelectorParser.selectorPattern key, fs.map fieldWhere⟩ := by
  have hlabel : ∀ {l}, p.renderLabelSelectorWhere (SelectorParser.selectorPattern key) labelSelector = .ok l →
      ∃ ls, p.labels labelSelector = some ls ∧ l = if labelSelector = [] then none
        else some ⟨SelectorParser.selectorPattern key,
          ls.map (renderRequirement (SelectorParser.selectorPattern key)), ls.length⟩ := by
    intro l hl
    unfold SelectorParser.renderLabelSelectorWhere at hl
    split at hl
    · rename_i hempty
      exact ⟨[], by rw [hempty, p.labels_nil], by rw [if_pos hempty, Except.ok.inj hl]⟩
    · rename_i hne
      split at hl
      · simp at hl
      · rename_i ls hparse
        exact ⟨ls, hparse, by rw [if_neg hne, Except.ok.inj hl]⟩
  have hfield : ∀ {f}, p.renderFieldSelectorWhere (SelectorParser.selectorPattern key) fieldSelector = .ok f →
      ∃ fs, p.fields fieldSelector = some fs ∧ f = if fieldSelector = [] then none
        else some ⟨SelectorParser.selectorPattern key, fs.map fieldWhere⟩ := by
    intro f hf
    unfold SelectorParser.renderFieldSelectorWhere at hf
    split at hf
    · rename_i hempty
      exact ⟨[], by rw [hempty, p.fields_nil], by rw [if_pos hempty, Except.ok.inj hf]⟩
    · rename_i hne
      split at hf
      · simp at hf
      · rename_i fs hparse
        refine ⟨fs, hparse, ?_⟩
        rw [if_neg hne, ← Except.ok.inj hf]
        rfl
  unfold SelectorParser.renderSelectorsWhere at h
  split at h
  · simp at h
  · rename_i labels hlabels
    split at h
    · simp at h
    · rename_i fields hfields
      obtain rfl := Except.ok.inj h
      obtain ⟨ls, hls, hl⟩ := hlabel hlabels
      obtain ⟨fs, hfs, hf⟩ := hfield hfields
      exact ⟨ls, fs, hls, hfs, hl, hf⟩

end Rendering

/-! ## Placeholders -/

theorem itoa_ne_nil (n : ℕ) : itoa n ≠ [] := by
  intro h
  have hrepr : n.repr.toList = [] := List.map_eq_nil_iff.1 h
  rw [Nat.repr_eq_ofList_toDigits, String.toList_ofList] at hrepr
  exact Nat.toDigits_ne_nil hrepr

theorem itoa_digits (n : ℕ) : ∀ c ∈ itoa n, isDigit c = true := by
  intro c hc
  obtain ⟨d, hd, rfl⟩ := List.mem_map.1 hc
  obtain ⟨hlo, hhi⟩ := isDigit_bounds (digits_of_repr d hd)
  unfold isDigit
  rw [ofNat_val (by omega)]
  simp [hlo, hhi]

/-- The placeholders of a printed clause. -/
theorem placeholders_print {numbered : Bool} {ps : Clause} (hclosed : closed isDigit ps = true)
    (hquestion : 63 ∉ letters ps) (hdollar : numbered = true → 36 ∉ letters ps) (k : ℕ) :
    placeholders numbered (print (mark numbered) k ps) = (List.range' k (holes ps).length).map (mark numbered) := by
  cases numbered with
  | false =>
    show ((print (fun _ => [63]) k ps).filter fun c => c = 63).map (fun c => [c]) = _
    have hmark : mark false = fun _ => [63] := rfl
    rw [filter_print hquestion, List.map_map, hmark, List.map_const', List.length_range']
    exact List.map_const'
  | true =>
    show (scanMarks 36 isDigit (print (fun n => 36 :: itoa n) k ps)).map (fun ds => 36 :: ds) = _
    rw [scanMarks_print itoa_ne_nil itoa_digits (by decide) hclosed (hdollar rfl), List.map_map]
    rfl

/-- The text of a condition has no `?` but for its placeholders, if no name of a field has one; and
if the placeholders are numbered, no `$`. -/
theorem letters_clause {p : SelectorParser} {d : Driver} {key labelSelector fieldSelector : Bytes}
    {q : Option LabelsSelect × Option FieldsSelect}
    (hnames : ∀ reqs, p.fields fieldSelector = some reqs → ∀ r ∈ reqs, 63 ∉ r.field)
    (h : p.renderSelectorsWhere key labelSelector fieldSelector = .ok q) :
    63 ∉ letters (clause d q) ∧ (d.numbered = true → 36 ∉ letters (clause d q)) := by
  obtain ⟨ls, fs, -, hfs, hl, hf⟩ := render_cases h
  have hlabels : 63 ∉ letters ((q.1.map labelsClause).getD []) ∧ 36 ∉ letters ((q.1.map labelsClause).getD []) := by
    cases q.1 with
    | none => exact ⟨List.not_mem_nil, List.not_mem_nil⟩
    | some l => exact not_mem_of_plain (plain_labelsClause l)
  have hfields : 63 ∉ letters ((q.2.map (fieldsClause d)).getD []) ∧
      (d.numbered = true → 36 ∉ letters ((q.2.map (fieldsClause d)).getD [])) := by
    rw [hf]
    split
    · exact ⟨List.not_mem_nil, fun _ => List.not_mem_nil⟩
    · refine ⟨fun hq => ?_, fun hd => (not_mem_of_plain (plain_fieldsClause (sqlite_not_numbered hd) _)).2⟩
      obtain ⟨w, hw, hq⟩ := question_fieldsClause hq
      obtain ⟨r, hr, rfl⟩ := List.mem_map.1 hw
      exact hnames fs hfs r hr (question_underscored hq)
  unfold clause
  rw [letters_append]
  simp only [List.mem_append, not_or]
  exact ⟨⟨hlabels.1, hfields.1⟩, fun hd => ⟨hlabels.2, hfields.2 hd⟩⟩

theorem closed_clause (d : Driver) (q : Option LabelsSelect × Option FieldsSelect) :
    closed isDigit (clause d q) = true := by
  refine closed_append ?_ ?_
  · cases q.1 with
    | none => rfl
    | some l => exact closed_labelsClause l
  · cases q.2 with
    | none => rfl
    | some f => exact closed_fieldsClause d f

/-- **Each placeholder stands for its argument**: the text is a condition printed with a placeholder
in each hole, the arguments that are appended are those of the holes in the same order, and the
placeholders that are found in the text are as many, numbered after the arguments before. -/
theorem placeholders_bound (p : SelectorParser) (d : Driver) (sql key labelSelector fieldSelector : Bytes)
    (args : List Arg) (hsql : SelectorParser.contains sql (ascii "$") = d.numbered)
    (hnames : ∀ reqs, p.fields fieldSelector = some reqs → ∀ r ∈ reqs, 63 ∉ r.field)
    (hok : (renderSelectorsWhere p sql key labelSelector fieldSelector args d.selectorLookupSQL).2.2 = none) :
    ∃ q, p.renderSelectorsWhere key labelSelector fieldSelector = .ok q ∧
      (renderSelectorsWhere p sql key labelSelector fieldSelector args d.selectorLookupSQL).1 =
        print (mark d.numbered) (args.length + 1) (clause d q) ∧
      (renderSelectorsWhere p sql key labelSelector fieldSelector args d.selectorLookupSQL).2.1 =
        args ++ holes (clause d q) ∧
      placeholders d.numbered
          (renderSelectorsWhere p sql key labelSelector fieldSelector args d.selectorLookupSQL).1 =
        (List.range' (args.length + 1) (holes (clause d q)).length).map (mark d.numbered) := by
  cases h : p.renderSelectorsWhere key labelSelector fieldSelector with
  | error err =>
    rw [render_error h] at hok
    exact absurd hok (by simp)
  | ok q =>
    obtain ⟨hquestion, hdollar⟩ := letters_clause (d := d) hnames h
    refine ⟨q, rfl, ?_⟩
    rw [render_ok hsql h]
    exact ⟨rfl, rfl, placeholders_print (closed_clause d q) hquestion hdollar _⟩

/-- Selectors of one term `name=value`, and label selectors of spaces, which have no requirements. -/
def termParser : SelectorParser where
  labels text :=
    if text.all fun c => c = 32 then some []
    else some [⟨text.takeWhile fun c => c ≠ 61, .equals, [(text.dropWhile fun c => c ≠ 61).drop 1], rfl⟩]
  fields text :=
    if text = [] then some []
    else some [⟨text.takeWhile fun c => c ≠ 61, .equals, (text.dropWhile fun c => c ≠ 61).drop 1, .inl rfl⟩]
  labels_nil := rfl
  fields_nil := rfl

/-- The arguments of a list before those of its selectors. -/
def listArgs : List Arg := [.string (ascii "/pods/"), .string (ascii "/pods0"), .bool false]

theorem placeholders_bound_pods :
    (renderSelectorsWhere termParser (ascii "id <= $3") (ascii "/pods/") (ascii "app=web")
        (ascii "spec.nodeName=n1") listArgs Driver.pgsql.selectorLookupSQL).2.1 =
      listArgs ++ [.string (ascii "/pods/%"), .string (ascii "app"), .string (ascii "web"), .int 1,
        .string (ascii "/pods/%"), .string (ascii "n1")] ∧
    ∃ q, termParser.renderSelectorsWhere (ascii "/pods/") (ascii "app=web") (ascii "spec.nodeName=n1") = .ok q ∧
      (renderSelectorsWhere termParser (ascii "id <= $3") (ascii "/pods/") (ascii "app=web")
          (ascii "spec.nodeName=n1") listArgs Driver.pgsql.selectorLookupSQL).1 =
        print (mark true) 4 (clause .pgsql q) ∧
      (renderSelectorsWhere termParser (ascii "id <= $3") (ascii "/pods/") (ascii "app=web")
          (ascii "spec.nodeName=n1") listArgs Driver.pgsql.selectorLookupSQL).2.1 =
        listArgs ++ holes (clause .pgsql q) ∧
      placeholders true (renderSelectorsWhere termParser (ascii "id <= $3") (ascii "/pods/") (ascii "app=web")
          (ascii "spec.nodeName=n1") listArgs Driver.pgsql.selectorLookupSQL).1 =
        (List.range' 4 (holes (clause .pgsql q)).length).map (mark true) := by
  refine ⟨by decide +kernel, placeholders_bound termParser .pgsql (ascii "id <= $3") (ascii "/pods/")
    (ascii "app=web") (ascii "spec.nodeName=n1") listArgs (by decide +kernel) ?_ (by decide +kernel)⟩
  intro reqs hparse r hr
  rw [← Option.some.inj hparse, List.mem_singleton] at hr
  rw [hr]
  decide

end Harikube.SelectorSql
