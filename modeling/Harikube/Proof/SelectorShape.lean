import Harikube.Proof.SelectorSql

/-!
# What the text of a selector condition depends on

Names and values of a selector should reach the database as arguments only. SQLite's comparison of
fields has the name of the field in its text.

* `same_text`: selectors of the same shape that are empty together have the same text, if for SQLite
  the names of the fields are the same.
* `names_of_text`: for SQLite the text tells the names of the fields, if they have no quotes.
* `selector_text_iff`: **so the text depends on the shape alone if and only if the names are the same
  where they are part of it.**
-/

namespace Harikube.SelectorSql

open Template

variable {p : SelectorParser} {d : Driver} {sql key : Bytes} {args : List Arg}

/-- The operators and the numbers of values of a pair of selectors that parse. -/
def shape (p : SelectorParser) (labelSelector fieldSelector : Bytes) : Option (List (Operator × ℕ) × List Operator) :=
  match p.labels labelSelector, p.fields fieldSelector with
  | some ls, some fs => some (ls.map fun r => (r.operator, r.values.length), fs.map fun r => r.operator)
  | _, _ => none

/-- The names of the fields as they are rendered. -/
def fieldNames (p : SelectorParser) (fieldSelector : Bytes) : List Bytes :=
  ((p.fields fieldSelector).getD []).map fun r => underscored r.field

/-- The text for a pair of selectors. -/
def selectorText (p : SelectorParser) (d : Driver) (sql key : Bytes) (args : List Arg)
    (labelSelector fieldSelector : Bytes) : Bytes :=
  (renderSelectorsWhere p sql key labelSelector fieldSelector args d.selectorLookupSQL).1

/-- What the two pairs of selectors must have in common besides their shape. -/
def Agree (p : SelectorParser) (d : Driver) (ls fs ls' fs' : Bytes) : Prop :=
  (ls = [] ↔ ls' = []) ∧ (fs = [] ↔ fs' = []) ∧ (d = .sqlite → fieldNames p fs = fieldNames p fs')

/-! ## The skeleton of a condition -/

/-- What is the same for related elements is the same for related lists. -/
theorem map_eq_of_map_eq {α β γ : Type*} {f : α → β} {g : α → γ} (h : ∀ a b, f a = f b → g a = g b) :
    ∀ {l l' : List α}, l.map f = l'.map f → l.map g = l'.map g := by
  intro l
  induction l with
  | nil =>
    intro l' hl
    rw [List.map_nil, eq_comm, List.map_eq_nil_iff] at hl
    rw [hl]
  | cons a l ih =>
    intro l' hl
    cases l' with
    | nil => simp at hl
    | cons b l' =>
      rw [List.map_cons, List.map_cons, List.cons.injEq] at hl
      rw [List.map_cons, List.map_cons, h a b hl.1, ih hl.2]

theorem skeleton_valueList {values values' : List Bytes} (h : values.length = values'.length) :
    skeleton (valueList values) = skeleton (valueList values') := by
  refine skeleton_joined _ ?_
  have hone : ∀ vs : List Bytes, (vs.map fun v => [str v]).map skeleton = List.replicate vs.length [.hole ()] := by
    intro vs
    rw [List.map_map]
    exact List.map_const'
  rw [hone, hone, h]

theorem skeleton_requirement {pattern : Bytes} (r r' : Requirement)
    (h : (r.operator, r.values.length) = (r'.operator, r'.values.length)) :
    skeleton (labelClause (renderRequirement pattern r)) = skeleton (labelClause (renderRequirement pattern r')) := by
  obtain ⟨hop, hlen⟩ := Prod.mk.inj h
  unfold renderRequirement
  rw [← hop]
  cases r.operator with
  | inSet =>
    simp only [labelClause, skeleton_append, skeleton_valueList hlen]
    rfl
  | notIn =>
    simp only [labelClause, skeleton_append, skeleton_valueList hlen]
    rfl
  | _ => rfl

theorem skeleton_labelsClause {pattern : Bytes} {n n' : ℕ} {ls ls' : List Requirement}
    (h : (ls.map fun r => (r.operator, r.values.length)) = ls'.map fun r => (r.operator, r.values.length)) :
    skeleton (labelsClause ⟨pattern, ls.map (renderRequirement pattern), n⟩) =
      skeleton (labelsClause ⟨pattern, ls'.map (renderRequirement pattern), n'⟩) := by
  have hwheres : ((ls.map (renderRequirement pattern)).map labelClause).map skeleton =
      ((ls'.map (renderRequirement pattern)).map labelClause).map skeleton := by
    simp only [List.map_map]
    exact map_eq_of_map_eq (fun r r' hr => skeleton_requirement r r' hr) h
  unfold labelsClause
  simp only [skeleton_append, skeleton_joined _ hwheres]
  rfl

theorem skeleton_fieldClause (r r' : FieldRequirement) (hop : r.operator = r'.operator)
    (hname : d = .sqlite → underscored r.field = underscored r'.field) :
    skeleton (fieldClause d (fieldWhere r)) = skeleton (fieldClause d (fieldWhere r')) := by
  have hlookup : skeleton (lookupClause (underscored r.field) r.value d) =
      skeleton (lookupClause (underscored r'.field) r'.value d) := by
    cases d with
    | sqlite =>
      rw [hname rfl]
      rfl
    | mysql => rfl
    | pgsql => rfl
  unfold fieldClause fieldWhere FieldRequirement.negated
  simp only [skeleton_append, hlookup, hop]

theorem skeleton_fieldsClause {pattern : Bytes} {fs fs' : List FieldRequirement}
    (h : (fs.map fun r => r.operator) = fs'.map fun r => r.operator)
    (hnames : d = .sqlite → (fs.map fun r => underscored r.field) = fs'.map fun r => underscored r.field) :
    skeleton (fieldsClause d ⟨pattern, fs.map fieldWhere⟩) = skeleton (fieldsClause d ⟨pattern, fs'.map fieldWhere⟩) := by
  have hwheres : ((fs.map fieldWhere).map (fieldClause d)).map skeleton =
      ((fs'.map fieldWhere).map (fieldClause d)).map skeleton := by
    simp only [List.map_map]
    by_cases hd : d = .sqlite
    · have hboth : (fs.map fun r => (r.operator, underscored r.field)) =
          fs'.map fun r => (r.operator, underscored r.field) := by
        rw [← List.zip_map', ← List.zip_map', h, hnames hd]
      refine map_eq_of_map_eq (fun r r' hr => ?_) hboth
      obtain ⟨hop, hname⟩ := Prod.mk.inj hr
      exact skeleton_fieldClause r r' hop fun _ => hname
    · exact map_eq_of_map_eq (fun r r' hr => skeleton_fieldClause r r' hr fun h => absurd h hd) h
  unfold fieldsClause
  simp only [skeleton_append, skeleton_joined _ hwheres]

/-! ## The text -/

theorem shape_cases {ls fs : Bytes} {s : List (Operator × ℕ) × List Operator} (h : shape p ls fs = some s) :
    ∃ rs ws, p.labels ls = some rs ∧ p.fields fs = some ws ∧
      s = (rs.map fun r => (r.operator, r.values.length), ws.map fun r => r.operator) := by
  unfold shape at h
  split at h
  · rename_i rs ws hrs hws
    exact ⟨rs, ws, hrs, hws, (Option.some.inj h).symm⟩
  · simp at h

/-- The condition of selectors that parse. -/
def rendered (key ls fs : Bytes) (rs : List Requirement) (ws : List FieldRequirement) :
    Option LabelsSelect × Option FieldsSelect :=
  (if ls = [] then none
    else some ⟨SelectorParser.selectorPattern key, rs.map (renderRequirement (SelectorParser.selectorPattern key)),
      rs.length⟩,
    if fs = [] then none else some ⟨SelectorParser.selectorPattern key, ws.map fieldWhere⟩)

theorem selectorText_eq (hsql : SelectorParser.contains sql (ascii "$") = d.numbered) {ls fs : Bytes}
    {rs : List Requirement} {ws : List FieldRequirement} (hrs : p.labels ls = some rs) (hws : p.fields fs = some ws) :
    selectorText p d sql key args ls fs =
      print (mark d.numbered) (args.length + 1) (clause d (rendered key ls fs rs ws)) := by
  have hrender : p.renderSelectorsWhere key ls fs = .ok (rendered key ls fs rs ws) := by
    unfold SelectorParser.renderSelectorsWhere SelectorParser.renderLabelSelectorWhere
      SelectorParser.renderFieldSelectorWhere rendered
    by_cases hl : ls = []
    · by_cases hf : fs = []
      · simp [hl, hf]
      · simp only [hl, hf, hws, if_true, if_false]
        rfl
    · by_cases hf : fs = []
      · simp [hl, hf, hrs]
      · simp only [hl, hf, hrs, hws, if_false]
        rfl
  unfold selectorText
  rw [render_ok hsql hrender]

/-- **The text is the same for selectors of the same shape** that agree. -/
theorem same_text (hsql : SelectorParser.contains sql (ascii "$") = d.numbered) {ls fs ls' fs' : Bytes}
    {s : List (Operator × ℕ) × List Operator} (h : shape p ls fs = some s) (h' : shape p ls' fs' = some s)
    (hagree : Agree p d ls fs ls' fs') :
    selectorText p d sql key args ls fs = selectorText p d sql key args ls' fs' := by
  obtain ⟨rs, ws, hrs, hws, rfl⟩ := shape_cases h
  obtain ⟨rs', ws', hrs', hws', heq⟩ := shape_cases h'
  obtain ⟨hlabels, hfields⟩ := Prod.mk.inj heq
  obtain ⟨hls, hfs, hnames⟩ := hagree
  rw [selectorText_eq hsql hrs hws, selectorText_eq hsql hrs' hws']
  refine print_congr ?_ _
  unfold clause rendered
  rw [skeleton_append, skeleton_append]
  congr 1
  · by_cases hl : ls = []
    · rw [if_pos hl, if_pos (hls.1 hl)]
    · rw [if_neg hl, if_neg fun hl' => hl (hls.2 hl')]
      exact skeleton_labelsClause hlabels
  · by_cases hf : fs = []
    · rw [if_pos hf, if_pos (hfs.1 hf)]
    · rw [if_neg hf, if_neg fun hf' => hf (hfs.2 hf')]
      refine skeleton_fieldsClause hfields fun hd => ?_
      have hn := hnames hd
      unfold fieldNames at hn
      rw [hws, hws'] at hn
      exact hn

/-! ## What the text tells -/

/-- Where the two conditions begin to differ. -/
theorem print_labelsClause (m : ℕ → Bytes) (k : ℕ) (q : LabelsSelect) :
    ∃ u, print m k (labelsClause q) = ascii " AND id IN (\n\t\tSELECT kine_id\n\t\tFROM kine_" ++ 108 :: u := by
  have hsplit : ascii " AND id IN (\n\t\tSELECT kine_id\n\t\tFROM kine_labels\n\t\tWHERE kine_name LIKE " =
      ascii " AND id IN (\n\t\tSELECT kine_id\n\t\tFROM kine_" ++ 108 :: ascii "abels\n\t\tWHERE kine_name LIKE " := by
    repeat rw [ascii_ofList]
    rfl
  unfold labelsClause
  simp only [List.append_assoc, List.cons_append, lit, print, hsplit]
  exact ⟨_, rfl⟩

theorem print_fieldsClause (m : ℕ → Bytes) (k : ℕ) (q : FieldsSelect) :
    ∃ u, print m k (fieldsClause d q) = ascii " AND id IN (\n\t\tSELECT kine_id\n\t\tFROM kine_" ++ 102 :: u := by
  have hsplit : ascii " AND id IN (\n\t\tSELECT kine_id\n\t\tFROM kine_fields\n\t\tWHERE kine_name LIKE " =
      ascii " AND id IN (\n\t\tSELECT kine_id\n\t\tFROM kine_" ++ 102 :: ascii "ields\n\t\tWHERE kine_name LIKE " := by
    repeat rw [ascii_ofList]
    rfl
  unfold fieldsClause
  simp only [List.append_assoc, List.cons_append, lit, print, hsplit]
  exact ⟨_, rfl⟩

/-- The text of an empty label selector is not that of one that is not empty. -/
theorem labels_of_text {m : ℕ → Bytes} {k k' : ℕ} {f f' : Option FieldsSelect} {l : LabelsSelect}
    (h : print m k (clause d (none, f)) = print m k' (clause d (some l, f'))) : False := by
  unfold clause at h
  rw [print_append, print_append] at h
  obtain ⟨u, hu⟩ := print_labelsClause m k' l
  simp only [Option.map_none, Option.getD_none, Option.map_some, Option.getD_some, hu, print, List.nil_append] at h
  cases f with
  | none => simp [print] at h
  | some f =>
    obtain ⟨v, hv⟩ := print_fieldsClause (d := d) m (k + (holes ([] : Clause)).length) f
    simp only [Option.map_some, Option.getD_some, hv, List.append_assoc, List.append_cancel_left_eq,
      List.cons_append, List.cons.injEq] at h
    exact absurd h.1 (by decide)

/-- A text up to the first quote. -/
theorem quoted_inj {a b u v : Bytes} (ha : 39 ∉ a) (hb : 39 ∉ b) (h : a ++ 39 :: u = b ++ 39 :: v) : a = b ∧ u = v := by
  induction a generalizing b with
  | nil =>
    cases b with
    | nil => exact ⟨rfl, (List.cons.inj h).2⟩
    | cons c b => exact absurd ((List.cons.inj h).1 ▸ List.mem_cons_self) hb
  | cons c a ih =>
    cases b with
    | nil => exact absurd ((List.cons.inj h).1 ▸ List.mem_cons_self) ha
    | cons c' b =>
      obtain ⟨rfl, htail⟩ := List.cons.inj h
      obtain ⟨rfl, huv⟩ := ih (fun hc => ha (List.mem_cons_of_mem _ hc)) (fun hc => hb (List.mem_cons_of_mem _ hc)) htail
      exact ⟨rfl, huv⟩

/-- The text of a conjunct, up to the name of the field and from there on. -/
theorem questions_fieldClause (r : FieldRequirement) :
    questions (fieldClause .sqlite (fieldWhere r)) =
      ascii (if r.negated then "(NOT " else "(") ++ (ascii "json_extract(value, '$." ++ (underscored r.field ++
        39 :: ascii ") LIKE CONCAT('%', ?, '%'))")) := by
  unfold fieldClause
  rw [questions_append, questions_append]
  unfold questions fieldWhere lookupClause lit str
  simp only [print, List.append_nil, List.append_assoc]
  rfl

theorem name_of_conjunct {r r' : FieldRequirement} (hop : r.operator = r'.operator) (hr : 39 ∉ underscored r.field)
    (hr' : 39 ∉ underscored r'.field) {u v : Bytes}
    (h : questions (fieldClause .sqlite (fieldWhere r)) ++ u = questions (fieldClause .sqlite (fieldWhere r')) ++ v) :
    underscored r.field = underscored r'.field ∧ u = v := by
  have hneg : r.negated = r'.negated := by
    unfold FieldRequirement.negated
    rw [hop]
  rw [questions_fieldClause, questions_fieldClause, hneg] at h
  simp only [List.append_assoc, List.append_cancel_left_eq, List.cons_append] at h
  obtain ⟨hname, hrest⟩ := quoted_inj hr hr' h
  exact ⟨hname, List.append_cancel_left hrest⟩

/-- **For SQLite the text tells the names of the fields**, if they have no quotes. -/
theorem names_of_text {ws : List FieldRequirement} : ∀ {ws' : List FieldRequirement} {u v : Bytes},
    (ws.map fun r => r.operator) = (ws'.map fun r => r.operator) →
    (∀ r ∈ ws, 39 ∉ underscored r.field) → (∀ r ∈ ws', 39 ∉ underscored r.field) →
    (ascii " AND ").intercalate (ws.map fun r => questions (fieldClause .sqlite (fieldWhere r))) ++ u =
      (ascii " AND ").intercalate (ws'.map fun r => questions (fieldClause .sqlite (fieldWhere r))) ++ v →
    (ws.map fun r => underscored r.field) = ws'.map fun r => underscored r.field := by
  induction ws with
  | nil =>
    intro ws' u v hop _ _ _
    rw [List.map_nil, eq_comm, List.map_eq_nil_iff] at hop
    rw [hop]
  | cons r ws ih =>
    intro ws' u v hop hws hws' h
    cases ws' with
    | nil => simp at hop
    | cons r' ws' =>
      obtain ⟨hop₀, hops⟩ := List.cons.inj hop
      have hr := hws r List.mem_cons_self
      have hr' := hws' r' List.mem_cons_self
      -- one more conjunct follows in both texts or in neither
      cases ws with
      | nil =>
        obtain rfl : ws' = [] := by
          rw [List.map_nil, eq_comm, List.map_eq_nil_iff] at hops
          exact hops
        simp only [List.map_cons, List.map_nil, List.intercalate_singleton] at h ⊢
        rw [(name_of_conjunct hop₀ hr hr' h).1]
      | cons r₁ ws =>
        cases ws' with
        | nil => simp at hops
        | cons r₁' ws' =>
          simp only [List.map_cons, List.intercalate_cons_cons, List.append_assoc] at h
          obtain ⟨hname, hrest⟩ := name_of_conjunct hop₀ hr hr' h
          have hnames := ih hops (fun x hx => hws x (List.mem_cons_of_mem _ hx))
            (fun x hx => hws' x (List.mem_cons_of_mem _ hx)) (List.append_cancel_left hrest)
          rw [List.map_cons, hname, hnames]
          rfl

theorem names_of_fieldsClause {pattern : Bytes} {k k' : ℕ} {ws ws' : List FieldRequirement}
    (hops : (ws.map fun r => r.operator) = ws'.map fun r => r.operator)
    (hquotes : ∀ n ∈ (ws.map fun r => underscored r.field) ++ ws'.map fun r => underscored r.field, 39 ∉ n)
    (h : print (mark false) k (fieldsClause .sqlite ⟨pattern, ws.map fieldWhere⟩) =
      print (mark false) k' (fieldsClause .sqlite ⟨pattern, ws'.map fieldWhere⟩)) :
    (ws.map fun r => underscored r.field) = ws'.map fun r => underscored r.field := by
  have hquestions : questions (fieldsClause .sqlite ⟨pattern, ws.map fieldWhere⟩) =
      questions (fieldsClause .sqlite ⟨pattern, ws'.map fieldWhere⟩) :=
    (print_const [63] 0 k _).trans (h.trans (print_const [63] k' 0 _))
  unfold fieldsClause at hquestions
  simp only [questions_append, questions_joined, List.map_map, List.append_assoc, List.append_cancel_left_eq]
    at hquestions
  refine names_of_text hops (fun r hr => ?_) (fun r hr => ?_) hquestions
  · exact hquotes _ (List.mem_append_left _ (List.mem_map.2 ⟨r, hr, rfl⟩))
  · exact hquotes _ (List.mem_append_right _ (List.mem_map.2 ⟨r, hr, rfl⟩))

/-- What equal texts of two field conditions tell. -/
theorem fields_of_text {ls fs ls' fs' : Bytes} {k k' : ℕ} {rs rs' : List Requirement} {ws ws' : List FieldRequirement}
    (hops : (ws.map fun r => r.operator) = ws'.map fun r => r.operator)
    (h : print (mark d.numbered) k (((rendered key ls fs rs ws).2.map (fieldsClause d)).getD []) =
      print (mark d.numbered) k' (((rendered key ls' fs' rs' ws').2.map (fieldsClause d)).getD [])) :
    (fs = [] ↔ fs' = []) ∧ (d = .sqlite → fs ≠ [] →
      (∀ n ∈ (ws.map fun r => underscored r.field) ++ ws'.map fun r => underscored r.field, 39 ∉ n) →
      (ws.map fun r => underscored r.field) = ws'.map fun r => underscored r.field) := by
  have hne : ∀ {k : ℕ} {q : FieldsSelect}, print (mark d.numbered) k (fieldsClause d q) ≠ [] := by
    intro k q hnil
    obtain ⟨u, hu⟩ := print_fieldsClause (d := d) (mark d.numbered) k q
    rw [hu] at hnil
    simp at hnil
  unfold rendered at h
  by_cases hf : fs = []
  · by_cases hf' : fs' = []
    · exact ⟨⟨fun _ => hf', fun _ => hf⟩, fun _ hfs => absurd hf hfs⟩
    · rw [if_pos hf, if_neg hf'] at h
      exact absurd h.symm hne
  · by_cases hf' : fs' = []
    · rw [if_neg hf, if_pos hf'] at h
      exact absurd h hne
    · rw [if_neg hf, if_neg hf'] at h
      refine ⟨⟨fun hfs => absurd hfs hf, fun hfs' => absurd hfs' hf'⟩, ?_⟩
      rintro rfl - hquotes
      exact names_of_fieldsClause hops hquotes h

/-- Equal texts come from selectors that agree. -/
theorem agree_of_text (hsql : SelectorParser.contains sql (ascii "$") = d.numbered) {ls fs ls' fs' : Bytes}
    {s : List (Operator × ℕ) × List Operator} (h : shape p ls fs = some s) (h' : shape p ls' fs' = some s)
    (hquotes : d = .sqlite → ∀ n ∈ fieldNames p fs ++ fieldNames p fs', 39 ∉ n)
    (htext : selectorText p d sql key args ls fs = selectorText p d sql key args ls' fs') : Agree p d ls fs ls' fs' := by
  obtain ⟨rs, ws, hrs, hws, rfl⟩ := shape_cases h
  obtain ⟨rs', ws', hrs', hws', heq⟩ := shape_cases h'
  obtain ⟨hlabels, hops⟩ := Prod.mk.inj heq
  have hnames : fieldNames p fs = ws.map fun r => underscored r.field := by
    unfold fieldNames
    rw [hws]
    rfl
  have hnames' : fieldNames p fs' = ws'.map fun r => underscored r.field := by
    unfold fieldNames
    rw [hws']
    rfl
  rw [selectorText_eq hsql hrs hws, selectorText_eq hsql hrs' hws'] at htext
  have hls : ls = [] ↔ ls' = [] := by
    unfold rendered at htext
    constructor
    · intro hl
      by_contra hl'
      rw [if_pos hl, if_neg hl'] at htext
      exact labels_of_text htext
    · intro hl'
      by_contra hl
      rw [if_neg hl, if_pos hl'] at htext
      exact labels_of_text htext.symm
  -- the two label conditions have the same text, so what remains is that of the field conditions
  have hskeleton : skeleton (((rendered key ls fs rs ws).1.map labelsClause).getD []) =
      skeleton (((rendered key ls' fs' rs' ws').1.map labelsClause).getD []) := by
    unfold rendered
    by_cases hl : ls = []
    · rw [if_pos hl, if_pos (hls.1 hl)]
    · rw [if_neg hl, if_neg fun hl' => hl (hls.2 hl')]
      exact skeleton_labelsClause hlabels
  unfold clause at htext
  rw [print_append, print_append, print_congr hskeleton] at htext
  have hrest := List.append_cancel_left htext
  obtain ⟨hfs, hfields⟩ := fields_of_text hops hrest
  refine ⟨hls, hfs, fun hd => ?_⟩
  rw [hnames, hnames'] at hquotes ⊢
  by_cases hf : fs = []
  · rw [hf, p.fields_nil] at hws
    rw [hfs.1 hf, p.fields_nil] at hws'
    rw [← Option.some.inj hws, ← Option.some.inj hws']
  · exact hfields hd hf (hquotes hd)

/-- **When the text depends on the shape of the selectors alone.** Two pairs of selectors of the same
shape that agree have the same text; and if their texts are the same and no name of a field that is
part of them has a quote, they agree. -/
theorem selector_text_iff (p : SelectorParser) (d : Driver) (sql key : Bytes) (args : List Arg)
    (hsql : SelectorParser.contains sql (ascii "$") = d.numbered) (ls fs ls' fs' : Bytes)
    (s : List (Operator × ℕ) × List Operator) (h : shape p ls fs = some s) (h' : shape p ls' fs' = some s) :
    (Agree p d ls fs ls' fs' →
      selectorText p d sql key args ls fs = selectorText p d sql key args ls' fs') ∧
    ((d = .sqlite → ∀ n ∈ fieldNames p fs ++ fieldNames p fs', 39 ∉ n) →
      selectorText p d sql key args ls fs = selectorText p d sql key args ls' fs' → Agree p d ls fs ls' fs') :=
  ⟨same_text hsql h h', agree_of_text hsql h h'⟩

theorem selector_text_mysql :
    selectorText termParser .mysql (ascii "id <= ?") (ascii "/pods/") listArgs (ascii "app=web")
        (ascii "spec.nodeName=n1") =
      selectorText termParser .mysql (ascii "id <= ?") (ascii "/pods/") listArgs (ascii "tier=db")
        (ascii "status.phase=Failed") := by
  refine (selector_text_iff termParser .mysql (ascii "id <= ?") (ascii "/pods/") listArgs (by decide +kernel)
    (ascii "app=web") (ascii "spec.nodeName=n1") (ascii "tier=db") (ascii "status.phase=Failed")
    ([(.equals, 1)], [.equals]) (by decide +kernel) (by decide +kernel)).1 ⟨?_, ?_, ?_⟩
  · decide
  · decide
  · intro hd
    exact absurd hd (by decide)

/-- **For SQLite the name of a field is part of the statement**, where it may end the string that it
stands in; and a label selector without requirements that is not the empty text has a condition of
its own, for every driver. -/
theorem selector_text_spliced :
    shape termParser [] (ascii "x=v") = some ([], [.equals]) ∧
    shape termParser [] (ascii "x') OR ('1=v") = some ([], [.equals]) ∧
    selectorText termParser .sqlite (ascii "id <= ?") (ascii "/pods/") listArgs [] (ascii "x=v") =
      ascii " AND id IN (\n\t\tSELECT kine_id\n\t\tFROM kine_fields\n\t\tWHERE kine_name LIKE ? AND ((json_extract(value, '$.x') LIKE CONCAT('%', ?, '%')))\n\t\tGROUP BY kine_id\n\t)\n\t" ∧
    selectorText termParser .sqlite (ascii "id <= ?") (ascii "/pods/") listArgs [] (ascii "x') OR ('1=v") =
      ascii " AND id IN (\n\t\tSELECT kine_id\n\t\tFROM kine_fields\n\t\tWHERE kine_name LIKE ? AND ((json_extract(value, '$.x') OR ('1') LIKE CONCAT('%', ?, '%')))\n\t\tGROUP BY kine_id\n\t)\n\t" ∧
    shape termParser [] [] = some ([], []) ∧ shape termParser (ascii " ") [] = some ([], []) ∧
    selectorText termParser .pgsql (ascii "id <= $3") (ascii "/pods/") listArgs [] [] ≠
      selectorText termParser .pgsql (ascii "id <= $3") (ascii "/pods/") listArgs (ascii " ") [] := by
  unfold shape selectorText renderSelectorsWhere renderLabelSelectorWhere renderFieldSelectorWhere termParser fieldCase
    sprintf fieldsSelect labelsSelect Driver.selectorLookupSQL listArgs
  repeat rw [ascii_ofList]
  decide +kernel

end Harikube.SelectorSql
