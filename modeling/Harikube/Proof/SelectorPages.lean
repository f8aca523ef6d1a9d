import Harikube.Proof.Backends
import Harikube.Proof.Selectors
import Harikube.Sorted.Page

/-!
# Lists with selectors, page by page

The condition of the selectors asks for the label and field rows whose name is like the start
key of the list, which is the prefix of the range on the first page only.

* `condition_cases`: the condition is the pattern of the start key, and a condition that does
  not depend on where the list starts.
* `selector_pages_iff`: the pages of a list give the list if and only if there is no selector,
  or on every later page each row that is due is like the start key of that page.
-/

namespace Harikube

open Sorted Kine SelectorParser

/-! ## The condition on a row -/

theorem like_any (s : Bytes) : like [37] s = true := likeChars_any _

/-- Two patterns that agree on the names of an id's rows. -/
theorem holds_congr {rows : List LabelRow} {y : LabelRow} {pattern pattern' : Bytes}
    (h : ∀ z ∈ rows, z.kineId = y.kineId → like pattern z.kineName = like pattern' z.kineName) (r : Requirement) :
    (renderRequirement pattern r).holds rows y = (renderRequirement pattern' r).holds rows y := by
  unfold renderRequirement
  cases r.operator with
  | doesNotExist =>
    simp only [LabelWhere.holds]
    rw [Bool.eq_iff_iff, List.all_eq_true, List.all_eq_true]
    refine forall₂_congr fun z hz => ?_
    by_cases hid : z.kineId = y.kineId
    · rw [h z hz hid]
    · simp [hid]
  | _ => rfl

namespace SelectorDb

variable {s : SelectorDb} {p : SelectorParser} {db : Sqlite}

/-- The condition for a label selector asks that the name of the row is like the pattern. -/
theorem labels_selects {x : Row} (hx : x ∈ s.kine.rows) {reqs : List Requirement} (hreqs : reqs ≠ [])
    (pattern : Bytes) :
    (LabelsSelect.selects ⟨pattern, reqs.map (renderRequirement pattern), reqs.length⟩ s.labels x.id).getD false =
      (like pattern x.name &&
        (LabelsSelect.selects ⟨[37], reqs.map (renderRequirement [37]), reqs.length⟩ s.labels x.id).getD false) := by
  have hmap : ∀ pattern : Bytes, reqs.map (renderRequirement pattern) ≠ [] := fun _ h => hreqs (List.map_eq_nil_iff.1 h)
  simp only [LabelsSelect.selects, if_neg (hmap _), Option.getD_some]
  cases hlike : like pattern x.name with
  | true =>
    have hcounted : LabelsSelect.counted ⟨pattern, reqs.map (renderRequirement pattern), reqs.length⟩ s.labels x.id =
        LabelsSelect.counted ⟨[37], reqs.map (renderRequirement [37]), reqs.length⟩ s.labels x.id := by
      refine List.filter_congr fun y hy => ?_
      by_cases hid : y.kineId = x.id
      · have hagree : ∀ z ∈ s.labels, z.kineId = y.kineId → like pattern z.kineName = like [37] z.kineName := by
          intro z hz hzy
          rw [s.labels_name z hz x hx (hid.symm.trans hzy.symm), hlike, like_any]
        simp only [hagree y hy rfl, List.any_map, Function.comp_def, holds_congr hagree]
      · simp [hid]
    rw [hcounted, Bool.true_and]
  | false =>
    have hnone : LabelsSelect.counted ⟨pattern, reqs.map (renderRequirement pattern), reqs.length⟩ s.labels x.id = [] := by
      refine List.filter_eq_nil_iff.2 fun y hy => ?_
      by_cases hid : y.kineId = x.id
      · simp [s.labels_name y hy x hx hid.symm, hlike]
      · simp [hid]
    rw [hnone, Bool.false_and]
    refine decide_eq_false fun h => hreqs ?_
    exact List.length_eq_zero_iff.1 h.symm

/-- The condition for a field selector does so too. -/
theorem fields_selects {x : Row} (hx : x ∈ s.kine.rows) {wheres : List FieldWhere} (pattern : Bytes) :
    (FieldsSelect.selects db ⟨pattern, wheres⟩ s.fields x.id).getD false =
      (like pattern x.name && (FieldsSelect.selects db ⟨[37], wheres⟩ s.fields x.id).getD false) := by
  unfold FieldsSelect.selects
  split
  · simp
  · simp only [Option.getD_some]
    cases hlike : like pattern x.name with
    | true =>
      rw [Bool.true_and, Bool.eq_iff_iff, List.any_eq_true, List.any_eq_true]
      refine exists_congr fun y => and_congr_right fun hy => ?_
      by_cases hid : y.kineId = x.id
      · rw [s.fields_name y hy x hx hid.symm, hlike, like_any]
      · simp [hid]
    | false =>
      rw [Bool.false_and, List.any_eq_false]
      intro y hy
      by_cases hid : y.kineId = x.id
      · simp [s.fields_name y hy x hx hid.symm, hlike]
      · simp [hid]

/-- What the rendering of a selector gives for the patterns: the same error for all, a query
that is no SQL for all, or queries that ask for the pattern, if there is a selector, and for
what does not depend on it. -/
def Renders {Q : Type} (rows : List Row) (absent : Bool) (render : Bytes → Except Err (Option Q)) (empty : Q → Bool)
    (selects : Q → Row → Bool) : Prop :=
  (∃ err, ∀ pattern, render pattern = .error err) ∨
  (∀ pattern, ∃ o, render pattern = .ok o ∧ o.any empty = true) ∨
  ∃ base : Row → Bool, ∀ pattern, ∃ o, render pattern = .ok o ∧ o.any empty = false ∧
    ∀ x ∈ rows, (o.all fun q => selects q x) = ((absent || like pattern x.name) && base x)

theorem renders_labels (s : SelectorDb) (p : SelectorParser) (labelSelector : Bytes) :
    Renders s.kine.rows (labelSelector = []) (fun pattern => p.renderLabelSelectorWhere pattern labelSelector)
      (fun q => q.wheres.isEmpty) fun q x => (q.selects s.labels x.id).getD false := by
  unfold Renders renderLabelSelectorWhere
  by_cases hl : labelSelector = []
  · simp only [if_pos hl]
    exact .inr (.inr ⟨fun _ => true, fun pattern => ⟨none, rfl, rfl, fun x _ => by simp [hl]⟩⟩)
  simp only [if_neg hl]
  cases p.labels labelSelector with
  | none => exact .inl ⟨.decode, fun _ => rfl⟩
  | some reqs =>
    refine .inr ?_
    by_cases hempty : reqs = []
    · exact .inl fun pattern => ⟨_, rfl, by simp [hempty]⟩
    refine .inr ⟨fun x => (LabelsSelect.selects ⟨[37], reqs.map (renderRequirement [37]), reqs.length⟩ s.labels
      x.id).getD false, fun pattern => ⟨_, rfl, by simp [hempty], fun x hx => ?_⟩⟩
    simp only [Option.all_some, hl, decide_false, Bool.false_or]
    exact labels_selects hx hempty pattern

theorem renders_fields (s : SelectorDb) (p : SelectorParser) (db : Sqlite) (fieldSelector : Bytes) :
    Renders s.kine.rows (fieldSelector = []) (fun pattern => p.renderFieldSelectorWhere pattern fieldSelector)
      (fun q => q.wheres.isEmpty) fun q x => (q.selects db s.fields x.id).getD false := by
  unfold Renders renderFieldSelectorWhere
  by_cases hf : fieldSelector = []
  · simp only [if_pos hf]
    exact .inr (.inr ⟨fun _ => true, fun pattern => ⟨none, rfl, rfl, fun x _ => by simp [hf]⟩⟩)
  simp only [if_neg hf]
  cases p.fields fieldSelector with
  | none => exact .inl ⟨.decode, fun _ => rfl⟩
  | some reqs =>
    refine .inr ?_
    by_cases hempty : reqs = []
    · exact .inl fun pattern => ⟨_, rfl, by simp [hempty]⟩
    refine .inr ⟨fun x => (FieldsSelect.selects db ⟨[37], reqs.map fun r => ⟨r.negated, underscored r.field, r.value⟩⟩
      s.fields x.id).getD false, fun pattern => ⟨_, rfl, by simp [hempty], fun x hx => ?_⟩⟩
    simp only [Option.all_some, hf, decide_false, Bool.false_or]
    exact fields_selects hx pattern

/-- The rows that the pattern of a list's start key lets pass. -/
def passes (labelSelector fieldSelector key : Bytes) (x : Row) : Bool :=
  (labelSelector = [] && fieldSelector = []) || like (selectorPattern key) x.name

/-- **The condition of the selectors**: it fails wherever the list starts, or it is the pattern
of the start key and a condition that does not depend on it. -/
theorem condition_cases (s : SelectorDb) (p : SelectorParser) (db : Sqlite) (labelSelector fieldSelector : Bytes) :
    (∃ err, ∀ key, s.condition p db key labelSelector fieldSelector = .error err) ∨
    ∃ base : Row → Bool, ∀ key, ∃ cond, s.condition p db key labelSelector fieldSelector = .ok cond ∧
      ∀ x ∈ s.kine.rows, cond x = (passes labelSelector fieldSelector key x && base x) := by
  by_cases hnone : labelSelector = [] ∧ fieldSelector = []
  · refine .inr ⟨fun _ => true, fun key => ⟨fun _ => true, if_pos hnone, fun x _ => ?_⟩⟩
    simp [passes, hnone]
  simp only [condition, if_neg hnone, renderSelectorsWhere]
  rcases renders_labels s p labelSelector with ⟨err, herr⟩ | hempty | ⟨base, hbase⟩
  · exact .inl ⟨err, fun key => by simp only [herr]⟩
  · rcases renders_fields s p db fieldSelector with ⟨err, herr⟩ | hempty' | ⟨base', hbase'⟩
    · refine .inl ⟨err, fun key => ?_⟩
      obtain ⟨o, ho, -⟩ := hempty (selectorPattern key)
      simp only [ho, herr]
    · refine .inl ⟨.database, fun key => ?_⟩
      obtain ⟨o, ho, hno⟩ := hempty (selectorPattern key)
      obtain ⟨o', ho', -⟩ := hempty' (selectorPattern key)
      simp only [ho, ho', hno, Bool.true_or, if_true]
    · refine .inl ⟨.database, fun key => ?_⟩
      obtain ⟨o, ho, hno⟩ := hempty (selectorPattern key)
      obtain ⟨o', ho', -⟩ := hbase' (selectorPattern key)
      simp only [ho, ho', hno, Bool.true_or, if_true]
  · rcases renders_fields s p db fieldSelector with ⟨err, herr⟩ | hempty' | ⟨base', hbase'⟩
    · refine .inl ⟨err, fun key => ?_⟩
      obtain ⟨o, ho, -⟩ := hbase (selectorPattern key)
      simp only [ho, herr]
    · refine .inl ⟨.database, fun key => ?_⟩
      obtain ⟨o, ho, -⟩ := hbase (selectorPattern key)
      obtain ⟨o', ho', hno⟩ := hempty' (selectorPattern key)
      simp only [ho, ho', hno, Bool.or_true, if_true]
    · refine .inr ⟨fun x => base x && base' x, fun key => ?_⟩
      obtain ⟨o, ho, hok, hsel⟩ := hbase (selectorPattern key)
      obtain ⟨o', ho', hok', hsel'⟩ := hbase' (selectorPattern key)
      refine ⟨fun x => (o.all fun q => (q.selects s.labels x.id).getD false) &&
        (o'.all fun q => (q.selects db s.fields x.id).getD false),
        by simp only [ho, ho', hok, hok', Bool.or_self, Bool.false_eq_true, if_false], fun x hx => ?_⟩
      simp only [hsel x hx, hsel' x hx, passes]
      cases like (selectorPattern key) x.name <;> cases decide (labelSelector = []) <;>
        cases decide (fieldSelector = []) <;> simp

end SelectorDb

/-! ## The rows of a range -/

/-- The rows that a list query takes the first ones of. -/
def Kine.ordered (t : Kine) (sel : Bytes → Bool) (upTo : Option ℤ) (includeDeleted : Bool) (cond : Row → Bool) :
    List Row :=
  (((t.latest sel upTo).filter fun x => !x.deleted || includeDeleted).filter cond).insertionSort
    fun x y => x.name ≤ y.name

theorem Kine.mem_ordered {t : Kine} {sel : Bytes → Bool} {upTo : Option ℤ} {includeDeleted : Bool}
    {cond : Row → Bool} {x : Row} :
    x ∈ t.ordered sel upTo includeDeleted cond ↔
      x ∈ t.latest sel upTo ∧ (!x.deleted || includeDeleted) = true ∧ cond x = true := by
  unfold Kine.ordered
  rw [List.mem_insertionSort, List.mem_filter, List.mem_filter, and_assoc]

/-- There is one row for each name. -/
theorem Kine.ordered_sorted (t : Kine) (sel : Bytes → Bool) (upTo : Option ℤ) (includeDeleted : Bool)
    (cond : Row → Bool) : (t.ordered sel upTo includeDeleted cond).Pairwise fun x y => x.name < y.name := by
  have hle : (t.ordered sel upTo includeDeleted cond).Pairwise fun x y => x.name ≤ y.name := by
    have : Std.Total fun x y : Row => x.name ≤ y.name := ⟨fun x y => le_total _ _⟩
    have : IsTrans Row fun x y => x.name ≤ y.name := ⟨fun x y z => le_trans⟩
    exact List.pairwise_insertionSort _ _
  have hnodup : (t.ordered sel upTo includeDeleted cond).Nodup := by
    unfold Kine.ordered
    rw [(List.perm_insertionSort _ _).nodup_iff]
    exact (((latest_sorted t sel upTo).imp fun {x y} h heq => by rw [heq] at h; exact lt_irrefl _ h).filter _).filter _
  refine (hle.and hnodup).imp_of_mem ?_
  rintro x y hx hy ⟨hxy, hne⟩
  refine lt_of_le_of_ne hxy fun heq => hne ?_
  obtain ⟨hxr, hxu, -, hxmax⟩ := mem_latest.1 (mem_ordered.1 hx).1
  obtain ⟨hyr, hyu, -, hymax⟩ := mem_latest.1 (mem_ordered.1 hy).1
  exact eq_of_sorted Row.id t.sorted hxr hyr (le_antisymm (hymax x hxr hxu heq) (hxmax y hyr hyu heq.symm))

/-- **A list that starts later** has the rows of the range from there on, with the pattern of
its own start key. -/
theorem Kine.ordered_from {t : Kine} {start key rangeEnd : Bytes} (hle : start ≤ key) {upTo : Option ℤ}
    {includeDeleted : Bool} {base cond pass : Row → Bool} (hcond : ∀ x ∈ t.rows, cond x = (pass x && base x)) :
    t.ordered (between key rangeEnd) upTo includeDeleted cond =
      ((t.ordered (between start rangeEnd) upTo includeDeleted base).filter fun x => key ≤ x.name).filter pass := by
  refine ext_of_sorted Row.name (ordered_sorted t _ _ _ _) (((ordered_sorted t _ _ _ _).filter _).filter _) fun x => ?_
  simp only [List.mem_filter, mem_ordered, mem_latest, between, Bool.and_eq_true, decide_eq_true_eq]
  constructor
  · rintro ⟨⟨hx, hu, ⟨hkey, hend⟩, hmax⟩, hd, hc⟩
    rw [hcond x hx, Bool.and_eq_true] at hc
    exact ⟨⟨⟨⟨hx, hu, ⟨hle.trans hkey, hend⟩, hmax⟩, hd, hc.2⟩, hkey⟩, hc.1⟩
  · rintro ⟨⟨⟨⟨hx, hu, ⟨-, hend⟩, hmax⟩, hd, hb⟩, hkey⟩, hp⟩
    refine ⟨⟨hx, hu, ⟨hkey, hend⟩, hmax⟩, hd, ?_⟩
    rw [hcond x hx, hp, hb, Bool.and_self]

/-! ## Pages -/

theorem Driver.translateStartKey_zero (d : Driver) (key : Bytes) : d.translateStartKey (key ++ [0]) = key ++ [d.zero] := by
  simp [translateStartKey]

theorem Driver.translateStartKey_plain (d : Driver) {key : Bytes} (h : ∀ c ∈ key, 35 < c.val) :
    d.translateStartKey key = key := by
  refine if_neg fun hlast => ?_
  have hzero := h 0 (List.mem_of_getLast? hlast)
  exact absurd hzero (by decide)

theorem Driver.zero_le (d : Driver) : d.zero.val ≤ 35 := by
  cases d <;> decide

namespace SelectorDb

variable {s : SelectorDb} {p : SelectorParser} {db : Sqlite} {d : Driver} {rangeEnd labelSelector fieldSelector : Bytes}
  {revision : ℤ} {includeDeleted : Bool}

/-- The rows of a range that satisfy a condition, at the revision of a list. -/
def rangeRows (s : SelectorDb) (start rangeEnd : Bytes) (revision : ℤ) (includeDeleted : Bool) (base : Row → Bool) :
    List Row :=
  s.kine.ordered (between start rangeEnd) (if revision = 0 then none else some revision) includeDeleted base

theorem mem_rangeRows {start : Bytes} {base : Row → Bool} {x : Row}
    (hx : x ∈ s.rangeRows start rangeEnd revision includeDeleted base) :
    x ∈ s.kine.rows ∧ between start rangeEnd x.name = true := by
  obtain ⟨hx, -, hsel, -⟩ := mem_latest.1 (mem_ordered.1 hx).1
  exact ⟨hx, hsel⟩

theorem length_rangeRows_le (start : Bytes) (base : Row → Bool) :
    (s.rangeRows start rangeEnd revision includeDeleted base).length ≤ s.kine.rows.length := by
  rw [rangeRows, ordered, List.length_insertionSort]
  exact (List.length_filter_le _ _).trans ((List.length_filter_le _ _).trans
    ((List.length_filter_le _ _).trans (List.length_filter_le _ _)))

/-- **One call of `List`**, for a range or a later part of it. -/
theorem list_eq (hend : rangeEnd ≠ []) (start : Bytes) {key : Bytes} (hle : start ≤ d.translateStartKey key)
    {base cond : Row → Bool}
    (hok : s.condition p db (d.translateStartKey key) labelSelector fieldSelector = .ok cond)
    (hcond : ∀ x ∈ s.kine.rows,
      cond x = (passes labelSelector fieldSelector (d.translateStartKey key) x && base x)) (limit : ℤ) :
    s.list p db d key rangeEnd limit revision includeDeleted labelSelector fieldSelector =
      .ok (Mvcc.firstN limit (((s.rangeRows start rangeEnd revision includeDeleted base).filter fun x =>
        d.translateStartKey key ≤ x.name).filter (passes labelSelector fieldSelector (d.translateStartKey key)))) := by
  unfold list rangeRows
  simp only [hend, and_false, if_false, hok]
  rw [← ordered_from hle hcond]
  unfold SqlLog.listRows
  by_cases hrev : revision = 0
  · simp only [if_pos hrev, if_neg hend]
    rfl
  · simp only [if_neg hrev, if_neg hend]
    rfl

/-- A list of the whole range: every row of it has the prefix. -/
theorem list_start (hend : rangeEnd ≠ []) {start : Bytes}
    (hunder : ∀ name, between start rangeEnd name = true → start <+: name) (hstart : ∀ c ∈ start, 35 < c.val)
    {base : Row → Bool}
    (hcond : ∀ key, ∃ cond, s.condition p db key labelSelector fieldSelector = .ok cond ∧
      ∀ x ∈ s.kine.rows, cond x = (passes labelSelector fieldSelector key x && base x)) (limit : ℤ) :
    s.list p db d start rangeEnd limit revision includeDeleted labelSelector fieldSelector =
      .ok (Mvcc.firstN limit (s.rangeRows start rangeEnd revision includeDeleted base)) := by
  have htranslate := d.translateStartKey_plain hstart
  obtain ⟨cond, hok, hc⟩ := hcond (d.translateStartKey start)
  rw [list_eq hend start htranslate.ge hok hc, htranslate, List.filter_eq_self.2 fun x hx => ?_,
    List.filter_eq_self.2 fun x hx => ?_]
  · exact (Bool.and_eq_true_iff.1 (mem_rangeRows hx).2).1
  · have hx := (List.mem_filter.1 hx).1
    rw [passes, like_of_prefix (hunder _ (mem_rangeRows hx).2), Bool.or_true]

theorem passes_pages_iff {rows : List Row} {n : ℕ} :
    (labelSelector = [] ∧ fieldSelector = [] ∨
      ∀ j y, 1 ≤ j → (rows.take (n * j)).getLast? = some y → ∀ x ∈ (rows.drop (n * j)).take n,
        like (selectorPattern (d.translateStartKey (y.name ++ [0]))) x.name = true) ↔
      ∀ j y, 1 ≤ j → (rows.take (n * j)).getLast? = some y → ∀ x ∈ (rows.drop (n * j)).take n,
        passes labelSelector fieldSelector (d.translateStartKey (y.name ++ [0])) x = true := by
  by_cases hnone : labelSelector = [] ∧ fieldSelector = []
  · simp [passes, hnone]
  · have hno : (decide (labelSelector = []) && decide (fieldSelector = [])) = false := by
      rw [← Bool.decide_and]
      exact decide_eq_false hnone
    simp only [hnone, false_or, passes, hno, Bool.false_or]

/-- The pages after a row. -/
theorem pages_after (hend : rangeEnd ≠ []) {start : Bytes} {base : Row → Bool}
    (hcond : ∀ key, ∃ cond, s.condition p db key labelSelector fieldSelector = .ok cond ∧
      ∀ x ∈ s.kine.rows, cond x = (passes labelSelector fieldSelector key x && base x))
    (hnames : ∀ x ∈ s.rangeRows start rangeEnd revision includeDeleted base, ∀ c ∈ x.name, 35 < c.val)
    {n : ℕ} (hn : 0 < n) (fuel : ℕ) {y : Row} (hy : y ∈ s.rangeRows start rangeEnd revision includeDeleted base) :
    s.pages p db d n rangeEnd revision includeDeleted labelSelector fieldSelector fuel (y.name ++ [0]) =
      (pagesAfter Row.name (s.rangeRows start rangeEnd revision includeDeleted base) n
        (fun y => passes labelSelector fieldSelector (d.translateStartKey (y.name ++ [0]))) fuel y).map .ok := by
  induction fuel generalizing y with
  | zero => rfl
  | succ fuel ih =>
    set rows := s.rangeRows start rangeEnd revision includeDeleted base with hrows
    have hstart : start ≤ y.name := of_decide_eq_true (Bool.and_eq_true_iff.1 (mem_rangeRows hy).2).1
    have hkey := d.translateStartKey_zero y.name
    have hle : start ≤ d.translateStartKey (y.name ++ [0]) := by
      rw [hkey]
      exact hstart.trans (lt_append_singleton _ _).le
    -- the least letter of a name is above what the driver puts for the zero byte
    have hafter : (rows.filter fun x => d.translateStartKey (y.name ++ [0]) ≤ x.name) =
        after Row.name rows y := by
      refine List.filter_congr fun x hx => decide_eq_decide.2 ?_
      rw [hkey]
      refine (lt_iff_append_le fun b hb => ?_).symm
      have hb := hnames x hx b hb
      have hz := d.zero_le
      exact Fin.le_def.2 (by omega)
    obtain ⟨cond, hok, hc⟩ := hcond (d.translateStartKey (y.name ++ [0]))
    have hfirst : ∀ l : List Row, Mvcc.firstN (n : ℤ) l = l.take n := by
      intro l
      rw [Mvcc.firstN, if_pos (by omega), Int.toNat_natCast]
    unfold pages pagesAfter
    rw [list_eq hend start hle hok hc, ← hrows, hafter, hfirst]
    set page := ((after Row.name rows y).filter
      (passes labelSelector fieldSelector (d.translateStartKey (y.name ++ [0])))).take n with hpage
    simp only
    by_cases hshort : page.length < n
    · simp only [if_pos hshort, Option.map_some]
    · simp only [if_neg hshort]
      cases hz : page.getLast? with
      | none => rfl
      | some z =>
        have hzmem : z ∈ rows :=
          (List.mem_filter.1 (List.mem_filter.1 (List.mem_of_mem_take (List.mem_of_getLast? hz))).1).1
        simp only [ih hzmem]
        cases pagesAfter Row.name rows n
          (fun y => passes labelSelector fieldSelector (d.translateStartKey (y.name ++ [0]))) fuel z <;> rfl

/-- **A list with selectors page by page** comes to an end, and gives what the list gives, if
and only if there is no selector, or on every page after the first each row that is due there
is like the start key of that page. -/
theorem selector_pages_iff (s : SelectorDb) (p : SelectorParser) (db : Sqlite) (d : Driver)
    {start rangeEnd : Bytes} (hend : rangeEnd ≠ []) (hunder : ∀ name, between start rangeEnd name = true → start <+: name)
    (hstart : ∀ c ∈ start, 35 < c.val) (hnames : ∀ x ∈ s.kine.rows, start <+: x.name → ∀ c ∈ x.name, 35 < c.val)
    (revision : ℤ) (includeDeleted : Bool) (labelSelector fieldSelector : Bytes) {n : ℕ} (hn : 1 ≤ n) :
    let all := s.list p db d start rangeEnd 0 revision includeDeleted labelSelector fieldSelector
    let paged := s.pages p db d n rangeEnd revision includeDeleted labelSelector fieldSelector
      (s.kine.rows.length + 1) start
    paged ≠ none ∧
    (paged = some all ↔
      labelSelector = [] ∧ fieldSelector = [] ∨
      ∀ rows, all = .ok rows → ∀ j y, 1 ≤ j → (rows.take (n * j)).getLast? = some y →
        ∀ x ∈ (rows.drop (n * j)).take n,
          like (selectorPattern (d.translateStartKey (y.name ++ [0]))) x.name = true) := by
  intro all paged
  rcases s.condition_cases p db labelSelector fieldSelector with ⟨err, herr⟩ | ⟨base, hcond⟩
  · -- no page is better off than the list
    have hall : ∀ limit, s.list p db d start rangeEnd limit revision includeDeleted labelSelector fieldSelector =
        .error err := by
      intro limit
      unfold list
      simp only [hend, and_false, if_false, herr]
    have hpaged : paged = some (.error err) := by
      show s.pages p db d n rangeEnd revision includeDeleted labelSelector fieldSelector _ start = _
      unfold pages
      rw [hall]
    have hall' : all = .error err := hall 0
    rw [hpaged, hall']
    exact ⟨by simp, by simp⟩
  set rows := s.rangeRows start rangeEnd revision includeDeleted base with hrows
  have hmem : ∀ x ∈ rows, x ∈ s.kine.rows ∧ start <+: x.name := fun x hx =>
    ⟨(mem_rangeRows hx).1, hunder _ (mem_rangeRows hx).2⟩
  have hlist : ∀ limit, s.list p db d start rangeEnd limit revision includeDeleted labelSelector fieldSelector =
      .ok (Mvcc.firstN limit rows) := list_start hend hunder hstart hcond
  have hall : all = .ok rows := hlist 0
  have hfirst : Mvcc.firstN (n : ℤ) rows = rows.take n := by
    rw [Mvcc.firstN, if_pos (by omega), Int.toNat_natCast]
  have hpaged : paged = s.pages p db d n rangeEnd revision includeDeleted labelSelector fieldSelector
      (s.kine.rows.length + 1) start := rfl
  unfold pages at hpaged
  rw [hlist, hfirst] at hpaged
  simp only at hpaged
  simp only [hall, Except.ok.injEq, forall_eq']
  rw [passes_pages_iff]
  by_cases hshort : (rows.take n).length < n
  · -- one page has it all
    rw [List.length_take] at hshort
    have hlen : rows.length < n := by omega
    rw [if_pos (by rw [List.length_take]; exact hshort), List.take_of_length_le hlen.le] at hpaged
    refine ⟨by rw [hpaged]; simp, fun _ j y hj _ x hx => ?_, fun _ => hpaged⟩
    rw [List.drop_of_length_le (hlen.le.trans (Nat.le_mul_of_pos_right n hj)), List.take_nil] at hx
    cases hx
  · rw [if_neg hshort] at hpaged
    have hlen : n ≤ rows.length := by
      rw [List.length_take] at hshort
      omega
    obtain ⟨y, hy⟩ : ∃ y, (rows.take n).getLast? = some y := by
      cases hlast : (rows.take n).getLast? with
      | none =>
        rw [List.getLast?_eq_none_iff.1 hlast] at hshort
        simp at hshort
        omega
      | some y => exact ⟨y, rfl⟩
    have hymem : y ∈ rows := List.mem_of_mem_take (List.mem_of_getLast? hy)
    have hsorted : rows.Pairwise fun x y => x.name < y.name := ordered_sorted _ _ _ _ _
    have hafter : after Row.name rows y = rows.drop n := filter_after_take Row.name hsorted hy
    have hrowslen : rows.length ≤ s.kine.rows.length := length_rangeRows_le start base
    obtain ⟨read, hread, hiff⟩ := pagesAfter_eq_iff Row.name hsorted hn
      (fun y => passes labelSelector fieldSelector (d.translateStartKey (y.name ++ [0]))) s.kine.rows.length y (by
        rw [hafter, List.length_drop]
        omega)
    rw [hy] at hpaged
    simp only [pages_after hend hcond (fun x hx => hnames x (hmem x hx).1 (hmem x hx).2) hn _ hymem, ← hrows, hread,
      Option.map_some, Except.map] at hpaged
    rw [hafter, seesAll_drop_iff hy] at hiff
    refine ⟨by rw [hpaged]; simp, ?_⟩
    rw [← hiff, hpaged, Option.some.injEq, Except.ok.injEq]
    constructor
    · intro heq
      rw [← heq, List.drop_left' (List.length_take_of_le hlen)]
    · intro heq
      rw [heq, List.take_append_drop]

/-- The names from one that ends with a letter to the same with the next letter begin with it. -/
theorem prefix_of_between {v : Bytes} {b b' : Fin 256} (hb : b'.val = b.val + 1) {name : Bytes}
    (h : between (v ++ [b]) (v ++ [b']) name = true) : v ++ [b] <+: name := by
  simp only [between, Bool.and_eq_true, decide_eq_true_eq] at h
  obtain ⟨hle, hlt⟩ := h
  induction v generalizing name with
  | nil =>
    cases name with
    | nil => simp [← not_lt] at hle
    | cons a name =>
      rw [List.nil_append, ← not_lt, List.cons_lt_cons_iff] at hle
      rw [List.nil_append, List.cons_lt_cons_iff] at hlt
      have hab : a = b := by
        rcases hlt with hlt | ⟨-, hlt⟩
        · have hge : ¬ a < b := fun h => hle (.inl h)
          rw [Fin.lt_def] at hlt hge
          exact Fin.ext (by omega)
        · simp at hlt
      rw [hab]
      exact ⟨name, rfl⟩
  | cons c v ih =>
    cases name with
    | nil => simp [← not_lt] at hle
    | cons a name =>
      rw [List.cons_append, ← not_lt, List.cons_lt_cons_iff] at hle
      rw [List.cons_append, List.cons_lt_cons_iff] at hlt
      push Not at hle
      have hca : c = a := le_antisymm hle.1 (by rcases hlt with hlt | ⟨rfl, -⟩ <;> [exact hlt.le; exact le_rfl])
      subst hca
      have hrest := ih (not_lt.1 fun h => absurd h (not_lt.2 (hle.2 rfl)))
        (by rcases hlt with hlt | ⟨-, hlt⟩ <;> [exact absurd hlt (lt_irrefl _); exact hlt])
      exact (List.prefix_cons_inj c).2 hrest

/-- Two pods with the label `app=web`. -/
def webPods : SelectorDb where
  kine :=
    { rows := [⟨1, ascii "/pods/a", [], true, false, 0, 0, 0, ascii "a", []⟩,
        ⟨2, ascii "/pods/b", [], true, false, 0, 0, 0, ascii "b", []⟩]
      seq := 2
      sorted := by decide
      unique := by decide
      bounded := by decide
      seq_nonneg := by decide }
  labels := [⟨1, ascii "/pods/a", ascii "app", ascii "web"⟩, ⟨2, ascii "/pods/b", ascii "app", ascii "web"⟩]
  fields := []
  labels_name := by decide
  fields_name := by decide

/-- With pages of two rows all are on the first page. -/
theorem selector_pages_one :
    let p := parsesAs [⟨ascii "app", .equals, [ascii "web"], rfl⟩] []
    webPods.pages p memberSqlite .sqlite 2 (ascii "/pods0") 2 false (ascii "app=web") [] 3 (ascii "/pods/") =
      some (webPods.list p memberSqlite .sqlite (ascii "/pods/") (ascii "/pods0") 0 2 false (ascii "app=web") []) := by
  intro p
  refine (selector_pages_iff webPods p memberSqlite .sqlite (by decide)
    (fun _ => prefix_of_between (v := ascii "/pods") (by decide)) (by decide +kernel) (by decide +kernel) 2 false (ascii "app=web") []
    (by decide)).2.2 (.inr ?_)
  have hall : webPods.list p memberSqlite .sqlite (ascii "/pods/") (ascii "/pods0") 0 2 false (ascii "app=web") [] =
      .ok webPods.kine.rows := by
    decide +kernel
  rintro rows hrows j y hj - x hx
  obtain rfl : webPods.kine.rows = rows := Except.ok.inj (hall.symm.trans hrows)
  rw [List.drop_of_length_le (show webPods.kine.rows.length ≤ 2 * j from Nat.le_mul_of_pos_right 2 hj)] at hx
  cases hx

/-- With pages of one row the second page looks for the names like `/pods/a`, and is empty. -/
theorem selector_pages_lose :
    let p := parsesAs [⟨ascii "app", .equals, [ascii "web"], rfl⟩] []
    webPods.list p memberSqlite .sqlite (ascii "/pods/") (ascii "/pods0") 0 2 false (ascii "app=web") [] =
      .ok webPods.kine.rows ∧
    webPods.pages p memberSqlite .sqlite 1 (ascii "/pods0") 2 false (ascii "app=web") [] 3 (ascii "/pods/") =
      some (.ok (webPods.kine.rows.take 1)) := by
  decide +kernel

end SelectorDb

end Harikube
