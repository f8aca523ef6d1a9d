import Harikube.Proof.Calls

/-!
# Several rows of `compact_rev_key`

Where the table has more than one row of `compact_rev_key`, `compactStart` is to leave the one
with the largest compact revision. It compares the rows as events, and the event of a row that
has been created has no previous key-value. `compactStart` itself creates the row, and
`UpdateCompactSQL` does not touch the flag, so the rows that it should compare are those
that it skips; with none left to keep it deletes them all.

* `compactRows_compactStart`: what `compactStart` leaves of the rows.
* `compactStart_loses_created`: rows that have been created are all deleted.
* `compactStart_repairs_iff`: **one row is left, with the largest compact revision, if and only
  if a row that has not been created has it.**
-/

namespace Harikube

open Kine LogStructured

/-- The rows of `compact_rev_key`. -/
def Kine.compactRows (t : Kine) : List Row := t.rows.filter fun x => x.name = compactRevKey

namespace SqlLog

variable {s : SqlLog} {t : Kine}

theorem after_compactRevKey (t : Kine) : t.after compactRevKey [] 0 0 = t.compactRows := by
  have hne : compactRevKey ≠ [] := by decide
  unfold after Mvcc.firstN compactRows
  rw [if_neg (lt_irrefl 0)]
  apply List.filter_congr
  intro x hx
  have hpos := (t.bounded x hx).1
  simp [hpos, hne]

/-! ## The loop that chooses -/

/-- One turn of the loop, on the row of the event. -/
theorem keeps_step (acc : ℤ × ℤ) (x : Row) :
    (match (Row.toEvent true true x).prevKV with
      | some p => if p.modRevision > acc.1 then (p.modRevision, (Row.toEvent true true x).kv.modRevision) else acc
      | none => acc) =
    if x.created = false ∧ acc.1 < x.prevRevision then (x.prevRevision, x.id) else acc := by
  unfold Row.toEvent
  cases x.created <;> simp

/-- **What the loop chooses**: the first of the rows that have not been created with the
largest previous revision, if that is beyond the one it starts with. -/
theorem keeps_spec (rows : List Row) : ∀ acc : ℤ × ℤ,
    let r := rows.foldl (fun acc x => if x.created = false ∧ acc.1 < x.prevRevision then (x.prevRevision, x.id)
      else acc) acc
    acc.1 ≤ r.1 ∧ (∀ x ∈ rows, x.created = false → x.prevRevision ≤ r.1) ∧
      (r = acc ∨ ∃ x ∈ rows, x.created = false ∧ acc.1 < x.prevRevision ∧ r = (x.prevRevision, x.id)) := by
  induction rows with
  | nil => exact fun acc => ⟨le_rfl, fun _ h => absurd h List.not_mem_nil, .inl rfl⟩
  | cons x rest ih =>
    intro acc
    rw [List.foldl_cons]
    by_cases hx : x.created = false ∧ acc.1 < x.prevRevision
    · rw [if_pos hx]
      obtain ⟨hle, hmax, hr⟩ := ih (x.prevRevision, x.id)
      refine ⟨hx.2.le.trans hle, fun y hy hyc => ?_, .inr ?_⟩
      · rcases List.mem_cons.1 hy with rfl | hy
        · exact hle
        · exact hmax y hy hyc
      · rcases hr with hr | ⟨y, hy, hyc, hlt, hr⟩
        · exact ⟨x, List.mem_cons_self, hx.1, hx.2, hr⟩
        · exact ⟨y, List.mem_cons_of_mem _ hy, hyc, hx.2.trans hlt, hr⟩
    · rw [if_neg hx]
      obtain ⟨hle, hmax, hr⟩ := ih acc
      refine ⟨hle, fun y hy hyc => ?_, hr.imp_right ?_⟩
      · rcases List.mem_cons.1 hy with rfl | hy
        · exact (not_lt.1 fun hlt => hx ⟨hyc, hlt⟩).trans hle
        · exact hmax y hy hyc
      · rintro ⟨y, hy, h⟩
        exact ⟨y, List.mem_cons_of_mem _ hy, h⟩

/-- The id that is kept of rows with their events. -/
theorem compactStartKeeps_rows (rows : List Row) :
    compactStartKeeps (rows.map (Row.toEvent true true)) =
      (rows.foldl (fun (acc : ℤ × ℤ) x => if x.created = false ∧ acc.1 < x.prevRevision then (x.prevRevision, x.id)
        else acc) (0, 0)).2 := by
  unfold compactStartKeeps
  rw [List.foldl_map]
  congr 2
  funext acc x
  exact keeps_step acc x

/-- A row is kept, the one with the largest previous revision of those that have not been
created, or none is. -/
theorem compactStartKeeps_cases (rows : List Row) :
    (compactStartKeeps (rows.map (Row.toEvent true true)) = 0 ∧
      ∀ x ∈ rows, x.created = false → x.prevRevision ≤ 0) ∨
    ∃ x ∈ rows, x.created = false ∧ 0 < x.prevRevision ∧
      compactStartKeeps (rows.map (Row.toEvent true true)) = x.id ∧
      ∀ y ∈ rows, y.created = false → y.prevRevision ≤ x.prevRevision := by
  rw [compactStartKeeps_rows]
  obtain ⟨-, hmax, hr⟩ := keeps_spec rows (0, 0)
  rcases hr with hr | ⟨x, hx, hxc, hpos, hr⟩
  · rw [hr] at hmax ⊢
    exact .inl ⟨rfl, hmax⟩
  · rw [hr] at hmax ⊢
    exact .inr ⟨x, hx, hxc, hpos, rfl, hmax⟩

/-! ## The loop that deletes -/

theorem deletes_rows (maxID : ℤ) (rows : List Row) : ∀ t : Kine,
    ((rows.map (Row.toEvent true true)).foldl (fun (t : Kine) e =>
      if e.kv.modRevision = maxID then t else t.deleteRevision e.kv.modRevision) t).rows =
    t.rows.filter fun x => x.id = maxID ∨ ∀ y ∈ rows, y.id ≠ x.id := by
  induction rows with
  | nil =>
    intro t
    simp
  | cons y rest ih =>
    intro t
    rw [List.map_cons, List.foldl_cons, ih]
    show List.filter _ (if y.id = maxID then t else t.deleteRevision y.id).rows = _
    split
    · rename_i hy
      apply List.filter_congr
      intro x _
      -- a row with the id of `y` is kept whatever comes after
      by_cases hx : x.id = maxID
      · simp [hx]
      · have hne : y.id ≠ x.id := fun h => hx (h ▸ hy)
        simp [hne]
    · rename_i hy
      show List.filter _ (t.rows.filter fun x => x.id ≠ y.id) = _
      rw [List.filter_filter]
      apply List.filter_congr
      intro x _
      by_cases hx : x.id = y.id
      · have hne : x.id ≠ maxID := fun h => hy (hx ▸ h)
        simp [hx, hy]
      · have hne : y.id ≠ x.id := Ne.symm hx
        simp [hx, hne]

/-- **What `compactStart` leaves of several rows**: the one that it has chosen. -/
theorem compactRows_compactStart (c : Codec) (now : ℤ) (hn : 2 ≤ s.db.kine.compactRows.length) :
    (s.compactStart c now).1 = none ∧
    (s.compactStart c now).2.db.kine.compactRows = s.db.kine.compactRows.filter fun x =>
      x.id = compactStartKeeps (s.db.kine.compactRows.map (Row.toEvent true true)) := by
  unfold compactStart
  rw [after_compactRevKey]
  split
  · rename_i h
    rw [List.map_eq_nil_iff.1 h] at hn
    simp at hn
  · rename_i e h
    have := congrArg List.length h
    rw [List.length_map] at this
    simp [this] at hn
  · refine ⟨rfl, ?_⟩
    unfold compactRows
    simp only
    rw [deletes_rows]
    rw [List.filter_filter, List.filter_filter]
    apply List.filter_congr
    intro x hx
    by_cases hname : x.name = compactRevKey
    · have hmem : x ∈ s.db.kine.rows.filter fun x => x.name = compactRevKey :=
        List.mem_filter.2 ⟨hx, decide_eq_true hname⟩
      have hlisted : ¬ ∀ y ∈ s.db.kine.rows.filter fun x => x.name = compactRevKey, y.id ≠ x.id :=
        fun h => h x hmem rfl
      simp only [hname, hlisted, or_false, decide_true, Bool.true_and, Bool.and_true]
    · simp [hname]

/-- **Rows that have been created are all deleted**, and with them the compact revision. -/
theorem compactStart_loses_created (c : Codec) (now : ℤ) (hn : 2 ≤ s.db.kine.compactRows.length)
    (hc : ∀ x ∈ s.db.kine.compactRows, x.created = true) :
    (s.compactStart c now).2.db.kine.compactRows = [] := by
  obtain ⟨-, hrows⟩ := compactRows_compactStart c now hn
  rw [hrows]
  rcases compactStartKeeps_cases s.db.kine.compactRows with ⟨hzero, -⟩ | ⟨x, hx, hxc, -⟩
  · rw [hzero, List.filter_eq_nil_iff]
    intro x hx hid
    have hpos := (s.db.kine.bounded x (List.mem_of_mem_filter hx)).1
    rw [of_decide_eq_true hid] at hpos
    exact absurd hpos (lt_irrefl 0)
  · rw [hc x hx] at hxc
    exact absurd hxc Bool.true_eq_false.mp

/-- The rows with the id of a row of the table. -/
theorem compactRows_filter_id {x : Row} (hx : x ∈ t.compactRows) : (t.compactRows.filter fun y => y.id = x.id) = [x] := by
  have hnodup : t.compactRows.Nodup := (t.sorted.filter _).imp fun h heq => by simp [heq] at h
  have heq : (t.compactRows.filter fun y => y.id = x.id) = t.compactRows.filter fun y => y = x := by
    apply List.filter_congr
    intro y hy
    have hiff : y.id = x.id ↔ y = x :=
      ⟨eq_of_id (List.mem_of_mem_filter hy) (List.mem_of_mem_filter hx), fun h => by rw [h]⟩
    simp only [hiff]
  rw [heq, List.filter_eq, List.count_eq_one_of_mem hnodup hx]
  rfl

theorem compactRev_eq_some {m : ℤ} : t.compactRev = some m ↔
    (∃ x ∈ t.compactRows, x.prevRevision = m) ∧ ∀ x ∈ t.compactRows, x.prevRevision ≤ m := by
  unfold compactRev
  rw [List.max?_eq_some_iff]
  simp only [List.mem_map, forall_exists_index, and_imp, forall_apply_eq_imp_iff₂]
  rfl

/-- **`compactStart` leaves one row, with the largest compact revision, if and only if a row
that has not been created has it.** -/
theorem compactStart_repairs_iff (c : Codec) (now : ℤ) (s : SqlLog) (hn : 2 ≤ s.db.kine.compactRows.length) :
    ((s.compactStart c now).1 = none → (s.compactStart c now).2.db.kine.compactRows.length = 1 ∧
      ∃ m, s.db.kine.compactRev = some m ∧ (s.compactStart c now).2.getCompactRevision = .ok m) ↔
    ∃ x ∈ s.db.kine.compactRows, x.created = false ∧ 0 < x.prevRevision ∧
      ∀ y ∈ s.db.kine.compactRows, y.prevRevision ≤ x.prevRevision := by
  obtain ⟨hok, hrows⟩ := compactRows_compactStart c now hn
  simp only [hok, true_implies]
  have hget : ∀ m, (s.compactStart c now).2.getCompactRevision = .ok m ↔
      (s.compactStart c now).2.db.kine.compactRev = some m := by
    intro m
    unfold getCompactRevision
    cases (s.compactStart c now).2.db.kine.compactRev <;> simp
  simp only [hget]
  rcases compactStartKeeps_cases s.db.kine.compactRows with ⟨hzero, hnone⟩ | ⟨x, hx, hxc, hpos, hkeeps, hmax⟩
  · -- no row is kept
    refine iff_of_false (fun h => ?_) ?_
    · rw [hrows, hzero] at h
      obtain ⟨x, hx⟩ := List.length_eq_one_iff.1 h.1
      obtain ⟨hxr, hid⟩ := List.mem_filter.1 (hx ▸ List.mem_singleton.2 rfl : x ∈ List.filter _ _)
      have hpos := (s.db.kine.bounded x (List.mem_of_mem_filter hxr)).1
      rw [of_decide_eq_true hid] at hpos
      exact absurd hpos (lt_irrefl 0)
    · rintro ⟨x, hx, hxc, hpos, -⟩
      exact absurd (hnone x hx hxc) (not_le.2 hpos)
  · -- `x` is kept
    have hkept : (s.compactStart c now).2.db.kine.compactRows = [x] := by
      rw [hrows, hkeeps]
      exact compactRows_filter_id hx
    have hafter : (s.compactStart c now).2.db.kine.compactRev = some x.prevRevision := by
      rw [compactRev_eq_some, hkept]
      exact ⟨⟨x, List.mem_singleton.2 rfl, rfl⟩, fun y hy => by rw [List.mem_singleton.1 hy]⟩
    constructor
    · rintro ⟨-, m, hbefore, hm⟩
      obtain rfl : x.prevRevision = m := Option.some.inj (hafter.symm.trans hm)
      exact ⟨x, hx, hxc, hpos, (compactRev_eq_some.1 hbefore).2⟩
    · rintro ⟨y, hy, hyc, -, hymax⟩
      have hle : ∀ z ∈ s.db.kine.compactRows, z.prevRevision ≤ x.prevRevision :=
        fun z hz => (hymax z hz).trans (hmax y hy hyc)
      exact ⟨by rw [hkept]; rfl, x.prevRevision, compactRev_eq_some.2 ⟨⟨x, hx, rfl⟩, hle⟩, hafter⟩

/-- The row of a start on an empty table. -/
def startRow : Row := ⟨0, compactRevKey, [], true, false, 0, 0, 0, [], []⟩

/-- A compaction to `r` between two starts, of which the second inserts `x`. -/
def startedTwice (r : ℤ) (x : Row) : Kine :=
  ((Kine.empty.insert startRow 0).bind fun p => (p.2.setCompactRevision r).bind fun t =>
    (t.insert x 0).map Prod.snd).getD Kine.empty

/-- A row of `compact_rev_key` that has been written as an update, with the larger revision. -/
theorem compactStart_repairs_updated :
    let s : SqlLog := ⟨⟨startedTwice 1 { startRow with created := false, prevRevision := 5 }, []⟩, 0⟩
    2 ≤ s.db.kine.compactRows.length ∧ (s.compactStart plainCodec 0).2.db.kine.compactRows.length = 1 ∧
      ∃ m, s.db.kine.compactRev = some m ∧ (s.compactStart plainCodec 0).2.getCompactRevision = .ok m := by
  intro s
  have hn : 2 ≤ s.db.kine.compactRows.length := by decide +kernel
  have hcond : ∃ x ∈ s.db.kine.compactRows, x.created = false ∧ 0 < x.prevRevision ∧
      ∀ y ∈ s.db.kine.compactRows, y.prevRevision ≤ x.prevRevision := by decide +kernel
  exact ⟨hn, (compactStart_repairs_iff plainCodec 0 s hn).2 hcond (compactRows_compactStart plainCodec 0 hn).1⟩

/-- **The rows of two starts are both deleted**: the compact revision 1 is lost, and reading it
fails from then on. -/
theorem compactStart_loses_both :
    let s : SqlLog := ⟨⟨startedTwice 1 startRow, []⟩, 0⟩
    (s.db.kine.compactRows.map fun x => (x.id, x.prevRevision)) = [(1, 1), (2, 0)] ∧
    (s.compactStart plainCodec 0).1 = none ∧
    (s.compactStart plainCodec 0).2.db.kine.compactRows = [] ∧
    (s.compactStart plainCodec 0).2.getCompactRevision = .error .database := by
  decide +kernel

end SqlLog

end Harikube
