import Harikube.Spec.Rows
import Harikube.Proof.Answers

/-!
# Rows that cannot be read

A row that does not scan ends `RowsToEvents` with an error, the end of the iteration never
does (`rowsToEvents_broken`, `rowsToEvents_read`). `List` returns the one error and does not know
of the other; `After` takes a failed read for an empty result, and the revisions that it reads
then bring a nil error of their own.

* `list_error_iff`, `after_error_iff`: when the calls return an error, whatever the rows.
* `row_failures_reported_iff`: **rows that cannot be read are reported if and only if the failure
  is a row that does not scan, and for `After` a start at revision 0, or the call is refused for
  another reason.**
* `list_verdict_iff`: **the verdict of `List` on a revision is that of the table if and only if
  there is a row to take it from, or the cached revision gives the same.**
-/

namespace Harikube

namespace Rows

/-- A row that does not scan is the error of the whole read, and what was read before is gone. -/
theorem toEvents_broken (rows : List (Option Scanned)) : ∀ acc : ℤ × ℤ × List Event, none ∈ rows →
    toEvents rows acc = (0, 0, [], some .database) := by
  induction rows with
  | nil => exact fun _ h => absurd h List.not_mem_nil
  | cons x rest ih =>
    rintro ⟨rev, compact, result⟩ h
    cases x with
    | none => rfl
    | some x => exact ih _ ((List.mem_cons.1 h).resolve_left (by simp))

/-- Rows that scan are read up to where the iteration ends, with the revisions of the last. -/
theorem toEvents_read (xs : List Scanned) : ∀ acc : ℤ × ℤ × List Event,
    toEvents (xs.map some) acc =
      (((xs.getLast?.map Scanned.rev).getD acc.1, (xs.getLast?.map Scanned.compact).getD acc.2.1,
        acc.2.2 ++ xs.map Scanned.event, none)) := by
  induction xs with
  | nil =>
    rintro ⟨rev, compact, result⟩
    simp [toEvents]
  | cons x rest ih =>
    rintro ⟨rev, compact, result⟩
    rw [List.map_cons, toEvents, ih]
    cases rest with
    | nil => simp
    | cons y ys =>
      obtain ⟨z, hz⟩ : ∃ z, (y :: ys).getLast? = some z := ⟨_, List.getLast?_eq_some_getLast (List.cons_ne_nil y ys)⟩
      rw [List.getLast?_cons_cons, hz]
      simp

variable {r : Rows}

theorem rowsToEvents_broken (h : none ∈ r.rows) : r.rowsToEvents = (0, 0, [], some .database) :=
  toEvents_broken r.rows _ h

/-- Rows without one that does not scan. -/
theorem rows_eq_map (h : none ∉ r.rows) : ∃ xs : List Scanned, r.rows = xs.map some := by
  have hrange : r.rows ∈ Set.range (List.map (some : Scanned → Option Scanned)) := by
    rw [Set.range_list_map]
    intro x hx
    cases x with
    | none => exact absurd hx h
    | some x => exact ⟨x, rfl⟩
  obtain ⟨xs, hxs⟩ := hrange
  exact ⟨xs, hxs.symm⟩

theorem rowsToEvents_read {xs : List Scanned} (h : r.rows = xs.map some) :
    r.rowsToEvents = ((xs.getLast?.map Scanned.rev).getD 0, (xs.getLast?.map Scanned.compact).getD 0,
      xs.map Scanned.event, none) := by
  unfold rowsToEvents
  rw [h, toEvents_read]
  rfl

end Rows

namespace Replies

variable {a : Replies} {rows : Rows} {revision : ℤ}

/-- The current and the compact revision that a call goes by: those of the last row, or those
that are read on their own. -/
def checked (a : Replies) (rows : Rows) : Except Err (ℤ × ℤ) :=
  match rows.rows.getLast?.join with
  | some x => .ok (x.rev, x.compact)
  | none => a.revisions

/-- `List` would refuse the revision, or cannot tell. -/
def ListRefuses (a : Replies) (rows : Rows) (revision : ℤ) : Prop :=
  ∀ rev compact, a.checked rows = .ok (rev, compact) → revision > rev ∨ 0 < revision ∧ revision < compact

/-- `After` would refuse the revision, or cannot tell. -/
def AfterRefuses (revisions : Except Err (ℤ × ℤ)) (revision : ℤ) : Prop :=
  0 < revision ∧ ∀ rev compact, revisions = .ok (rev, compact) → revision < compact

theorem listCheck_error {rev compact : ℤ} {events : List Event} :
    (SqlLog.listCheck rev compact revision events).2.2 ≠ none ↔
      revision > rev ∨ 0 < revision ∧ revision < compact := by
  unfold SqlLog.listCheck
  split
  · rename_i h
    simp [h]
  · rename_i h
    split <;> rename_i h' <;> simp [h, h']

theorem afterCheck_error {rev compact : ℤ} {events : List Event} {err : Option Err} :
    (afterCheck rev compact revision events err).2.2 ≠ none ↔ (0 < revision ∧ revision < compact) ∨ err ≠ none := by
  unfold afterCheck
  split <;> rename_i h <;> simp [h]

theorem checked_map {xs : List Scanned} (h : rows.rows = xs.map some) : a.checked rows =
    match xs.getLast? with
    | some x => .ok (x.rev, x.compact)
    | none => a.revisions := by
  unfold checked
  rw [h, List.getLast?_map]
  cases xs.getLast? <;> rfl

/-- **When `List` returns an error.** -/
theorem list_error_iff (hq : a.query = .ok rows) :
    (a.list revision).2.2 ≠ none ↔ none ∈ rows.rows ∨ a.ListRefuses rows revision := by
  unfold list
  simp only [hq]
  by_cases hnone : none ∈ rows.rows
  · simp [Rows.rowsToEvents_broken hnone, hnone]
  · obtain ⟨xs, hxs⟩ := Rows.rows_eq_map hnone
    unfold ListRefuses
    rw [Rows.rowsToEvents_read hxs, checked_map hxs]
    cases hlast : xs.getLast? with
    | none =>
      obtain rfl := List.getLast?_eq_none_iff.1 hlast
      simp only [List.map_nil, if_true, hnone, false_or]
      cases a.revisions with
      | error err => simp
      | ok p =>
        obtain ⟨rev, compact⟩ := p
        simp [listCheck_error]
    | some x =>
      have hne : xs.map Scanned.event ≠ [] := by
        intro h
        rw [List.map_eq_nil_iff.1 h] at hlast
        simp at hlast
      simp only [hne, if_false, hnone, false_or]
      rw [listCheck_error]
      simp

/-- **When `After` returns an error.** -/
theorem after_error_iff (hq : a.query = .ok rows) :
    (a.after revision).2.2 ≠ none ↔
      (none ∈ rows.rows ∧ (revision ≤ 0 ∨ AfterRefuses a.revisions revision)) ∨
      (none ∉ rows.rows ∧ AfterRefuses (a.checked rows) revision) := by
  unfold after AfterRefuses
  simp only [hq]
  by_cases hnone : none ∈ rows.rows
  · simp only [Rows.rowsToEvents_broken hnone, hnone, true_and, not_true_eq_false, false_and, or_false, and_true]
    by_cases hpos : 0 < revision
    · rw [if_pos hpos]
      cases a.revisions with
      | error err => simp [hpos]
      | ok p =>
        obtain ⟨rev, compact⟩ := p
        simp [afterCheck_error, hpos, not_le.2 hpos]
    · rw [if_neg hpos, afterCheck_error]
      simp [not_lt.1 hpos]
  · obtain ⟨xs, hxs⟩ := Rows.rows_eq_map hnone
    rw [Rows.rowsToEvents_read hxs, checked_map hxs]
    simp only [hnone, false_and, not_false_eq_true, true_and, false_or]
    cases hlast : xs.getLast? with
    | none =>
      obtain rfl := List.getLast?_eq_none_iff.1 hlast
      simp only [List.map_nil, and_true]
      by_cases hpos : 0 < revision
      · rw [if_pos hpos]
        cases a.revisions with
        | error err => simp [hpos]
        | ok p =>
          obtain ⟨rev, compact⟩ := p
          simp [afterCheck_error, hpos]
      · rw [if_neg hpos, afterCheck_error]
        simp [hpos]
    | some x =>
      have hne : xs.map Scanned.event ≠ [] := by
        intro h
        rw [List.map_eq_nil_iff.1 h] at hlast
        simp at hlast
      simp only [hne, and_false, if_false]
      rw [afterCheck_error]
      simp

/-- **Rows that cannot be read are reported if and only if** a row does not scan, and for `After`
the call starts at revision 0, or the call is refused for another reason. -/
theorem row_failures_reported_iff (a : Replies) (rows : Rows) (revision : ℤ) :
    let a := { a with query := .ok rows }
    (rows.fails = true → (a.list revision).2.2 ≠ none ∧ (a.after revision).2.2 ≠ none) ↔
    (rows.fails = true → (none ∈ rows.rows ∨ a.ListRefuses rows revision) ∧
      ((none ∈ rows.rows ∧ (revision ≤ 0 ∨ AfterRefuses a.revisions revision)) ∨
        (none ∉ rows.rows ∧ AfterRefuses (a.checked rows) revision))) :=
  imp_congr_right fun _ => and_congr (list_error_iff rfl) (after_error_iff rfl)

/-- The row of a key that has been created at revision 3. -/
def createdRow : Scanned := ⟨Row.toEvent true true ⟨3, ascii "/a", [], true, false, 0, 0, 0, ascii "1", []⟩, 4, 0⟩

/-- **Rows that cannot be read are taken for all there are**: a connection that is lost after the
first row, and a row that does not scan behind revision 2. -/
theorem row_failures_dropped :
    let lost : Rows := ⟨[some createdRow], some .database⟩
    let torn : Rows := ⟨[none], none⟩
    (lost.fails = true ∧ (list ⟨.ok lost, 4, .ok 4, .ok 0⟩ 0).2 = ([createdRow.event], none) ∧
      (after ⟨.ok lost, 4, .ok 4, .ok 0⟩ 2).2 = ([createdRow.event], none)) ∧
    (torn.fails = true ∧ after ⟨.ok torn, 4, .ok 4, .ok 0⟩ 2 = (4, [], none)) := by
  decide

end Replies

/-! ## Healthy rows -/

/-- Rows that are all read come with the revisions of the table, if there are any. -/
theorem Kine.rowsToEvents_cursor (t : Kine) (val prev : Bool) (rows : List Row) :
    (t.cursor val prev rows).rowsToEvents =
      if rows = [] then (0, 0, [], none)
      else (t.currentRev.getD 0, t.compactRev.getD 0, rows.map (Row.toEvent val prev), none) := by
  have hrows : (t.cursor val prev rows).rows =
      (rows.map fun x => (⟨x.toEvent val prev, t.currentRev.getD 0, t.compactRev.getD 0⟩ : Scanned)).map some := by
    rw [List.map_map]
    rfl
  rw [Rows.rowsToEvents_read hrows, List.getLast?_map, List.map_map]
  cases hlast : rows.getLast? with
  | none => simp [List.getLast?_eq_none_iff.1 hlast]
  | some x =>
    have hne : rows ≠ [] := by
      rintro rfl
      simp at hlast
    rw [if_neg hne]
    rfl

namespace SqlLog

variable {s : SqlLog}

/-- With rows that are all read, `List` is that of the log. -/
theorem list_replies (s : SqlLog) (key rangeEnd : Bytes) (limit revision : ℤ) (includeDeleted keysOnly : Bool)
    (cond : Row → Bool) :
    (s.replies (!keysOnly) false (listRows s.db.kine key rangeEnd limit revision includeDeleted cond)).list revision =
      (s.list key rangeEnd limit revision includeDeleted keysOnly cond).1 := by
  unfold Replies.list SqlLog.list replies
  simp only [Kine.rowsToEvents_cursor]
  by_cases hrows : listRows s.db.kine key rangeEnd limit revision includeDeleted cond = []
  · unfold Replies.revisions Replies.currentRevision currentRevision
    simp only [hrows, if_true, List.map_nil, ne_eq, not_true_eq_false, if_false]
    by_cases hcached : s.currentRev = 0
    · simp only [hcached, not_true_eq_false, if_false]
      cases s.db.kine.currentRev with
      | none => rfl
      | some rev =>
        simp only [Option.map_some, Option.getD_some]
        unfold getCompactRevision
        cases s.db.kine.compactRev <;> rfl
    · simp only [hcached, not_false_eq_true, if_true]
      cases s.getCompactRevision <;> rfl
  · have hevents : (listRows s.db.kine key rangeEnd limit revision includeDeleted cond).map
        (Row.toEvent (!keysOnly) false) ≠ [] := by
      simpa using hrows
    simp only [hrows, if_false, hevents, ne_eq, not_false_eq_true, if_true]

/-! ## The verdict on a revision -/

/-- The error that a revision `r > 0` deserves in a table with the largest id `m` and the compact
revision `compact`. -/
def Verdict (m compact r : ℤ) (err : Option Err) : Prop :=
  (err = some .futureRev ↔ r > m) ∧ (r ≤ m → (err = some .compacted ↔ r < compact))

/-- The check of `List` gives the verdict of the revision that it is made with. -/
theorem listCheck_verdict {rev compact r : ℤ} (hr : 0 < r) (events : List Event) :
    Verdict rev compact r (listCheck rev compact r events).2.2 := by
  unfold Verdict listCheck
  by_cases hfuture : r > rev
  · simp [hfuture]
  · by_cases hcompact : r < compact
    · simp [hfuture, hr, hcompact]
    · simp [hfuture, hcompact]

theorem verdict_iff {m rev compact r : ℤ} {err : Option Err} (h : Verdict rev compact r err) :
    Verdict m compact r err ↔ (r > rev ↔ r > m) := by
  unfold Verdict at h ⊢
  rw [h.1]
  refine and_iff_left_of_imp fun hiff hle => h.2 ?_
  by_contra hlt
  exact absurd (hiff.1 (not_le.1 hlt)) (not_lt.2 hle)

/-- **The verdict of `List` on a revision is that of the table if and only if there is a row to
take it from, or the cached revision gives the same.** -/
theorem list_verdict_iff (s : SqlLog) {m compact : ℤ} (hm : s.db.kine.currentRev = some m)
    (hcompact : s.db.kine.compactRev = some compact) (key rangeEnd : Bytes) (limit : ℤ) {r : ℤ} (hr : 0 < r)
    (includeDeleted keysOnly : Bool) (cond : Row → Bool) :
    Verdict m compact r (s.list key rangeEnd limit r includeDeleted keysOnly cond).1.2.2 ↔
      listRows s.db.kine key rangeEnd limit r includeDeleted cond ≠ [] ∨ s.currentRev = 0 ∨
        (r > s.currentRev ↔ r > m) := by
  unfold list
  by_cases hrows : listRows s.db.kine key rangeEnd limit r includeDeleted cond = []
  · have hget : ∀ rev, getCompactRevision ⟨s.db, rev⟩ = .ok compact := by
      intro rev
      unfold getCompactRevision
      rw [hcompact]
    unfold currentRevision
    by_cases hcached : s.currentRev = 0
    · simp only [hrows, List.map_nil, ne_eq, not_true_eq_false, if_false, hcached, hm, hget, true_or, or_true, iff_true]
      exact listCheck_verdict hr []
    · simp only [hrows, List.map_nil, ne_eq, not_true_eq_false, if_false, hcached, not_false_eq_true, if_true, false_or]
      rw [show s.getCompactRevision = .ok compact from hget s.currentRev]
      exact verdict_iff (listCheck_verdict hr [])
  · have hevents : (listRows s.db.kine key rangeEnd limit r includeDeleted cond).map
        (Row.toEvent (!keysOnly) false) ≠ [] := by
      simpa using hrows
    simp only [hevents, ne_eq, not_false_eq_true, if_true, hm, hcompact, Option.getD_some, hrows, true_or, iff_true]
    exact listCheck_verdict hr _

/-- A started node, and a row that a peer has appended to the table. -/
def peerAppended (e : Event) : SqlLog :=
  let s := LogStructured.run LogStructured.plainCodec 0 []
  { s with db := (s.append LogStructured.plainCodec 0 e).2.db }

/-- The peer creates `/a`, at revision 3. -/
def peerCreated : SqlLog := peerAppended ⟨false, true, ⟨ascii "/a", ascii "1", 0, 0, 0, 0⟩, none⟩

/-- The verdict on revision 3 is that of the table for the range with the peer's key. -/
theorem list_verdict_peer_key :
    0 < (3 : ℤ) ∧ peerCreated.db.kine.currentRev = some 3 ∧ peerCreated.db.kine.compactRev = some 0 ∧
    Verdict 3 0 3 (peerCreated.list (ascii "/a") (ascii "/b") 0 3 false false fun _ => true).1.2.2 :=
  have hm : peerCreated.db.kine.currentRev = some 3 := by decide +kernel
  have hcompact : peerCreated.db.kine.compactRev = some 0 := by decide +kernel
  ⟨by decide, hm, hcompact,
    (list_verdict_iff peerCreated hm hcompact (ascii "/a") (ascii "/b") 0 (by decide) false false fun _ => true).2
      (.inl (by decide +kernel))⟩

/-- **A revision of a peer is refused where there is no key**: the table has it, and the same
revision is answered for the range with the peer's key. -/
theorem list_refuses_peer_revision :
    peerCreated.db.kine.currentRev = some 3 ∧
    (peerCreated.list (ascii "/b") (ascii "/c") 0 3 false false fun _ => true).1 = (2, [], some .futureRev) ∧
    (peerCreated.list (ascii "/a") (ascii "/b") 0 3 false false fun _ => true).1.2.2 = none := by
  decide +kernel

end SqlLog

end Harikube
