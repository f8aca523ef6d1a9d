import Harikube.Proof.Poller

/-!
# No revision is passed unseen

A revision that the query does not find is retried, filled and only then passed, unless
`canSkipRevision` lets the loop go on: that is decided before `Fill` is tried, by the time
that has gone by since the gap was first seen.

* `pollLoop_skipped_iff`: a revision is skipped if and only if it is the one that was
  missing before, it is still missing, and a second has elapsed.
* `Polled.passed_in_time`: **every revision that the loop has gone past has been seen, and
  every row of the table up to it has been sent**, in a run in which the query after a gap
  comes in time.
* `Polled.late_query_loses_row`: a slow query, and a row that is never sent.
-/

namespace Harikube

open Lts Kine

/-- `n` is the first revision above `rev` that is missing in front of a row. -/
def MissingAt (rows : List Row) (rev n : ℤ) : Prop :=
  rev < n ∧ (∀ m, rev < m → m < n → ∃ x ∈ rows, x.id = m) ∧ (∀ x ∈ rows, x.id ≠ n) ∧ ∃ x ∈ rows, n < x.id

/-- The row of the next revision takes nothing away from what is missing. -/
theorem missingAt_cons {x : Row} {rest : List Row} {rev n : ℤ} (hx : x.id = rev + 1)
    (hrest : ∀ y ∈ rest, x.id < y.id) : MissingAt (x :: rest) rev n ↔ MissingAt rest x.id n := by
  unfold MissingAt
  constructor
  · rintro ⟨hlt, hbelow, hne, z, hz, hzn⟩
    have hxn := hne x List.mem_cons_self
    refine ⟨by omega, fun m hm hmn => ?_, fun y hy => hne y (List.mem_cons_of_mem _ hy), ?_⟩
    · obtain ⟨y, hy, hym⟩ := hbelow m (by omega) hmn
      rcases List.mem_cons.1 hy with rfl | hy
      · omega
      · exact ⟨y, hy, hym⟩
    · rcases List.mem_cons.1 hz with rfl | hz
      · omega
      · exact ⟨z, hz, hzn⟩
  · rintro ⟨hlt, hbelow, hne, z, hz, hzn⟩
    refine ⟨by omega, fun m hm hmn => ?_, fun y hy => ?_, z, List.mem_cons_of_mem _ hz, hzn⟩
    · by_cases hmx : m = x.id
      · exact ⟨x, List.mem_cons_self, hmx.symm⟩
      · obtain ⟨y, hy, hym⟩ := hbelow m (by omega) hmn
        exact ⟨y, List.mem_cons_of_mem _ hy, hym⟩
    · rcases List.mem_cons.1 hy with rfl | hy
      · omega
      · exact hne y hy

/-- Behind a gap the missing revision is the next one. -/
theorem missingAt_gap {x : Row} {rest : List Row} {rev n : ℤ} (hx : rev + 1 < x.id)
    (hrest : ∀ y ∈ rest, x.id < y.id) : MissingAt (x :: rest) rev n ↔ n = rev + 1 := by
  have habove : ∀ y ∈ x :: rest, rev + 1 < y.id := by
    intro y hy
    rcases List.mem_cons.1 hy with rfl | hy
    · exact hx
    · have := hrest y hy
      omega
  constructor
  · rintro ⟨hlt, hbelow, -, -⟩
    by_contra hn
    obtain ⟨y, hy, hym⟩ := hbelow (rev + 1) (by omega) (by omega)
    have := habove y hy
    omega
  · rintro rfl
    refine ⟨by omega, fun m hm hmn => by omega, fun y hy => ?_, x, List.mem_cons_self, hx⟩
    have := habove y hy
    omega

/-- **What is skipped** is the revision that was missing before, once a second has elapsed. -/
theorem pollLoop_skipped_iff (skip : ℤ) (elapsed : Bool) (rows : List Row) :
    ∀ {rev : ℤ}, (rows.Pairwise fun x y => x.id < y.id) → (∀ x ∈ rows, rev < x.id) →
      ((pollLoop skip elapsed rev rows).skipped = true ↔ elapsed = true ∧ MissingAt rows rev skip) := by
  induction rows with
  | nil =>
    intro rev _ _
    refine ⟨fun h => absurd h Bool.false_ne_true, ?_⟩
    rintro ⟨-, -, -, -, x, hx, -⟩
    exact absurd hx List.not_mem_nil
  | cons x rest ih =>
    intro rev hs hrev
    obtain ⟨hx, hrest⟩ := List.pairwise_cons.1 hs
    have hrx := hrev x List.mem_cons_self
    have ih := ih hrest hx
    unfold pollLoop
    simp only
    by_cases hnext : x.id = rev + 1
    · rw [if_neg (fun h => h.1 hnext), missingAt_cons hnext hx, ← ih]
      simp [hnext]
    · rw [missingAt_gap (by omega) hx]
      by_cases hskip : rev + 1 = skip ∧ elapsed = true
      · obtain ⟨rfl, rfl⟩ := hskip
        rw [if_neg (fun h => h.2 ⟨rfl, rfl⟩)]
        simp [hnext]
      · rw [if_pos ⟨hnext, hskip⟩]
        refine ⟨fun h => absurd h Bool.false_ne_true, fun h => absurd ⟨h.2.symm, h.1⟩ hskip⟩

namespace Polled

variable {s : Polled}

/-- Every revision that the loop has gone past has been seen, and every row of the table up
to there has been sent, or is being sent, unless it is a fill row. -/
structure Passed (s : Polled) : Prop where
  seen : ∀ n, s.pollStart < n → n ≤ s.poller.pollRevision → n ∈ s.poller.seen
  sent : ∀ x ∈ s.table.rows, s.pollStart < x.id → x.id ≤ s.poller.pollRevision → isFill x.name = false →
    x.event ∈ s.poller.events ∨ ∃ r w, s.poller.stage = .sending r w ∧ some x.event ∈ r.batch

/-- A query that still misses the revision that was missing before comes within a second. -/
def InTime (s : Polled) (a : PolledAct) : Prop :=
  ∀ limit elapsed, a = .query limit elapsed → s.poller.stage = .querying →
    MissingAt (s.table.after [] [] s.poller.pollRevision limit) s.poller.pollRevision s.poller.skip →
    elapsed = false

/-- The batch of a query: all the rows of its revisions, and these have been seen. -/
def Covers (t : Kine) (seen : List ℤ) (a : ℤ) (r : PollLoop) : Prop :=
  r.OK t a ∧ ∀ n, a < n → n ≤ r.rev → n ∈ seen

/-- The same for all that has been sent, up to `b`. -/
structure Covered (t : Kine) (start : ℤ) (seen : List ℤ) (b : ℤ) (events : List Event) : Prop where
  le : start ≤ b
  full : t.Full start b
  seen : ∀ n, start < n → n ≤ b → n ∈ seen
  sent : ∀ x ∈ t.rows, start < x.id → x.id ≤ b → isFill x.name = false → x.event ∈ events

/-- The invariant. -/
abbrev OK (s : Polled) : Prop := s.poller.Tracks (Covers s.table) (Covered s.table s.pollStart)

/-- The rows of the revisions of a batch are in it. -/
theorem mem_batch {t : Kine} {a : ℤ} {r : PollLoop} (hr : r.OK t a) {x : Row} (hx : x ∈ t.rows) (hax : a < x.id)
    (hxr : x.id ≤ r.rev) (hfill : isFill x.name = false) : x.event ∈ r.batch.reduceOption := by
  rw [hr.batch]
  refine List.mem_map_of_mem (List.mem_filter.2 ⟨List.mem_filter.2 ⟨hx, ?_⟩, ?_⟩)
  · exact decide_eq_true ⟨hax, hxr⟩
  · rw [hfill]
    rfl

theorem Covered.append {t : Kine} {start b : ℤ} {seen : List ℤ} {events : List Event} {r : PollLoop}
    (h : Covered t start seen b events) (hr : Covers t seen b r) :
    Covered t start seen r.rev (events ++ r.batch.reduceOption) := by
  refine ⟨h.le.trans hr.1.le, h.full.trans hr.1.full, fun n hn hnr => ?_, fun x hx hsx hxr hfill => ?_⟩
  · by_cases hnb : n ≤ b
    · exact h.seen n hn hnb
    · exact hr.2 n (by omega) hnr
  · by_cases hxb : x.id ≤ b
    · exact List.mem_append_left _ (h.sent x hx hsx hxb hfill)
    · exact List.mem_append_right _ (mem_batch hr.1 hx (by omega) hxr hfill)

/-- A row that becomes visible is above all that the loop has gone past. -/
theorem OK.place (hs : s.OK) {x : Row} {t' : Kine} (ht : s.table.place x = some t') :
    ({ s with table := t' } : Polled).OK := by
  refine hs.imp (fun a r hr => ⟨hr.1.place ht, hr.2⟩) (fun b events h => ⟨h.le, h.full.place ht, h.seen, ?_⟩)
  intro y hy hsy hyb hfill
  rcases (mem_place ht).1 hy with hy | rfl
  · exact h.sent y hy hsy hyb hfill
  · exact absurd ⟨hsy, hyb⟩ (h.full.not_mem ht)

/-- A step of the loop. -/
theorem OK.poller (hs : s.OK) (a : PollerAct)
    (hquery : ∀ rows elapsed, a = .after (some rows) elapsed → s.poller.stage = .querying →
      Covers s.table (s.poller.seen ++ rows.map Row.id) s.poller.pollRevision
        (pollLoop s.poller.skip elapsed s.poller.pollRevision rows)) :
    ({ s with poller := s.poller.step a } : Polled).OK := by
  refine Poller.step_tracks ?_ ?_ (fun _ _ _ h => h.1.le) (fun _ _ _ _ hE hR => hE.append hR) hs a hquery
  · intro seen l a r h
    exact ⟨h.1, fun n hn hnr => List.mem_append_left _ (h.2 n hn hnr)⟩
  · intro seen l b events h
    exact ⟨h.le, h.full, fun n hn hnb => List.mem_append_left _ (h.seen n hn hnb), h.sent⟩

theorem OK.poller_of_ne (hs : s.OK) {a : PollerAct} (ha : ∀ rows elapsed, a ≠ .after (some rows) elapsed) :
    ({ s with poller := s.poller.step a } : Polled).OK :=
  hs.poller a fun rows elapsed h => absurd h (ha rows elapsed)

/-- A query in time: nothing is skipped. -/
theorem covers_query {limit : ℤ} {elapsed : Bool} (ht : s.InTime (.query limit elapsed))
    (hstage : s.poller.stage = .querying) :
    Covers s.table (s.poller.seen ++ (s.table.after [] [] s.poller.pollRevision limit).map Row.id)
      s.poller.pollRevision (pollLoop s.poller.skip elapsed s.poller.pollRevision
        (s.table.after [] [] s.poller.pollRevision limit)) := by
  have hsorted := s.table.after_sorted s.poller.pollRevision limit
  have habove : ∀ x ∈ s.table.after [] [] s.poller.pollRevision limit, s.poller.pollRevision < x.id :=
    fun x hx => (mem_after hx).2
  have hskip : (pollLoop s.poller.skip elapsed s.poller.pollRevision
      (s.table.after [] [] s.poller.pollRevision limit)).skipped = false := by
    rw [← Bool.not_eq_true, pollLoop_skipped_iff _ _ _ hsorted habove]
    rintro ⟨helapsed, hmissing⟩
    have := ht limit elapsed rfl hstage hmissing
    rw [helapsed] at this
    exact Bool.false_ne_true this.symm
  refine ⟨pollLoop_ok hskip, fun n hn hnr => ?_⟩
  obtain ⟨-, -, -, -, hfull⟩ := pollLoop_spec s.poller.skip elapsed _ hsorted habove
  obtain ⟨x, hx, rfl⟩ := hfull hskip n hn hnr
  exact List.mem_append_right _ (List.mem_map_of_mem hx)

theorem OK.fill (hs : s.OK) : s.fill.OK := by
  unfold Polled.fill
  split
  · rename_i next r w hstage
    split
    · rename_i t ht
      exact OK.poller_of_ne (s := { s with table := t }) (hs.place ht) (by simp)
    · exact hs.poller_of_ne (by simp)
  · exact hs

/-- **A step in time keeps the invariant.** -/
theorem step_ok (hs : s.OK) {a : PolledAct} (ht : s.InTime a) : (s.step a).OK := by
  cases a with
  | place x =>
    show ({ s with table := (s.table.place x).getD s.table } : Polled).OK
    cases hx : s.table.place x with
    | none => exact hs
    | some t' => exact hs.place hx
  | query limit elapsed =>
    refine hs.poller _ fun rows elapsed' h hstage => ?_
    obtain ⟨rfl, rfl⟩ : s.table.after [] [] s.poller.pollRevision limit = rows ∧ elapsed = elapsed' := by
      simpa using h
    exact covers_query ht hstage
  | fill => exact hs.fill
  | notified check => exact hs.poller_of_ne (by simp)
  | tick => exact hs.poller_of_ne (by simp)
  | store => exact hs.poller_of_ne (by simp)
  | queryFails => exact hs.poller_of_ne (by simp)
  | fillFails => exact hs.poller_of_ne (by simp)
  | send => exact hs.poller_of_ne (by simp)

theorem ok_start {t : Kine} (h : start t = some s) : s.OK := by
  obtain ⟨rev, hrev, rfl⟩ := Option.map_eq_some_iff.1 h
  have hpos : 0 ≤ rev := by
    have := SqlLog.currentRev_nonneg t
    rw [hrev] at this
    exact this
  have hempty : Covered t rev [] rev [] :=
    ⟨le_rfl, fun _ hn hn' => absurd hn (not_lt.2 hn'), fun _ hn hn' => absurd hn (not_lt.2 hn'),
      fun _ _ hx hx' => absurd hx (not_lt.2 hx')⟩
  exact ⟨hpos, hempty, fun _ => rfl, fun _ _ _ hs => absurd hs (Poller.resting_waiting.fill _ _ _),
    fun _ _ hs => absurd hs (Poller.resting_waiting.send _ _)⟩

theorem OK.passed (hs : s.OK) : s.Passed := by
  by_cases hsend : ∀ r w, s.poller.stage ≠ .sending r w
  · have heq := hs.rests hsend
    refine ⟨fun n hn hnr => hs.done.seen n hn (by omega), fun x hx hsx hxr hfill => .inl ?_⟩
    exact hs.done.sent x hx hsx (by omega) hfill
  · -- the batch that is being sent covers the rest
    obtain ⟨r, w, hstage⟩ : ∃ r w, s.poller.stage = .sending r w := by
      by_contra hno
      exact hsend fun r w h => hno ⟨r, w, h⟩
    obtain ⟨hrev, hr⟩ := hs.sending r w hstage
    refine ⟨fun n hn hnr => ?_, fun x hx hsx hxr hfill => ?_⟩
    · by_cases hnh : n ≤ s.poller.handed
      · exact hs.done.seen n hn hnh
      · exact hr.2 n (by omega) (by omega)
    · by_cases hxh : x.id ≤ s.poller.handed
      · exact .inl (hs.done.sent x hx hsx hxh hfill)
      · have hmem := mem_batch hr.1 hx (by omega) (by omega) hfill
        exact .inr ⟨r, w, hstage, List.reduceOption_mem_iff.1 hmem⟩

/-- **Nothing is passed unseen in time**: in a run in which no query that finds the same gap
again is late, every revision that the loop has gone past has been seen by it or is its own
fill, and every row that is visible by then has been sent. -/
theorem passed_in_time (t : Kine) (s : Polled) (hstart : start t = some s) (acts : List PolledAct)
    (hacts : Guarded step InTime s acts) : Always step Passed s acts := by
  have hok : Always step OK s acts :=
    invariant_of_guarded (fun _ _ ha hs => step_ok hs ha) acts s (ok_start hstart) hacts
  exact hok.mono fun _ hs => hs.passed

/-- A row of a client. -/
def row (id : ℤ) : Row := ⟨id, ascii "/a" ++ ascii (toString id), [], true, false, 0, 0, 0, [], []⟩

/-- Row 3 is visible and row 2 is not: the gap is retried and filled. -/
def filledRun : List PolledAct :=
  [.place (row 3), .tick, .store, .query 0 false, .notified 2, .store, .query 0 false, .fill, .place (row 2),
    .notified 2, .store, .query 0 false, .send]

/-- The row that comes too late is refused. -/
theorem passed_in_time_filled : ∃ s, start Hub.init.table = some s ∧ Guarded step InTime s filledRun ∧
    Always step Passed s filledRun ∧
    (exec step s filledRun).table.rows.map Row.name = [compactRevKey, (fillRow 2).name, (row 3).name] := by
  obtain ⟨s, hs⟩ : ∃ s, start Hub.init.table = some s := ⟨_, rfl⟩
  have hrun : Guarded step InTime s filledRun := by
    refine ⟨?_, ?_, ?_, ?_, ?_, ?_, ?_, ?_, ?_, ?_, ?_, ?_, ?_, trivial⟩ <;> rintro limit elapsed ⟨⟩ - - <;> rfl
  refine ⟨s, hs, hrun, passed_in_time _ s hs filledRun hrun, ?_⟩
  obtain rfl := Option.some.inj hs
  decide +kernel

/-- The same gap, and then a query that takes longer than a second; afterwards row 2 becomes
visible. -/
def lateRun : List PolledAct :=
  [.place (row 3), .tick, .store, .query 0 false, .notified 2, .store, .query 0 true, .send, .place (row 2),
    .tick, .store, .query 0 false]

/-- **A late query loses a row**: the loop is at revision 3 and has sent row 3 only; it has
not seen revision 2, nor filled it, and row 2 is in the table. -/
theorem late_query_loses_row : ∃ s, start Hub.init.table = some s ∧ s.pollStart = 1 ∧
    (exec step s lateRun).poller.pollRevision = 3 ∧ 2 ∉ (exec step s lateRun).poller.seen ∧
    row 2 ∈ (exec step s lateRun).table.rows ∧ (exec step s lateRun).poller.events = [(row 3).event] := by
  refine ⟨_, rfl, rfl, ?_, ?_, ?_, ?_⟩ <;> decide +kernel

end Polled

end Harikube
