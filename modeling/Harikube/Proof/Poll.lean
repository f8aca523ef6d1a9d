import Harikube.Proof.Calls
import Harikube.Spec.Poll

/-!
# What the poll loop passes on

* `pollLoop_spec`: the loop over the rows of a query goes as far as the revisions are
  consecutive, and its batch holds the events of the rows it has passed, fill rows apart.
* `Hub.OK`: every revision between the start of the poll loop and the revision it has
  reached is in the table, and the batches on their way hold events of rows of the table.
* `Hub.step_ok`: **no step breaks this as long as no revision is skipped.**
-/

namespace Harikube

open Kine

/-- The event of a row, as `poll` and `After` return it. -/
abbrev Row.event (x : Row) : Event := x.toEvent true true

@[simp] theorem Row.event_key (x : Row) : x.event.kv.key = x.name := rfl

@[simp] theorem Row.event_modRevision (x : Row) : x.event.kv.modRevision = x.id := rfl

namespace Kine

variable {t t' : Kine}

/-- The events that the poll loop passes on for the revisions above `a` up to `b`. -/
def passed (t : Kine) (a b : ℤ) : List Event :=
  ((t.rows.filter fun x => a < x.id ∧ x.id ≤ b).filter fun x => !isFill x.name).map Row.event

/-- Every revision above `a` up to `b` is in the table. -/
def Full (t : Kine) (a b : ℤ) : Prop := ∀ n, a < n → n ≤ b → ∃ x ∈ t.rows, x.id = n

theorem Full.trans {a b c : ℤ} (h : t.Full a b) (h' : t.Full b c) : t.Full a c := by
  intro n han hnc
  by_cases hnb : n ≤ b
  · exact h n han hnb
  · exact h' n (by omega) hnc

theorem Full.place {a b : ℤ} (h : t.Full a b) {x : Row} (ht : t.place x = some t') : t'.Full a b := by
  intro n han hnb
  obtain ⟨y, hy, hyn⟩ := h n han hnb
  exact ⟨y, (mem_place ht).2 (.inl hy), hyn⟩

/-- A row that becomes visible has an id outside of what is full. -/
theorem Full.not_mem {a b : ℤ} (h : t.Full a b) {x : Row} (ht : t.place x = some t') :
    ¬ (a < x.id ∧ x.id ≤ b) := by
  rintro ⟨hax, hxb⟩
  obtain ⟨y, hy, hyx⟩ := h x.id hax hxb
  exact ((place_eq_some ht).1 y hy).1 hyx

/-- Filtering a table by a condition that the new row does not meet. -/
theorem filter_place {x : Row} (ht : t.place x = some t') {p : Row → Bool} (hp : p x = false) :
    t'.rows.filter p = t.rows.filter p := by
  refine Sorted.ext_of_sorted Row.id (t'.sorted.filter p) (t.sorted.filter p) fun y => ?_
  rw [List.mem_filter, List.mem_filter, mem_place ht]
  constructor
  · rintro ⟨hy | rfl, hpy⟩
    · exact ⟨hy, hpy⟩
    · rw [hp] at hpy
      exact absurd hpy Bool.false_ne_true
  · rintro ⟨hy, hpy⟩
    exact ⟨.inl hy, hpy⟩

theorem passed_place {a b : ℤ} {x : Row} (ht : t.place x = some t') (hx : ¬ (a < x.id ∧ x.id ≤ b)) :
    t'.passed a b = t.passed a b := by
  unfold passed
  rw [filter_place ht (decide_eq_false hx)]

theorem mem_passed {a b : ℤ} {e : Event} (he : e ∈ t.passed a b) : ∃ x ∈ t.rows, e = x.event := by
  obtain ⟨x, hx, rfl⟩ := List.mem_map.1 he
  exact ⟨x, List.mem_of_mem_filter (List.mem_of_mem_filter hx), rfl⟩

theorem passed_sorted (t : Kine) (a b : ℤ) :
    (t.passed a b).Pairwise fun e e' => e.kv.modRevision < e'.kv.modRevision := by
  unfold passed
  rw [List.pairwise_map]
  exact (t.sorted.filter _).filter _

/-- Events of rows of the table, in the order of revisions. -/
def Seen (t : Kine) (events : List Event) : Prop :=
  (events.Pairwise fun e e' => e.kv.modRevision < e'.kv.modRevision) ∧ ∀ e ∈ events, ∃ x ∈ t.rows, e = x.event

theorem Seen.place {events : List Event} (h : t.Seen events) {x : Row} (ht : t.place x = some t') :
    t'.Seen events := by
  refine ⟨h.1, fun e he => ?_⟩
  obtain ⟨y, hy, rfl⟩ := h.2 e he
  exact ⟨y, (mem_place ht).2 (.inl hy), rfl⟩

theorem Seen.sublist {events events' : List Event} (h : t.Seen events) (hs : events'.Sublist events) :
    t.Seen events' :=
  ⟨h.1.sublist hs, fun e he => h.2 e (hs.subset he)⟩

theorem seen_passed (t : Kine) (a b : ℤ) : t.Seen (t.passed a b) :=
  ⟨t.passed_sorted a b, fun _ he => mem_passed he⟩

theorem after_all (t : Kine) (rev limit : ℤ) :
    ∃ l, t.rows.filter (fun x => rev < x.id) = t.after [] [] rev limit ++ l := by
  have hall : (fun x : Row => decide (rev < x.id) && (if ([] : Bytes) = [] then true else
      if ([] : Bytes) = [] then decide (x.name = []) else between [] [] x.name)) =
      fun x => decide (rev < x.id) := by
    funext x
    simp
  unfold after Mvcc.firstN
  rw [hall]
  split
  · exact ⟨_, (List.take_append_drop _ _).symm⟩
  · exact ⟨[], (List.append_nil _).symm⟩

section After

variable {x y : Row} {rev limit : ℤ}

theorem after_sorted (t : Kine) (rev limit : ℤ) :
    (t.after [] [] rev limit).Pairwise fun x y => x.id < y.id := by
  obtain ⟨l, hl⟩ := t.after_all rev limit
  have hs := t.sorted.filter fun x => decide (rev < x.id)
  rw [hl] at hs
  exact (List.pairwise_append.1 hs).1

theorem mem_after (hx : x ∈ t.after [] [] rev limit) : x ∈ t.rows ∧ rev < x.id := by
  obtain ⟨l, hl⟩ := t.after_all rev limit
  have hmem : x ∈ t.rows.filter fun x => decide (rev < x.id) := by
    rw [hl]
    exact List.mem_append_left _ hx
  exact ⟨List.mem_of_mem_filter hmem, of_decide_eq_true (List.mem_filter.1 hmem).2⟩

/-- The limit cuts off the larger ids. -/
theorem mem_after_of_le (hx : x ∈ t.after [] [] rev limit) (hy : y ∈ t.rows) (hrev : rev < y.id)
    (hle : y.id ≤ x.id) : y ∈ t.after [] [] rev limit := by
  obtain ⟨l, hl⟩ := t.after_all rev limit
  have hs := t.sorted.filter fun x => decide (rev < x.id)
  have hmem : y ∈ t.rows.filter fun x => decide (rev < x.id) := List.mem_filter.2 ⟨hy, decide_eq_true hrev⟩
  rw [hl] at hs hmem
  rcases List.mem_append.1 hmem with hmem | hmem
  · exact hmem
  · have := (List.pairwise_append.1 hs).2.2 x hx y hmem
    omega

end After

end Kine

/-! ## The loop over the rows -/

/-- **What the loop over the rows of a query leaves behind.** -/
theorem pollLoop_spec (skip : ℤ) (elapsed : Bool) (rows : List Row) :
    ∀ {rev : ℤ}, (rows.Pairwise fun x y => x.id < y.id) → (∀ x ∈ rows, rev < x.id) →
      rev ≤ (pollLoop skip elapsed rev rows).rev ∧
      ((pollLoop skip elapsed rev rows).saveLast = true ↔ rev < (pollLoop skip elapsed rev rows).rev) ∧
      ((pollLoop skip elapsed rev rows).rev = rev ∨
        ∃ x ∈ rows, x.id = (pollLoop skip elapsed rev rows).rev) ∧
      (pollLoop skip elapsed rev rows).batch.reduceOption =
        ((rows.filter fun x => x.id ≤ (pollLoop skip elapsed rev rows).rev).filter
          fun x => !isFill x.name).map Row.event ∧
      ((pollLoop skip elapsed rev rows).skipped = false → ∀ n, rev < n →
        n ≤ (pollLoop skip elapsed rev rows).rev → ∃ x ∈ rows, x.id = n) := by
  induction rows with
  | nil =>
    intro rev _ _
    refine ⟨le_rfl, ?_, .inl rfl, rfl, fun _ n hn hn' => ?_⟩
    · simp [pollLoop]
    · exact absurd hn (not_lt.2 hn')
  | cons x rest ih =>
    intro rev hs hrev
    obtain ⟨hx, hrest⟩ := List.pairwise_cons.1 hs
    have hrx := hrev x List.mem_cons_self
    unfold pollLoop
    simp only
    split
    · -- a gap: nothing is passed
      refine ⟨le_rfl, by simp, .inl rfl, ?_, fun _ n hn hn' => absurd hn (not_lt.2 hn')⟩
      rw [List.reduceOption_replicate_none, eq_comm, List.map_eq_nil_iff, List.filter_eq_nil_iff]
      intro y hy
      have hle : y.id ≤ rev := of_decide_eq_true (List.mem_filter.1 hy).2
      have := hrev y (List.mem_of_mem_filter hy)
      omega
    · obtain ⟨hle, -, hlast, hbatch, hfull⟩ := ih hrest hx
      generalize pollLoop skip elapsed x.id rest = r at *
      refine ⟨show rev ≤ r.rev by omega, by simp; omega, .inr ?_, ?_, ?_⟩
      · rcases hlast with h | ⟨y, hy, hyr⟩
        · exact ⟨x, List.mem_cons_self, h.symm⟩
        · exact ⟨y, List.mem_cons_of_mem _ hy, hyr⟩
      · rw [List.filter_cons_of_pos (by simpa using hle)]
        cases hf : isFill x.name with
        | true =>
          simp only [if_true, List.reduceOption_cons_of_none]
          rw [hbatch, List.filter_cons_of_neg (by simp [hf])]
        | false =>
          simp only [Bool.false_eq_true, if_false, List.reduceOption_cons_of_some]
          rw [hbatch, List.filter_cons_of_pos (by simp [hf]), List.map_cons]
      · intro hskip n hn hn'
        simp only [Bool.or_eq_false_iff, decide_eq_false_iff_not, ne_eq, not_not] at hskip
        obtain ⟨hskip, hnext⟩ := hskip
        by_cases hnx : n ≤ x.id
        · exact ⟨x, List.mem_cons_self, by omega⟩
        · obtain ⟨y, hy, hyn⟩ := hfull hskip n (by omega) hn'
          exact ⟨y, List.mem_cons_of_mem _ hy, hyn⟩

/-- What the poll loop is about to publish: it covers the revisions from `a` on. -/
structure PollLoop.OK (t : Kine) (a : ℤ) (r : PollLoop) : Prop where
  le : a ≤ r.rev
  save : r.saveLast = true ↔ a < r.rev
  batch : r.batch.reduceOption = t.passed a r.rev
  full : t.Full a r.rev

theorem PollLoop.OK.place {t t' : Kine} {a : ℤ} {r : PollLoop} (h : r.OK t a) {x : Row}
    (ht : t.place x = some t') : r.OK t' a :=
  ⟨h.le, h.save, by rw [passed_place ht (h.full.not_mem ht)]; exact h.batch, h.full.place ht⟩

/-- The batch of a query of the table, if no revision is skipped. -/
theorem pollLoop_ok {t : Kine} {skip rev limit : ℤ} {elapsed : Bool}
    (hskip : (pollLoop skip elapsed rev (t.after [] [] rev limit)).skipped = false) :
    (pollLoop skip elapsed rev (t.after [] [] rev limit)).OK t rev := by
  obtain ⟨hle, hsave, hlast, hbatch, hfull⟩ := pollLoop_spec skip elapsed _ (t.after_sorted rev limit)
    (fun x hx => (mem_after hx).2)
  generalize pollLoop skip elapsed rev (t.after [] [] rev limit) = r at *
  refine ⟨hle, hsave, ?_, fun n hn hn' => ?_⟩
  · -- the rows that the limit has cut off are above the last one passed
    have hrows : (t.rows.filter fun x => rev < x.id ∧ x.id ≤ r.rev) =
        (t.after [] [] rev limit).filter fun x => x.id ≤ r.rev := by
      refine Sorted.ext_of_sorted Row.id (t.sorted.filter _) ((t.after_sorted rev limit).filter _) fun y => ?_
      simp only [List.mem_filter, decide_eq_true_eq]
      constructor
      · rintro ⟨hy, hrev, hyr⟩
        rcases hlast with heq | ⟨x, hx, hxr⟩
        · omega
        · exact ⟨mem_after_of_le hx hy hrev (by omega), hyr⟩
      · rintro ⟨hy, hyr⟩
        exact ⟨(mem_after hy).1, (mem_after hy).2, hyr⟩
    unfold passed
    rw [hrows]
    exact hbatch
  · obtain ⟨x, hx, hxn⟩ := hfull hskip n hn hn'
    exact ⟨x, (mem_after hx).1, hxn⟩

namespace Hub

variable {h : Hub} {p : Poll}

/-! ## The steps -/

/-- The revision the poll loop has reached. -/
def pollRevision (h : Hub) : ℤ := (h.poll.map Poll.pollRevision).getD 0

/-- The batches on their way to the subscribers. -/
def transit (h : Hub) : List Batch := h.held.toList ++ h.outbox.toList

/-- The table has rows; the revisions that the poll loop has gone through are all there;
what it is about to publish is right, and nothing is being sent meanwhile; the batches on
their way hold events of the table. -/
structure OK (h : Hub) : Prop where
  row : ∃ x, x ∈ h.table.rows
  start : ∀ p, h.poll = some p →
    0 < p.pollStart ∧ p.pollStart ≤ p.pollRevision ∧ h.table.Full p.pollStart p.pollRevision
  filling : ∀ p next r, h.poll = some p → p.stage = .filling next r → r.OK h.table p.pollRevision
  busy : ∀ p, h.poll = some p → p.stage ≠ .waiting → h.outbox = none
  transit : ∀ b ∈ h.transit, h.table.Seen b.reduceOption
  polled : h.polledRev ≤ h.pollRevision

/-- No revision is skipped by `canSkipRevision`. -/
def NoSkip (h : Hub) (a : HubAct) : Prop :=
  ∀ limit elapsed p, a = .query limit elapsed → h.poll = some p → p.stage = .querying →
    (h.scan p limit elapsed).skipped = false

theorem ok_init : init.OK := by
  refine ⟨⟨⟨1, compactRevKey, [], true, false, 0, 0, 0, [], []⟩, by decide⟩, ?_, ?_, ?_, ?_, le_rfl⟩
  · intro p h
    simp [init] at h
  · intro p next r h
    simp [init] at h
  · intro p h
    simp [init] at h
  · intro b hb
    simp [init, Hub.transit] at hb

theorem OK.place (hok : h.OK) {x : Row} {t' : Kine} (ht : h.table.place x = some t') :
    ({ h with table := t' } : Hub).OK := by
  obtain ⟨y, hy⟩ := hok.row
  refine ⟨⟨y, (mem_place ht).2 (.inl hy)⟩, fun p hp => ?_, fun p next r hp hr => ?_, hok.busy,
    fun b hb => (hok.transit b hb).place ht, hok.polled⟩
  · obtain ⟨hpos, hle, hfull⟩ := hok.start p hp
    exact ⟨hpos, hle, hfull.place ht⟩
  · exact (hok.filling p next r hp hr).place ht

/-- The poll loop has moved on, or not: the table is the same, and the batch of the
revisions it has gone through is on its way. -/
def Advance (h h' : Hub) : Prop :=
  h'.table = h.table ∧
    ((h'.pollRevision = h.pollRevision ∧ h'.transit = h.transit) ∨
      ∃ r : PollLoop, r.OK h.table h.pollRevision ∧ h'.pollRevision = r.rev ∧
        h'.transit = h.transit ++ [r.batch])

theorem Advance.refl (h : Hub) : Advance h h := ⟨rfl, .inl ⟨rfl, rfl⟩⟩

theorem publish_ok (hok : h.OK) {p₀ : Poll} (hp : h.poll = some p₀) (hidle : h.outbox = none)
    (hrev : p.pollRevision = p₀.pollRevision) (hstart : p.pollStart = p₀.pollStart) {r : PollLoop}
    (hr : r.OK h.table p.pollRevision) : (h.publish p r).OK ∧ Advance h (h.publish p r) := by
  obtain ⟨hpos, hle, hfull⟩ := hok.start p₀ hp
  rw [← hstart] at hpos
  rw [← hrev, ← hstart] at hle hfull
  have hcur : h.pollRevision = p.pollRevision := by
    unfold pollRevision
    rw [hp, hrev]
    rfl
  have hpolled := hok.polled
  rw [hcur] at hpolled
  unfold publish
  by_cases hsave : r.saveLast = true
  · have hlt := hr.save.1 hsave
    have htransit : ∀ b ∈ h.transit ++ [r.batch], h.table.Seen b.reduceOption := by
      intro b hb
      rcases List.mem_append.1 hb with hb | hb
      · exact hok.transit b hb
      · rw [List.mem_singleton.1 hb, hr.batch]
        exact seen_passed _ _ _
    have hsame : h.held.toList ++ (some r.batch).toList = h.transit ++ [r.batch] := by
      unfold Hub.transit
      rw [hidle]
      simp
    rw [if_pos hsave]
    refine ⟨⟨hok.row, ?_, ?_, ?_, ?_, ?_⟩, rfl, .inr ⟨r, hcur ▸ hr, rfl, hsame⟩⟩
    · rintro q ⟨⟩
      exact ⟨hpos, show p.pollStart ≤ r.rev by omega, hfull.trans hr.full⟩
    · rintro q next r' ⟨⟩ hstage
      simp at hstage
    · rintro q ⟨⟩ hstage
      simp at hstage
    · intro b hb
      exact htransit b (hsame ▸ hb)
    · show h.polledRev ≤ r.rev
      omega
  · rw [if_neg hsave]
    refine ⟨⟨hok.row, ?_, ?_, ?_, hok.transit, hpolled⟩, rfl, .inl ⟨hcur.symm, rfl⟩⟩
    · rintro q ⟨⟩
      exact ⟨hpos, hle, hfull⟩
    · rintro q next r' ⟨⟩ hstage
      simp at hstage
    · rintro q ⟨⟩ hstage
      simp at hstage

theorem wake_ok (hok : h.OK) : h.wake.OK ∧ Advance h h.wake := by
  unfold wake
  split
  · rename_i start rev skip hp ho
    have hcur : h.pollRevision = rev := by
      unfold pollRevision
      rw [hp]
      rfl
    have hstart := hok.start _ hp
    refine ⟨⟨hok.row, ?_, ?_, fun _ _ _ => ho, hok.transit, le_rfl⟩, rfl, .inl ⟨hcur.symm, rfl⟩⟩
    · rintro q ⟨⟩
      exact hstart
    · rintro q next r ⟨⟩ hstage
      simp at hstage
  · exact ⟨hok, .refl h⟩

theorem query_ok (hok : h.OK) {limit : ℤ} {elapsed : Bool} (hskip : h.NoSkip (.query limit elapsed)) :
    (h.query limit elapsed).OK ∧ Advance h (h.query limit elapsed) := by
  unfold query
  split
  · rename_i start rev skip hp
    have hr : (h.scan ⟨start, rev, skip, .querying⟩ limit elapsed).OK h.table rev :=
      pollLoop_ok (hskip limit elapsed _ rfl hp rfl)
    have hidle := hok.busy _ hp (by simp)
    have hstart := hok.start _ hp
    simp only
    split
    · exact publish_ok hok hp hidle rfl rfl hr
    · rename_i next _
      exact publish_ok (p := ⟨start, rev, next, .querying⟩) hok hp hidle rfl rfl hr
    · have hcur : h.pollRevision = rev := by
        unfold pollRevision
        rw [hp]
        rfl
      refine ⟨⟨hok.row, ?_, ?_, fun _ _ _ => hidle, hok.transit, hcur ▸ hok.polled⟩, rfl,
        .inl ⟨hcur.symm, rfl⟩⟩
      · rintro q ⟨⟩
        exact hstart
      · rintro q next r ⟨⟩ hstage
        obtain ⟨-, rfl⟩ := PollStage.filling.inj hstage
        exact hr
  · exact ⟨hok, .refl h⟩

theorem receive_ok (hok : h.OK) : h.receive.OK ∧ Advance h h.receive := by
  unfold receive
  split
  · rename_i batch ho hh
    have hsame : h.transit = [batch] := by
      unfold Hub.transit
      rw [ho, hh]
      rfl
    refine ⟨⟨hok.row, hok.start, hok.filling, fun _ _ _ => rfl, fun b hb => hok.transit b ?_, hok.polled⟩,
      rfl, .inl ⟨rfl, ?_⟩⟩
    · rw [hsame]
      simpa [Hub.transit] using hb
    · rw [hsame]
      rfl
  · exact ⟨hok, .refl h⟩

theorem fanout_ok (hok : h.OK) : ({ h with held := none } : Hub).OK := by
  refine ⟨hok.row, hok.start, hok.filling, hok.busy, fun b hb => hok.transit b ?_, hok.polled⟩
  unfold Hub.transit at hb ⊢
  exact List.mem_append_right _ (by simpa using hb)

/-- A fill is a row of its own and then the end of the iteration. -/
theorem fill_ok (hok : h.OK) :
    h.fill.OK ∧ ∃ t', (t' = h.table ∨ ∃ n, h.table.place (fillRow n) = some t') ∧
      Advance { h with table := t' } h.fill := by
  unfold fill
  split
  · rename_i start rev skip next r hp
    have hidle := hok.busy _ hp (by simp)
    have hr := hok.filling _ _ _ hp rfl
    cases ht : h.table.fill next with
    | none =>
      obtain ⟨hok', hadv⟩ := publish_ok (p := ⟨start, rev, skip, .waiting⟩) hok hp hidle rfl rfl hr
      exact ⟨hok', h.table, .inl rfl, hadv⟩
    | some t' =>
      have hplaced := OK.place hok ht
      obtain ⟨hok', hadv⟩ := publish_ok (h := { h with table := t' }) (p := ⟨start, rev, skip, .waiting⟩)
        hplaced hp hidle rfl rfl (hr.place ht)
      exact ⟨hok', t', .inr ⟨next, ht⟩, hadv⟩
  · exact ⟨hok, h.table, .inl rfl, .refl h⟩

/-- **The hub stays in order** as long as no revision is skipped. -/
theorem step_ok (hok : h.OK) {a : HubAct} (hskip : h.NoSkip a) : (h.step a).OK := by
  cases a with
  | place x =>
    show ({ h with table := (h.table.place x).getD h.table } : Hub).OK
    cases ht : h.table.place x with
    | none => exact hok
    | some t' => exact OK.place hok ht
  | wake => exact (wake_ok hok).1
  | query limit elapsed => exact (query_ok hok hskip).1
  | fill => exact (fill_ok hok).1
  | receive => exact (receive_ok hok).1
  | fanout => exact fanout_ok hok

/-- A step other than `fanout`: perhaps a new row, and then perhaps a new batch. -/
theorem step_advance (hok : h.OK) {a : HubAct} (hskip : h.NoSkip a) (ha : a ≠ .fanout) :
    ∃ t', (t' = h.table ∨ ∃ x, h.table.place x = some t' ∧ (a = .place x ∨ isFill x.name = true)) ∧
      Advance { h with table := t' } (h.step a) := by
  cases a with
  | place x =>
    show ∃ t', _ ∧ Advance { h with table := t' } { h with table := (h.table.place x).getD h.table }
    cases ht : h.table.place x with
    | none => exact ⟨h.table, .inl rfl, .refl h⟩
    | some t' => exact ⟨t', .inr ⟨x, ht, .inl rfl⟩, .refl _⟩
  | wake => exact ⟨h.table, .inl rfl, (wake_ok hok).2⟩
  | query limit elapsed => exact ⟨h.table, .inl rfl, (query_ok hok hskip).2⟩
  | fill =>
    obtain ⟨-, t', ht | ⟨n, ht⟩, hadv⟩ := fill_ok hok
    · exact ⟨t', .inl ht, hadv⟩
    · exact ⟨t', .inr ⟨_, ht, .inr (isFill_fillRow n)⟩, hadv⟩
  | receive => exact ⟨h.table, .inl rfl, (receive_ok hok).2⟩
  | fanout => exact absurd rfl ha

theorem publish_start (h : Hub) (p : Poll) (r : PollLoop) :
    (h.publish p r).poll.map Poll.pollStart = some p.pollStart := by
  unfold publish
  split <;> rfl

/-- A poll loop that runs keeps running, from where it has started. -/
theorem step_start (h : Hub) (a : HubAct) :
    (h.step a).poll.map Poll.pollStart = h.poll.map Poll.pollStart := by
  cases a with
  | place x => rfl
  | wake =>
    show h.wake.poll.map Poll.pollStart = _
    unfold wake
    split
    · rename_i hp _
      rw [hp]
      rfl
    · rfl
  | query limit elapsed =>
    show (h.query limit elapsed).poll.map Poll.pollStart = _
    unfold query
    split
    · rename_i hp
      rw [hp]
      simp only
      split
      · exact publish_start _ _ _
      · exact publish_start _ _ _
      · rfl
    · rfl
  | fill =>
    show h.fill.poll.map Poll.pollStart = _
    unfold fill
    split
    · rename_i hp
      rw [hp]
      exact publish_start _ _ _
    · rfl
  | receive =>
    show h.receive.poll.map Poll.pollStart = _
    unfold receive
    split <;> rfl
  | fanout => rfl

theorem step_poll (h : Hub) (a : HubAct) (hp : h.poll.isSome = true) : (h.step a).poll.isSome = true := by
  rw [← Option.isSome_map (f := Poll.pollStart), step_start, Option.isSome_map]
  exact hp

/-- A subscription starts the poll loop, at the largest revision, or changes nothing. -/
theorem connect_ok (hok : h.OK) {h' : Hub} (hc : h.connect = some h') :
    h'.OK ∧ h'.table = h.table ∧ h'.held = h.held ∧ h'.outbox = h.outbox ∧ h'.poll.isSome ∧
      (h.poll.isSome → h' = h) := by
  unfold connect at hc
  split at hc
  · rename_i p hp
    obtain rfl := Option.some.inj hc
    exact ⟨hok, rfl, rfl, rfl, by rw [hp]; rfl, fun _ => rfl⟩
  · rename_i hp
    obtain ⟨rev, hrev, rfl⟩ := Option.map_eq_some_iff.1 hc
    have hpos := currentRev_pos hok.row.choose_spec
    rw [hrev] at hpos
    have hpolled := hok.polled
    unfold pollRevision at hpolled
    rw [hp] at hpolled
    refine ⟨⟨hok.row, ?_, ?_, ?_, hok.transit, hpolled.trans hpos.le⟩, rfl, rfl, rfl, rfl, fun h => ?_⟩
    · rintro q ⟨⟩
      exact ⟨hpos, le_rfl, fun n hn hn' => absurd hn (not_lt.2 hn')⟩
    · rintro q next r ⟨⟩ hstage
      simp at hstage
    · rintro q ⟨⟩ hstage
      simp at hstage
    · rw [hp] at h
      simp at h

end Hub

end Harikube
