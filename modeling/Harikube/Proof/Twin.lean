import Harikube.Proof.Seat

/-!
# Two watches of one request

One watch is opened before the rows are written and one after. The first gets the rows
through the broadcast and its filter, the second through `After`, which has no selectors
and returns fill rows.

* `Hub.Covers`: what the broadcaster sends to the first watch are the rows that the poll
  loop has passed, fill rows apart.
* `Twin.OK`: what the second watch has not been sent is in its backlog.
* `Twin.twins_agree_iff`: **the two watches deliver the same events if and only if the
  filter of the broadcast and the query of the backlog take the same rows.**
-/

namespace Harikube

open Kine Lts

theorem Kine.passed_append (t : Kine) (a : ℤ) {b c : ℤ} (hbc : b ≤ c) :
    t.passed a b ++ (t.passed b c).filter (fun e => a < e.kv.modRevision) = t.passed a c := by
  have hsplit := Sorted.filter_le_append_filter_lt Row.id b
    ((t.sorted.filter fun x => a < x.id ∧ x.id ≤ c).filter fun x => !isFill x.name)
  unfold passed
  rw [List.filter_map, ← List.map_append, ← hsplit]
  simp only [List.filter_filter]
  congr 2
  · apply List.filter_congr
    intro x _
    rw [Bool.eq_iff_iff]
    simp only [Bool.and_eq_true, decide_eq_true_eq]
    constructor
    · rintro ⟨hfill, hax, hxb⟩
      exact ⟨hxb, hfill, hax, by omega⟩
    · rintro ⟨hxb, hfill, hax, -⟩
      exact ⟨hfill, hax, hxb⟩
  · apply List.filter_congr
    intro x _
    rw [Bool.eq_iff_iff]
    simp only [Function.comp_apply, Row.event_modRevision, Bool.and_eq_true, decide_eq_true_eq]
    constructor
    · rintro ⟨hax, hfill, hbx, hxc⟩
      exact ⟨hbx, hfill, of_decide_eq_true hax, hxc⟩
    · rintro ⟨hbx, hfill, hax, hxc⟩
      exact ⟨decide_eq_true hax, hfill, hbx, hxc⟩

namespace Hub

variable {h h' : Hub} {a : ℤ} {sent : List Batch}

/-! ## What the broadcaster sends -/

/-- The poll loop has started behind a revision of the table. -/
def Rooted (h : Hub) : Prop := ∀ p, h.poll = some p → ∃ y ∈ h.table.rows, y.id = p.pollStart

theorem mem_step (hok : h.OK) {b : HubAct} (hskip : h.NoSkip b) {y : Row} (hy : y ∈ h.table.rows) :
    y ∈ (h.step b).table.rows := by
  by_cases hb : b = .fanout
  · subst hb
    exact hy
  · obtain ⟨t', ht, htable, -⟩ := step_advance hok hskip hb
    rw [htable]
    rcases ht with rfl | ⟨z, hz, -⟩
    · exact hy
    · exact (mem_place hz).2 (.inl hy)

theorem Rooted.step (hr : h.Rooted) (hok : h.OK) {b : HubAct} (hskip : h.NoSkip b) : (h.step b).Rooted := by
  intro p hp
  have hstart := h.step_start b
  rw [hp, eq_comm, Option.map_some, Option.map_eq_some_iff] at hstart
  obtain ⟨q, hq, hqp⟩ := hstart
  obtain ⟨y, hy, hyq⟩ := hr q hq
  exact ⟨y, mem_step hok hskip hy, hyq.trans hqp⟩

theorem Rooted.connect (hr : h.Rooted) (hok : h.OK) (hc : h.connect = some h') : h'.Rooted := by
  unfold Hub.connect at hc
  split at hc
  · obtain rfl := Option.some.inj hc
    exact hr
  · obtain ⟨rev, hrev, rfl⟩ := Option.map_eq_some_iff.1 hc
    rintro p ⟨⟩
    obtain ⟨y, hy, hyr⟩ := exists_currentRev hok.row.choose_spec
    rw [hrev] at hyr
    exact ⟨y, hy, hyr⟩

/-- The poll loop runs from a revision up to `a` on, and the batches that have been sent
and those on their way hold the rows above `a` that it has passed. -/
structure Covers (h : Hub) (a : ℤ) (sent : List Batch) : Prop where
  runs : h.poll.isSome = true
  start : ∀ p, h.poll = some p → p.pollStart ≤ a
  events : (((sent ++ h.transit).flatMap List.reduceOption).filter fun e => a < e.kv.modRevision) =
    h.table.passed a h.pollRevision

/-- A table without rows above `a`. -/
theorem covers_of_le (hok : h.OK) (hr : h.Rooted) (hruns : h.poll.isSome = true)
    (hseen : ∀ b ∈ sent, h.table.Seen b.reduceOption) (hle : ∀ y ∈ h.table.rows, y.id ≤ a) :
    h.Covers a sent := by
  have hpassed : h.table.passed a h.pollRevision = [] := by
    unfold passed
    rw [List.map_eq_nil_iff, List.filter_eq_nil_iff]
    intro y hy
    obtain ⟨hy, hlt⟩ := List.mem_filter.1 hy
    have hlt := (of_decide_eq_true hlt).1
    have := hle y hy
    omega
  refine ⟨hruns, fun p hp => ?_, ?_⟩
  · obtain ⟨y, hy, hyp⟩ := hr p hp
    have := hle y hy
    omega
  · rw [hpassed, List.filter_eq_nil_iff]
    intro e he hlt
    obtain ⟨b, hb, heb⟩ := List.mem_flatMap.1 he
    have hb : h.table.Seen b.reduceOption := by
      rcases List.mem_append.1 hb with hb | hb
      · exact hseen b hb
      · exact hok.transit b hb
    obtain ⟨y, hy, rfl⟩ := hb.2 e heb
    have hlt : a < y.id := of_decide_eq_true hlt
    have := hle y hy
    omega

theorem Covers.place (hc : h.Covers a sent) (hok : h.OK) {y : Row} {t' : Kine} (ht : h.table.place y = some t') :
    ({ h with table := t' } : Hub).Covers a sent := by
  obtain ⟨p, hp⟩ := Option.isSome_iff_exists.1 hc.runs
  have hrev : h.pollRevision = p.pollRevision := by
    unfold pollRevision
    rw [hp]
    rfl
  have hfree := (hok.start p hp).2.2.not_mem ht
  have hstart := hc.start p hp
  refine ⟨hc.runs, hc.start, ?_⟩
  show _ = t'.passed a h.pollRevision
  rw [passed_place ht (by omega)]
  exact hc.events

theorem Covers.advance (hc : h.Covers a sent) (hadv : Advance h h')
    (hstart : h'.poll.map Poll.pollStart = h.poll.map Poll.pollStart) : h'.Covers a sent := by
  refine ⟨?_, fun p hp => ?_, ?_⟩
  · rw [← Option.isSome_map (f := Poll.pollStart), hstart, Option.isSome_map]
    exact hc.runs
  · rw [hp, eq_comm, Option.map_some, Option.map_eq_some_iff] at hstart
    obtain ⟨q, hq, hqp⟩ := hstart
    exact hqp ▸ hc.start q hq
  · obtain ⟨htable, ⟨hrev, htransit⟩ | ⟨r, hr, hrev, htransit⟩⟩ := hadv
    · rw [htable, hrev, htransit]
      exact hc.events
    · -- the new batch goes on where the table was passed up to
      rw [htable, hrev, htransit, ← List.append_assoc, List.flatMap_append, List.filter_append, hc.events,
        List.flatMap_singleton, hr.batch, passed_append _ _ hr.le]

theorem Covers.step (hc : h.Covers a sent) (hok : h.OK) {b : HubAct} (hskip : h.NoSkip b) (hb : b ≠ .fanout) :
    (h.step b).Covers a sent := by
  obtain ⟨t', ht, hadv⟩ := step_advance hok hskip hb
  refine Covers.advance ?_ hadv (h.step_start b)
  rcases ht with rfl | ⟨y, hy, -⟩
  · exact hc
  · exact hc.place hok hy

/-- The broadcaster gives away the batch it holds. -/
theorem Covers.fanout (hc : h.Covers a sent) {b : Batch} (hheld : h.held = some b) :
    ({ h with held := none } : Hub).Covers a (sent ++ [b]) := by
  refine ⟨hc.runs, hc.start, ?_⟩
  have htransit : (sent ++ [b]) ++ ({ h with held := none } : Hub).transit = sent ++ h.transit := by
    unfold transit
    rw [hheld]
    simp
  rw [htransit]
  exact hc.events

end Hub

/-! ## The rows that a backlog query has found -/

namespace Kine

variable {t t' : Kine} {found : List Row}

/-- Rows of the table in the order of revisions; the others are fill rows or newer. -/
structure Found (t : Kine) (found : List Row) : Prop where
  rows : ∀ z ∈ found, z ∈ t.rows
  sorted : found.Pairwise fun x y => x.id < y.id
  rest : ∀ y ∈ t.rows, isFill y.name = true ∨ y ∈ found ∨ ∀ z ∈ found, z.id < y.id

theorem found_rows (t : Kine) : t.Found t.rows := ⟨fun _ hz => hz, t.sorted, fun _ hy => .inr (.inl hy)⟩

theorem Found.place (hf : t.Found found) {y : Row} (ht : t.place y = some t')
    (hy : isFill y.name = true ∨ ∀ z ∈ t.rows, z.id < y.id) : t'.Found found := by
  refine ⟨fun z hz => (mem_place ht).2 (.inl (hf.rows z hz)), hf.sorted, fun w hw => ?_⟩
  rcases (mem_place ht).1 hw with hw | rfl
  · exact hf.rest w hw
  · exact hy.imp_right fun hnew => .inr fun z hz => hnew z (hf.rows z hz)

end Kine

theorem Hub.found_step {h : Hub} (hok : h.OK) {b : HubAct} (hskip : h.NoSkip b) {found : List Row}
    (hnew : ∀ y, b = .place y → ∀ z ∈ h.table.rows, z.id < y.id) (hf : h.table.Found found) :
    (h.step b).table.Found found := by
  by_cases hb : b = .fanout
  · subst hb
    exact hf
  · obtain ⟨t', ht, htable, -⟩ := step_advance hok hskip hb
    rw [htable]
    rcases ht with rfl | ⟨y, hy, hplace | hfill⟩
    · exact hf
    · exact hf.place hy (.inr (hnew y hplace))
    · exact hf.place hy (.inl hfill)

/-! ## The first watch -/

section Early

variable {h h' : Hub} {s : Seat}

/-- The first watch has been sent rows of the table; once it has queried its backlog, in
which there is nothing, it is sent all that the poll loop passes. -/
structure Early (h : Hub) (s : Seat) : Prop where
  seen : ∀ b ∈ s.sent, h.table.Seen b.reduceOption
  covers : ∀ L, s.feed.stage = .listed L → L = s.feed.after ∧ s.backlog = [] ∧ h.Covers s.feed.after s.sent

theorem seen_step (hok : h.OK) {b : HubAct} (hskip : h.NoSkip b) {events : List Event}
    (hseen : h.table.Seen events) : (h.step b).table.Seen events := by
  refine ⟨hseen.1, fun e he => ?_⟩
  obtain ⟨y, hy, rfl⟩ := hseen.2 e he
  exact ⟨y, Hub.mem_step hok hskip hy, rfl⟩

theorem Early.pass (he : Early h s) (hs : s.OK h) {a : HubAct} (ha : (s.stitch h).Assumed (.hub a)) :
    Early (h.step a) (s.pass h a) := by
  have hhub : h.OK := hs.stitch.hub
  have hskip : h.NoSkip a := (ha a rfl).1
  obtain ⟨hlike, hstage, hfound⟩ := s.pass_frame h a
  have hback : (s.pass h a).backlog = s.backlog := by
    unfold Seat.backlog
    rw [hlike.selects, hfound]
  refine ⟨fun b hb => ?_, fun L hL => ?_⟩
  · rcases s.pass_cases h a with hsame | ⟨-, -, b', hheld, hpass⟩
    · rw [hsame] at hb
      exact seen_step hhub hskip (he.seen b hb)
    · rw [hpass] at hb
      rcases List.mem_append.1 hb with hb | hb
      · exact seen_step hhub hskip (he.seen b hb)
      · refine seen_step hhub hskip (hhub.transit b ?_)
        unfold Hub.transit
        rw [hheld, List.mem_singleton.1 hb]
        simp
  · rw [hstage] at hL
    obtain ⟨hafter, hnil, hcovers⟩ := he.covers L hL
    rw [hlike.after, hback]
    refine ⟨hafter, hnil, ?_⟩
    have hin : s.feed.inSubs = true := (hs.stitch.live (show s.feed.stage ≠ .new by rw [hL]; simp)).1
    by_cases hf : a = .fanout
    · subst hf
      cases hheld : h.held with
      | none =>
        have hsame : h.step .fanout = h := by
          show ({ h with held := none } : Hub) = h
          rw [← hheld]
        rw [hsame]
        unfold Seat.pass
        rw [hheld]
        exact hcovers
      | some b =>
        unfold Seat.pass
        rw [hheld]
        simp only [hin, if_true]
        exact hcovers.fanout hheld
    · rcases s.pass_cases h a with hsame | ⟨hfan, -⟩
      · rw [hsame]
        exact hcovers.step hhub hskip hf
      · exact absurd hfan hf

theorem Twin.joins_of_ne {a : SeatAct} (ha : a ≠ .feed .subscribe) (hj : Twin.joins h a = some h') : h = h' := by
  cases a with
  | read => exact Option.some.inj hj
  | feed a =>
    cases a with
    | subscribe => exact absurd rfl ha
    | _ => exact Option.some.inj hj

theorem Early.connect (he : Early h s) (hs : s.OK h) (hc : h.connect = some h') : Early h' s := by
  obtain ⟨-, htable, -, -, -, hkeep⟩ := Hub.connect_ok hs.stitch.hub hc
  refine ⟨fun b hb => htable ▸ he.seen b hb, fun L hL => ?_⟩
  -- a watch that has listed is subscribed, so the poll loop runs already
  rw [hkeep (hs.stitch.live (show s.feed.stage ≠ .new by rw [hL]; simp)).2]
  exact he.covers L hL

theorem Early.list (he : Early h s) (hs : s.OK h) (hr : h.Rooted) (hsub : s.feed.stage = .subscribed)
    (hle : ∀ z ∈ h.table.rows, z.id ≤ s.feed.after) : Early h (s.step h.table (.feed .list)) := by
  have hruns := (hs.stitch.live (show s.feed.stage ≠ .new by rw [hsub]; simp)).2
  have hlike := (s.step_alike h.table (.feed .list)).1
  have hok := hs.list
  rw [Seat.step_list hsub] at hlike hok ⊢
  refine ⟨he.seen, fun L hL => ?_⟩
  have hback : ({ s with feed := s.feed.list h.table, found := h.table.rows } : Seat).backlog = [] := by
    unfold Seat.backlog
    rw [List.map_eq_nil_iff, List.filter_eq_nil_iff]
    intro z hz hsel
    rw [hlike.selects] at hsel
    unfold Feed.selects at hsel
    rw [Bool.and_eq_true, decide_eq_true_eq] at hsel
    have := hle z hz
    omega
  rcases hok.cutoff L hL with ⟨hne, -⟩ | ⟨-, hafter⟩
  · exact absurd hback hne
  · refine ⟨hafter, hback, ?_⟩
    rw [hlike.after]
    exact Hub.covers_of_le hs.stitch.hub hr hruns he.seen hle

/-- A step of the first watch: there is nothing above the start revision when it queries
its backlog. -/
theorem Early.step (he : Early h s) (hs : s.OK h) (hr : h.Rooted) {a : SeatAct}
    (hj : Twin.joins h a = some h')
    (hle : a = .feed .list → s.feed.stage = .subscribed → ∀ z ∈ h.table.rows, z.id ≤ s.feed.after) :
    Early h' (s.step h.table a) := by
  by_cases hsub : a = .feed .subscribe
  · subst hsub
    have hc : h.connect = some h' := hj
    by_cases hnew : s.feed.stage = .new
    · obtain ⟨-, htable, -⟩ := Hub.connect_ok hs.stitch.hub hc
      refine ⟨fun b hb => htable ▸ he.seen b hb, fun L hL => ?_⟩
      have hL : (s.feed.step h.table .subscribe).stage = .listed L := hL
      rw [Feed.step_subscribe_new hnew] at hL
      simp at hL
    · rw [Seat.step_subscribe_of_ne hnew]
      exact he.connect hs hc
  · obtain rfl := Twin.joins_of_ne hsub hj
    by_cases hlist : a = .feed .list
    · subst hlist
      by_cases hsub : s.feed.stage = .subscribed
      · exact he.list hs hr hsub (hle rfl hsub)
      · rw [Seat.step_list_of_ne hsub]
        exact he
    · obtain ⟨hlike, hsent⟩ := s.step_alike h.table a
      obtain ⟨hstage, hfound⟩ := s.step_frame h.table hsub hlist
      refine ⟨fun b hb => he.seen b (hsent ▸ hb), fun L hL => ?_⟩
      rw [hstage] at hL
      unfold Seat.backlog
      rw [hlike.after, hlike.selects, hfound, hsent]
      exact he.covers L hL

end Early

/-! ## The second watch -/

section Late

variable {h h' : Hub} {e s : Seat}

/-- The second watch is opened once the first one is live. It is sent the same batches from
then on, and of the others it has found the rows. -/
structure Late (h : Hub) (e s : Seat) : Prop where
  live : s.feed.stage ≠ .new → ∃ L, e.feed.stage = .listed L
  sent : s.feed.stage ≠ .new → ∃ before, e.sent = before ++ s.sent ∧
    ∀ L, s.feed.stage = .listed L → ∀ b ∈ before, ∀ v ∈ b.reduceOption, e.feed.after < v.kv.modRevision →
      ∃ y ∈ s.found, v = y.event
  found : ∀ L, s.feed.stage = .listed L → h.table.Found s.found

theorem Late.pass (hl : Late h e s) (he : e.OK h) (hs : s.OK h) {a : HubAct} (hskip : h.NoSkip a)
    (hnew : ∀ y, a = .place y → s.feed.stage ≠ .new → ∀ z ∈ h.table.rows, z.id < y.id) :
    Late (h.step a) (e.pass h a) (s.pass h a) := by
  obtain ⟨hlikeE, hstageE, -⟩ := e.pass_frame h a
  obtain ⟨hlikeS, hstageS, hfoundS⟩ := s.pass_frame h a
  refine ⟨fun hne => ?_, fun hne => ?_, fun L hL => ?_⟩
  · rw [hstageS] at hne
    rw [hstageE]
    exact hl.live hne
  · rw [hstageS] at hne ⊢
    obtain ⟨L, hL⟩ := hl.live hne
    obtain ⟨before, hsent, hbefore⟩ := hl.sent hne
    have hinE : e.feed.inSubs = true := (he.stitch.live (show e.feed.stage ≠ .new by rw [hL]; simp)).1
    have hinS : s.feed.inSubs = true := (hs.stitch.live hne).1
    rw [hlikeE.after, hfoundS]
    refine ⟨before, ?_, hbefore⟩
    -- both are subscribed, so both get the batch
    rcases e.pass_cases h a with hE | ⟨rfl, -, b, hheld, hE⟩
    · rcases s.pass_cases h a with hS | ⟨rfl, -, b, hheld, -⟩
      · rw [hE, hS]
        exact hsent
      · unfold Seat.pass
        rw [hheld]
        simp only [hinE, hinS, if_true]
        rw [hsent, List.append_assoc]
    · unfold Seat.pass
      rw [hheld]
      simp only [hinE, hinS, if_true]
      rw [hsent, List.append_assoc]
  · rw [hstageS] at hL
    rw [hfoundS]
    exact Hub.found_step he.stitch.hub hskip (fun y hy => hnew y hy (by rw [hL]; simp)) (hl.found L hL)

theorem Late.connect (hl : Late h e s) (htable : h'.table = h.table) : Late h' e s :=
  ⟨hl.live, hl.sent, fun L hL => htable ▸ hl.found L hL⟩

/-- A step of the first watch, which stays live. -/
theorem Late.step_early (hl : Late h e s) {a : SeatAct} : Late h (e.step h.table a) s := by
  obtain ⟨hlike, hsent⟩ := e.step_alike h.table a
  refine ⟨fun hne => ?_, fun hne => ?_, hl.found⟩
  · obtain ⟨L, hL⟩ := hl.live hne
    refine ⟨L, ?_⟩
    by_cases hsub : a = .feed .subscribe
    · subst hsub
      rw [Seat.step_subscribe_of_ne (by rw [hL]; simp)]
      exact hL
    · by_cases hlist : a = .feed .list
      · subst hlist
        rw [Seat.step_list_of_ne (by rw [hL]; simp)]
        exact hL
      · exact (e.step_frame h.table hsub hlist).1.trans hL
  · rw [hsent, hlike.after]
    exact hl.sent hne

/-- The second watch subscribes. -/
theorem Late.subscribe (hl : Late h e s) (hs : s.OK h) (hlive : ∃ L, e.feed.stage = .listed L) :
    Late h e (s.step h.table (.feed .subscribe)) := by
  by_cases hnew : s.feed.stage = .new
  · have hstage : (s.step h.table (.feed .subscribe)).feed.stage = .subscribed := by
      show (s.feed.step h.table .subscribe).stage = _
      rw [Feed.step_subscribe_new hnew]
    refine ⟨fun _ => hlive, fun _ => ⟨e.sent, ?_, fun L hL => ?_⟩, fun L hL => ?_⟩
    · rw [(s.step_alike h.table _).2, (hs.fresh hnew).2, List.append_nil]
    · rw [hstage] at hL
      simp at hL
    · rw [hstage] at hL
      simp at hL
  · rw [Seat.step_subscribe_of_ne hnew]
    exact hl

/-- **The second watch queries its backlog**: it finds all rows, among them those of the
batches it has not been sent. -/
theorem Late.list (hl : Late h e s) (hearly : Early h e) : Late h e (s.step h.table (.feed .list)) := by
  by_cases hsub : s.feed.stage = .subscribed
  · have hne : s.feed.stage ≠ .new := by
      rw [hsub]
      simp
    obtain ⟨L, hL⟩ := hl.live hne
    obtain ⟨before, hsent, -⟩ := hl.sent hne
    rw [Seat.step_list hsub]
    refine ⟨fun _ => ⟨L, hL⟩, fun _ => ⟨before, hsent, fun _ _ b hb v hv _ => ?_⟩, fun _ _ => h.table.found_rows⟩
    have hseen := hearly.seen b (hsent ▸ List.mem_append_left _ hb)
    exact hseen.2 v hv
  · rw [Seat.step_list_of_ne hsub]
    exact hl

theorem Late.step (hl : Late h e s) (hs : s.OK h) (hearly : Early h e) {a : SeatAct}
    (hlive : a = .feed .subscribe → ∃ L, e.feed.stage = .listed L) : Late h e (s.step h.table a) := by
  by_cases hsub : a = .feed .subscribe
  · subst hsub
    exact hl.subscribe hs (hlive rfl)
  · by_cases hlist : a = .feed .list
    · subst hlist
      exact hl.list hearly
    · obtain ⟨hstage, hfound⟩ := s.step_frame h.table hsub hlist
      have hsent := (s.step_alike h.table a).2
      constructor
      · rw [hstage]
        exact hl.live
      · rw [hstage, hsent, hfound]
        exact hl.sent
      · rw [hstage, hfound]
        exact hl.found

end Late

/-! ## Both watches -/

namespace Twin

variable {x : Twin}

structure OK (x : Twin) : Prop where
  seats : x.early.OK x.hub ∧ x.late.OK x.hub
  alike : Feed.Alike x.late.feed x.early.feed
  rooted : x.hub.Rooted
  early : Early x.hub x.early
  late : Late x.hub x.early x.late

/-- No subscriber is dropped, and no revision is skipped by `canSkipRevision`. -/
def Assumed (x : Twin) (a : Act) : Prop :=
  ∀ b, a = .hub b → (x.early.stitch x.hub).Assumed (.hub b) ∧ (x.late.stitch x.hub).Assumed (.hub b)

theorem ok_init (key rangeEnd : Bytes) (start : ℤ) (selected : KeyValue → Bool) :
    (init key rangeEnd start selected).OK := by
  have hseat := Seat.ok_new key rangeEnd start selected
  refine ⟨⟨hseat, hseat⟩, ⟨rfl, rfl, rfl, rfl⟩, nofun, ⟨nofun, nofun⟩, ⟨fun h => absurd rfl h, fun h => absurd rfl h, nofun⟩⟩

theorem joins_table {h h' : Hub} (hok : h.OK) {a : SeatAct} (hj : joins h a = some h') : h'.table = h.table := by
  by_cases hsub : a = .feed .subscribe
  · subst hsub
    exact (Hub.connect_ok hok hj).2.1
  · obtain rfl := joins_of_ne hsub hj
    rfl

theorem ok_hub (hx : x.OK) {b : HubAct} (ha : x.Assumed (.hub b)) (hopen : x.Opened (.hub b)) :
    (x.step (.hub b)).OK := by
  obtain ⟨hearly, hlate⟩ := ha b rfl
  have hskip : x.hub.NoSkip b := (hearly b rfl).1
  obtain ⟨hsE, hsL⟩ := hx.seats
  refine ⟨⟨hsE.pass hearly, hsL.pass hlate⟩, ?_, hx.rooted.step hsE.stitch.hub hskip, hx.early.pass hsE hearly,
    hx.late.pass hsE hsL hskip fun y hy => ?_⟩
  · exact ((x.late.pass_frame x.hub b).1.trans hx.alike).trans (x.early.pass_frame x.hub b).1.symm
  · subst hy
    exact hopen

theorem ok_connect {h' : Hub} (hx : x.OK) (hc : x.hub.connect = some h') : ({ x with hub := h' } : Twin).OK := by
  obtain ⟨hsE, hsL⟩ := hx.seats
  have htable := (Hub.connect_ok hsE.stitch.hub hc).2.1
  exact ⟨⟨hsE.connect hc, hsL.connect hc⟩, hx.alike, hx.rooted.connect hsE.stitch.hub hc, hx.early.connect hsE hc,
    hx.late.connect htable⟩

/-- What a step of a watch may do to the hub. -/
theorem ok_joins {h' : Hub} (hx : x.OK) {a : SeatAct} (hj : joins x.hub a = some h') :
    ({ x with hub := h' } : Twin).OK := by
  by_cases hsub : a = .feed .subscribe
  · subst hsub
    exact ok_connect hx hj
  · obtain rfl := joins_of_ne hsub hj
    exact hx

theorem ok_early {h' : Hub} (hx : x.OK) {a : SeatAct} (hj : joins x.hub a = some h') (hopen : x.Opened (.early a)) :
    ({ x with hub := h', early := x.early.step x.hub.table a } : Twin).OK := by
  obtain ⟨hsE, hsL⟩ := hx.seats
  have hx' := ok_joins hx hj
  have htable := joins_table hsE.stitch.hub hj
  have hlate : Late h' (x.early.step h'.table a) x.late := hx'.late.step_early
  rw [htable] at hlate
  refine ⟨⟨hsE.step hj, hx'.seats.2⟩, hx.alike.trans (x.early.step_alike _ a).1.symm, hx'.rooted,
    hx.early.step hsE hx.rooted hj fun ha => ?_, hlate⟩
  subst ha
  exact hopen

theorem ok_late {h' : Hub} (hx : x.OK) {a : SeatAct} (hj : joins x.hub a = some h') (hopen : x.Opened (.late a)) :
    ({ x with hub := h', late := x.late.step x.hub.table a } : Twin).OK := by
  obtain ⟨hsE, hsL⟩ := hx.seats
  have hx' := ok_joins hx hj
  have htable := joins_table hsE.stitch.hub hj
  have hlate : Late x.hub x.early (x.late.step x.hub.table a) := by
    refine hx.late.step hsL hx.early fun ha => ?_
    subst ha
    exact hopen
  exact ⟨⟨hx'.seats.1, hsL.step hj⟩, (x.late.step_alike _ a).1.trans hx.alike, hx'.rooted, hx'.early,
    hlate.connect htable⟩

theorem step_ok (hx : x.OK) {a : Act} (ha : x.Assumed a) (hopen : x.Opened a) : (x.step a).OK := by
  cases a with
  | hub b => exact ok_hub hx ha hopen
  | connect =>
    show ({ x with hub := x.hub.connect.getD x.hub } : Twin).OK
    cases hc : x.hub.connect with
    | none => exact hx
    | some h' => exact ok_connect hx hc
  | early a =>
    cases hj : joins x.hub a with
    | none =>
      simp only [step, hj]
      exact hx
    | some h' =>
      simp only [step, hj]
      exact ok_early hx hj hopen
  | late a =>
    cases hj : joins x.hub a with
    | none =>
      simp only [step, hj]
      exact hx
    | some h' =>
      simp only [step, hj]
      exact ok_late hx hj hopen

end Twin

/-! ## What the two watches deliver -/

section Ranges

variable {key rangeEnd k k' : Bytes}

/-- A range that the backlog query finds a name in is the range of the filter. -/
theorem watched_of_inRange (hk : watched key rangeEnd k = true) (hk' : inRange key rangeEnd k' = true) :
    watched key rangeEnd k' = true := by
  unfold watched between at hk ⊢
  unfold inRange at hk'
  split
  · rfl
  · rename_i hkey
    rw [if_neg hkey] at hk
    split
    · rename_i hend
      simpa [hkey, hend] using hk'
    · rename_i hend
      rw [if_neg hend, Bool.and_eq_true, decide_eq_true_eq, decide_eq_true_eq] at hk
      simp only [hkey, hend, decide_false, ne_eq, not_false_eq_true, decide_true, Bool.true_and, Bool.false_or,
        Bool.or_eq_true, Bool.and_eq_true, decide_eq_true_eq] at hk'
      rw [Bool.and_eq_true, decide_eq_true_eq, decide_eq_true_eq]
      rcases hk' with hk' | rfl
      · exact hk'
      · exact ⟨le_rfl, lt_of_le_of_lt hk.1 hk.2⟩

end Ranges

namespace Feed

theorem mem_kept {f : Feed} {b : Batch} {e : Event} :
    e ∈ f.kept b ↔ some e ∈ b ∧ inRange f.key f.rangeEnd e.kv.key = true ∧
      (b.length = 1 ∨ (f.selected e.kv || e.prevKV.any f.selected) = true) := by
  unfold kept SqlLog.filter
  split
  · rename_i hone
    simp only [List.mem_filterMap, Option.ite_none_right_eq_some]
    constructor
    · rintro ⟨o, ho, hin, rfl⟩
      exact ⟨ho, hin, .inl hone⟩
    · rintro ⟨ho, hin, -⟩
      exact ⟨some e, ho, hin, rfl⟩
  · rename_i hone
    simp only [List.mem_filterMap, Option.ite_none_right_eq_some, Bool.and_eq_true]
    constructor
    · rintro ⟨o, ho, ⟨hin, hsel⟩, rfl⟩
      exact ⟨ho, hin, .inr hsel⟩
    · rintro ⟨ho, hin, hsel⟩
      exact ⟨some e, ho, ⟨hin, hsel.resolve_left hone⟩, rfl⟩

theorem kept_sublist (f : Feed) (batches : List Batch) :
    (batches.flatMap f.kept).Sublist (batches.flatMap List.reduceOption) := by
  induction batches with
  | nil => exact List.Sublist.refl _
  | cons b batches ih =>
    rw [List.flatMap_cons, List.flatMap_cons]
    exact (sqlFilter_sublist f.selected f.key f.rangeEnd b).append ih

end Feed

/-- What a watch has delivered and will deliver of the rows that the poll loop has passed. -/
def Seat.stream (s : Seat) (h : Hub) (L : ℤ) : List Event :=
  s.feed.carried s.delivered L ++ (h.transit.flatMap s.feed.kept).filter fun e => L < e.kv.modRevision

theorem Seat.OK.stream {s : Seat} {h : Hub} {L : ℤ} (hs : s.OK h) (hL : s.feed.stage = .listed L) :
    s.stream h L = s.backlog ++ ((s.sent ++ h.transit).flatMap s.feed.kept).filter fun e => L < e.kv.modRevision := by
  unfold Seat.stream
  rw [hs.listed L hL, List.append_assoc, ← List.filter_append, ← List.flatMap_append]

namespace Twin

variable {x : Twin} {L L' : ℤ} {v : Event} {y : Row}

/-- The filter of the broadcast takes a row. It does not apply the selectors to a batch of
one event. -/
def Taken (x : Twin) (y : Row) : Prop :=
  inRange x.early.feed.key x.early.feed.rangeEnd y.name = true ∧
    (isFill y.name = false ∧ (x.early.feed.selected y.event.kv || y.event.prevKV.any x.early.feed.selected) = true ∨
      [some y.event] ∈ x.early.sent ++ x.hub.transit)

/-- The second watch gets a row with its backlog, or it has still been sent it. -/
def Reached (x : Twin) (y : Row) : Prop :=
  watched x.late.feed.key x.late.feed.rangeEnd y.name = true ∨
    y.event ∈ (x.late.sent ++ x.hub.transit).flatMap x.late.feed.kept

theorem mem_early (hx : x.OK) (hL : x.early.feed.stage = .listed L) :
    v ∈ x.early.stream x.hub L ↔ v ∈ (x.early.sent ++ x.hub.transit).flatMap x.early.feed.kept ∧
      x.early.feed.after < v.kv.modRevision := by
  obtain ⟨rfl, hnil, -⟩ := hx.early.covers L hL
  rw [hx.seats.1.stream hL, hnil, List.nil_append, List.mem_filter, decide_eq_true_eq]

/-- The first watch delivers rows that the poll loop has passed, in their order. -/
theorem early_sublist (hx : x.OK) (hL : x.early.feed.stage = .listed L) :
    (x.early.stream x.hub L).Sublist (x.hub.table.passed x.early.feed.after x.hub.pollRevision) := by
  obtain ⟨rfl, hnil, hcovers⟩ := hx.early.covers L hL
  rw [hx.seats.1.stream hL, hnil, List.nil_append, ← hcovers.events]
  exact (x.early.feed.kept_sublist _).filter _

theorem mem_late (hx : x.OK) (hL : x.late.feed.stage = .listed L) :
    v ∈ x.late.stream x.hub L ↔ v ∈ x.late.backlog ∨
      v ∈ (x.late.sent ++ x.hub.transit).flatMap x.late.feed.kept ∧ L < v.kv.modRevision := by
  rw [hx.seats.2.stream hL, List.mem_append, List.mem_filter, decide_eq_true_eq]

theorem mem_backlog {s : Seat} : v ∈ s.backlog ↔ ∃ y ∈ s.found, s.feed.after < y.id ∧
    watched s.feed.key s.feed.rangeEnd y.name = true ∧ y.event = v := by
  unfold Seat.backlog Feed.selects
  simp only [List.mem_map, List.mem_filter, Bool.and_eq_true, decide_eq_true_eq, and_assoc]

/-- The backlog reaches at least up to the start revision. -/
theorem after_le (hx : x.OK) (hL : x.late.feed.stage = .listed L) : x.early.feed.after ≤ L := by
  rw [← hx.alike.after]
  rcases hx.seats.2.cutoff L hL with ⟨hne, -, hle⟩ | ⟨-, hafter⟩
  · obtain ⟨v, hv⟩ := List.exists_mem_of_ne_nil _ hne
    obtain ⟨y, hy, hlt, -⟩ := mem_backlog.1 hv
    have := hle y hy
    omega
  · omega

/-- What the second watch is sent, the first one is sent too. -/
theorem late_sublist (hx : x.OK) (hL : x.late.feed.stage = .listed L) :
    (((x.late.sent ++ x.hub.transit).flatMap x.late.feed.kept).filter fun e => L < e.kv.modRevision).Sublist
      (((x.early.sent ++ x.hub.transit).flatMap x.early.feed.kept).filter
        fun e => x.early.feed.after < e.kv.modRevision) := by
  have hle := after_le hx hL
  obtain ⟨before, hsent, -⟩ := hx.late.sent (by rw [hL]; simp)
  have hsub : ((x.late.sent ++ x.hub.transit).flatMap x.early.feed.kept).Sublist
      ((x.early.sent ++ x.hub.transit).flatMap x.early.feed.kept) := by
    rw [hsent, List.append_assoc]
    generalize x.late.sent ++ x.hub.transit = after
    rw [List.flatMap_append]
    exact List.sublist_append_right _ _
  rw [hx.alike.kept]
  refine List.Sublist.trans ?_ (hsub.filter _)
  apply List.monotone_filter_right
  intro e he
  rw [decide_eq_true_eq] at he ⊢
  omega

/-- Both watches deliver in the order of revisions. -/
theorem late_sorted (hx : x.OK) (hL : x.early.feed.stage = .listed L) (hL' : x.late.feed.stage = .listed L') :
    (x.late.stream x.hub L').Pairwise fun e e' => e.kv.modRevision < e'.kv.modRevision := by
  obtain ⟨-, -, hcovers⟩ := hx.early.covers L hL
  have hfound := hx.late.found L' hL'
  rw [hx.seats.2.stream hL', List.pairwise_append]
  refine ⟨?_, ?_, fun v hv v' hv' => ?_⟩
  · unfold Seat.backlog
    rw [List.pairwise_map]
    exact hfound.sorted.filter _
  · have hsorted := x.hub.table.passed_sorted x.early.feed.after x.hub.pollRevision
    rw [← hcovers.events] at hsorted
    exact hsorted.sublist ((late_sublist hx hL').trans ((x.early.feed.kept_sublist _).filter _))
  · have hlt : L' < v'.kv.modRevision := of_decide_eq_true (List.mem_filter.1 hv').2
    rcases hx.seats.2.cutoff L' hL' with ⟨-, -, hle⟩ | ⟨hnil, -⟩
    · obtain ⟨y, hy, -, -, rfl⟩ := mem_backlog.1 hv
      have : y.id ≤ L' := hle y hy
      rw [Row.event_modRevision]
      omega
    · rw [hnil] at hv
      exact absurd hv List.not_mem_nil

/-- A row that the second watch has found is delivered by the first one if the filter takes
it. -/
theorem mem_early_iff (hx : x.OK) (hL : x.early.feed.stage = .listed L) (hL' : x.late.feed.stage = .listed L')
    (hy : y ∈ x.late.found) (hafter : x.early.feed.after < y.id) (hpassed : y.id ≤ x.hub.pollRevision) :
    y.event ∈ x.early.stream x.hub L ↔ x.Taken y := by
  obtain ⟨-, -, hcovers⟩ := hx.early.covers L hL
  constructor
  · intro hv
    obtain ⟨z, hz, hzy⟩ := List.mem_map.1 ((early_sublist hx hL).subset hv)
    have hname : z.name = y.name := congrArg (fun e => e.kv.key) hzy
    have hfill : isFill y.name = false := by
      rw [← hname]
      simpa using (List.mem_filter.1 hz).2
    obtain ⟨b, hb, hkept⟩ := List.mem_flatMap.1 ((mem_early hx hL).1 hv).1
    obtain ⟨hmem, hin, hone | hsel⟩ := Feed.mem_kept.1 hkept
    · obtain ⟨o, rfl⟩ := List.length_eq_one_iff.1 hone
      rw [← List.mem_singleton.1 hmem] at hb
      exact ⟨hin, .inr hb⟩
    · exact ⟨hin, .inl ⟨hfill, hsel⟩⟩
  · rintro ⟨hin, ⟨hfill, hsel⟩ | halone⟩
    · refine (mem_early hx hL).2 ⟨?_, hafter⟩
      -- the poll loop has passed the row, so it is in a batch
      have hmem : y.event ∈ x.hub.table.passed x.early.feed.after x.hub.pollRevision := by
        refine List.mem_map.2 ⟨y, List.mem_filter.2 ⟨List.mem_filter.2 ⟨?_, ?_⟩, ?_⟩, rfl⟩
        · exact (hx.late.found L' hL').rows y hy
        · exact decide_eq_true ⟨hafter, hpassed⟩
        · simp [hfill]
      rw [← hcovers.events] at hmem
      obtain ⟨b, hb, hmem⟩ := List.mem_flatMap.1 (List.mem_of_mem_filter hmem)
      exact List.mem_flatMap.2 ⟨b, hb, Feed.mem_kept.2 ⟨List.reduceOption_mem_iff.1 hmem, hin, .inr hsel⟩⟩
    · refine (mem_early hx hL).2 ⟨List.mem_flatMap.2 ⟨_, halone, ?_⟩, hafter⟩
      exact Feed.mem_kept.2 ⟨List.mem_singleton_self _, hin, .inl rfl⟩

theorem mem_late_iff (hx : x.OK) (hL' : x.late.feed.stage = .listed L') (hy : y ∈ x.late.found)
    (hafter : x.early.feed.after < y.id) : y.event ∈ x.late.stream x.hub L' ↔ x.Reached y := by
  rw [← hx.alike.after] at hafter
  rw [mem_late hx hL', mem_backlog]
  constructor
  · rintro (⟨z, -, -, hz, hzy⟩ | ⟨hsent, -⟩)
    · have hname : z.name = y.name := congrArg (fun e => e.kv.key) hzy
      exact .inl (hname ▸ hz)
    · exact .inr hsent
  · rintro (hwatched | hsent)
    · exact .inl ⟨y, hy, hafter, hwatched, rfl⟩
    · rcases hx.seats.2.cutoff L' hL' with ⟨hne, -, -⟩ | ⟨-, rfl⟩
      · -- the query has found a row, so its range is that of the filter
        left
        obtain ⟨v, hv⟩ := List.exists_mem_of_ne_nil _ hne
        obtain ⟨z, -, -, hz, -⟩ := mem_backlog.1 hv
        obtain ⟨b, -, hkept⟩ := List.mem_flatMap.1 hsent
        exact ⟨y, hy, hafter, watched_of_inRange hz (Feed.mem_kept.1 hkept).2.1, rfl⟩
      · exact .inr ⟨hsent, hafter⟩

/-- On the other rows the two watches agree. -/
theorem mem_other (hx : x.OK) (hL : x.early.feed.stage = .listed L) (hL' : x.late.feed.stage = .listed L')
    (hv : ∀ y ∈ x.late.found, v ≠ y.event) : v ∈ x.early.stream x.hub L ↔ v ∈ x.late.stream x.hub L' := by
  have hfound := hx.late.found L' hL'
  obtain ⟨before, hsent, hbefore⟩ := hx.late.sent (by rw [hL']; simp)
  constructor
  · intro hmem
    obtain ⟨y, hy, rfl⟩ := List.mem_map.1 ((early_sublist hx hL).subset hmem)
    obtain ⟨hy, hfill⟩ := List.mem_filter.1 hy
    have hrow := List.mem_of_mem_filter hy
    obtain ⟨hkept, hafter⟩ := (mem_early hx hL).1 hmem
    have hnew : ∀ z ∈ x.late.found, z.id < y.id := by
      rcases hfound.rest y hrow with h | h | h
      · rw [h] at hfill
        exact absurd hfill (by simp)
      · exact absurd rfl (hv y h)
      · exact h
    refine (mem_late hx hL').2 (.inr ⟨?_, ?_⟩)
    · -- what the second watch has not been sent, it has found
      obtain ⟨b, hb, hmem⟩ := List.mem_flatMap.1 hkept
      rw [hx.alike.kept]
      refine List.mem_flatMap.2 ⟨b, ?_, hmem⟩
      rw [hsent, List.append_assoc] at hb
      rcases List.mem_append.1 hb with hb | hb
      · have hred := (Feed.sqlFilter_sublist _ _ _ b).subset hmem
        obtain ⟨z, hz, hzy⟩ := hbefore L' hL' b hb y.event hred hafter
        exact absurd hzy (hv z hz)
      · exact hb
    · rcases hx.seats.2.cutoff L' hL' with ⟨-, ⟨z, hz, rfl⟩, -⟩ | ⟨-, rfl⟩
      · exact hnew z hz
      · rw [hx.alike.after]
        exact hafter
  · intro hmem
    rcases (mem_late hx hL').1 hmem with hback | ⟨hkept, hlt⟩
    · obtain ⟨y, hy, -, -, rfl⟩ := mem_backlog.1 hback
      exact absurd rfl (hv y hy)
    · have hsub := (late_sublist hx hL').subset (List.mem_filter.2 ⟨hkept, decide_eq_true hlt⟩)
      obtain ⟨hkept, hafter⟩ := List.mem_filter.1 hsub
      exact (mem_early hx hL).2 ⟨hkept, of_decide_eq_true hafter⟩

/-- The two streams are the same if the rows that the second watch has found are in both or
in neither. -/
theorem streams_eq_iff (hx : x.OK) (hL : x.early.feed.stage = .listed L) (hL' : x.late.feed.stage = .listed L')
    (hpassed : ∀ y ∈ x.late.found, y.id ≤ x.hub.pollRevision) :
    x.early.stream x.hub L = x.late.stream x.hub L' ↔
      ∀ y ∈ x.late.found, x.early.feed.after < y.id → (x.Taken y ↔ x.Reached y) := by
  constructor
  · intro heq y hy hafter
    rw [← mem_early_iff hx hL hL' hy hafter (hpassed y hy), ← mem_late_iff hx hL' hy hafter, heq]
  · intro hsame
    have hsorted := (x.hub.table.passed_sorted _ _).sublist (early_sublist hx hL)
    refine Sorted.ext_of_sorted (fun e : Event => e.kv.modRevision) hsorted (late_sorted hx hL hL') fun v => ?_
    by_cases hv : ∃ y ∈ x.late.found, v = y.event
    · obtain ⟨y, hy, rfl⟩ := hv
      by_cases hafter : x.early.feed.after < y.id
      · rw [mem_early_iff hx hL hL' hy hafter (hpassed y hy), mem_late_iff hx hL' hy hafter]
        exact hsame y hy hafter
      · -- neither watch delivers what is before its start revision
        refine iff_of_false (fun h => hafter ((mem_early hx hL).1 h).2) fun h => ?_
        have hle := after_le hx hL'
        rcases (mem_late hx hL').1 h with hback | ⟨-, hlt⟩
        · obtain ⟨z, -, hlt, -, hzy⟩ := mem_backlog.1 hback
          have hid : z.id = y.id := congrArg (fun e => e.kv.modRevision) hzy
          rw [hx.alike.after] at hlt
          omega
        · have hlt : L' < y.id := hlt
          omega
    · exact mem_other hx hL hL' fun y hy hvy => hv ⟨y, hy, hvy⟩

/-- With nothing on its way, all of the stream is delivered. -/
theorem delivered_of_load {s : Seat} {h : Hub} (hload : (s.stitch h).load = 0) : s.delivered = s.stream h L := by
  obtain ⟨htransit, hsub, hfiltered, hres, hforwarded, hresult⟩ := Stitch.empty_of_load hload
  replace htransit : h.transit = [] := htransit
  replace hsub : s.feed.sub = [] := hsub
  replace hfiltered : s.feed.filtered = none := hfiltered
  replace hres : s.feed.res = [] := hres
  replace hforwarded : s.feed.forwarded = none := hforwarded
  replace hresult : s.feed.result = [] := hresult
  unfold Seat.stream Feed.carried Feed.unread Feed.ahead
  rw [htransit, hsub, hfiltered, hres, hforwarded, hresult]
  simp

/-- **The watch that gets the rows live and the one that gets them from the backlog deliver
the same events** if and only if the filter of the broadcast and the query of the backlog
take the same rows. -/
theorem twins_agree_iff (key rangeEnd : Bytes) (start : ℤ) (selected : KeyValue → Bool) (acts : List Act) (x : Twin)
    (hx : exec step (init key rangeEnd start selected) acts = x)
    (hopen : Guarded step Opened (init key rangeEnd start selected) acts)
    (hassumed : Guarded step Assumed (init key rangeEnd start selected) acts) (L L' : ℤ)
    (hL : x.early.feed.stage = .listed L) (hL' : x.late.feed.stage = .listed L')
    (hpassed : ∀ y ∈ x.late.found, y.id ≤ x.hub.pollRevision) :
    (x.early.stream x.hub L = x.late.stream x.hub L' ↔
      ∀ y ∈ x.late.found, x.early.feed.after < y.id → (x.Taken y ↔ x.Reached y)) ∧
    ((x.early.stitch x.hub).load = 0 → x.early.delivered = x.early.stream x.hub L) ∧
    ((x.late.stitch x.hub).load = 0 → x.late.delivered = x.late.stream x.hub L') := by
  have hok := (invariant_of_guarded (I := OK) (fun x a ha hx => step_ok hx ha.1 ha.2) acts _
    (ok_init key rangeEnd start selected) (hassumed.and acts hopen)).last
  rw [hx] at hok
  exact ⟨streams_eq_iff hok hL hL' hpassed, delivered_of_load, delivered_of_load⟩

theorem assumed_of_ne {a : Act} (ha : ∀ b, a ≠ .hub b) : x.Assumed a := fun b hb => absurd hb (ha b)

theorem assumed_hub {b : HubAct} (hskip : x.hub.NoSkip b) (hb : b ≠ .fanout) : x.Assumed (.hub b) := by
  rintro _ ⟨⟩
  exact ⟨Stitch.assumed_hub hskip hb, Stitch.assumed_hub hskip hb⟩

theorem assumed_fanout (hearly : x.early.feed.sub.length < capacity) (hlate : x.late.feed.sub.length < capacity) :
    x.Assumed (.hub .fanout) := by
  rintro _ ⟨⟩
  exact ⟨Stitch.assumed_fanout hearly, Stitch.assumed_fanout hlate⟩

/-- Two manifests. The second one has the label `app=web`. -/
def plainValue : Bytes :=
  ascii "\x7b\"kind\":\"ConfigMap\",\"apiVersion\":\"v1\",\"metadata\":\x7b\"name\":\"a\"\x7d\x7d"

def webValue : Bytes :=
  ascii ("\x7b\"kind\":\"ConfigMap\",\"apiVersion\":\"v1\",\"metadata\":" ++
    "\x7b\"name\":\"b\",\"labels\":\x7b\"app\":\"web\"\x7d\x7d\x7d")

def plainRow : Row := ⟨2, ascii "/registry/configmaps/a", [], true, false, 0, 0, 0, plainValue, []⟩

def webRow : Row := ⟨3, ascii "/registry/configmaps/b", [], true, false, 0, 0, 0, webValue, []⟩

/-- Watches of the config maps, of all or with the selector `app=web`, which of the two
manifests drops the first. -/
def start (all : Bool) : Twin :=
  init (ascii "/registry/configmaps/") (ascii "/registry/configmaps0") 2 fun kv => all || kv.value ≠ plainValue

/-- Two rows get into one batch. -/
def twinRun : List Act :=
  [.early (.feed .subscribe), .early (.feed .list), .hub (.place plainRow), .hub (.place webRow),
    .hub .wake, .hub (.query 500 false), .hub .receive, .hub .fanout, .late (.feed .subscribe), .late (.feed .list),
    .early (.feed .filter), .early (.feed .send), .early (.feed .forward), .early (.feed .deliver), .early .read,
    .late (.feed .deliver), .late .read]

theorem assumed_twinRun (all : Bool) : Guarded step Assumed (start all) twinRun := by
  have hskip : ∀ (h : Hub), h.NoSkip (.query 500 false) := fun h => h.noSkip_false 500
  refine ⟨assumed_of_ne (by simp), assumed_of_ne (by simp), ?_⟩
  refine ⟨assumed_hub (Hub.noSkip_of_ne (by simp)) (by simp), assumed_hub (Hub.noSkip_of_ne (by simp)) (by simp),
    assumed_hub (Hub.noSkip_of_ne (by simp)) (by simp), assumed_hub (hskip _) (by simp),
    assumed_hub (Hub.noSkip_of_ne (by simp)) (by simp), ?_⟩
  refine ⟨assumed_fanout ?_ ?_, ?_⟩
  · revert all
    decide +kernel
  · revert all
    decide +kernel
  · exact ⟨assumed_of_ne (by simp), assumed_of_ne (by simp), assumed_of_ne (by simp), assumed_of_ne (by simp),
      assumed_of_ne (by simp), assumed_of_ne (by simp), assumed_of_ne (by simp), assumed_of_ne (by simp),
      assumed_of_ne (by simp), trivial⟩

/-- The rows are written before the second watch is opened. -/
theorem opened_twinRun (all : Bool) : Guarded step Opened (start all) twinRun := by
  have hlist : ∀ all, ∀ z ∈ (exec step (start all) (twinRun.take 1)).hub.table.rows,
      z.id ≤ (exec step (start all) (twinRun.take 1)).early.feed.after := by decide +kernel
  have hnew : ∀ all, (exec step (start all) (twinRun.take 2)).late.feed.stage = .new ∧
      (exec step (start all) (twinRun.take 3)).late.feed.stage = .new := by decide +kernel
  have hlive : ∀ all, (exec step (start all) (twinRun.take 8)).early.feed.stage = .listed 1 := by decide +kernel
  exact ⟨trivial, fun _ => hlist all, fun h => absurd (hnew all).1 h, fun h => absurd (hnew all).2 h, trivial,
    trivial, trivial, trivial, ⟨1, hlive all⟩, trivial, trivial, trivial, trivial, trivial, trivial, trivial, trivial,
    trivial⟩

def twinEnd (all : Bool) : Twin := exec step (start all) twinRun

/-- Both watches are live, the poll loop has passed both rows, and nothing is on its way. -/
theorem settled_twinEnd (all : Bool) : (twinEnd all).early.feed.stage = .listed 1 ∧
    (twinEnd all).late.feed.stage = .listed 3 ∧
    (∀ y ∈ (twinEnd all).late.found, y.id ≤ (twinEnd all).hub.pollRevision) ∧
    ((twinEnd all).early.stitch (twinEnd all).hub).load = 0 ∧
    ((twinEnd all).late.stitch (twinEnd all).hub).load = 0 := by
  revert all
  decide +kernel

/-- Without a selector the two watches deliver the same. -/
theorem twins_agree_unselected : (twinEnd true).early.delivered = (twinEnd true).late.delivered := by
  have hrows : ∀ y ∈ (twinEnd true).late.found, (twinEnd true).early.feed.after < y.id →
      (inRange (twinEnd true).early.feed.key (twinEnd true).early.feed.rangeEnd y.name = true ∧
        isFill y.name = false ∧
        ((twinEnd true).early.feed.selected y.event.kv || y.event.prevKV.any (twinEnd true).early.feed.selected) = true) ∧
      watched (twinEnd true).late.feed.key (twinEnd true).late.feed.rangeEnd y.name = true := by decide +kernel
  obtain ⟨hL, hL', hpassed, hearly, hlate⟩ := settled_twinEnd true
  obtain ⟨hiff, hdE, hdL⟩ := twins_agree_iff _ _ _ _ twinRun (twinEnd true) rfl (opened_twinRun true)
    (assumed_twinRun true) 1 3 hL hL' hpassed
  rw [hdE hearly, hdL hlate, hiff]
  intro y hy hafter
  obtain ⟨⟨hin, htaken⟩, hwatched⟩ := hrows y hy hafter
  exact ⟨fun _ => .inl hwatched, fun _ => ⟨hin, .inl htaken⟩⟩

/-- With a selector, the row that is not selected is delivered only to the watch that is
opened later. -/
theorem twins_differ_selected :
    (Guarded step Opened (start false) twinRun ∧ Guarded step Assumed (start false) twinRun) ∧
    (twinEnd false).early.delivered = [webRow.event] ∧
    (twinEnd false).late.delivered = [plainRow.event, webRow.event] ∧
    (twinEnd false).hub.pollRevision = 3 ∧
    ((twinEnd false).early.stitch (twinEnd false).hub).load = 0 ∧
    ((twinEnd false).late.stitch (twinEnd false).hub).load = 0 := by
  refine ⟨⟨opened_twinRun false, assumed_twinRun false⟩, ?_⟩
  decide +kernel

end Twin

end Harikube
