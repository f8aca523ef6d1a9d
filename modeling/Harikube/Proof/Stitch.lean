import Harikube.Lts.Run
import Harikube.Proof.Feed

/-!
# Stitching the backlog and the live events of a watch

A watch queries the backlog once and takes the rest from the poll loop. The poll loop
starts behind the largest revision there is, and the backlog covers everything up to the
largest revision there is, whether or not all smaller revisions are visible.

* `exactly_iff`: nothing is lost, doubled or out of order if and only if the stream of the
  watch holds the wanted rows up to where the backlog and the poll loop have got.
* `step_exactly`: **a step keeps this, unless it makes a row visible that the backlog query
  or the start of the poll loop has already gone past.**
-/

namespace Harikube.Stitch

open Kine

variable {x : Stitch} {L : ℤ}

/-- The wanted events that are on their way to the reader. -/
def onTheWay (x : Stitch) (L : ℤ) : List Event :=
  x.feed.unread.filter x.feed.wants ++
    ((x.feed.unforwarded x.hub.transit).filter x.feed.wants).filter fun e => L < e.kv.modRevision

/-- The wanted events that the poll loop has still to pass on. -/
def toCome (x : Stitch) (L : ℤ) : List Event :=
  ((x.hub.table.rows.filter fun y => x.hub.pollRevision < y.id ∧ L < y.id).map Row.event).filter x.feed.wants

/-- Once the backlog is queried, the wanted rows of the table, in the order of revisions,
are what has been delivered, then what is on its way, then what is to come: nothing is
lost, doubled or out of order. -/
def Exactly (x : Stitch) : Prop :=
  ∀ L, x.feed.stage = .listed L →
    (x.hub.table.rows.map Row.event).filter x.feed.wants =
      x.delivered.filter x.feed.wants ++ x.onTheWay L ++ x.toCome L

/-- The subscriber is not dropped, and no revision is skipped by `canSkipRevision`. -/
def Assumed (x : Stitch) (a : Act) : Prop :=
  ∀ b, a = .hub b → x.hub.NoSkip b ∧ (b = .fanout → x.feed.inSubs = true → x.feed.sub.length < capacity)

/-- A wanted row does not become visible behind the cut-off revision of the backlog or
behind the revision that the poll loop has started from. -/
def InTime (x : Stitch) (a : Act) : Prop :=
  ∀ y L p, a = .hub (.place y) → (x.hub.table.place y).isSome → x.feed.stage = .listed L →
    x.hub.poll = some p → x.feed.wants y.event = true → L < y.id ∧ p.pollStart < y.id

/-- The parts are in order; a watch that has subscribed is known to the broadcaster, and
the poll loop runs; nothing is delivered before the backlog is queried. -/
structure OK (x : Stitch) : Prop where
  hub : x.hub.OK
  feed : x.feed.OK x.hub.table
  live : x.feed.stage ≠ .new → x.feed.inSubs = true ∧ x.hub.poll.isSome = true
  early : (∀ L, x.feed.stage ≠ .listed L) → x.delivered = []

theorem ok_init (key rangeEnd : Bytes) (start : ℤ) (selected : KeyValue → Bool) :
    (init key rangeEnd start selected).OK :=
  ⟨Hub.ok_init, Feed.ok_new _ _ _ _ _, fun h => absurd rfl h, fun _ => rfl⟩

/-- The rows are those the stream should hold and those to come. -/
theorem exactly_iff :
    x.Exactly ↔ ∀ L, x.feed.stage = .listed L →
      x.feed.stream x.delivered x.hub.transit L = x.feed.upTo x.hub.table (max x.hub.pollRevision L) := by
  have hstream : ∀ L, x.feed.stream x.delivered x.hub.transit L =
      x.delivered.filter x.feed.wants ++ x.onTheWay L := by
    intro L
    unfold Feed.stream onTheWay
    rw [List.filter_append, List.append_assoc]
  have hsplit : ∀ L, (x.hub.table.rows.map Row.event).filter x.feed.wants =
      x.feed.upTo x.hub.table (max x.hub.pollRevision L) ++ x.toCome L := by
    intro L
    have hrows := Sorted.filter_le_append_filter_lt Row.id (max x.hub.pollRevision L) x.hub.table.sorted
    have habove : (x.hub.table.rows.filter fun y => decide (max x.hub.pollRevision L < y.id)) =
        x.hub.table.rows.filter fun y => x.hub.pollRevision < y.id ∧ L < y.id := by
      apply List.filter_congr
      intro y _
      rw [decide_eq_decide]
      omega
    unfold Feed.upTo toCome
    rw [← habove, ← List.filter_append, ← List.map_append, hrows]
  unfold Exactly
  refine forall_congr' fun L => imp_congr_right fun _ => ?_
  rw [hsplit L, ← hstream L, List.append_left_inj]
  exact eq_comm

/-! ## Steps -/

theorem step_fanout_none (hheld : x.hub.held = none) : x.step (.hub .fanout) = x := by
  simp only [step, Hub.step, hheld]
  simp only [← hheld]

theorem step_fanout_some {batch : Batch} (hheld : x.hub.held = some batch) :
    (x.step (.hub .fanout)).feed = x.feed.fanout batch := by
  simp only [step, hheld]

theorem step_subscribe_some {hub : Hub} (hc : x.hub.connect = some hub) :
    x.step (.feed .subscribe) = { x with hub := hub, feed := x.feed.step x.hub.table .subscribe } := by
  simp only [step, hc]

theorem step_subscribe_none (hc : x.hub.connect = none) : x.step (.feed .subscribe) = x := by
  simp only [step, hc]

theorem step_read_cons {events : List Event} {result : List (List Event)} (hres : x.feed.result = events :: result) :
    x.step .read = { x with feed := { x.feed with result := result }, delivered := x.delivered ++ events } := by
  simp only [step, hres]

theorem step_read_nil (hres : x.feed.result = []) : x.step .read = x := by
  simp only [step, hres]

/-- The hub makes a step that is not a fanout: the feed stays, over a table with perhaps one
more row. -/
theorem feed_hub (hx : x.OK) {b : HubAct} (hskip : x.hub.NoSkip b) (hb : b ≠ .fanout) :
    (x.step (.hub b)).feed = x.feed ∧ x.feed.OK (x.hub.step b).table := by
  obtain ⟨t', ht, htable, -⟩ := Hub.step_advance hx.hub hskip hb
  refine ⟨?_, ?_⟩
  · cases b with
    | fanout => exact absurd rfl hb
    | _ => rfl
  · rw [htable]
    rcases ht with rfl | ⟨y, hy, -⟩
    · exact hx.feed
    · exact hx.feed.place hy

/-- The broadcaster gives its batch to a subscriber that has room, or to nobody. -/
theorem feed_fanout (hx : x.OK) (ha : x.Assumed (.hub .fanout)) :
    (x.step (.hub .fanout)).feed.OK x.hub.table ∧ (x.step (.hub .fanout)).feed.stage = x.feed.stage ∧
      (x.step (.hub .fanout)).feed.inSubs = x.feed.inSubs ∧
      (x.step (.hub .fanout)).feed.wants = x.feed.wants ∧
      (x.feed.inSubs = true → ∀ out L, (x.step (.hub .fanout)).feed.stream out
        (x.step (.hub .fanout)).hub.transit L = x.feed.stream out x.hub.transit L) := by
  cases hheld : x.hub.held with
  | none =>
    rw [step_fanout_none hheld]
    exact ⟨hx.feed, rfl, rfl, rfl, fun _ _ _ => rfl⟩
  | some batch =>
    rw [step_fanout_some hheld]
    by_cases hin : x.feed.inSubs = true
    · have hseen : x.hub.table.Seen batch.reduceOption :=
        hx.hub.transit batch (by unfold Hub.transit; rw [hheld]; exact List.mem_cons_self)
      have hroom := (ha .fanout rfl).2 rfl hin
      obtain ⟨hok, hstage, hsubs, -⟩ := Feed.fanout_ok hx.feed hseen hin hroom [] [] 0
      refine ⟨hok, hstage, hsubs.trans hin.symm, ?_, fun _ out L => ?_⟩
      · unfold Feed.fanout
        rw [if_neg (by simp [hin]), if_pos hroom]
        rfl
      · have htransit : x.hub.transit = batch :: (x.step (.hub .fanout)).hub.transit := by
          show x.hub.held.toList ++ x.hub.outbox.toList = batch :: ([] ++ x.hub.outbox.toList)
          rw [hheld]
          rfl
        rw [htransit]
        exact (Feed.fanout_ok hx.feed hseen hin hroom out _ L).2.2.2
    · have hsame : x.feed.fanout batch = x.feed := by
        unfold Feed.fanout
        rw [if_pos (by simpa using hin)]
      rw [hsame]
      exact ⟨hx.feed, rfl, rfl, rfl, fun h => absurd h hin⟩

theorem ok_hub (hx : x.OK) {b : HubAct} (ha : x.Assumed (.hub b)) : (x.step (.hub b)).OK := by
  obtain ⟨hskip, -⟩ := ha b rfl
  have hhub : (x.hub.step b).OK := Hub.step_ok hx.hub hskip
  by_cases hb : b = .fanout
  · subst hb
    obtain ⟨hok, hstage, hin, -⟩ := feed_fanout hx ha
    refine ⟨hhub, hok, fun hs => ?_, fun hs => hx.early fun L h => hs L (hstage.trans h)⟩
    rw [hstage] at hs
    rw [hin]
    exact hx.live hs
  · obtain ⟨hfeed, hok⟩ := feed_hub hx hskip hb
    refine ⟨hhub, ?_, fun hs => ?_, fun hs => hx.early fun L h => hs L ?_⟩
    · rw [hfeed]
      exact hok
    · rw [hfeed] at hs ⊢
      exact ⟨(hx.live hs).1, Hub.step_poll x.hub b (hx.live hs).2⟩
    · rw [hfeed]
      exact h

/-- A subscription, of this watch or another one: the poll loop runs from now on. -/
theorem ok_connect (hx : x.OK) {hub : Hub} (hc : x.hub.connect = some hub) :
    ({ x with hub := hub } : Stitch).OK ∧ hub.poll.isSome = true ∧ hub.table = x.hub.table := by
  obtain ⟨hok, htable, -, -, hrun, -⟩ := Hub.connect_ok hx.hub hc
  exact ⟨⟨hok, by rw [htable]; exact hx.feed, fun hs => ⟨(hx.live hs).1, hrun⟩, hx.early⟩, hrun, htable⟩

theorem ok_feed (hx : x.OK) (a : FeedAct) : (x.step (.feed a)).OK := by
  by_cases ha : Feed.moves a = true
  · have hstep : x.step (.feed a) = { x with feed := x.feed.step x.hub.table a } := by
      cases a with
      | subscribe => exact absurd ha Bool.false_ne_true
      | _ => rfl
    obtain ⟨hstage, -, hin, -⟩ := x.feed.step_frame x.hub.table ha
    rw [hstep]
    refine ⟨hx.hub, Feed.step_ok hx.feed ha, fun hs => ?_, fun hs => hx.early fun L h => hs L (hstage.trans h)⟩
    change (x.feed.step x.hub.table a).stage ≠ .new at hs
    show (x.feed.step x.hub.table a).inSubs = true ∧ _
    rw [hstage] at hs
    rw [hin]
    exact hx.live hs
  · cases a with
    | subscribe =>
      cases hc : x.hub.connect with
      | none =>
        rw [step_subscribe_none hc]
        exact hx
      | some hub =>
        rw [step_subscribe_some hc]
        obtain ⟨hok, hrun, htable⟩ := ok_connect hx hc
        have hfeed := Feed.subscribe_ok hx.feed
        refine ⟨hok.hub, by rw [htable]; exact hfeed, fun _ => ⟨?_, hrun⟩, fun hs => hx.early fun L h => hs L ?_⟩
        · by_cases hnew : x.feed.stage = .new
          · rw [Feed.step_subscribe_new hnew]
          · rw [Feed.step_subscribe_of_ne hnew]
            exact (hx.live hnew).1
        · rw [Feed.step_subscribe_of_ne (by rw [h]; simp)]
          exact h
    | list =>
      by_cases hsub : x.feed.stage = .subscribed
      · obtain ⟨hok, hin, -⟩ := Feed.stream_list hx.feed hx.hub.transit hsub 0
        have hlive := hx.live (by rw [hsub]; simp)
        refine ⟨hx.hub, hok, fun _ => ⟨hin.trans hlive.1, hlive.2⟩, fun _ => hx.early fun L => by rw [hsub]; simp⟩
      · have hsame : x.feed.list x.hub.table = x.feed := by
          unfold Feed.list
          split
          · rename_i h
            exact absurd h hsub
          · rfl
        show ({ x with feed := x.feed.list x.hub.table } : Stitch).OK
        rw [hsame]
        exact hx
    | _ => exact absurd rfl ha

theorem ok_read (hx : x.OK) : (x.step .read).OK := by
  cases hres : x.feed.result with
  | nil =>
    rw [step_read_nil hres]
    exact hx
  | cons events result =>
    rw [step_read_cons hres]
    -- there is a result only once the backlog is queried
    have hlisted : ¬ ∀ L, x.feed.stage ≠ .listed L := by
      intro h
      rw [(hx.feed.early h).2] at hres
      simp at hres
    exact ⟨hx.hub, ⟨hx.feed.res, hx.feed.filtered, hx.feed.sub, fun h => absurd h hlisted⟩, hx.live,
      fun h => absurd h hlisted⟩

theorem step_ok (hx : x.OK) {a : Act} (ha : x.Assumed a) : (x.step a).OK := by
  cases a with
  | hub b => exact ok_hub hx ha
  | connect =>
    show ({ x with hub := x.hub.connect.getD x.hub } : Stitch).OK
    cases hc : x.hub.connect with
    | none => exact hx
    | some hub => exact (ok_connect hx hc).1
  | feed a => exact ok_feed hx a
  | read => exact ok_read hx

/-! ## What a step does to the stream -/

/-- A row becomes visible: in time, or not. -/
theorem exactly_place (hx : x.OK) (hexact : x.Exactly) (y : Row) :
    (x.step (.hub (.place y))).Exactly ↔ x.InTime (.hub (.place y)) := by
  cases ht : x.hub.table.place y with
  | none =>
    have hsame : x.step (.hub (.place y)) = x := by
      show ({ x with hub := { x.hub with table := (x.hub.table.place y).getD x.hub.table } } : Stitch) = x
      rw [ht]
      rfl
    rw [hsame]
    refine ⟨fun _ z L p hz hsome => ?_, fun _ => hexact⟩
    obtain rfl := HubAct.place.inj (Act.hub.inj hz)
    rw [ht] at hsome
    simp at hsome
  | some t' =>
    have hstep : x.step (.hub (.place y)) = { x with hub := { x.hub with table := t' } } := by
      show ({ x with hub := { x.hub with table := (x.hub.table.place y).getD x.hub.table } } : Stitch) = _
      rw [ht]
      rfl
    rw [exactly_iff] at hexact
    rw [hstep, exactly_iff]
    -- the stream is the same, so the rows it should hold have to be
    have hkey : ∀ L, x.feed.stage = .listed L →
        (x.feed.stream x.delivered x.hub.transit L = x.feed.upTo t' (max x.hub.pollRevision L) ↔
          (x.feed.wants y.event = true → max x.hub.pollRevision L < y.id)) := by
      intro L hL
      rw [hexact L hL, ← x.feed.upTo_place ht]
      exact eq_comm
    constructor
    · intro hnew z L p hz _ hL hp hw
      obtain rfl := HubAct.place.inj (Act.hub.inj hz)
      have hlt := (hkey L hL).1 (hnew L hL) hw
      have hrev : x.hub.pollRevision = p.pollRevision := by
        unfold Hub.pollRevision
        rw [hp]
        rfl
      have hstart := (hx.hub.start p hp).2.1
      omega
    · intro hin L hL
      refine (hkey L hL).2 fun hw => ?_
      obtain ⟨p, hp⟩ := Option.isSome_iff_exists.1 (hx.live (by rw [hL]; simp)).2
      obtain ⟨hlist, hpoll⟩ := hin y L p rfl (by rw [ht]; rfl) hL hp hw
      -- all revisions up to the poll loop's are taken
      have hfree := (hx.hub.start p hp).2.2.not_mem ht
      have hrev : x.hub.pollRevision = p.pollRevision := by
        unfold Hub.pollRevision
        rw [hp]
        rfl
      omega

/-- The other steps of the hub. -/
theorem exactly_hub (hx : x.OK) (hexact : x.Exactly) {b : HubAct} (ha : x.Assumed (.hub b))
    (hb : ∀ y, b ≠ .place y) : (x.step (.hub b)).Exactly := by
  obtain ⟨hskip, -⟩ := ha b rfl
  rw [exactly_iff] at hexact ⊢
  intro L hL
  by_cases hf : b = .fanout
  · subst hf
    obtain ⟨-, hstage, -, hwants, hstream⟩ := feed_fanout hx ha
    rw [hstage] at hL
    have hin := (hx.live (by rw [hL]; simp)).1
    rw [show (x.step (.hub .fanout)).delivered = x.delivered from rfl, hstream hin x.delivered L, hexact L hL]
    unfold Feed.upTo
    rw [hwants]
    rfl
  · obtain ⟨hfeed, -⟩ := feed_hub hx hskip hf
    rw [hfeed] at hL ⊢
    obtain ⟨t', ht, hadv⟩ := Hub.step_advance hx.hub hskip hf
    refine Feed.stream_advance hadv ?_
    show x.feed.stream x.delivered x.hub.transit L = x.feed.upTo t' (max x.hub.pollRevision L)
    rw [hexact L hL]
    rcases ht with rfl | ⟨y, hy, rfl | hfill⟩
    · rfl
    · exact absurd rfl (hb y)
    · refine ((x.feed.upTo_place hy).2 fun hw => ?_).symm
      -- a fill row is not wanted
      unfold Feed.wants at hw
      simp [hfill] at hw

theorem exactly_feed (hx : x.OK) (hexact : x.Exactly) (a : FeedAct) : (x.step (.feed a)).Exactly := by
  rw [exactly_iff] at hexact ⊢
  by_cases ha : Feed.moves a = true
  · have hstep : x.step (.feed a) = { x with feed := x.feed.step x.hub.table a } := by
      cases a with
      | subscribe => exact absurd ha Bool.false_ne_true
      | _ => rfl
    obtain ⟨hstage, hwants, -⟩ := x.feed.step_frame x.hub.table ha
    rw [hstep]
    intro L hL
    replace hL : x.feed.stage = .listed L := hstage ▸ hL
    show (x.feed.step x.hub.table a).stream x.delivered x.hub.transit L = _
    rw [Feed.stream_step hx.feed hL ha, hexact L hL]
    unfold Feed.upTo
    rw [← hwants]
  · cases a with
    | subscribe =>
      intro L hL
      cases hc : x.hub.connect with
      | none =>
        rw [step_subscribe_none hc] at hL ⊢
        exact hexact L hL
      | some hub =>
        -- a watch that has listed is subscribed already
        have hne : x.feed.stage ≠ .new := by
          intro hnew
          rw [step_subscribe_some hc, Feed.step_subscribe_new hnew] at hL
          simp at hL
        obtain ⟨-, -, -, -, -, hkeep⟩ := Hub.connect_ok hx.hub hc
        rw [step_subscribe_some hc, Feed.step_subscribe_of_ne hne, hkeep (hx.live hne).2] at hL ⊢
        exact hexact L hL
    | list =>
      by_cases hsub : x.feed.stage = .subscribed
      · have hnone := hx.early fun L => by rw [hsub]; simp
        intro L hL
        show (x.feed.list x.hub.table).stream x.delivered x.hub.transit L = _
        rw [hnone]
        exact (Feed.stream_list hx.feed hx.hub.transit hsub x.hub.pollRevision).2.2 L hL
      · have hsame : x.step (.feed .list) = x := by
          show ({ x with feed := x.feed.list x.hub.table } : Stitch) = x
          unfold Feed.list
          split
          · rename_i h
            exact absurd h hsub
          · rfl
        rw [hsame]
        exact hexact
    | _ => exact absurd rfl ha

theorem exactly_read (hexact : x.Exactly) : (x.step .read).Exactly := by
  cases hres : x.feed.result with
  | nil =>
    rw [step_read_nil hres]
    exact hexact
  | cons events result =>
    rw [step_read_cons hres]
    rw [exactly_iff] at hexact ⊢
    intro L hL
    show ({ x.feed with result := result } : Feed).stream (x.delivered ++ events) x.hub.transit L =
      x.feed.upTo x.hub.table (max x.hub.pollRevision L)
    rw [Feed.stream_read hres]
    exact hexact L hL

theorem inTime_of_ne {a : Act} (ha : ∀ y, a ≠ .hub (.place y)) : x.InTime a := fun y _ _ hy => absurd hy (ha y)

/-- **A step keeps the stream exact** if and only if it is not a row that comes too late. -/
theorem step_exactly (hx : x.OK) (hexact : x.Exactly) {a : Act} (ha : x.Assumed a) :
    (x.step a).Exactly ↔ x.InTime a := by
  cases a with
  | hub b =>
    by_cases hb : ∃ y, b = .place y
    · obtain ⟨y, rfl⟩ := hb
      exact exactly_place hx hexact y
    · have hne : ∀ y, b ≠ .place y := fun y h => hb ⟨y, h⟩
      exact ⟨fun _ => inTime_of_ne fun y h => hne y (Act.hub.inj h), fun _ => exactly_hub hx hexact ha hne⟩
  | connect =>
    refine ⟨fun _ => inTime_of_ne fun y => by simp, fun _ => ?_⟩
    show ({ x with hub := x.hub.connect.getD x.hub } : Stitch).Exactly
    cases hc : x.hub.connect with
    | none => exact hexact
    | some hub =>
      intro L hL
      -- the poll loop of a watch that has listed is running already
      have hrun := (hx.live (show x.feed.stage ≠ .new by rw [show x.feed.stage = _ from hL]; simp)).2
      obtain ⟨-, -, -, -, -, hkeep⟩ := Hub.connect_ok hx.hub hc
      obtain rfl := hkeep hrun
      exact hexact L hL
  | feed a => exact ⟨fun _ => inTime_of_ne fun y => by simp, fun _ => exactly_feed hx hexact a⟩
  | read => exact ⟨fun _ => inTime_of_ne fun y => by simp, fun _ => exactly_read hexact⟩

end Harikube.Stitch
