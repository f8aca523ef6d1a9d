import Harikube.Proof.Drain

/-!
# What one watch delivers

A watch delivers the backlog that its query has returned, and then what passes the filters
of the batches that the broadcaster has sent it, wanted or not.

* `Feed.carried_step`: the goroutines neither add nor drop anything behind the filters.
* `Seat.OK`: what a watch has delivered and holds is its backlog and what it has been sent.
* `Seat.OK.pass`, `Seat.OK.step`: **this holds whatever the poll loop and the watch do.**
-/

namespace Harikube

open Kine

namespace Feed

variable {f g : Feed} {t : Kine} {L : ℤ} {out : List Event}

/-! ## What passes the filters -/

/-- What is left of a batch behind the filter of the SQL log. -/
def kept (f : Feed) (b : Batch) : List Event := SqlLog.filter f.selected f.key f.rangeEnd b

/-- What is before the filter of `LogStructured`. -/
def ahead (f : Feed) : List Event := f.res.flatten ++ (f.filtered.getD [] ++ f.sub.flatMap f.kept)

/-- What has been delivered, and what will be of the batches that have been sent. -/
def carried (f : Feed) (out : List Event) (L : ℤ) : List Event :=
  out ++ f.unread ++ f.ahead.filter fun e => L < e.kv.modRevision

/-- Two watches of one request. -/
structure Alike (f g : Feed) : Prop where
  key : f.key = g.key
  rangeEnd : f.rangeEnd = g.rangeEnd
  start : f.startRevision = g.startRevision
  selected : f.selected = g.selected

theorem Alike.kept (h : Alike f g) : f.kept = g.kept := by
  unfold Feed.kept
  rw [h.key, h.rangeEnd, h.selected]

theorem Alike.after (h : Alike f g) : f.after = g.after := by
  unfold Feed.after
  rw [h.start]

theorem Alike.trans {k : Feed} (h : Alike f g) (h' : Alike g k) : Alike f k :=
  ⟨h.key.trans h'.key, h.rangeEnd.trans h'.rangeEnd, h.start.trans h'.start, h.selected.trans h'.selected⟩

theorem Alike.symm (h : Alike f g) : Alike g f := ⟨h.key.symm, h.rangeEnd.symm, h.start.symm, h.selected.symm⟩

theorem alike_fanout (f : Feed) (b : Batch) : Alike (f.fanout b) f := by
  unfold fanout
  split
  · exact ⟨rfl, rfl, rfl, rfl⟩
  · split <;> exact ⟨rfl, rfl, rfl, rfl⟩

/-- No step changes the request. -/
theorem alike_step (f : Feed) (t : Kine) (a : FeedAct) : Alike (f.step t a) f := by
  cases a with
  | subscribe =>
    by_cases hnew : f.stage = .new
    · rw [step_subscribe_new hnew]
      exact ⟨rfl, rfl, rfl, rfl⟩
    · rw [step_subscribe_of_ne hnew]
      exact ⟨rfl, rfl, rfl, rfl⟩
  | list =>
    show Alike (f.list t) f
    unfold list
    split
    · split <;> exact ⟨rfl, rfl, rfl, rfl⟩
    · exact ⟨rfl, rfl, rfl, rfl⟩
  | filter =>
    show Alike f.filter f
    unfold filter
    split <;> exact ⟨rfl, rfl, rfl, rfl⟩
  | send =>
    show Alike f.send f
    unfold send
    split
    · split <;> exact ⟨rfl, rfl, rfl, rfl⟩
    · exact ⟨rfl, rfl, rfl, rfl⟩
  | forward =>
    show Alike f.forward f
    unfold forward
    split <;> exact ⟨rfl, rfl, rfl, rfl⟩
  | deliver =>
    show Alike f.deliver f
    unfold deliver
    split
    · split <;> exact ⟨rfl, rfl, rfl, rfl⟩
    · exact ⟨rfl, rfl, rfl, rfl⟩

theorem filter_ahead (f : Feed) : f.filter.ahead = f.ahead ∧ f.filter.unread = f.unread := by
  unfold filter
  split
  · rename_i b sub hsub hnone
    refine ⟨?_, rfl⟩
    have hget : (if SqlLog.filter f.selected f.key f.rangeEnd b ≠ [] then
        some (SqlLog.filter f.selected f.key f.rangeEnd b) else none).getD [] = f.kept b := by
      unfold kept
      by_cases hne : SqlLog.filter f.selected f.key f.rangeEnd b = [] <;> simp [hne]
    unfold ahead
    rw [hsub, hnone]
    simp only [hget, List.flatMap_cons, Option.getD_none, List.nil_append]
    rfl
  · exact ⟨rfl, rfl⟩

theorem send_ahead (f : Feed) : f.send.ahead = f.ahead ∧ f.send.unread = f.unread := by
  unfold send
  split
  · rename_i events hsome
    split
    · refine ⟨?_, rfl⟩
      unfold ahead
      rw [hsome]
      simp only [List.flatten_append, List.flatten_cons, List.flatten_nil, List.append_nil, Option.getD_none,
        Option.getD_some, List.nil_append, List.append_assoc]
      rfl
    · exact ⟨rfl, rfl⟩
  · exact ⟨rfl, rfl⟩

theorem deliver_ahead (f : Feed) : f.deliver.ahead = f.ahead ∧ f.deliver.unread = f.unread := by
  unfold deliver
  split
  · rename_i events hsome
    split
    · refine ⟨rfl, ?_⟩
      unfold unread
      rw [hsome]
      simp
    · exact ⟨rfl, rfl⟩
  · exact ⟨rfl, rfl⟩

theorem forward_carried (hok : f.OK t) (hL : f.stage = .listed L) (out : List Event) :
    f.forward.carried out L = f.carried out L := by
  unfold forward
  split
  · rename_i lastRevision events res hstage hres hnone
    obtain rfl := FeedStage.listed.inj (hL.symm.trans hstage)
    have hseen := hok.res events (by rw [hres]; exact List.mem_cons_self)
    unfold carried unread ahead
    rw [hnone, hres, filter_eq hseen.1]
    simp only [Option.getD_some, Option.getD_none, List.flatten_cons, List.filter_append, List.append_nil,
      List.append_assoc]
    rfl
  · rfl

/-- **The goroutines deliver exactly what passes the filters.** -/
theorem carried_step (hok : f.OK t) (hL : f.stage = .listed L) {a : FeedAct} (ha : moves a = true) :
    (f.step t a).carried out L = f.carried out L := by
  cases a with
  | subscribe => exact absurd ha Bool.false_ne_true
  | list => exact absurd ha Bool.false_ne_true
  | filter =>
    show f.filter.carried out L = _
    unfold carried
    rw [f.filter_ahead.1, f.filter_ahead.2]
  | send =>
    show f.send.carried out L = _
    unfold carried
    rw [f.send_ahead.1, f.send_ahead.2]
  | forward => exact forward_carried hok hL out
  | deliver =>
    show f.deliver.carried out L = _
    unfold carried
    rw [f.deliver_ahead.1, f.deliver_ahead.2]

/-- A watch that has not listed forwards nothing. -/
theorem ahead_step (hL : ∀ L, f.stage ≠ .listed L) {a : FeedAct} (ha : moves a = true) :
    (f.step t a).ahead = f.ahead := by
  cases a with
  | subscribe => exact absurd ha Bool.false_ne_true
  | list => exact absurd ha Bool.false_ne_true
  | filter => exact f.filter_ahead.1
  | send => exact f.send_ahead.1
  | forward =>
    show f.forward.ahead = f.ahead
    unfold forward
    split
    · rename_i L _ _ hstage _ _
      exact absurd hstage (hL L)
    · rfl
  | deliver => exact f.deliver_ahead.1

theorem carried_read {events : List Event} {result : List (List Event)} (hres : f.result = events :: result) :
    ({ f with result := result } : Feed).carried (out ++ events) L = f.carried out L := by
  unfold carried unread
  rw [hres, List.flatten_cons]
  simp only [List.append_assoc]
  rfl

theorem ahead_fanout (hin : f.inSubs = true) (hroom : f.sub.length < capacity) (b : Batch) :
    (f.fanout b).ahead = f.ahead ++ f.kept b ∧ (f.fanout b).unread = f.unread ∧
      (f.fanout b).stage = f.stage ∧ (f.fanout b).inSubs = true := by
  unfold fanout
  rw [if_neg (by simp [hin]), if_pos hroom]
  refine ⟨?_, rfl, rfl, hin⟩
  unfold ahead
  simp only [List.flatMap_append, List.flatMap_cons, List.flatMap_nil, List.append_nil, List.append_assoc]
  rfl

/-! ## The backlog -/

/-- The rows that the backlog query selects. -/
def selects (f : Feed) (x : Row) : Bool := f.after < x.id && watched f.key f.rangeEnd x.name

theorem after_eq (f : Feed) (t : Kine) : t.after f.key f.rangeEnd f.after 0 = t.rows.filter f.selects := by
  unfold Kine.after Mvcc.firstN
  rw [if_neg (lt_irrefl 0)]
  rfl

/-- What the backlog query does to a watch that has subscribed. -/
theorem list_cases (hok : f.OK t) (hsub : f.stage = .subscribed) :
    f.list t = { f with stage := .refused } ∨
      ∃ L, (f.list t).stage = .listed L ∧ (f.list t).unread = (t.rows.filter f.selects).map Row.event ∧
        (f.list t).ahead = f.ahead ∧ (f.list t).inSubs = f.inSubs ∧
        (t.rows.filter f.selects ≠ [] ∧ L = t.currentRev.getD 0 ∨ t.rows.filter f.selects = [] ∧ L = f.after) := by
  obtain ⟨hfwd, hres⟩ := hok.early fun L => by rw [hsub]; simp
  unfold list
  rw [hsub]
  cases hback : f.backlog t with
  | none => exact .inl rfl
  | some p =>
    obtain ⟨L, kvs⟩ := p
    obtain ⟨hkvs, hcut⟩ := backlog_cases hback
    rw [after_eq] at hkvs
    refine .inr ⟨L, rfl, ?_, rfl, rfl, ?_⟩
    · unfold unread
      simp only [hres, List.flatten_nil, List.nil_append]
      rw [← hkvs]
      by_cases hnil : kvs = [] <;> simp [hnil]
    · rw [hkvs] at hcut
      simpa only [ne_eq, List.map_eq_nil_iff] using hcut

theorem Alike.selects (h : Alike f g) : f.selects = g.selects := by
  unfold Feed.selects
  rw [h.after, h.key, h.rangeEnd]

end Feed

/-! ## One watch -/

namespace Seat

variable {s : Seat} {h h' : Hub} {L : ℤ}

/-- What the backlog query has returned. -/
def backlog (s : Seat) : List Event := (s.found.filter s.feed.selects).map Row.event

def stitch (s : Seat) (h : Hub) : Stitch := ⟨h, s.feed, s.delivered⟩

/-- A watch delivers its backlog and then what it has been sent and has passed its filters.
The backlog is cut off at the largest revision that was found. -/
structure OK (s : Seat) (h : Hub) : Prop where
  stitch : (s.stitch h).OK
  fresh : s.feed.stage = .new → s.feed.inSubs = false ∧ s.sent = []
  unlisted : (∀ L, s.feed.stage ≠ .listed L) → s.feed.ahead = s.sent.flatMap s.feed.kept
  listed : ∀ L, s.feed.stage = .listed L → s.feed.carried s.delivered L =
    s.backlog ++ (s.sent.flatMap s.feed.kept).filter fun e => L < e.kv.modRevision
  cutoff : ∀ L, s.feed.stage = .listed L →
    s.backlog ≠ [] ∧ (∃ z ∈ s.found, z.id = L) ∧ (∀ z ∈ s.found, z.id ≤ L) ∨ s.backlog = [] ∧ L = s.feed.after

theorem ok_new (key rangeEnd : Bytes) (start : ℤ) (selected : KeyValue → Bool) :
    (new key rangeEnd start selected).OK Hub.init :=
  ⟨Stitch.ok_init key rangeEnd start selected, fun _ => ⟨rfl, rfl⟩, fun _ => rfl, nofun, nofun⟩

theorem stitch_pass (s : Seat) (h : Hub) (a : HubAct) :
    (s.pass h a).stitch (h.step a) = (s.stitch h).step (.hub a) := by
  unfold pass stitch Stitch.step
  cases a with
  | fanout => cases h.held <;> rfl
  | _ => rfl

/-- A batch is broadcast, or nothing of the watch changes. -/
theorem pass_cases (s : Seat) (h : Hub) (a : HubAct) :
    s.pass h a = s ∨ a = .fanout ∧ s.feed.inSubs = true ∧ ∃ b, h.held = some b ∧
      s.pass h a = { s with feed := s.feed.fanout b, sent := s.sent ++ [b] } := by
  unfold pass
  cases a with
  | fanout =>
    cases hheld : h.held with
    | none => exact .inl rfl
    | some b =>
      cases hin : s.feed.inSubs with
      | true => exact .inr ⟨rfl, rfl, b, rfl, by simp⟩
      | false =>
        left
        have hsame : s.feed.fanout b = s.feed := by
          unfold Feed.fanout
          rw [if_pos (by simp [hin])]
        simp [hsame]
  | _ => exact .inl rfl

/-- A batch changes neither the request, nor how far the watch has got. -/
theorem pass_frame (s : Seat) (h : Hub) (a : HubAct) :
    Feed.Alike (s.pass h a).feed s.feed ∧ (s.pass h a).feed.stage = s.feed.stage ∧ (s.pass h a).found = s.found := by
  rcases s.pass_cases h a with hsame | ⟨-, -, b, -, hpass⟩
  · rw [hsame]
    exact ⟨⟨rfl, rfl, rfl, rfl⟩, rfl, rfl⟩
  · rw [hpass]
    refine ⟨s.feed.alike_fanout b, ?_, rfl⟩
    show (s.feed.fanout b).stage = _
    unfold Feed.fanout
    split
    · rfl
    · split <;> rfl

theorem OK.pass (hs : s.OK h) {a : HubAct} (ha : (s.stitch h).Assumed (.hub a)) : (s.pass h a).OK (h.step a) := by
  have hstitch : ((s.pass h a).stitch (h.step a)).OK := by
    rw [stitch_pass]
    exact Stitch.ok_hub hs.stitch ha
  rcases s.pass_cases h a with hsame | ⟨rfl, hin, b, -, hpass⟩
  · rw [hsame] at hstitch ⊢
    exact ⟨hstitch, hs.fresh, hs.unlisted, hs.listed, hs.cutoff⟩
  · have hroom : s.feed.sub.length < capacity := (ha .fanout rfl).2 rfl hin
    obtain ⟨hahead, hunread, hstage, -⟩ := Feed.ahead_fanout hin hroom b
    have hlike := s.feed.alike_fanout b
    rw [hpass] at hstitch ⊢
    refine ⟨hstitch, fun hnew => ?_, fun hL => ?_, fun L hL => ?_, fun L hL => ?_⟩
    · have hnew : s.feed.stage = .new := hstage ▸ hnew
      rw [(hs.fresh hnew).1] at hin
      exact absurd hin Bool.false_ne_true
    · show (s.feed.fanout b).ahead = (s.sent ++ [b]).flatMap (s.feed.fanout b).kept
      rw [hahead, hs.unlisted fun L h => hL L (hstage.trans h), hlike.kept]
      simp
    · have hL : s.feed.stage = .listed L := hstage ▸ hL
      have hold := hs.listed L hL
      show (s.feed.fanout b).carried s.delivered L = _
      unfold Feed.carried backlog at hold ⊢
      rw [hahead, hunread, List.filter_append, ← List.append_assoc, hold, hlike.selects, hlike.kept]
      simp
    · have hL : s.feed.stage = .listed L := hstage ▸ hL
      have hold := hs.cutoff L hL
      unfold backlog at hold ⊢
      rw [hlike.selects, hlike.after]
      exact hold

/-- Another watch subscribes. -/
theorem OK.connect (hs : s.OK h) (hc : h.connect = some h') : s.OK h' :=
  ⟨(Stitch.ok_connect hs.stitch hc).1, hs.fresh, hs.unlisted, hs.listed, hs.cutoff⟩

/-- A step of the goroutines. -/
theorem OK.moves (hs : s.OK h) {a : FeedAct} (ha : Feed.moves a = true) :
    ({ s with feed := s.feed.step h.table a } : Seat).OK h := by
  have hstitch : (s.stitch h).step (.feed a) = ⟨h, s.feed.step h.table a, s.delivered⟩ := by
    cases a with
    | subscribe => exact absurd ha Bool.false_ne_true
    | _ => rfl
  have hok := Stitch.ok_feed hs.stitch a
  rw [hstitch] at hok
  obtain ⟨hstage, -, hin, -⟩ := s.feed.step_frame h.table ha
  have hlike := s.feed.alike_step h.table a
  refine ⟨hok, fun hnew => ?_, fun hL => ?_, fun L hL => ?_, fun L hL => ?_⟩
  · have hnew : s.feed.stage = .new := hstage ▸ hnew
    exact ⟨hin.trans (hs.fresh hnew).1, (hs.fresh hnew).2⟩
  · have hL : ∀ L, s.feed.stage ≠ .listed L := fun L h => hL L (hstage.trans h)
    show (s.feed.step h.table a).ahead = s.sent.flatMap (s.feed.step h.table a).kept
    rw [Feed.ahead_step hL ha, hlike.kept]
    exact hs.unlisted hL
  · have hL : s.feed.stage = .listed L := hstage ▸ hL
    have hold := hs.listed L hL
    have hfeed : s.feed.OK h.table := hs.stitch.feed
    show (s.feed.step h.table a).carried s.delivered L = _
    rw [Feed.carried_step hfeed hL ha, hold]
    unfold backlog
    rw [hlike.selects, hlike.kept]
  · have hL : s.feed.stage = .listed L := hstage ▸ hL
    have hold := hs.cutoff L hL
    unfold backlog at hold ⊢
    rw [hlike.selects, hlike.after]
    exact hold

/-- The watch subscribes. -/
theorem OK.subscribe (hs : s.OK h) (hc : h.connect = some h') :
    ({ s with feed := s.feed.step h.table .subscribe } : Seat).OK h' := by
  have hok : (⟨h', s.feed.step h.table .subscribe, s.delivered⟩ : Stitch).OK := by
    have hok := Stitch.ok_feed hs.stitch .subscribe
    rw [Stitch.step_subscribe_some (x := s.stitch h) hc] at hok
    exact hok
  by_cases hnew : s.feed.stage = .new
  · have hstep := Feed.step_subscribe_new (t := h.table) hnew
    have hahead := hs.unlisted fun L => by rw [hnew]; simp
    refine ⟨hok, ?_, ?_, ?_, ?_⟩ <;> rw [hstep]
    · simp
    · exact fun _ => hahead
    · simp
    · simp
  · have hstep := Feed.step_subscribe_of_ne (t := h.table) hnew
    rw [hstep] at hok ⊢
    exact ⟨hok, hs.fresh, hs.unlisted, hs.listed, hs.cutoff⟩

theorem step_list {t : Kine} (hsub : s.feed.stage = .subscribed) :
    s.step t (.feed .list) = { s with feed := s.feed.list t, found := t.rows } := by
  show ({ s with feed := s.feed.list t, found := ite _ _ _ } : Seat) = _
  rw [if_pos hsub]

theorem step_list_of_ne {t : Kine} (hsub : s.feed.stage ≠ .subscribed) : s.step t (.feed .list) = s := by
  have hsame : s.feed.list t = s.feed := by
    unfold Feed.list
    split
    · rename_i h
      exact absurd h hsub
    · rfl
  show ({ s with feed := s.feed.list t, found := ite _ _ _ } : Seat) = s
  rw [if_neg hsub, hsame]

theorem step_subscribe_of_ne {t : Kine} (hnew : s.feed.stage ≠ .new) : s.step t (.feed .subscribe) = s := by
  show ({ s with feed := s.feed.step t .subscribe } : Seat) = s
  rw [Feed.step_subscribe_of_ne hnew]

/-- **The backlog query.** -/
theorem OK.list (hs : s.OK h) : (s.step h.table (.feed .list)).OK h := by
  have hok : (⟨h, s.feed.list h.table, s.delivered⟩ : Stitch).OK := Stitch.ok_feed hs.stitch .list
  by_cases hsub : s.feed.stage = .subscribed
  · have hlike : Feed.Alike (s.feed.list h.table) s.feed := s.feed.alike_step h.table .list
    have hahead := hs.unlisted fun L => by rw [hsub]; simp
    have hnone : s.delivered = [] := by
      refine hs.stitch.early fun L hL => ?_
      have hL : s.feed.stage = .listed L := hL
      rw [hsub] at hL
      simp at hL
    rw [step_list hsub]
    have hfeed : s.feed.OK h.table := hs.stitch.feed
    rcases Feed.list_cases hfeed hsub with hrefused | ⟨L, hL, hunread, hahead', -, hcut⟩
    · refine ⟨hok, ?_, ?_, ?_, ?_⟩ <;> rw [hrefused]
      · simp
      · exact fun _ => hahead
      · simp
      · simp
    · have hstage : ∀ L', (s.feed.list h.table).stage = .listed L' → L' = L := by
        intro L' h'
        exact (FeedStage.listed.inj (hL.symm.trans h')).symm
      have hback : ({ s with feed := s.feed.list h.table, found := h.table.rows } : Seat).backlog =
          (h.table.rows.filter s.feed.selects).map Row.event := by
        unfold backlog
        rw [hlike.selects]
      refine ⟨hok, fun hnew => ?_, fun hne => absurd hL (hne L), fun L' hL' => ?_, fun L' hL' => ?_⟩
      · have hnew : (s.feed.list h.table).stage = .new := hnew
        rw [hL] at hnew
        simp at hnew
      · obtain rfl := hstage L' hL'
        rw [hback]
        show (s.feed.list h.table).carried s.delivered L' =
          _ ++ (s.sent.flatMap (s.feed.list h.table).kept).filter _
        unfold Feed.carried
        rw [hnone, hunread, hahead', hahead, hlike.kept, List.nil_append]
      · obtain rfl := hstage L' hL'
        rw [hback]
        show _ ∧ (∃ z ∈ h.table.rows, z.id = L') ∧ (∀ z ∈ h.table.rows, z.id ≤ L') ∨
          _ ∧ L' = (s.feed.list h.table).after
        rw [hlike.after]
        rcases hcut with ⟨hne, rfl⟩ | ⟨hnil, rfl⟩
        · obtain ⟨z, hz⟩ := List.exists_mem_of_ne_nil _ hne
          refine .inl ⟨by simpa using hne, exists_currentRev (List.mem_of_mem_filter hz), fun z hz => ?_⟩
          exact id_le_currentRev hz
        · exact .inr ⟨by rw [hnil]; rfl, rfl⟩
  · rw [step_list_of_ne hsub]
    exact hs

theorem OK.read (hs : s.OK h) : (s.step h.table .read).OK h := by
  have hok := Stitch.ok_read hs.stitch
  unfold step
  cases hres : s.feed.result with
  | nil => exact hs
  | cons events result =>
    rw [Stitch.step_read_cons (x := s.stitch h) hres] at hok
    refine ⟨hok, hs.fresh, hs.unlisted, fun L hL => ?_, hs.cutoff⟩
    show ({ s.feed with result := result } : Feed).carried (s.delivered ++ events) L = _
    rw [Feed.carried_read hres]
    exact hs.listed L hL

/-- **Every step of a watch keeps this.** -/
theorem OK.step (hs : s.OK h) {a : SeatAct} (hj : Twin.joins h a = some h') : (s.step h.table a).OK h' := by
  cases a with
  | read =>
    obtain rfl : h = h' := Option.some.inj hj
    exact hs.read
  | feed a =>
    cases a with
    | subscribe => exact hs.subscribe hj
    | list =>
      obtain rfl : h = h' := Option.some.inj hj
      exact hs.list
    | _ =>
      obtain rfl : h = h' := Option.some.inj hj
      exact hs.moves rfl

/-- A step of the watch sends nothing to it and does not change its request. -/
theorem step_alike (s : Seat) (t : Kine) (a : SeatAct) :
    Feed.Alike (s.step t a).feed s.feed ∧ (s.step t a).sent = s.sent := by
  cases a with
  | feed a =>
    have hlike := s.feed.alike_step t a
    cases a <;> exact ⟨hlike, rfl⟩
  | read =>
    unfold step
    cases s.feed.result <;> exact ⟨⟨rfl, rfl, rfl, rfl⟩, rfl⟩

/-- Only `subscribe` and `list` change how far the watch has got. -/
theorem step_frame (s : Seat) (t : Kine) {a : SeatAct} (hsub : a ≠ .feed .subscribe) (hlist : a ≠ .feed .list) :
    (s.step t a).feed.stage = s.feed.stage ∧ (s.step t a).found = s.found := by
  cases a with
  | feed a =>
    cases a with
    | subscribe => exact absurd rfl hsub
    | list => exact absurd rfl hlist
    | _ => exact ⟨(s.feed.step_frame t rfl).1, rfl⟩
  | read =>
    unfold step
    cases s.feed.result <;> exact ⟨rfl, rfl⟩

end Seat

end Harikube
