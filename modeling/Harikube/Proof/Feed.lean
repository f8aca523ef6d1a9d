import Harikube.Proof.Poll
import Harikube.Spec.Feed

/-!
# The stream of a watch

What a watch has handed to its reader, what its goroutines and channels hold and what the
broadcaster is about to give it make one stream of events, in this order. The goroutines
only move events along.

* `stream_step`: a step of the goroutines leaves the wanted events of the stream as they are.
* `stream_list`: the backlog query puts the wanted rows of the table into the stream.
* `stream_advance`: **what the poll loop passes is what the stream gains.**
* `upTo_place`: a row that becomes visible behind the stream changes what the stream should
  be, and no other row does.
-/

namespace Harikube

open Kine

namespace Feed

variable {f : Feed} {t t' : Kine} {L : ℤ} {out : List Event} {tr : List Batch}

/-- What is behind the filter of `LogStructured` and not yet read. -/
def unread (f : Feed) : List Event := f.result.flatten ++ f.forwarded.getD []

/-- What is before that filter, the batches `tr` of the broadcaster included. -/
def unforwarded (f : Feed) (tr : List Batch) : List Event :=
  f.res.flatten ++ (f.filtered.getD [] ++ (f.sub ++ tr).flatMap List.reduceOption)

/-- The wanted events of the stream of a watch that has been listed up to `L`, behind `out`. -/
def stream (f : Feed) (out : List Event) (tr : List Batch) (L : ℤ) : List Event :=
  (out ++ f.unread).filter f.wants ++ ((f.unforwarded tr).filter f.wants).filter fun e => L < e.kv.modRevision

/-- The wanted events of the rows up to a revision. -/
def upTo (f : Feed) (t : Kine) (m : ℤ) : List Event :=
  ((t.rows.filter fun x => x.id ≤ m).map Row.event).filter f.wants

/-- The events that the watch holds before it forwards them are events of the table; it
forwards nothing before it has listed; it stays subscribed. -/
structure OK (f : Feed) (t : Kine) : Prop where
  res : ∀ l ∈ f.res, t.Seen l
  filtered : ∀ l, f.filtered = some l → t.Seen l
  sub : ∀ b ∈ f.sub, t.Seen b.reduceOption
  early : (∀ L, f.stage ≠ .listed L) → f.forwarded = none ∧ f.result = []

theorem ok_new (t : Kine) (key rangeEnd : Bytes) (start : ℤ) (selected : KeyValue → Bool) :
    (new key rangeEnd start selected).OK t :=
  ⟨fun _ h => absurd h List.not_mem_nil, fun _ h => by simp [new] at h, fun _ h => absurd h List.not_mem_nil,
    fun _ => ⟨rfl, rfl⟩⟩

theorem OK.place (hok : f.OK t) {x : Row} (ht : t.place x = some t') : f.OK t' :=
  ⟨fun l hl => (hok.res l hl).place ht, fun l hl => (hok.filtered l hl).place ht,
    fun b hb => (hok.sub b hb).place ht, hok.early⟩

/-! ## The filters -/

/-- A wanted event is in the range of the watch. -/
theorem inRange_of_watched {key rangeEnd k : Bytes} (h : watched key rangeEnd k = true) :
    inRange key rangeEnd k = true := by
  unfold watched between at h
  unfold inRange
  split at h
  · rename_i hk
    simp [hk]
  · split at h
    · rename_i hk he
      have hkey : k = key := of_decide_eq_true h
      simp [hkey]
    · rename_i hk he
      rw [Bool.and_eq_true] at h
      simp [h.1, h.2, he]

/-- The filter of the SQL log keeps the wanted events. -/
theorem filter_sqlFilter (f : Feed) (b : Batch) :
    (SqlLog.filter f.selected f.key f.rangeEnd b).filter f.wants = b.reduceOption.filter f.wants := by
  have hkeep : ∀ e : Event, f.wants e = true → Event.inRange (some e) f.key f.rangeEnd = true ∧
      (f.selected e.kv || e.prevKV.any f.selected) = true := by
    intro e he
    unfold wants at he
    simp only [Bool.and_eq_true] at he
    exact ⟨inRange_of_watched he.1.1.2, he.2⟩
  -- both ways of filtering drop only events that are not wanted
  have hgen : ∀ p : Option Event → Bool, (∀ e, f.wants e = true → p (some e) = true) →
      (b.filterMap fun e => if p e then e else none).filter f.wants = b.reduceOption.filter f.wants := by
    intro p hp
    unfold List.reduceOption
    rw [List.filter_filterMap, List.filter_filterMap]
    apply List.filterMap_congr
    intro e _
    cases e with
    | none => simp
    | some e =>
      by_cases hw : f.wants e = true
      · simp [hp e hw]
      · cases hpe : p (some e) <;> simp [Option.filter, hw]
  unfold SqlLog.filter
  split
  · exact hgen _ fun e he => (hkeep e he).1
  · refine hgen _ fun e he => ?_
    rw [Bool.and_eq_true]
    exact ⟨(hkeep e he).1, (hkeep e he).2⟩

theorem sqlFilter_sublist (selected : KeyValue → Bool) (key rangeEnd : Bytes) (b : Batch) :
    (SqlLog.filter selected key rangeEnd b).Sublist b.reduceOption := by
  have hgen : ∀ p : Option Event → Bool,
      (b.filterMap fun e => if p e then e else none).Sublist b.reduceOption := by
    intro p
    induction b with
    | nil => exact .slnil
    | cons e b ih =>
      cases e with
      | none =>
        rw [List.filterMap_cons_none (by split <;> rfl), List.reduceOption_cons_of_none]
        exact ih
      | some e =>
        rw [List.reduceOption_cons_of_some]
        cases hpe : p (some e) with
        | true =>
          rw [List.filterMap_cons_some (by rw [hpe]; rfl)]
          exact ih.cons_cons e
        | false =>
          rw [List.filterMap_cons_none (by rw [hpe]; rfl)]
          exact ih.cons e
  unfold SqlLog.filter
  split <;> exact hgen _

/-- The filter of `LogStructured` on a batch in the order of revisions. -/
theorem filter_eq {events : List Event}
    (hs : events.Pairwise fun e e' => e.kv.modRevision < e'.kv.modRevision) (rev : ℤ) :
    LogStructured.filter events rev = events.filter fun e => rev < e.kv.modRevision := by
  unfold LogStructured.filter
  rw [Sorted.dropWhile_eq_filter (fun e : Event => e.kv.modRevision) _ hs]
  · apply List.filter_congr
    intro e _
    rw [Sorted.decide_lt_eq_not]
  · intro e _ e' _ hlt hle
    simp only [decide_eq_true_eq] at hle ⊢
    omega

/-! ## The goroutines -/

/-- A step of the goroutines behind the subscription. -/
def moves : FeedAct → Bool
  | .subscribe => false
  | .list => false
  | _ => true

/-- What a step does not touch. -/
theorem step_frame (f : Feed) (t : Kine) {a : FeedAct} (ha : moves a = true) :
    (f.step t a).stage = f.stage ∧ (f.step t a).wants = f.wants ∧ (f.step t a).inSubs = f.inSubs ∧
      (f.step t a).dropped = f.dropped := by
  cases a with
  | subscribe => exact absurd ha Bool.false_ne_true
  | list => exact absurd ha Bool.false_ne_true
  | filter =>
    show f.filter.stage = _ ∧ f.filter.wants = _ ∧ f.filter.inSubs = _ ∧ f.filter.dropped = _
    unfold filter
    split <;> exact ⟨rfl, rfl, rfl, rfl⟩
  | send =>
    show f.send.stage = _ ∧ f.send.wants = _ ∧ f.send.inSubs = _ ∧ f.send.dropped = _
    unfold send
    split
    · split <;> exact ⟨rfl, rfl, rfl, rfl⟩
    · exact ⟨rfl, rfl, rfl, rfl⟩
  | forward =>
    show f.forward.stage = _ ∧ f.forward.wants = _ ∧ f.forward.inSubs = _ ∧ f.forward.dropped = _
    unfold forward
    split <;> exact ⟨rfl, rfl, rfl, rfl⟩
  | deliver =>
    show f.deliver.stage = _ ∧ f.deliver.wants = _ ∧ f.deliver.inSubs = _ ∧ f.deliver.dropped = _
    unfold deliver
    split
    · split <;> exact ⟨rfl, rfl, rfl, rfl⟩
    · exact ⟨rfl, rfl, rfl, rfl⟩

theorem filter_ok (hok : f.OK t) (tr : List Batch) : f.filter.OK t ∧ f.filter.unread = f.unread ∧
    (f.filter.unforwarded tr).filter f.wants = (f.unforwarded tr).filter f.wants := by
  unfold filter
  split
  · rename_i b sub hsub hnone
    have hb := hok.sub b (by rw [hsub]; exact List.mem_cons_self)
    refine ⟨⟨hok.res, fun l hl => ?_, fun c hc => hok.sub c (by rw [hsub]; exact List.mem_cons_of_mem _ hc),
      hok.early⟩, rfl, ?_⟩
    · simp only at hl
      split at hl
      · rw [← Option.some.inj hl]
        exact hb.sublist (sqlFilter_sublist _ _ _ _)
      · simp at hl
    · have hget : (if SqlLog.filter f.selected f.key f.rangeEnd b ≠ [] then
          some (SqlLog.filter f.selected f.key f.rangeEnd b) else none).getD [] =
          SqlLog.filter f.selected f.key f.rangeEnd b := by
        by_cases hne : SqlLog.filter f.selected f.key f.rangeEnd b = []
        · simp [hne]
        · simp [hne]
      unfold unforwarded
      rw [hsub, hnone]
      simp only [hget, List.cons_append, List.flatMap_cons, Option.getD_none, List.nil_append,
        List.filter_append, filter_sqlFilter]
  · exact ⟨hok, rfl, rfl⟩

theorem send_ok (hok : f.OK t) (tr : List Batch) : f.send.OK t ∧ f.send.unread = f.unread ∧
    f.send.unforwarded tr = f.unforwarded tr := by
  unfold send
  split
  · rename_i events hsome
    split
    · refine ⟨⟨fun l hl => ?_, fun l hl => by simp at hl, hok.sub, hok.early⟩, rfl, ?_⟩
      · rcases List.mem_append.1 hl with hl | hl
        · exact hok.res l hl
        · rw [List.mem_singleton.1 hl]
          exact hok.filtered events hsome
      · unfold unforwarded
        rw [hsome]
        simp
    · exact ⟨hok, rfl, rfl⟩
  · exact ⟨hok, rfl, rfl⟩

theorem forward_ok (hok : f.OK t) (hL : f.stage = .listed L) (out : List Event) (tr : List Batch) :
    f.forward.OK t ∧ f.forward.stream out tr L = f.stream out tr L := by
  unfold forward
  split
  · rename_i lastRevision events res hstage hres hnone
    obtain rfl := FeedStage.listed.inj (hL.symm.trans hstage)
    have hseen := hok.res events (by rw [hres]; exact List.mem_cons_self)
    refine ⟨⟨fun l hl => hok.res l (by rw [hres]; exact List.mem_cons_of_mem _ hl), hok.filtered, hok.sub,
      fun h => absurd hL (h L)⟩, ?_⟩
    have hwants : ({ f with res := res, forwarded := some (LogStructured.filter events L) } : Feed).wants =
      f.wants := rfl
    unfold stream unread unforwarded
    rw [hwants, hnone, hres, filter_eq hseen.1]
    simp only [Option.getD_some, Option.getD_none, List.flatten_cons, List.filter_append, List.append_nil,
      List.append_assoc, List.filter_filter, Bool.and_comm]
  · exact ⟨hok, rfl⟩

theorem deliver_ok (hok : f.OK t) (tr : List Batch) : f.deliver.OK t ∧ f.deliver.unread = f.unread ∧
    f.deliver.unforwarded tr = f.unforwarded tr := by
  unfold deliver
  split
  · rename_i events hsome
    split
    · refine ⟨⟨hok.res, hok.filtered, hok.sub, fun h => ?_⟩, ?_, rfl⟩
      · rw [(hok.early h).1] at hsome
        simp at hsome
      · unfold unread
        rw [hsome]
        simp
    · exact ⟨hok, rfl, rfl⟩
  · exact ⟨hok, rfl, rfl⟩

theorem step_ok (hok : f.OK t) {a : FeedAct} (ha : moves a = true) : (f.step t a).OK t := by
  cases a with
  | subscribe => exact absurd ha Bool.false_ne_true
  | list => exact absurd ha Bool.false_ne_true
  | filter => exact (filter_ok hok []).1
  | send => exact (send_ok hok []).1
  | forward =>
    by_cases hL : ∃ L, f.stage = .listed L
    · obtain ⟨L, hL⟩ := hL
      exact (forward_ok hok hL [] []).1
    · show f.forward.OK t
      unfold forward
      split
      · rename_i L events res hstage _ _
        exact absurd ⟨L, hstage⟩ hL
      · exact hok
  | deliver => exact (deliver_ok hok []).1

/-- **The goroutines only move events along.** -/
theorem stream_step (hok : f.OK t) (hL : f.stage = .listed L) {a : FeedAct} (ha : moves a = true) :
    (f.step t a).stream out tr L = f.stream out tr L := by
  have hwants := (f.step_frame t ha).2.1
  cases a with
  | subscribe => exact absurd ha Bool.false_ne_true
  | list => exact absurd ha Bool.false_ne_true
  | filter =>
    obtain ⟨-, hun, hfw⟩ := filter_ok hok tr
    unfold stream
    rw [hwants]
    show (out ++ f.filter.unread).filter _ ++ ((f.filter.unforwarded tr).filter _).filter _ = _
    rw [hun, hfw]
  | send =>
    obtain ⟨-, hun, hfw⟩ := send_ok hok tr
    unfold stream
    rw [hwants]
    show (out ++ f.send.unread).filter _ ++ ((f.send.unforwarded tr).filter _).filter _ = _
    rw [hun, hfw]
  | forward => exact (forward_ok hok hL out tr).2
  | deliver =>
    obtain ⟨-, hun, hfw⟩ := deliver_ok hok tr
    unfold stream
    rw [hwants]
    show (out ++ f.deliver.unread).filter _ ++ ((f.deliver.unforwarded tr).filter _).filter _ = _
    rw [hun, hfw]

/-- The reader takes a batch off the result. -/
theorem stream_read {events : List Event} {result : List (List Event)} (hres : f.result = events :: result) :
    ({ f with result := result } : Feed).stream (out ++ events) tr L = f.stream out tr L := by
  have hunread : events ++ ({ f with result := result } : Feed).unread = f.unread := by
    unfold unread
    rw [hres, List.flatten_cons, List.append_assoc]
  unfold stream
  rw [← hunread, List.append_assoc]
  rfl

/-! ## The broadcaster and the poll loop -/

/-- A batch that the subscriber has room for. -/
theorem fanout_ok (hok : f.OK t) {b : Batch} (hb : t.Seen b.reduceOption) (hin : f.inSubs = true)
    (hroom : f.sub.length < capacity) (out : List Event) (tr : List Batch) (L : ℤ) :
    (f.fanout b).OK t ∧ (f.fanout b).stage = f.stage ∧ (f.fanout b).inSubs = true ∧
      (f.fanout b).stream out tr L = f.stream out (b :: tr) L := by
  unfold fanout
  rw [if_neg (by simp [hin]), if_pos hroom]
  refine ⟨⟨hok.res, hok.filtered, fun c hc => ?_, hok.early⟩, rfl, hin, ?_⟩
  · rcases List.mem_append.1 hc with hc | hc
    · exact hok.sub c hc
    · rw [List.mem_singleton.1 hc]
      exact hb
  · unfold stream unforwarded
    simp only [List.append_assoc, List.cons_append, List.nil_append]
    rfl

theorem upTo_append (f : Feed) (t : Kine) {a b : ℤ} (hab : a ≤ b) :
    f.upTo t b = f.upTo t a ++ ((t.rows.filter fun x => a < x.id ∧ x.id ≤ b).map Row.event).filter f.wants := by
  have hsplit := Sorted.filter_le_append_filter_lt Row.id a (t.sorted.filter fun x => x.id ≤ b)
  rw [List.filter_filter, List.filter_filter] at hsplit
  have hlow : (t.rows.filter fun x => decide (x.id ≤ a) && decide (x.id ≤ b)) =
      t.rows.filter fun x => x.id ≤ a := by
    apply List.filter_congr
    intro x _
    rw [← Bool.decide_and, decide_eq_decide]
    omega
  have hhigh : (t.rows.filter fun x => decide (a < x.id) && decide (x.id ≤ b)) =
      t.rows.filter fun x => a < x.id ∧ x.id ≤ b := by
    apply List.filter_congr
    intro x _
    rw [Bool.decide_and]
  rw [hlow, hhigh] at hsplit
  unfold upTo
  rw [← hsplit, List.map_append, List.filter_append]

/-- The wanted events of what the poll loop passes: no fill row is wanted. -/
theorem filter_passed (f : Feed) (t : Kine) (a b : ℤ) :
    (t.passed a b).filter f.wants =
      ((t.rows.filter fun x => a < x.id ∧ x.id ≤ b).map Row.event).filter f.wants := by
  unfold passed
  rw [List.filter_map, List.filter_map, List.filter_filter]
  congr 1
  apply List.filter_congr
  intro x _
  cases hf : isFill x.name with
  | false => simp
  | true => simp [wants, hf]

/-- **What the poll loop passes is what the stream gains.** -/
theorem stream_advance {h h' : Hub} (hadv : Hub.Advance h h')
    (hflow : f.stream out h.transit L = f.upTo h.table (max h.pollRevision L)) :
    f.stream out h'.transit L = f.upTo h'.table (max h'.pollRevision L) := by
  obtain ⟨htable, ⟨hrev, htr⟩ | ⟨r, hr, hrev, htr⟩⟩ := hadv
  · rw [htable, hrev, htr]
    exact hflow
  · have hgain : f.stream out h'.transit L = f.stream out h.transit L ++
        ((h.table.passed h.pollRevision r.rev).filter f.wants).filter fun e => L < e.kv.modRevision := by
      unfold stream unforwarded
      rw [htr, ← hr.batch]
      simp only [List.flatMap_append, List.filter_append, List.append_assoc, List.flatMap_cons,
        List.flatMap_nil, List.append_nil]
    have hle := hr.le
    rw [hgain, htable, hrev, hflow,
      f.upTo_append h.table (show max h.pollRevision L ≤ max r.rev L by omega), filter_passed]
    congr 1
    rw [List.filter_filter, List.filter_map, List.filter_map, List.filter_filter, List.filter_filter]
    congr 1
    apply List.filter_congr
    intro x _
    -- above both bounds and up to the larger of the new ones
    rw [Bool.eq_iff_iff]
    simp only [Function.comp, Bool.and_eq_true, decide_eq_true_eq, Row.event_modRevision]
    constructor
    · rintro ⟨⟨hL, hw⟩, hlow, hhigh⟩
      have hL : L < x.id := of_decide_eq_true hL
      exact ⟨hw, by omega, by omega⟩
    · rintro ⟨hw, hlow, hhigh⟩
      exact ⟨⟨decide_eq_true (show L < x.id by omega), hw⟩, by omega, by omega⟩

/-! ## The backlog -/

/-- The wanted events of the backlog query are those of the table. -/
theorem filter_backlog (f : Feed) (t : Kine) :
    ((t.after f.key f.rangeEnd f.after 0).map Row.event).filter f.wants = (t.rows.map Row.event).filter f.wants := by
  unfold Kine.after Mvcc.firstN
  rw [if_neg (lt_irrefl 0), List.filter_map, List.filter_map, List.filter_filter]
  congr 1
  apply List.filter_congr
  intro x _
  by_cases hw : f.wants x.event = true
  · have hparts := hw
    unfold wants watched at hparts
    simp only [Bool.and_eq_true, Row.event_key, Row.event_modRevision] at hparts
    simp only [Function.comp, hw, Bool.true_and, Bool.and_eq_true]
    exact ⟨hparts.1.2, hparts.1.1.2⟩
  · simp [hw]

theorem mem_unforwarded (hok : f.OK t) (htr : ∀ b ∈ tr, t.Seen b.reduceOption) {e : Event}
    (he : e ∈ f.unforwarded tr) : ∃ x ∈ t.rows, e = x.event := by
  unfold unforwarded at he
  rcases List.mem_append.1 he with he | he
  · obtain ⟨l, hl, hel⟩ := List.mem_flatten.1 he
    exact (hok.res l hl).2 e hel
  · rcases List.mem_append.1 he with he | he
    · cases hf : f.filtered with
      | none =>
        rw [hf] at he
        exact absurd he List.not_mem_nil
      | some l =>
        rw [hf] at he
        exact (hok.filtered l hf).2 e he
    · obtain ⟨b, hb, heb⟩ := List.mem_flatMap.1 he
      rcases List.mem_append.1 hb with hb | hb
      · exact (hok.sub b hb).2 e heb
      · exact (htr b hb).2 e heb

/-- The rows up to a bound of all their ids. -/
theorem upTo_all (f : Feed) {m : ℤ} (hm : ∀ x ∈ t.rows, x.id ≤ m) :
    f.upTo t m = (t.rows.map Row.event).filter f.wants := by
  unfold upTo
  rw [List.filter_eq_self.2 fun x hx => decide_eq_true (hm x hx)]

/-- The cut-off is the largest revision of the table if there is a backlog, and else the
revision that the backlog has been queried after. -/
theorem backlog_cases {kvs : List Event} (h : f.backlog t = some (L, kvs)) :
    kvs = (t.after f.key f.rangeEnd f.after 0).map Row.event ∧
      (kvs ≠ [] ∧ L = t.currentRev.getD 0 ∨ kvs = [] ∧ L = f.after) := by
  unfold backlog at h
  simp only at h
  split at h
  · rename_i hne
    split at h
    · simp at h
    · obtain ⟨rfl, rfl⟩ := Prod.mk.inj (Option.some.inj h)
      exact ⟨rfl, .inl ⟨hne, rfl⟩⟩
  · rename_i hempty
    have hnil : (t.after f.key f.rangeEnd f.after 0).map Row.event = [] := not_not.1 hempty
    rw [hnil]
    split at h
    · split at h
      · simp at h
      · split at h
        · simp at h
        · obtain ⟨rfl, rfl⟩ := Prod.mk.inj (Option.some.inj h)
          exact ⟨rfl, .inr ⟨rfl, rfl⟩⟩
    · obtain ⟨rfl, rfl⟩ := Prod.mk.inj (Option.some.inj h)
      exact ⟨rfl, .inr ⟨rfl, rfl⟩⟩

/-- **The backlog query puts the wanted rows of the table into the stream.** What is on its
way from the broadcaster is not wanted any more: the query has found it. -/
theorem stream_list (hok : f.OK t) (htr : ∀ b ∈ tr, t.Seen b.reduceOption) (hnew : f.stage = .subscribed)
    (rev : ℤ) :
    (f.list t).OK t ∧ (f.list t).inSubs = f.inSubs ∧
      ∀ L, (f.list t).stage = .listed L → (f.list t).stream [] tr L = (f.list t).upTo t (max rev L) := by
  obtain ⟨hfwd, hres⟩ := hok.early fun L => by rw [hnew]; simp
  unfold list
  rw [hnew]
  cases hback : f.backlog t with
  | none =>
    refine ⟨⟨hok.res, hok.filtered, hok.sub, fun _ => ⟨hfwd, hres⟩⟩, rfl, fun L hL => ?_⟩
    simp at hL
  | some p =>
    obtain ⟨L, kvs⟩ := p
    refine ⟨⟨hok.res, hok.filtered, hok.sub, fun h => absurd rfl (h L)⟩, rfl, fun L' hL' => ?_⟩
    obtain rfl := FeedStage.listed.inj hL'
    -- the cut-off is the largest id, or nothing in the table is wanted
    obtain ⟨hkvs, hlast⟩ := backlog_cases hback
    have hcut : (∀ x ∈ t.rows, x.id ≤ L) ∨ (t.rows.map Row.event).filter f.wants = [] := by
      rcases hlast with ⟨-, rfl⟩ | ⟨hnil, -⟩
      · exact .inl fun x hx => id_le_currentRev hx
      · rw [← filter_backlog, ← hkvs, hnil]
        exact .inr rfl
    subst hkvs
    have hrest : ((f.unforwarded tr).filter f.wants).filter (fun e => L < e.kv.modRevision) = [] := by
      rw [List.filter_filter, List.filter_eq_nil_iff]
      intro e he hboth
      obtain ⟨x, hx, rfl⟩ := mem_unforwarded hok htr he
      rw [Bool.and_eq_true] at hboth
      have hlt : L < x.id := of_decide_eq_true hboth.1
      rcases hcut with hle | hnone
      · exact absurd (hle x hx) (not_le.2 hlt)
      · rw [List.filter_eq_nil_iff] at hnone
        exact hnone _ (List.mem_map_of_mem hx) hboth.2
    have hup : f.upTo t (max rev L) = (t.rows.map Row.event).filter f.wants := by
      rcases hcut with hle | hnone
      · exact f.upTo_all fun x hx => (hle x hx).trans (le_max_right _ _)
      · rw [hnone]
        unfold upTo
        rw [List.filter_eq_nil_iff] at hnone ⊢
        intro e he
        obtain ⟨x, hx, rfl⟩ := List.mem_map.1 he
        exact hnone _ (List.mem_map_of_mem (List.mem_of_mem_filter hx))
    have hunread : ∀ kvs : List Event, f.result.flatten ++ (if kvs ≠ [] then some kvs else none).getD [] = kvs := by
      intro kvs
      rw [hres]
      by_cases h : kvs = [] <;> simp [h]
    show ([] ++ (f.result.flatten ++ _)).filter f.wants ++ ((f.unforwarded tr).filter f.wants).filter _ =
      f.upTo t (max rev L)
    rw [hunread, hrest, List.append_nil, List.nil_append, hup, filter_backlog]

theorem step_subscribe_new (hnew : f.stage = .new) :
    f.step t .subscribe = { f with stage := .subscribed, inSubs := true } := by
  simp only [step, hnew]

theorem step_subscribe_of_ne (hne : f.stage ≠ .new) : f.step t .subscribe = f := by
  unfold step
  cases hs : f.stage with
  | new => exact absurd hs hne
  | _ => rfl

theorem subscribe_ok (hok : f.OK t) : (f.step t .subscribe).OK t := by
  by_cases hnew : f.stage = .new
  · rw [step_subscribe_new hnew]
    exact ⟨hok.res, hok.filtered, hok.sub, fun _ => hok.early fun L => by rw [hnew]; simp⟩
  · rw [step_subscribe_of_ne hnew]
    exact hok

/-! ## Rows that become visible -/

theorem upTo_place (f : Feed) {x : Row} (ht : t.place x = some t') {m : ℤ} :
    f.upTo t' m = f.upTo t m ↔ (f.wants x.event = true → m < x.id) := by
  constructor
  · intro heq hw
    by_contra hle
    have hnew : x.event ∈ f.upTo t' m := by
      unfold upTo
      exact List.mem_filter.2 ⟨List.mem_map_of_mem (List.mem_filter.2
        ⟨(mem_place ht).2 (.inr rfl), decide_eq_true (not_lt.1 hle)⟩), hw⟩
    rw [heq] at hnew
    obtain ⟨y, hy, hyx⟩ := List.mem_map.1 (List.mem_of_mem_filter hnew)
    have hid : y.event.kv.modRevision = x.event.kv.modRevision := by rw [hyx]
    exact ((place_eq_some ht).1 y (List.mem_of_mem_filter hy)).1 hid
  · intro hx
    unfold upTo
    rw [List.filter_map, List.filter_map, List.filter_filter, List.filter_filter]
    congr 1
    refine filter_place ht ?_
    by_cases hw : f.wants x.event = true
    · simp [not_le.2 (hx hw)]
    · simp [hw]

end Feed

end Harikube
