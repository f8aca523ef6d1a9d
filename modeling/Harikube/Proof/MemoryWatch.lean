import Harikube.Lts.Run
import Harikube.Proof.MemoryRefine

/-!
# A watch on the Memory backend while the log is compacted

`Compact` cuts one log entry less than it advances `compactRevision` by, so after
`n` compactions the first entry has revision `compactRevision + 1 - n`
(`Refines.log_len`), while `logIndexAfter` still computes the index of a revision as
if it had `compactRevision + 1`.

* `Refines.log_drop`: the writes a pass scans are those above
  `max lastSeen compactRevision - n`.
* `log_index_iff`: the log always ends at the current revision without a gap, and
  **`logIndexAfter` finds the first entry above each revision exactly as long as no
  compaction has succeeded.**
* `watch_in_order_iff`: **a watch delivers the writes of its range from its start
  revision on, in order, once each and without passing one over, exactly if at each
  pass the writes of its range above that bound are those above `lastSeen`.**
-/

namespace Harikube

open Mvcc

/-- What an event says of the write it reports, its previous key-value aside. -/
def Event.write (e : Event) : Write := ⟨e.create, e.delete, e.kv⟩

theorem Mvcc.HistOK.getLast_rev {h : List Write} (hh : HistOK h) (hne : h ≠ []) :
    h.getLast?.map (fun w => w.kv.modRevision) = some (h.length : ℤ) := by
  obtain ⟨init, w, rfl⟩ := List.eq_nil_or_concat'  h |>.resolve_left hne
  have hw := hh.last
  unfold nextRev at hw
  simp [hw]

namespace Memory

/-! ## The system: a backend and one watch on it -/

/-- A backend with a watch, and for the statements the successful writes and the
number of successful compactions so far. -/
structure Watched where
  mem : Memory
  writes : List Write
  compactions : ℕ
  watcher : Watcher

/-- A call by any client, or a pass of the watch goroutine. -/
inductive Act
  | call (op : Op)
  | pass

namespace Watched

def step (x : Watched) : Act → Watched
  | .call op =>
    { x with
      mem := x.mem.step op
      writes := Mvcc.step x.writes op
      compactions := x.mem.countCompactions x.compactions op }
  | .pass => { x with watcher := x.mem.pass x.watcher }

/-- The system when a watch is opened after a sequence of calls. -/
def opened (ops : List Op) (w : Watcher) : Watched :=
  ⟨run ops, Mvcc.run ops, Memory.compactions ops, w⟩

def covers (x : Watched) (v : Write) : Bool := inRange x.watcher.key x.watcher.rangeEnd v.kv.key

/-- All writes in the watched range with revision at least `s`, in order. -/
def expected (s : ℤ) (x : Watched) : List Write :=
  x.writes.filter fun v => x.covers v && decide (s ≤ v.kv.modRevision)

/-- The concatenation of the batches sent so far. -/
def delivered (x : Watched) : List Write := x.watcher.delivered.map Event.write

/-- The events sent are the first of those expected, and the watch has not gone past
one it did not send. -/
def InOrder (s : ℤ) (x : Watched) : Prop :=
  x.delivered <+: x.expected s ∧
  ∀ v ∈ x.expected s, v.kv.modRevision ≤ x.watcher.lastSeen → v ∈ x.delivered

instance (s : ℤ) (x : Watched) : Decidable (InOrder s x) := inferInstanceAs (Decidable (_ ∧ _))

/-- The writes of the range above `max lastSeen compactRevision - compactions` are the
expected ones above `lastSeen`. -/
def IndexOK (s : ℤ) (x : Watched) : Prop :=
  ∀ v ∈ x.writes, x.covers v →
    (max x.watcher.lastSeen x.mem.compactRevision - x.compactions < v.kv.modRevision ↔
      x.watcher.lastSeen < v.kv.modRevision ∧ s ≤ v.kv.modRevision)

/-- What every reachable state keeps, whether or not the events are in order. -/
structure OK (s : ℤ) (x : Watched) : Prop where
  refines : Refines x.mem x.writes x.compactions
  sent : ∀ v ∈ x.delivered, v.kv.modRevision ≤ x.watcher.lastSeen ∧ v.kv.modRevision ≤ x.writes.length
  ahead : x.watcher.lastSeen ≤ x.writes.length ∨ x.watcher.lastSeen < s

end Watched

/-! ## One pass -/

variable {m : Memory} {h : List Write} {n : ℕ}

/-- The entries from `logIndexAfter(r)` on. -/
theorem Refines.log_drop (hR : Refines m h n) (r : ℤ) :
    (m.log.drop (m.logIndexAfter r)).map Entry.toWrite =
      h.filter fun v => max r m.compactRevision - n < v.kv.modRevision := by
  rw [List.map_drop, hR.log, List.drop_drop, hR.hist.drop_eq_filter]
  apply List.filter_congr
  intro v hv
  have hle := hR.hist.mem_le hv
  have hlen := hR.log_len
  have hn := hR.compactions_le
  have hc := hR.compact_le
  have hcur := hR.cur
  rw [decide_eq_decide]
  unfold logIndexAfter
  simp only
  split_ifs <;> omega

/-- Where a pass leaves `lastSeen`: at the last write, if it scanned anything. -/
theorem Refines.pass_lastSeen (hR : Refines m h n) (w : Watcher) :
    (m.pass w).lastSeen =
      if max w.lastSeen m.compactRevision - n < h.length then (h.length : ℤ) else w.lastSeen := by
  have hn := hR.compactions_le
  -- the scanned entries end with the last write of the history, if there are any
  have hlast : (m.log.drop (m.logIndexAfter w.lastSeen)).getLast?.map Entry.revision =
      (h.filter fun v => max w.lastSeen m.compactRevision - n < v.kv.modRevision).getLast?.map
        fun v => v.kv.modRevision := by
    rw [← hR.log_drop, List.getLast?_map, Option.map_map]
    rfl
  have hdrop := hR.hist.drop_eq_filter (max w.lastSeen m.compactRevision - n).toNat
  rw [Int.toNat_of_nonneg (by omega)] at hdrop
  unfold pass
  simp only
  rw [hlast, ← hdrop, List.getLast?_drop]
  by_cases hlt : max w.lastSeen m.compactRevision - n < h.length
  · rw [if_neg (by omega), if_pos hlt, hR.hist.getLast_rev (by rintro rfl; simp at hlt; omega)]
    rfl
  · rw [if_pos (by omega), if_neg hlt]
    rfl

/-! ## The index into the log -/

/-- The log holds consecutive revisions, and the last one is the current one. -/
def LogDense (m : Memory) : Prop :=
  ∀ (i : ℕ) (e : Entry), m.log[i]? = some e → e.revision = m.currentRevision - m.log.length + i + 1

/-- The index of the first log entry above `rev`, and the length of the log if there is none. -/
def firstAfter (m : Memory) (rev : ℤ) : ℕ := m.log.findIdx fun e => rev < e.revision

theorem Refines.log_dense (hR : Refines m h n) : m.LogDense := by
  intro i e he
  have hcur := hR.cur
  have hlen := hR.log_len
  have hn := hR.compactions_le
  have hw : (h.drop (h.length - m.log.length))[i]? = some e.toWrite := by
    rw [← hR.log, List.getElem?_map, he]
    rfl
  rw [List.getElem?_drop] at hw
  have hrev : e.revision = ((h.length - m.log.length + i : ℕ) : ℤ) + 1 := hR.hist.rev _ _ hw
  omega

/-- In a dense log the first entry above a revision is found by arithmetic on the current one. -/
theorem LogDense.firstAfter_eq (hm : m.LogDense) (rev : ℤ) :
    m.firstAfter rev = min (rev - (m.currentRevision - m.log.length)).toNat m.log.length := by
  have hat : ∀ (i : ℕ) (hi : i < m.log.length), m.log[i].revision =
      m.currentRevision - m.log.length + i + 1 := fun i hi => hm i _ (List.getElem?_eq_getElem hi)
  unfold firstAfter
  by_cases hall : (rev - (m.currentRevision - m.log.length)).toNat < m.log.length
  · rw [min_eq_left hall.le, List.findIdx_eq hall]
    have hhere := hat _ hall
    refine ⟨decide_eq_true (by omega), fun j hj => decide_eq_false ?_⟩
    have hbefore := hat j (hj.trans hall)
    omega
  · rw [min_eq_right (by omega), List.findIdx_eq_length]
    intro e he
    obtain ⟨i, hi, rfl⟩ := List.getElem_of_mem he
    have hlast := hat i hi
    exact decide_eq_false (by omega)

/-- **The log and its index.** After any calls the log holds consecutive revisions up to the
current one. The computed index is the one of the first entry above the revision, for every
revision, if and only if none of the compactions has succeeded. -/
theorem log_index_iff (ops : List Op) :
    (run ops).LogDense ∧
      ((∀ rev : ℤ, (run ops).logIndexAfter rev = (run ops).firstAfter rev) ↔ compactions ops = 0) := by
  have hR := run_refines ops
  have hdense := hR.log_dense
  have hcur := hR.cur
  have hlen := hR.log_len
  have hn := hR.compactions_le
  have hle := hR.compact_le
  refine ⟨hdense, fun hindex => ?_, fun hzero rev => ?_⟩
  · -- at the compact revision the computed index is zero, and the log starts that much too early
    have hat := hindex (run ops).compactRevision
    rw [hdense.firstAfter_eq] at hat
    unfold logIndexAfter at hat
    simp only [sub_self, lt_irrefl, if_false] at hat
    split_ifs at hat <;> omega
  · rw [hdense.firstAfter_eq]
    unfold logIndexAfter
    simp only
    split_ifs <;> omega

/-- After one write and a compaction to it, the index behind the write is that of the write. -/
theorem log_index_behind :
    let m := run [.create (ascii "/a") [] 0, .compact 1]
    m.currentRevision = 1 ∧ m.log.map Entry.revision = [1] ∧ m.logIndexAfter 1 = 0 ∧ m.firstAfter 1 = 1 := by
  decide

namespace Watched

variable {x : Watched} {s : ℤ}

/-- What a pass sends. -/
theorem delivered_pass (hx : OK s x) :
    (x.step .pass).delivered = x.delivered ++ x.writes.filter fun v =>
      x.covers v && decide (max x.watcher.lastSeen x.mem.compactRevision - x.compactions < v.kv.modRevision) := by
  have hscan := hx.refines.log_drop x.watcher.lastSeen
  show ((x.watcher.delivered ++ _).map Event.write) = _
  rw [List.map_append, List.map_map]
  have hfun : Event.write ∘ Entry.event = Entry.toWrite := rfl
  rw [hfun]
  have hmap : ∀ l : List Entry,
      (l.filter fun e => inRange x.watcher.key x.watcher.rangeEnd e.key).map Entry.toWrite =
        (l.map Entry.toWrite).filter x.covers := by
    intro l
    rw [List.filter_map]
    rfl
  rw [hmap, hscan, List.filter_filter]
  rfl

theorem lastSeen_pass (hx : OK s x) :
    (x.step .pass).watcher.lastSeen =
      if max x.watcher.lastSeen x.mem.compactRevision - x.compactions < x.writes.length
        then (x.writes.length : ℤ) else x.watcher.lastSeen :=
  hx.refines.pass_lastSeen x.watcher

theorem OK.step (hx : OK s x) (a : Act) : OK s (x.step a) := by
  cases a with
  | call op =>
    have hlen : (x.writes.length : ℤ) ≤ (Mvcc.step x.writes op).length := by
      rcases step_cases x.writes op with hs | ⟨w, -, hs⟩
      · rw [hs]
      · rw [hs]
        simp
    refine ⟨step_refines hx.refines op, fun v hv => ?_, ?_⟩
    · have hsent := hx.sent v hv
      exact ⟨hsent.1, hsent.2.trans hlen⟩
    · rcases hx.ahead with hl | hl
      · exact Or.inl (hl.trans hlen)
      · exact Or.inr hl
  | pass =>
    have hseen := lastSeen_pass hx
    refine ⟨hx.refines, fun v hv => ?_, ?_⟩
    · rw [delivered_pass hx, List.mem_append] at hv
      rw [hseen]
      show _ ∧ _ ≤ (x.writes.length : ℤ)
      rcases hv with hv | hv
      · have hsent := hx.sent v hv
        split_ifs <;> exact ⟨by omega, hsent.2⟩
      · simp only [List.mem_filter, Bool.and_eq_true, decide_eq_true_eq] at hv
        have hle := hx.refines.hist.mem_le hv.1
        rw [if_pos (by omega)]
        exact ⟨hle.2, hle.2⟩
    · rw [hseen]
      show _ ≤ (x.writes.length : ℤ) ∨ _
      split_ifs
      · exact Or.inl le_rfl
      · exact hx.ahead

/-! ## Order -/

theorem OK.expected_sorted (hx : OK s x) :
    (x.expected s).Pairwise fun a b => a.kv.modRevision < b.kv.modRevision :=
  hx.refines.hist.sorted.filter _

/-- In order means: sent is what is expected up to `lastSeen`. -/
theorem inOrder_iff_seen (hx : OK s x) :
    InOrder s x ↔
      x.delivered = (x.expected s).filter fun v => v.kv.modRevision ≤ x.watcher.lastSeen := by
  have hsorted := hx.expected_sorted
  constructor
  · rintro ⟨⟨rest, hrest⟩, hpassed⟩
    rw [← hrest] at hsorted hpassed ⊢
    rw [List.pairwise_append] at hsorted
    have hsent : x.delivered.filter (fun v => v.kv.modRevision ≤ x.watcher.lastSeen) = x.delivered :=
      List.filter_eq_self.2 fun v hv => decide_eq_true (hx.sent v hv).1
    -- an expected event after the sent ones is above `lastSeen`: else it was sent before itself
    have hrest0 : rest.filter (fun v => v.kv.modRevision ≤ x.watcher.lastSeen) = [] := by
      rw [List.filter_eq_nil_iff]
      intro v hv hle
      have hmem := hpassed v (List.mem_append_right _ hv) (of_decide_eq_true hle)
      exact lt_irrefl _ (hsorted.2.2 v hmem v hv)
    rw [List.filter_append, hsent, hrest0, List.append_nil]
  · intro heq
    refine ⟨?_, fun v hv hle => ?_⟩
    · rw [heq]
      exact ⟨_, Sorted.filter_le_append_filter_lt (fun v : Write => v.kv.modRevision) _ hsorted⟩
    · rw [heq]
      exact List.mem_filter.2 ⟨hv, decide_eq_true hle⟩

/-- A call by a client changes nothing in what is expected up to `lastSeen`. -/
theorem inOrder_call (hx : OK s x) (op : Op) : InOrder s (x.step (.call op)) ↔ InOrder s x := by
  rw [inOrder_iff_seen (hx.step _), inOrder_iff_seen hx]
  suffices hsame : ((x.step (.call op)).expected s).filter (fun v => v.kv.modRevision ≤ x.watcher.lastSeen) =
      (x.expected s).filter fun v => v.kv.modRevision ≤ x.watcher.lastSeen by
    show x.delivered = List.filter (fun v => v.kv.modRevision ≤ x.watcher.lastSeen) _ ↔ _
    rw [hsame]
  show ((Mvcc.step x.writes op).filter _).filter _ = (x.writes.filter _).filter _
  rcases step_cases x.writes op with hs | ⟨w, hw, hs⟩
  · rw [hs]
    rfl
  · rw [hs, List.filter_append, List.filter_append]
    have hlast : ((([w].filter fun v => x.covers v && decide (s ≤ v.kv.modRevision))).filter
        fun v => v.kv.modRevision ≤ x.watcher.lastSeen) = [] := by
      unfold nextRev at hw
      rw [List.filter_filter, List.filter_eq_nil_iff]
      intro v hv
      rw [List.mem_singleton.1 hv]
      have hahead := hx.ahead
      simp only [Bool.and_eq_true, decide_eq_true_eq]
      rintro ⟨hle, -, hge⟩
      omega
    exact (congrArg _ hlast).trans (List.append_nil _)

/-- A pass that scans nothing has its index right: nothing is left above `lastSeen`. -/
theorem indexOK_of_idle (hx : OK s x)
    (hidle : ¬ max x.watcher.lastSeen x.mem.compactRevision - x.compactions < x.writes.length) :
    IndexOK s x := by
  intro v hv _
  have hle := hx.refines.hist.mem_le hv
  have hcur := hx.refines.cur
  have hcl := hx.refines.compact_le
  have hpos := hx.refines.compactions_pos
  omega

/-- **A pass keeps the events in order exactly if its index is right.** -/
theorem inOrder_pass (hx : OK s x) (hin : InOrder s x) :
    InOrder s (x.step .pass) ↔ IndexOK s x := by
  rw [inOrder_iff_seen hx] at hin
  rw [inOrder_iff_seen (hx.step _), delivered_pass hx, lastSeen_pass hx]
  show _ = List.filter _ (x.expected s) ↔ _
  by_cases hscan : max x.watcher.lastSeen x.mem.compactRevision - x.compactions < x.writes.length
  · rw [if_pos hscan]
    have hall : (x.expected s).filter (fun v => v.kv.modRevision ≤ (x.writes.length : ℤ)) = x.expected s :=
      List.filter_eq_self.2 fun v hv =>
        decide_eq_true (hx.refines.hist.mem_le (List.mem_of_mem_filter hv)).2
    have hsplit := Sorted.filter_le_append_filter_lt (fun v : Write => v.kv.modRevision)
      x.watcher.lastSeen hx.expected_sorted
    rw [hall, hin]
    nth_rewrite 2 [← hsplit]
    rw [List.append_cancel_left_eq]
    unfold expected
    rw [List.filter_filter, Sorted.filter_eq_filter_iff]
    refine forall₂_congr fun v _ => ?_
    rw [Bool.eq_iff_iff]
    cases x.covers v <;> simp
  · rw [if_neg hscan]
    have hnone : (x.writes.filter fun v => x.covers v && decide (max x.watcher.lastSeen
        x.mem.compactRevision - x.compactions < v.kv.modRevision)) = [] := by
      rw [List.filter_eq_nil_iff]
      intro v hv hlt
      have hle := hx.refines.hist.mem_le hv
      simp only [Bool.and_eq_true, decide_eq_true_eq] at hlt
      omega
    rw [hnone, List.append_nil]
    exact ⟨fun _ => indexOK_of_idle hx hscan, fun _ => hin⟩

theorem opened_ok (ops : List Op) {key rangeEnd : Bytes} {w : Watcher}
    (hs : (run ops).compactRevision < s) (hw : (run ops).watch key rangeEnd s = some w) :
    OK s (opened ops w) ∧ InOrder s (opened ops w) := by
  have hR := run_refines ops
  have hpos : 0 < s := by
    have := hR.compactions_le
    omega
  have hw' : w = ⟨key, rangeEnd, s - 1, []⟩ := by
    unfold watch at hw
    rw [if_neg (by omega)] at hw
    simp only [Option.some.injEq] at hw
    rw [← hw, if_neg (by omega)]
  subst hw'
  have hok : OK s (opened ops ⟨key, rangeEnd, s - 1, []⟩) :=
    ⟨hR, fun v hv => absurd hv List.not_mem_nil, Or.inr (by show s - 1 < s; omega)⟩
  refine ⟨hok, (inOrder_iff_seen hok).2 ?_⟩
  symm
  show List.filter _ _ = []
  rw [List.filter_eq_nil_iff]
  intro v hv hle
  have hge := (List.mem_filter.1 hv).2
  simp only [Bool.and_eq_true, decide_eq_true_eq] at hge hle
  have hle' : v.kv.modRevision ≤ s - 1 := hle
  omega

/-- **When a watch delivers in order.** A watch is opened at `s` above the compact
revision after any calls, and then calls and passes interleave in any way. In every
state of the run the events sent are the first of the writes of the range from `s` on
and none has been passed over, if and only if at each pass the index is right. -/
theorem watch_in_order_iff (ops : List Op) (key rangeEnd : Bytes) (s : ℤ) (w : Watcher)
    (hs : (run ops).compactRevision < s) (hw : (run ops).watch key rangeEnd s = some w) (acts : List Act) :
    Lts.Always step (InOrder s) (opened ops w) acts ↔
      Lts.Guarded step (fun x a => a = .pass → IndexOK s x) (opened ops w) acts := by
  obtain ⟨hok, hin⟩ := opened_ok ops hs hw
  refine Lts.always_iff_guarded (fun x a hx => hx.step a) ?_ acts _ hok hin
  intro x a hx hin
  cases a with
  | call op =>
    rw [inOrder_call hx op]
    exact ⟨fun _ hp => by simp at hp, fun _ => hin⟩
  | pass =>
    rw [inOrder_pass hx hin]
    exact ⟨fun h _ => h, fun h => h rfl⟩

/-- A watch from revision 1 sees the first write, which is then compacted to; the pass
after the next write starts one entry early and sends the first write again. -/
theorem watch_sends_twice :
    let w : Watcher := ⟨ascii "/a", [], 0, []⟩
    let acts : List Act := [.call (.create (ascii "/a") [] 0), .pass, .call (.compact 1),
      .call (.create (ascii "/b") [] 0), .pass]
    (run []).compactRevision < 1 ∧ (run []).watch (ascii "/a") [] 1 = some w ∧
      ((Lts.exec step (opened [] w) acts).delivered.map fun v => v.kv.modRevision) = [1, 1] ∧
      ¬ InOrder 1 (Lts.exec step (opened [] w) acts) := by
  decide

/-- The same run with the watch on the other key: its index is off by one as well,
but the entry it starts at too early is not in its range. -/
theorem watch_in_order_other_key :
    Lts.Always step (InOrder 1) (opened [] ⟨ascii "/b", [], 0, []⟩)
      [.call (.create (ascii "/a") [] 0), .pass, .call (.compact 1),
        .call (.create (ascii "/b") [] 0), .pass] :=
  (watch_in_order_iff [] (ascii "/b") [] 1 _ (by decide) rfl _).2 (by
    refine ⟨fun h => by simp at h, fun _ => ?_, fun h => by simp at h, fun h => by simp at h,
      fun _ => ?_, trivial⟩
    · unfold IndexOK
      decide
    · unfold IndexOK
      decide)

end Watched

end Memory

end Harikube
