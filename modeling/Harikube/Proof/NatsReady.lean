import Harikube.Proof.NatsCreate
import Harikube.Proof.NatsRestart
import Harikube.Spec.NatsReady

/-!
# The btree after a replay and after a write

* `ready_replayed`: once `readyCh` is closed, the btree shows every message that the bucket had
  before the process started.
* `written_visible`: once a wait for a sequence has returned without an error, the btree shows the
  write for the rest of the run, also across restarts of `btreeWatcher`.
* `wakeups_kept_iff`: no call sleeps on exactly if none goes to sleep between the record of its
  sequence, with the broadcast for it, and its own test.
* `ready_closed_once_iff`: `readyCh` is closed a second time exactly if `btreeWatcher` begins again
  on a bucket that is still empty.
-/

namespace Harikube

open Sorted

namespace NatsReady

open NatsKV (opsOf)

variable {history hsize : ℕ} {x : NatsReady} {a : Act}

/-! ## Messages that the bucket still has -/

theorem retained_append {stream : List NatsMsg} {m : NatsMsg} {key : Bytes} {n : ℕ}
    (h : retained history (stream ++ [m]) key n = true) : retained history stream key n = true := by
  unfold retained at h ⊢
  rw [decide_eq_true_eq] at h ⊢
  refine lt_of_le_of_lt (List.Sublist.length_le (List.Sublist.filter _ ?_)) h
  exact (List.sublist_append_left stream [m]).drop n

theorem viewKey_of_roundTrips {key : Bytes} (h : RoundTrips key) : viewKey key = some key := h

/-! ## What has been recorded -/

/-- The operations seen have one of the key that is not older than `n`. -/
def Seen (y : NatsRestart) (key : Bytes) (n : ℕ) : Prop := ∃ o, (opsOf y.seen key).getLast? = some o ∧ n ≤ o.seq

/-- The message with the number `n` must be seen: its key round trips and the bucket still has it. -/
def Due (history : ℕ) (y : NatsRestart) (key : Bytes) (n : ℕ) : Prop :=
  0 < n ∧ (∃ m, y.stream[n - 1]? = some m ∧ m.key = key) ∧ RoundTrips key ∧ retained history y.stream key n = true

/-- Every message up to the last recorded one is seen, and every message up to the position of the
consumer is seen or in the channel. -/
structure Replayed (history hsize : ℕ) (y : NatsRestart) : Prop where
  ok : y.OK hsize
  last : y.kv.lastSeq ≤ y.stream.length
  pos : y.pos ≤ y.stream.length
  seen : ∀ key n, Due history y key n → n ≤ y.kv.lastSeq → Seen y key n
  queued : ∀ key n, Due history y key n → n ≤ y.pos → Seen y key n ∨ ∃ u ∈ y.updates, u.seq = n

theorem slice_getLast? (hpos : 0 < hsize) (l : List SeqOp) : (NatsKV.slice hsize l).getLast? = l.getLast? := by
  unfold NatsKV.slice
  rw [List.getLast?_drop]
  split
  · rename_i hle
    have hnil : l = [] := List.length_eq_zero_iff.1 (by omega)
    rw [hnil]
    rfl
  · rfl

theorem Replayed.reflects (h : Replayed history hsize x.btree) (hpos : 0 < hsize) {n : ℕ} (hn : 0 < n)
    (hle : n ≤ x.lastSeq) : x.Reflects history n := by
  intro m hm hround hret
  obtain ⟨o, ho, hseq⟩ := h.seen m.key n ⟨hn, ⟨m, hm, rfl⟩, hround, hret⟩ hle
  refine ⟨o, ?_, hseq⟩
  rw [h.ok.slice_eq hpos, slice_getLast? hpos]
  exact ho

variable {y : NatsRestart}

/-- An earlier message must also be seen in a shorter stream. -/
theorem Due.of_write {m : NatsMsg} {key : Bytes} {n : ℕ} (hle : n ≤ y.stream.length)
    (h : Due history { y with stream := y.stream ++ [m] } key n) : Due history y key n := by
  obtain ⟨hn, ⟨m', hget, hkey⟩, hround, hret⟩ := h
  refine ⟨hn, ⟨m', ?_, hkey⟩, hround, retained_append hret⟩
  have hlt : n - 1 < y.stream.length := by omega
  have happ : (y.stream ++ [m])[n - 1]? = y.stream[n - 1]? := List.getElem?_append_left hlt
  rw [← happ]
  exact hget

theorem Replayed.write (h : Replayed history hsize y) (m : NatsMsg) :
    Replayed history hsize { y with stream := y.stream ++ [m] } := by
  have hlen : y.stream.length ≤ (y.stream ++ [m]).length := by simp
  exact ⟨h.ok.write m, h.last.trans hlen, h.pos.trans hlen,
    fun key n hdue hn => h.seen key n (hdue.of_write (hn.trans h.last)) hn,
    fun key n hdue hn => h.queued key n (hdue.of_write (hn.trans h.pos)) hn⟩

/-- The handler waits, or passes over the next message, or puts it into the channel. -/
theorem handle_cases (history : ℕ) (y : NatsRestart) :
    y.handle history = y ∨ ∃ m, y.stream[y.pos]? = some m ∧
      ((y.handle history = { y with pos := y.pos + 1 } ∧ (retained history y.stream m.key (y.pos + 1) = false ∨
          ((y.pos + 1 : ℕ) : ℤ) < y.kv.compactRev ∨ viewKey m.key = none)) ∨
        ∃ key, y.handle history = { y with pos := y.pos + 1, updates := y.updates ++ [⟨key, y.pos + 1, m⟩] }) := by
  unfold NatsRestart.handle
  split
  · exact .inl rfl
  rename_i m hm
  split
  · exact .inl rfl
  refine .inr ⟨m, hm, ?_⟩
  split
  · rename_i hret
    exact .inl ⟨rfl, .inl (by simpa using hret)⟩
  split
  · rename_i hlow
    exact .inl ⟨rfl, .inr (.inl hlow)⟩
  split
  · rename_i hview
    exact .inl ⟨rfl, .inr (.inr hview)⟩
  · rename_i key _
    exact .inr ⟨key, rfl⟩

/-- A message that must be seen is put into the channel. -/
theorem Replayed.handle (h : Replayed history hsize y) (hc : y.kv.compactRev ≤ y.pos + 1) :
    Replayed history hsize (y.handle history) := by
  have hok : NatsRestart.OK hsize (y.handle history) := h.ok.handle
  rcases handle_cases history y with heq | ⟨m, hm, ⟨heq, hdrop⟩ | ⟨key, heq⟩⟩
  · rwa [heq]
  all_goals
    rw [heq] at hok ⊢
    refine ⟨hok, h.last, (List.getElem?_eq_some_iff.1 hm).1, h.seen, fun k n hdue hn => ?_⟩
    rcases Nat.lt_or_ge y.pos n with hlt | hge
    on_goal 1 => obtain rfl : n = y.pos + 1 := le_antisymm hn hlt
  · obtain ⟨-, ⟨m', hm', hkey⟩, hround, hret⟩ := hdue
    rw [Nat.add_sub_cancel, hm] at hm'
    obtain rfl := Option.some.inj hm'
    rw [hkey, hret, viewKey_of_roundTrips hround] at hdrop
    rcases hdrop with hret | hlow | hview
    · cases hret
    · push_cast at hlow
      omega
    · cases hview
  · exact h.queued k n hdue hge
  · exact .inr ⟨⟨key, y.pos + 1, m⟩, List.mem_append_right _ List.mem_cons_self, rfl⟩
  · refine (h.queued k n hdue hge).imp id ?_
    rintro ⟨u, hu, hseq⟩
    exact ⟨u, List.mem_append_left _ hu, hseq⟩

theorem Replayed.record (h : Replayed history hsize y) {u : NatsUpdate} {rest : List NatsUpdate}
    (hu : y.updates = u :: rest) : Replayed history hsize (y.record hsize u rest) := by
  have hhead : u ∈ y.updates := hu ▸ List.mem_cons_self
  obtain ⟨hlow, hpos⟩ := h.ok.between u hhead
  have horder := h.ok.order
  rw [hu] at horder
  -- a newer operation of the same key takes the place of the one seen before
  have hseen : ∀ key n, n ≤ u.seq → Seen y key n ∨ u.key = key → Seen (y.record hsize u rest) key n := by
    intro key n hn hcase
    show ∃ o, (opsOf (y.seen ++ [(u.key, ⟨u.seq, u.msg.op⟩)]) key).getLast? = some o ∧ n ≤ o.seq
    rw [NatsKV.opsOf_append]
    split
    · exact ⟨⟨u.seq, u.msg.op⟩, List.getLast?_concat, hn⟩
    · rename_i hne
      exact hcase.resolve_right hne
  have hrecorded : ∀ key, Due history y key u.seq → u.key = key := by
    rintro key ⟨-, ⟨m, hm, hkey⟩, hround, -⟩
    have hat : y.keyAt u.seq = some u.key := (h.ok.keyed u hhead).2
    rw [NatsRestart.keyAt, hm, Option.bind_some, hkey, viewKey_of_roundTrips hround] at hat
    exact (Option.some.inj hat).symm
  have hcases : ∀ key n, Due history y key n → n ≤ y.pos →
      Seen (y.record hsize u rest) key n ∨ ∃ v ∈ rest, v.seq = n := by
    intro key n hdue hn
    rcases h.queued key n hdue hn with ⟨o, ho, hseq⟩ | ⟨v, hv, rfl⟩
    · -- nothing newer than the last recorded message has been seen
      obtain ⟨p, hp, hpo⟩ := List.mem_map.1 (List.mem_of_getLast? ho)
      have hbound := h.ok.bound p (List.mem_filter.1 hp).1
      rw [hpo] at hbound
      exact .inl (hseen key n (by omega) (.inl ⟨o, ho, hseq⟩))
    · rw [hu] at hv
      rcases List.mem_cons.1 hv with rfl | hv
      · exact .inl (hseen key _ le_rfl (.inr (hrecorded key hdue)))
      · exact .inr ⟨v, hv, rfl⟩
  refine ⟨h.ok.record hu, hpos.trans h.pos, h.pos, fun key n hdue hn => ?_, hcases⟩
  refine (hcases key n hdue (hn.trans hpos)).resolve_right ?_
  rintro ⟨v, hv, rfl⟩
  exact absurd ((List.pairwise_cons.1 horder).1 v hv) (not_lt.2 hn)

theorem Replayed.restart (h : Replayed history hsize y) : Replayed history hsize y.restart := by
  have hback : y.kv.lastSeq - 1 ≤ y.kv.lastSeq := Nat.sub_le _ _
  exact ⟨h.ok.restart, h.last, hback.trans h.last, h.seen,
    fun key n hdue hn => .inl (h.seen key n hdue (le_trans hn hback))⟩

/-! ## The steps -/

/-- The `loop` of the watcher: nothing, or the record of the first update. -/
theorem loop_cases (hsize : ℕ) (x : NatsReady) (decodes : Bool) :
    x.loop hsize decodes = x ∨
    ∃ target replay u rest, x.watcher = .running target replay ∧ x.btree.updates = u :: rest ∧
      ((u.skipped decodes = true ∧ x.loop hsize decodes = { x with btree := { x.btree with updates := rest } }) ∨
        (u.skipped decodes = false ∧ x.loop hsize decodes =
          { x with btree := x.btree.record hsize u rest, watcher := .stored target replay u.seq })) := by
  unfold NatsReady.loop
  split
  · rename_i target replay u rest hw hu
    right
    refine ⟨target, replay, u, rest, hw, hu, ?_⟩
    have hbtree : x.btree.loop hsize decodes =
        if u.skipped decodes then { x.btree with updates := rest } else x.btree.record hsize u rest := by
      unfold NatsRestart.loop NatsRestart.record
      rw [hu]
    rw [hbtree]
    by_cases hs : u.skipped decodes = true
    · rw [if_pos hs, if_pos hs]
      exact .inl ⟨hs, rfl⟩
    · rw [if_neg hs, if_neg hs]
      exact .inr ⟨by simpa using hs, rfl⟩
  · exact .inl rfl

theorem skipped_decodes (u : NatsUpdate) : u.skipped true = false := by
  unfold NatsUpdate.skipped
  split <;> rfl

theorem begin_cases (x : NatsReady) :
    x.watcher ≠ .stopped ∧ x.begin = x ∨ x.watcher = .stopped ∧
      ((x.lastSeq = 0 ∧ x.btree.stream = [] ∧ x.begin =
          { x with btree := x.btree.restart, watcher := .running 0 false, ready := true, closes := x.closes + 1 }) ∨
        (¬ (x.lastSeq = 0 ∧ x.btree.stream = []) ∧ x.begin =
          { x with btree := x.btree.restart, watcher := .running x.btree.stream.length (x.lastSeq = 0) })) := by
  unfold NatsReady.begin
  split
  · rename_i hw
    refine .inr ⟨hw, ?_⟩
    dsimp only
    split
    · rename_i hempty
      have hnil := List.length_eq_zero_iff.1 hempty.2
      exact .inl ⟨hempty.1, hnil, by rw [hempty.2]⟩
    · rename_i hne
      exact .inr ⟨fun h => hne ⟨h.1, by rw [h.2]; rfl⟩, rfl⟩
  · rename_i hw
    exact .inl ⟨hw, rfl⟩

theorem broadcast_cases (x : NatsReady) :
    x.broadcast = x ∨
    ∃ target replay seq, x.watcher = .stored target replay seq ∧
      ((replay = true ∧ target ≤ seq ∧ x.ready = false ∧ x.broadcast =
          { x with watcher := .running target replay, waits := wakeAll x.waits, ready := true, closes := x.closes + 1 }) ∨
        x.broadcast = { x with watcher := .running target replay, waits := wakeAll x.waits }) := by
  unfold NatsReady.broadcast
  split
  · rename_i target replay seq hw
    refine .inr ⟨target, replay, seq, hw, ?_⟩
    dsimp only
    split
    · rename_i h
      exact .inl ⟨h.1, h.2.1, h.2.2, rfl⟩
    · exact .inr rfl
  · exact .inl rfl

/-- The stages of the calls that know their sequence to be there. -/
def Met : WaitStage → Prop
  | .done => True
  | .returned ok => ok = true
  | _ => False

/-- Calls after a step: a call from before, or one that does not sleep and has its sequence from
`lastSeq` or from before. -/
def Waited (x : NatsReady) (waits : List (ℕ × WaitStage)) : Prop :=
  ∀ w ∈ waits, w ∈ x.waits ∨ w.2 ≠ .sleeping ∧ (Met w.2 → w.1 ≤ x.lastSeq ∨ ∃ v ∈ x.waits, v.1 = w.1 ∧ Met v.2)

theorem waited_wakeAll (x : NatsReady) : Waited x (wakeAll x.waits) := by
  intro w hw
  obtain ⟨⟨seq, s⟩, hv, rfl⟩ := List.mem_map.1 hw
  refine .inr ⟨by cases s <;> exact WaitStage.noConfusion, fun hm => .inr ⟨_, hv, rfl, ?_⟩⟩
  cases s <;> exact hm

theorem not_sleeping_wakeAll {waits : List (ℕ × WaitStage)} {w : ℕ × WaitStage} (hw : w ∈ wakeAll waits) :
    w.2 ≠ .sleeping := by
  obtain ⟨⟨seq, s⟩, -, rfl⟩ := List.mem_map.1 hw
  cases s <;> exact WaitStage.noConfusion

theorem Waited.set {waits : List (ℕ × WaitStage)} (h : Waited x waits) (i : ℕ) {w : ℕ × WaitStage} (hs : w.2 ≠ .sleeping)
    (hm : Met w.2 → w.1 ≤ x.lastSeq ∨ ∃ v ∈ x.waits, v.1 = w.1 ∧ Met v.2) : Waited x (waits.set i w) := by
  intro v hv
  rcases List.mem_or_eq_of_mem_set hv with hv | rfl
  · exact h v hv
  · exact .inr ⟨hs, hm⟩

/-- The steps of the calls, but for going to sleep. -/
def Act.waiting : Act → Bool
  | .wait _ => true
  | .enter _ => true
  | .test _ => true
  | .receive _ => true
  | .timeout _ => true
  | _ => false

theorem waiting_step (history hsize : ℕ) (x : NatsReady) {a : Act} (ha : a.waiting = true) :
    ∃ waits, x.step history hsize a = { x with waits := waits } ∧ Waited x waits := by
  have hsame : Waited x x.waits := fun w hw => .inl hw
  have htest : ∀ (i seq : ℕ) (s s' : WaitStage), s ≠ .sleeping → s' ≠ .sleeping → ¬ Met s' →
      Waited x (x.waits.set i (seq, if seq ≤ x.lastSeq then s else s')) := by
    intro i seq s s' hs hs' hm'
    split
    · rename_i hle
      exact hsame.set i hs fun _ => .inl hle
    · exact hsame.set i hs' fun hm => absurd hm hm'
  cases a with
  | wait seq =>
    refine ⟨_, rfl, fun w hw => (List.mem_append.1 hw).imp id fun hw => ?_⟩
    rw [List.mem_singleton.1 hw]
    exact ⟨WaitStage.noConfusion, fun hm => hm.elim⟩
  | enter i | test i =>
    simp only [NatsReady.step, NatsReady.enter, NatsReady.test]
    split
    · exact ⟨_, rfl, htest i _ _ _ WaitStage.noConfusion WaitStage.noConfusion id⟩
    · exact ⟨_, rfl, hsame⟩
  | receive i =>
    simp only [NatsReady.step, NatsReady.receive]
    split
    · rename_i hi
      exact ⟨_, rfl, hsame.set i WaitStage.noConfusion fun _ => .inr ⟨_, List.mem_of_getElem? hi, rfl, trivial⟩⟩
    · exact ⟨_, rfl, hsame⟩
  | timeout i =>
    simp only [NatsReady.step, NatsReady.timeout]
    split
    · exact ⟨_, rfl, hsame⟩
    · exact ⟨_, rfl, hsame⟩
    · exact ⟨_, rfl, (waited_wakeAll x).set i WaitStage.noConfusion fun hm => Bool.noConfusion hm⟩
    · exact ⟨_, rfl, hsame⟩
  | _ => cases ha

/-- What every state keeps, for a process that started with `n₀` messages in the bucket. -/
structure Good (history hsize n₀ : ℕ) (x : NatsReady) : Prop where
  replayed : Replayed history hsize x.btree
  started : n₀ ≤ x.btree.stream.length
  running : ∀ target replay, x.watcher = .running target replay → replay = true → n₀ ≤ target
  stored : ∀ target replay seq, x.watcher = .stored target replay seq →
    seq = x.lastSeq ∧ (replay = true → n₀ ≤ target)
  ready : x.ready = true → n₀ ≤ x.lastSeq
  waits : ∀ w ∈ x.waits, Met w.2 → w.1 ≤ x.lastSeq

variable {n₀ : ℕ}

theorem Good.waited (h : Good history hsize n₀ x) {waits : List (ℕ × WaitStage)} (hw : Waited x waits) :
    Good history hsize n₀ { x with waits := waits } := by
  refine { h with waits := fun w hmem hm => ?_ }
  rcases hw w hmem with hmem | ⟨-, hmet⟩
  · exact h.waits w hmem hm
  · rcases hmet hm with hle | ⟨v, hv, hseq, hvm⟩
    · exact hle
    · rw [← hseq]
      exact h.waits v hv hvm

/-- A step of the btree that does not move `lastSeq`. -/
theorem Good.btree (h : Good history hsize n₀ x) (hr : Replayed history hsize y) (hl : y.kv.lastSeq = x.lastSeq)
    (hs : x.btree.stream.length ≤ y.stream.length) : Good history hsize n₀ { x with btree := y } :=
  ⟨hr, h.started.trans hs, h.running, fun t r n hw => ⟨(h.stored t r n hw).1.trans hl.symm, (h.stored t r n hw).2⟩,
    fun hr => (h.ready hr).trans hl.ge, fun w hw hm => (h.waits w hw hm).trans hl.ge⟩

theorem Good.begin (h : Good history hsize n₀ x) : Good history hsize n₀ x.begin := by
  have hback := h.btree h.replayed.restart rfl le_rfl
  rcases begin_cases x with ⟨-, heq⟩ | ⟨-, ⟨-, hnil, heq⟩ | ⟨-, heq⟩⟩
  · rw [heq]
    exact h
  · have hzero : n₀ ≤ 0 := by
      have hstarted := h.started
      rwa [hnil] at hstarted
    rw [heq]
    exact { hback with
      running := fun _ _ _ _ => hzero.trans (Nat.zero_le _)
      stored := fun _ _ _ => BtreeWatcher.noConfusion
      ready := fun _ => hzero.trans (Nat.zero_le _) }
  · rw [heq]
    refine { hback with running := fun t r hw _ => ?_, stored := fun _ _ _ => BtreeWatcher.noConfusion }
    rw [← (BtreeWatcher.running.inj hw).1]
    exact h.started

theorem handle_frame (history : ℕ) (y : NatsRestart) :
    (y.handle history).kv = y.kv ∧ (y.handle history).stream = y.stream := by
  rcases handle_cases history y with heq | ⟨m, -, ⟨heq, -⟩ | ⟨key, heq⟩⟩ <;> rw [heq] <;> exact ⟨rfl, rfl⟩

/-- The record of an update: `lastSeq` does not go back. -/
theorem Good.record (h : Good history hsize n₀ x) {target : ℕ} {replay : Bool} {u : NatsUpdate}
    {rest : List NatsUpdate} (hw : x.watcher = .running target replay) (hu : x.btree.updates = u :: rest) :
    Good history hsize n₀ { x with btree := x.btree.record hsize u rest, watcher := .stored target replay u.seq } := by
  have hle := (h.replayed.ok.between u (hu ▸ List.mem_cons_self)).1
  refine ⟨h.replayed.record hu, h.started, fun _ _ => BtreeWatcher.noConfusion,
    fun t r n heq => ?_, fun hr => (h.ready hr).trans hle, fun w hw' hm => (h.waits w hw' hm).trans hle⟩
  obtain ⟨rfl, rfl, rfl⟩ := BtreeWatcher.stored.inj heq
  exact ⟨rfl, h.running _ _ hw⟩

theorem Good.broadcast (h : Good history hsize n₀ x) : Good history hsize n₀ x.broadcast := by
  rcases broadcast_cases x with heq | ⟨target, replay, seq, hw, hcase⟩
  · rw [heq]
    exact h
  obtain ⟨hseq, htarget⟩ := h.stored target replay seq hw
  have hwoken : Good history hsize n₀ { x with watcher := .running target replay, waits := wakeAll x.waits } := by
    refine { h.waited (waited_wakeAll x) with
      running := fun t r heq => ?_
      stored := fun _ _ _ => BtreeWatcher.noConfusion }
    obtain ⟨rfl, rfl⟩ := BtreeWatcher.running.inj heq
    exact htarget
  rcases hcase with ⟨hrep, hle, -, heq⟩ | heq
  · rw [heq]
    exact { hwoken with ready := fun _ => ((htarget hrep).trans hle).trans hseq.le }
  · rw [heq]
    exact hwoken

theorem Good.step (h : Good history hsize n₀ x) (ha : x.Delivered a) : Good history hsize n₀ (x.step history hsize a) := by
  by_cases hwait : a.waiting = true
  · obtain ⟨waits, heq, hw⟩ := waiting_step history hsize x hwait
    rw [heq]
    exact h.waited hw
  cases a with
  | write m =>
    simp only [NatsReady.step, NatsRestart.step]
    split
    · exact h.btree (h.replayed.write m) rfl (by simp)
    · exact h
  | compacted rev =>
    have hr := h.replayed
    have hok : NatsRestart.OK hsize (x.btree.step history hsize (.compacted rev)) := hr.ok.step (.compacted rev)
    exact h.btree ⟨hok, hr.last, hr.pos, hr.seen, hr.queued⟩ rfl le_rfl
  | begin => exact h.begin
  | handle =>
    obtain ⟨hkv, hstream⟩ := handle_frame history x.btree
    simp only [NatsReady.step, NatsReady.handle]
    split
    · exact h
    · exact h.btree (h.replayed.handle (ha.2 rfl)) (by rw [hkv]; rfl) (by rw [hstream])
  | loop decodes =>
    rw [ha.1 decodes rfl]
    show Good history hsize n₀ (x.loop hsize true)
    rcases loop_cases hsize x true with heq | ⟨target, replay, u, rest, hw, hu, ⟨hs, -⟩ | ⟨-, heq⟩⟩
    · rw [heq]
      exact h
    · rw [skipped_decodes] at hs
      cases hs
    · rw [heq]
      exact h.record hw hu
  | broadcast => exact h.broadcast
  | fail =>
    simp only [NatsReady.step, NatsReady.fail]
    split
    · exact { h with
        running := fun _ _ => BtreeWatcher.noConfusion
        stored := fun _ _ _ => BtreeWatcher.noConfusion }
    · exact h
  | sleep i =>
    simp only [NatsReady.step, NatsReady.sleep]
    split
    · refine { h with waits := fun w hw hm => ?_ }
      rcases List.mem_or_eq_of_mem_set hw with hw | rfl
      · exact h.waits w hw hm
      · exact hm.elim
    · exact h
  | _ => exact absurd rfl hwait

theorem init_good (history hsize : ℕ) (stream : List NatsMsg) : Good history hsize stream.length (init stream) := by
  have hok : NatsRestart.OK hsize (init stream).btree := { NatsRestart.ok_init with
    keyed := fun _ hu => absurd hu List.not_mem_nil
    last := fun hlt => absurd hlt (lt_irrefl 0) }
  have hnone : ∀ {key n}, Due history (init stream).btree key n → ¬ n ≤ 0 := fun hdue => not_le.2 hdue.1
  exact ⟨⟨hok, Nat.zero_le _, Nat.zero_le _, fun _ _ hdue hn => absurd hn (hnone hdue),
      fun _ _ hdue hn => absurd hn (hnone hdue)⟩, le_rfl,
    fun _ _ => BtreeWatcher.noConfusion, fun _ _ _ => BtreeWatcher.noConfusion, fun hr => Bool.noConfusion hr,
    fun _ hw => absurd hw List.not_mem_nil⟩

theorem always_good (history hsize : ℕ) (stream : List NatsMsg) (acts : List Act)
    (hd : Lts.Guarded (step history hsize) Delivered (init stream) acts) :
    Lts.Always (step history hsize) (Good history hsize stream.length) (init stream) acts :=
  Lts.invariant_of_guarded (fun _ _ ha h => h.step ha) acts _ (init_good history hsize stream) hd

/-- **Once `readyCh` is closed the btree shows what the bucket had before the process started**: for
every message of then that the bucket still has, that message or a newer one of its key. -/
theorem ready_replayed (history hsize : ℕ) (hpos : 0 < hsize) (stream : List NatsMsg) (acts : List Act)
    (hd : Lts.Guarded (step history hsize) Delivered (init stream) acts) :
    Lts.Always (step history hsize) (fun x => x.ready = true → ∀ n, 0 < n → n ≤ stream.length → x.Reflects history n)
      (init stream) acts :=
  (always_good history hsize stream acts hd).mono fun _ h hr _ hn hle =>
    h.replayed.reflects hpos hn (hle.trans (h.ready hr))

/-- **A write is seen after its wait**: once `waitForSequence` has returned without an error, the
btree shows the message or a newer one of its key, as long as the bucket has it. -/
theorem written_visible (history hsize : ℕ) (hpos : 0 < hsize) (stream : List NatsMsg) (acts : List Act)
    (hd : Lts.Guarded (step history hsize) Delivered (init stream) acts) :
    Lts.Always (step history hsize) (fun x => ∀ seq, (seq, .returned true) ∈ x.waits → 0 < seq → x.Reflects history seq)
      (init stream) acts :=
  (always_good history hsize stream acts hd).mono fun _ h _ hw hn => h.replayed.reflects hpos hn (h.waits _ hw rfl)

/-- A start on a bucket with one message, and a call that waits for it. -/
def oneMsg : List NatsMsg := [.put (ascii "/a") (NatsStore.createData (ascii "/a") [] 0 0)]

def startActs : List Act := [.begin, .handle, .loop true, .broadcast, .wait 1, .enter 0]

theorem startActs_delivered : Lts.Guarded (step 10 5) Delivered (init oneMsg) startActs := by
  refine ⟨?_, ?_, ?_, ?_, ?_, ?_, trivial⟩
  all_goals exact ⟨fun _ h => by cases h <;> rfl, fun _ => by decide +kernel⟩

def started : NatsReady := Lts.exec (step 10 5) (init oneMsg) startActs

theorem ready_replayed_one : started.ready = true ∧ started.Reflects 10 1 := by
  have hready : started.ready = true := by decide +kernel
  exact ⟨hready, (ready_replayed 10 5 (by decide) oneMsg startActs startActs_delivered).last hready 1 Nat.one_pos le_rfl⟩

theorem written_visible_one : (1, .returned true) ∈ started.waits ∧ started.Reflects 10 1 := by
  have hwait : (1, .returned true) ∈ started.waits := by decide +kernel
  exact ⟨hwait, (written_visible 10 5 (by decide) oneMsg startActs startActs_delivered).last 1 hwait Nat.one_pos⟩

/-! ## Sleeping on -/

theorem not_stuck_of {x' : NatsReady} (h : ¬ x.Stuck) (hw : x'.NotStored → x.NotStored) (hl : x'.lastSeq ≤ x.lastSeq)
    (hs : ∀ w ∈ x'.waits, w.2 = .sleeping → w ∈ x.waits) : ¬ x'.Stuck := by
  rintro ⟨hw', w, hmem, hsl, hle⟩
  exact h ⟨hw hw', w, hs w hmem hsl, hsl, hle.trans hl⟩

theorem not_stuck_waited (h : ¬ x.Stuck) {waits : List (ℕ × WaitStage)} (hw : Waited x waits) :
    ¬ Stuck { x with waits := waits } :=
  not_stuck_of h id le_rfl fun w hmem hsl => (hw w hmem).resolve_right fun hs => hs.1 hsl

theorem not_stuck_awake {x' : NatsReady} (hs : ∀ w ∈ x'.waits, w.2 ≠ .sleeping) : ¬ x'.Stuck := by
  rintro ⟨-, w, hmem, hsl, -⟩
  exact hs w hmem hsl

theorem sleep_stuck_iff (h : ¬ x.Stuck) (i : ℕ) : ¬ (x.sleep i).Stuck ↔ x.InTime (.sleep i) := by
  unfold NatsReady.sleep
  split
  · rename_i seq hi
    have hmem : (seq, WaitStage.sleeping) ∈ (x.setWait i (seq, .sleeping)).waits :=
      List.mem_iff_getElem?.2 ⟨i, List.getElem?_set_self (List.getElem?_eq_some_iff.1 hi).1⟩
    constructor
    · intro hns j seq' heq hj
      obtain rfl := Act.sleep.inj heq
      obtain rfl : seq = seq' := (Prod.mk.inj (Option.some.inj (hi.symm.trans hj))).1
      by_contra hlate
      rw [not_or, not_lt, not_not] at hlate
      exact hns ⟨hlate.2, _, hmem, rfl, hlate.1⟩
    · rintro hin ⟨hw, w, hwm, hsl, hle⟩
      rcases List.mem_or_eq_of_mem_set hwm with hwm | rfl
      · exact h ⟨hw, w, hwm, hsl, hle⟩
      · rcases hin i seq rfl hi with hlt | hst
        · exact absurd hle (not_le.2 hlt)
        · exact hst hw
  · rename_i hno
    exact iff_of_true h fun j seq heq hj => absurd (Act.sleep.inj heq ▸ hj) (hno seq)

theorem step_not_stuck (h : ¬ x.Stuck) (ha : ∀ i, a ≠ .sleep i) : ¬ (x.step history hsize a).Stuck := by
  by_cases hwait : a.waiting = true
  · obtain ⟨waits, heq, hw⟩ := waiting_step history hsize x hwait
    rw [heq]
    exact not_stuck_waited h hw
  cases a with
  | write m =>
    simp only [NatsReady.step, NatsRestart.step]
    split <;> exact not_stuck_of h id le_rfl fun _ hw _ => hw
  | compacted rev => exact not_stuck_of h id le_rfl fun _ hw _ => hw
  | begin =>
    show ¬ x.begin.Stuck
    rcases begin_cases x with ⟨-, heq⟩ | ⟨hw, ⟨-, -, heq⟩ | ⟨-, heq⟩⟩
    · rwa [heq]
    all_goals
      rw [heq]
      exact not_stuck_of h (fun _ t r n hst => by rw [hw] at hst; cases hst) le_rfl fun _ hw _ => hw
  | handle =>
    simp only [NatsReady.step, NatsReady.handle]
    split
    · exact h
    · exact not_stuck_of h id (by rw [lastSeq, (handle_frame history x.btree).1]; exact le_rfl) fun _ hw _ => hw
  | loop decodes =>
    show ¬ (x.loop hsize decodes).Stuck
    rcases loop_cases hsize x decodes with heq | ⟨target, replay, u, rest, -, -, ⟨-, heq⟩ | ⟨-, heq⟩⟩
    · rwa [heq]
    · rw [heq]
      exact not_stuck_of h id le_rfl fun _ hw _ => hw
    · -- the broadcast is on its way
      rw [heq]
      exact fun hst => hst.1 target replay u.seq rfl
  | broadcast =>
    show ¬ x.broadcast.Stuck
    rcases broadcast_cases x with heq | ⟨target, replay, seq, -, ⟨-, -, -, heq⟩ | heq⟩
    · rwa [heq]
    all_goals
      rw [heq]
      exact not_stuck_awake fun w hw => not_sleeping_wakeAll hw
  | fail =>
    simp only [NatsReady.step, NatsReady.fail]
    split
    · rename_i t r hw
      exact not_stuck_of h (fun _ t r n hst => by rw [hw] at hst; cases hst) le_rfl fun _ hw _ => hw
    · exact h
  | sleep i => exact absurd rfl (ha i)
  | _ => exact absurd rfl hwait

/-- **No call sleeps on exactly if none goes to sleep too late**: after its sequence was recorded and
broadcast, but on the strength of a test before that. -/
theorem wakeups_kept_iff (history hsize : ℕ) (stream : List NatsMsg) (acts : List Act) :
    Lts.Always (step history hsize) (fun x => ¬ x.Stuck) (init stream) acts ↔
      Lts.Guarded (step history hsize) InTime (init stream) acts := by
  refine Lts.always_iff_guarded (I := fun _ => True) (fun _ _ _ => trivial) (fun x a _ h => ?_) acts _ trivial
    (not_stuck_awake fun _ hw => absurd hw List.not_mem_nil)
  by_cases ha : ∃ i, a = .sleep i
  · obtain ⟨i, rfl⟩ := ha
    exact sleep_stuck_iff h i
  · have hne : ∀ i, a ≠ .sleep i := fun i heq => ha ⟨i, heq⟩
    exact iff_of_true (step_not_stuck h hne) fun i _ heq => absurd heq (hne i)

/-! ## Closing `readyCh` -/

theorem step_closes (h : x.ready = true ↔ 0 < x.closes) (a : Act) :
    ((x.step history hsize a).ready = true ↔ 0 < (x.step history hsize a).closes) ∧
      (x.closes ≤ 1 → ((x.step history hsize a).closes ≤ 1 ↔ x.OnceEmpty a)) := by
  -- all steps but two leave the channel alone
  have hother : ∀ {x' : NatsReady}, x'.ready = x.ready → x'.closes = x.closes → a ≠ .begin →
      ((x'.ready = true ↔ 0 < x'.closes) ∧ (x.closes ≤ 1 → (x'.closes ≤ 1 ↔ x.OnceEmpty a))) := by
    intro x' hr hc hne
    rw [hr, hc]
    exact ⟨h, fun hle => iff_of_true hle fun heq => absurd heq hne⟩
  by_cases hwait : a.waiting = true
  · obtain ⟨waits, heq, -⟩ := waiting_step history hsize x hwait
    rw [heq]
    exact hother rfl rfl fun hb => by rw [hb] at hwait; cases hwait
  cases a with
  | begin =>
    show (x.begin.ready = true ↔ 0 < x.begin.closes) ∧ (x.closes ≤ 1 → (x.begin.closes ≤ 1 ↔ x.OnceEmpty .begin))
    rcases begin_cases x with ⟨hw, heq⟩ | ⟨hw, ⟨hzero, hnil, heq⟩ | ⟨hne, heq⟩⟩
    · rw [heq]
      exact ⟨h, fun hle => iff_of_true hle fun _ hstopped => absurd hstopped hw⟩
    · rw [heq]
      refine ⟨iff_of_true rfl (Nat.succ_pos _), fun _ => ⟨fun hle _ _ _ _ => ?_, fun hopen => ?_⟩⟩
      · have hclosed : ¬ 0 < x.closes := by
          have : x.closes + 1 ≤ 1 := hle
          omega
        simpa using fun hr => hclosed (h.1 hr)
      · have hready := hopen rfl hw hnil hzero
        have hclosed : ¬ 0 < x.closes := fun hlt => by simp [h.2 hlt] at hready
        show x.closes + 1 ≤ 1
        omega
    · rw [heq]
      exact ⟨h, fun hle => iff_of_true hle fun _ _ hnil hzero => absurd ⟨hzero, hnil⟩ hne⟩
  | broadcast =>
    show (x.broadcast.ready = true ↔ 0 < x.broadcast.closes) ∧
      (x.closes ≤ 1 → (x.broadcast.closes ≤ 1 ↔ x.OnceEmpty .broadcast))
    rcases broadcast_cases x with heq | ⟨target, replay, seq, -, ⟨-, -, hready, heq⟩ | heq⟩
    · rw [heq]
      exact hother rfl rfl Act.noConfusion
    · have hclosed : ¬ 0 < x.closes := fun hlt => by simp [h.2 hlt] at hready
      rw [heq]
      refine ⟨iff_of_true rfl (Nat.succ_pos _), fun _ => iff_of_true ?_ fun hb => Act.noConfusion hb⟩
      show x.closes + 1 ≤ 1
      omega
    · rw [heq]
      exact hother rfl rfl Act.noConfusion
  | handle | fail | sleep i =>
    simp only [NatsReady.step, NatsReady.handle, NatsReady.fail, NatsReady.sleep]
    split <;> exact hother rfl rfl Act.noConfusion
  | loop decodes =>
    show ((x.loop hsize decodes).ready = true ↔ _) ∧ _
    rcases loop_cases hsize x decodes with heq | ⟨target, replay, u, rest, -, -, ⟨-, heq⟩ | ⟨-, heq⟩⟩
    all_goals
      simp only [NatsReady.step]
      rw [heq]
      exact hother rfl rfl Act.noConfusion
  | write m | compacted rev => exact hother rfl rfl Act.noConfusion
  | _ => exact absurd rfl hwait

/-- **`readyCh` is closed at most once exactly if `btreeWatcher` does not begin again on a bucket
that is still empty**; a second close is a panic. -/
theorem ready_closed_once_iff (history hsize : ℕ) (stream : List NatsMsg) (acts : List Act) :
    Lts.Always (step history hsize) (fun x => x.closes ≤ 1) (init stream) acts ↔
      Lts.Guarded (step history hsize) OnceEmpty (init stream) acts :=
  Lts.always_iff_guarded (I := fun x : NatsReady => x.ready = true ↔ 0 < x.closes) (fun _ a h => (step_closes h a).1)
    (fun _ a h hle => (step_closes h a).2 hle) acts _ (by simp [init]) (by simp [init])

end NatsReady

end Harikube
