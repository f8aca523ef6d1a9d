import Harikube.Lts.Run
import Harikube.Proof.NatsHistory
import Harikube.Spec.NatsRestart

/-!
# The slices of the btree across restarts

A restart asks for the messages from the last recorded one on, and not from the one after it. If
the bucket still has that message, its operation is recorded a second time.

* `OK`: the btree is what the operations seen leave of it; nothing that is on its way is older than
  what has been recorded last, and what has been recorded last is the last operation of its key.
* `slices_recent_iff`: **the slices are strictly increasing and hold the most recent operations
  exactly in the runs in which no recorded operation comes a second time.**
* `slice_doubled`: a restart after one message.
-/

namespace Harikube

open Sorted

namespace NatsRestart

open NatsKV (opsOf replay)

variable {history hsize : ℕ} {x : NatsRestart} {k : Bytes}

/-- The key of the message with the number `seq`. -/
def keyAt (x : NatsRestart) (seq : ℕ) : Option Bytes := (x.stream[seq - 1]?).bind fun m => viewKey m.key

/-- What every reachable state keeps, whether or not an operation has come twice. -/
structure OK (hsize : ℕ) (x : NatsRestart) : Prop where
  btree : x.kv.bt = (replay hsize x.seen).bt
  bound : ∀ p ∈ x.seen, p.2.seq ≤ x.kv.lastSeq
  last : 0 < x.kv.lastSeq → ∃ k o, x.keyAt x.kv.lastSeq = some k ∧ (opsOf x.seen k).getLast? = some o ∧
    o.seq = x.kv.lastSeq
  keyed : ∀ u ∈ x.updates, 0 < u.seq ∧ x.keyAt u.seq = some u.key
  order : x.updates.Pairwise fun u v => u.seq < v.seq
  between : ∀ u ∈ x.updates, x.kv.lastSeq ≤ u.seq ∧ u.seq ≤ x.pos
  ahead : x.kv.lastSeq ≤ x.pos + 1

theorem ok_init : OK hsize init where
  btree := rfl
  bound := fun _ hp => absurd hp List.not_mem_nil
  last := fun h => absurd h (Nat.lt_irrefl 0)
  keyed := fun _ hu => absurd hu List.not_mem_nil
  order := List.Pairwise.nil
  between := fun _ hu => absurd hu List.not_mem_nil
  ahead := Nat.zero_le _

/-! ## Slices -/

theorem OK.slice_eq (hx : OK hsize x) (hpos : 0 < hsize) (k : Bytes) :
    x.slice k = NatsKV.slice hsize (opsOf x.seen k) := by
  unfold slice
  rw [hx.btree, NatsKV.find_replay hpos]
  split
  · rename_i hnil
    simp [hnil, NatsKV.slice]
  · rfl

/-- The slices are always short and recent; only their order can go wrong. -/
theorem OK.recent_iff (hx : OK hsize x) (hpos : 0 < hsize) :
    Recent hsize x ↔ ∀ k, (NatsKV.slice hsize (opsOf x.seen k)).Pairwise fun a b => a.seq < b.seq := by
  unfold Recent
  refine forall_congr' fun k => ?_
  have hlen : (NatsKV.slice hsize (opsOf x.seen k)).length ≤ hsize := by
    unfold NatsKV.slice
    rw [List.length_drop]
    omega
  have hdrop : NatsKV.slice hsize (opsOf x.seen k) = (opsOf x.seen k).drop
      ((opsOf x.seen k).length - min hsize (opsOf x.seen k).length) := by
    unfold NatsKV.slice
    congr 1
    omega
  rw [hx.slice_eq hpos]
  exact ⟨fun h => h.1, fun h => ⟨h, hlen, hdrop⟩⟩

/-- What is left of a full slice with room for one more. -/
theorem mem_room {l : List SeqOp} {o : SeqOp}
    (ho : o ∈ if (NatsKV.slice hsize l).length = hsize then (NatsKV.slice hsize l).tail else NatsKV.slice hsize l) :
    o ∈ l := by
  split at ho
  · exact List.mem_of_mem_drop (List.mem_of_mem_tail ho)
  · exact List.mem_of_mem_drop ho

/-- With two places, the last operation keeps its place when one more comes. -/
theorem last_mem_room (htwo : 2 ≤ hsize) {l : List SeqOp} {o : SeqOp} (ho : l.getLast? = some o) :
    o ∈ if (NatsKV.slice hsize l).length = hsize then (NatsKV.slice hsize l).tail else NatsKV.slice hsize l := by
  obtain ⟨init, rfl⟩ := List.getLast?_eq_some_iff.1 ho
  have hmem : ∀ n ≤ init.length, o ∈ (init ++ [o]).drop n := by
    intro n hn
    rw [List.drop_append_of_le_length hn]
    exact List.mem_append_right _ (List.mem_singleton_self o)
  unfold NatsKV.slice
  have hlen : (init ++ [o]).length = init.length + 1 := List.length_append
  split
  · rename_i hfull
    rw [List.length_drop] at hfull
    rw [List.tail_drop]
    exact hmem _ (by omega)
  · exact hmem _ (by omega)

/-- **One more operation** keeps the slice of its key strictly increasing exactly if it is above
what it is put behind. -/
theorem pairwise_append_iff (hpos : 0 < hsize) {l : List SeqOp} (o : SeqOp)
    (hl : (NatsKV.slice hsize l).Pairwise fun a b => a.seq < b.seq) :
    ((NatsKV.slice hsize (l ++ [o])).Pairwise fun a b => a.seq < b.seq) ↔
      ∀ a ∈ (if (NatsKV.slice hsize l).length = hsize then (NatsKV.slice hsize l).tail else NatsKV.slice hsize l),
        a.seq < o.seq := by
  have hroom : (if (NatsKV.slice hsize l).length = hsize then (NatsKV.slice hsize l).tail
      else NatsKV.slice hsize l).Pairwise fun a b => a.seq < b.seq := by
    split
    · exact hl.tail
    · exact hl
  rw [NatsKV.slice_append hpos, List.pairwise_append]
  constructor
  · rintro ⟨-, -, h⟩ a ha
    exact h a ha o (List.mem_singleton_self o)
  · intro h
    refine ⟨hroom, List.pairwise_singleton _ _, fun a ha b hb => ?_⟩
    rw [List.mem_singleton.1 hb]
    exact h a ha

/-! ## Steps -/

theorem keyAt_write {m : NatsMsg} {seq : ℕ} (h : x.keyAt seq = some k) :
    ({ x with stream := x.stream ++ [m] } : NatsRestart).keyAt seq = some k := by
  obtain ⟨m', hm', hk⟩ := Option.bind_eq_some_iff.1 h
  have hlt := (List.getElem?_eq_some_iff.1 hm').1
  unfold keyAt
  rw [List.getElem?_append_left hlt, hm']
  exact hk

theorem OK.write (hx : OK hsize x) (m : NatsMsg) : OK hsize { x with stream := x.stream ++ [m] } where
  btree := hx.btree
  bound := hx.bound
  last := fun hlt => by
    obtain ⟨k, o, hk, ho, hseq⟩ := hx.last hlt
    exact ⟨k, o, keyAt_write hk, ho, hseq⟩
  keyed := fun u hu => ⟨(hx.keyed u hu).1, keyAt_write (hx.keyed u hu).2⟩
  order := hx.order
  between := hx.between
  ahead := hx.ahead

/-- A message that goes no further. -/
theorem OK.drop (hx : OK hsize x) : OK hsize { x with pos := x.pos + 1 } :=
  { hx with
    between := fun u hu => ⟨(hx.between u hu).1, (hx.between u hu).2.trans (Nat.le_succ _)⟩
    ahead := hx.ahead.trans (Nat.le_succ _) }

theorem OK.handle (hx : OK hsize x) : OK hsize (x.handle history) := by
  unfold NatsRestart.handle
  split
  · exact hx
  rename_i m hm
  split
  · exact hx
  split
  · exact hx.drop
  split
  · exact hx.drop
  split
  · exact hx.drop
  rename_i key hkey
  have hnew : x.keyAt (x.pos + 1) = some key := by
    unfold keyAt
    rw [Nat.add_sub_cancel, hm]
    exact hkey
  refine ⟨hx.btree, hx.bound, hx.last, fun u hu => ?_, ?_, fun u hu => ?_, hx.ahead.trans (Nat.le_succ _)⟩
  · rcases List.mem_append.1 hu with hu | hu
    · exact hx.keyed u hu
    · rw [List.mem_singleton.1 hu]
      exact ⟨Nat.succ_pos _, hnew⟩
  · refine List.pairwise_append.2 ⟨hx.order, List.pairwise_singleton _ _, fun u hu v hv => ?_⟩
    rw [List.mem_singleton.1 hv]
    exact Nat.lt_succ_of_le (hx.between u hu).2
  · rcases List.mem_append.1 hu with hu | hu
    · exact ⟨(hx.between u hu).1, (hx.between u hu).2.trans (Nat.le_succ _)⟩
    · rw [List.mem_singleton.1 hu]
      exact ⟨hx.ahead, le_rfl⟩

/-- Taking an update out of the channel. -/
theorem OK.skip {u : NatsUpdate} {rest : List NatsUpdate} (hx : OK hsize x) (hu : x.updates = u :: rest) :
    OK hsize { x with updates := rest } := by
  have hmem : ∀ v ∈ rest, v ∈ x.updates := fun v hv => hu ▸ List.mem_cons_of_mem u hv
  have horder := hx.order
  rw [hu] at horder
  exact { hx with
    keyed := fun v hv => hx.keyed v (hmem v hv)
    order := (List.pairwise_cons.1 horder).2
    between := fun v hv => hx.between v (hmem v hv) }

/-- The state after an update has been recorded. -/
def record (hsize : ℕ) (x : NatsRestart) (u : NatsUpdate) (rest : List NatsUpdate) : NatsRestart :=
  { x with
    updates := rest
    kv := x.kv.observe hsize u.key ⟨u.seq, u.msg.op⟩
    seen := x.seen ++ [(u.key, ⟨u.seq, u.msg.op⟩)] }

theorem replay_append (ops : List (Bytes × SeqOp)) (p : Bytes × SeqOp) :
    replay hsize (ops ++ [p]) = (replay hsize ops).observe hsize p.1 p.2 := by
  simp only [replay, List.foldl_append, List.foldl_cons, List.foldl_nil]

theorem OK.record {u : NatsUpdate} {rest : List NatsUpdate} (hx : OK hsize x) (hu : x.updates = u :: rest) :
    OK hsize (x.record hsize u rest) := by
  have hhead : u ∈ x.updates := hu ▸ List.mem_cons_self
  have hmem : ∀ v ∈ rest, v ∈ x.updates := fun v hv => hu ▸ List.mem_cons_of_mem u hv
  have horder := hx.order
  rw [hu] at horder
  obtain ⟨hfirst, hrest⟩ := List.pairwise_cons.1 horder
  refine ⟨?_, fun p hp => ?_, fun _ => ⟨u.key, ⟨u.seq, u.msg.op⟩, (hx.keyed u hhead).2, ?_, rfl⟩,
    fun v hv => hx.keyed v (hmem v hv), hrest,
    fun v hv => ⟨(hfirst v hv).le, (hx.between v (hmem v hv)).2⟩, ?_⟩
  · show (x.kv.observe hsize u.key ⟨u.seq, u.msg.op⟩).bt = (replay hsize (x.seen ++ [_])).bt
    rw [replay_append]
    unfold NatsKV.observe
    rw [hx.btree]
  · show p.2.seq ≤ u.seq
    rcases List.mem_append.1 hp with hp | hp
    · exact (hx.bound p hp).trans (hx.between u hhead).1
    · rw [List.mem_singleton.1 hp]
  · show (opsOf (x.seen ++ [(u.key, _)]) u.key).getLast? = _
    rw [NatsKV.opsOf_append, if_pos rfl, List.getLast?_concat]
  · exact (hx.between u hhead).2.trans (Nat.le_succ _)

theorem loop_cases (hsize : ℕ) (x : NatsRestart) (decodes : Bool) :
    (x.updates = [] ∧ x.loop hsize decodes = x) ∨ ∃ u rest, x.updates = u :: rest ∧
      ((u.skipped decodes = true ∧ x.loop hsize decodes = { x with updates := rest }) ∨
        (u.skipped decodes = false ∧ x.loop hsize decodes = x.record hsize u rest)) := by
  unfold NatsRestart.loop
  split
  · rename_i hnil
    exact .inl ⟨hnil, rfl⟩
  · rename_i u rest hu
    right
    refine ⟨u, rest, hu, ?_⟩
    by_cases hs : u.skipped decodes = true
    · rw [if_pos hs]
      exact .inl ⟨hs, rfl⟩
    · rw [if_neg hs]
      exact .inr ⟨by simpa using hs, rfl⟩

theorem OK.restart (hx : OK hsize x) : OK hsize x.restart :=
  { hx with
    keyed := fun _ hu => absurd hu List.not_mem_nil
    order := List.Pairwise.nil
    between := fun _ hu => absurd hu List.not_mem_nil
    ahead := by show x.kv.lastSeq ≤ x.kv.lastSeq - 1 + 1; omega }

theorem OK.step (hx : OK hsize x) (a : Act) : OK hsize (x.step history hsize a) := by
  cases a with
  | write m =>
    unfold NatsRestart.step
    simp only
    split
    · exact hx.write m
    · exact hx
  | compacted rev => exact { hx with }
  | handle => exact hx.handle
  | loop decodes =>
    show OK hsize (x.loop hsize decodes)
    rcases loop_cases hsize x decodes with ⟨-, h⟩ | ⟨u, rest, hu, ⟨-, h⟩ | ⟨-, h⟩⟩
    · rw [h]
      exact hx
    · rw [h]
      exact hx.skip hu
    · rw [h]
      exact hx.record hu
  | restart => exact hx.restart

theorem handle_seen (history : ℕ) (x : NatsRestart) : (x.handle history).seen = x.seen := by
  unfold NatsRestart.handle
  repeat' split
  all_goals rfl

/-- A step that records nothing leaves the slices as they are. -/
theorem recent_unseen (hpos : 0 < hsize) (hx : OK hsize x) (hP : Recent hsize x) {y : NatsRestart}
    (hy : OK hsize y) (hseen : y.seen = x.seen) : Recent hsize y := by
  rw [hy.recent_iff hpos, hseen]
  exact (hx.recent_iff hpos).1 hP

/-- **Recording an update** keeps the slices recent exactly if it is not the one recorded last. -/
theorem recent_record_iff (htwo : 2 ≤ hsize) (hx : OK hsize x) (hP : Recent hsize x) {u : NatsUpdate}
    {rest : List NatsUpdate} (hu : x.updates = u :: rest) :
    Recent hsize (x.record hsize u rest) ↔ u.seq ≠ x.kv.lastSeq := by
  have hpos : 0 < hsize := by omega
  have hhead : u ∈ x.updates := hu ▸ List.mem_cons_self
  rw [hx.recent_iff hpos] at hP
  rw [(hx.record hu).recent_iff hpos]
  have hops : ∀ k, opsOf (x.record hsize u rest).seen k =
      if u.key = k then opsOf x.seen k ++ [⟨u.seq, u.msg.op⟩] else opsOf x.seen k :=
    fun k => NatsKV.opsOf_append x.seen _ k
  constructor
  · intro hnext heq
    obtain ⟨hzero, hkey⟩ := hx.keyed u hhead
    obtain ⟨k, o, hk, ho, hseq⟩ := hx.last (by omega)
    -- the operation recorded last is the last one of the same key
    have hsame : k = u.key := by
      rw [← heq, hkey] at hk
      exact (Option.some.inj hk).symm
    subst hsame
    have hk := hnext u.key
    rw [hops, if_pos rfl, pairwise_append_iff hpos _ (hP u.key)] at hk
    have hlt : o.seq < u.seq := hk o (last_mem_room htwo ho)
    omega
  · intro hne k
    rw [hops]
    split
    · rw [pairwise_append_iff hpos _ (hP k)]
      intro a ha
      obtain ⟨p, hp, rfl⟩ := List.mem_map.1 (mem_room ha)
      have hold := hx.bound p (List.mem_of_mem_filter hp)
      have hnew := (hx.between u hhead).1
      show p.2.seq < u.seq
      omega
    · exact hP k

/-- Only the loop can be given an operation. -/
theorem fresh_other {a : Act} (ha : ∀ decodes, a ≠ .loop decodes) : Fresh x a :=
  fun decodes _ hd => absurd hd (ha decodes)

/-- **A step keeps the slices recent exactly if it is fresh.** -/
theorem recent_step_iff (htwo : 2 ≤ hsize) (hx : OK hsize x) (hP : Recent hsize x) (a : Act) :
    Recent hsize (x.step history hsize a) ↔ Fresh x a := by
  have hpos : 0 < hsize := by omega
  have hy : OK hsize (x.step history hsize a) := hx.step a
  cases a with
  | write m =>
    have hseen : (x.step history hsize (.write m)).seen = x.seen := by
      unfold NatsRestart.step
      simp only
      split <;> rfl
    exact ⟨fun _ => fresh_other (by simp), fun _ => recent_unseen hpos hx hP hy hseen⟩
  | compacted rev => exact ⟨fun _ => fresh_other (by simp), fun _ => recent_unseen hpos hx hP hy rfl⟩
  | handle =>
    exact ⟨fun _ => fresh_other (by simp), fun _ => recent_unseen hpos hx hP hy (handle_seen history x)⟩
  | restart => exact ⟨fun _ => fresh_other (by simp), fun _ => recent_unseen hpos hx hP hy rfl⟩
  | loop decodes =>
    have hstep : x.step history hsize (.loop decodes) = x.loop hsize decodes := rfl
    rcases loop_cases hsize x decodes with ⟨hnil, h⟩ | ⟨u, rest, hu, ⟨hskip, h⟩ | ⟨hskip, h⟩⟩
    · refine ⟨fun _ d u _ hhead => ?_, fun _ => recent_unseen hpos hx hP hy (by rw [hstep, h])⟩
      rw [hnil] at hhead
      cases hhead
    · refine ⟨fun _ d v hd hhead hv => ?_, fun _ => recent_unseen hpos hx hP hy (by rw [hstep, h])⟩
      cases hd
      rw [hu] at hhead
      rw [← Option.some.inj hhead, hskip] at hv
      cases hv
    · rw [hstep, h, recent_record_iff htwo hx hP hu]
      constructor
      · intro hne d v _ hhead _
        rw [hu] at hhead
        rw [← Option.some.inj hhead]
        exact hne
      · intro hfresh
        exact hfresh decodes u rfl (by rw [hu]; rfl) hskip

theorem recent_init (hpos : 0 < hsize) : Recent hsize init := by
  rw [ok_init.recent_iff hpos]
  intro k
  simp [init, NatsKV.opsOf, NatsKV.slice]

/-- **The runs in which the slices are right.** Writers, the compaction, the handler, the loop and
restarts interleave in any way. The slices are strictly increasing, short and made of the most
recent operations in every state if and only if the loop is never given the operation that it has
recorded last. -/
theorem slices_recent_iff (history hsize : ℕ) (htwo : 2 ≤ hsize) (acts : List Act) :
    Lts.Always (step history hsize) (Recent hsize) init acts ↔ Lts.Guarded (step history hsize) Fresh init acts :=
  Lts.always_iff_guarded (fun _ a hx => hx.step a) (fun _ a hx hP => recent_step_iff htwo hx hP a) acts init
    ok_init (recent_init (by omega))

/-- The condition on a step of the loop, computed. -/
theorem fresh_loop {decodes : Bool}
    (h : (x.updates.head?.all fun u => u.skipped decodes || u.seq != x.kv.lastSeq) = true) : Fresh x (.loop decodes) := by
  intro d u hd hu hskip
  cases hd
  rw [hu, Option.all_some, hskip, Bool.false_or, bne_iff_ne] at h
  exact h

/-- A put of a key. -/
def putOf (key : Bytes) : NatsMsg := .put key ⟨⟨key, [], 0, 0, 0, 0⟩, 0, true, false⟩

/-- Two puts of a key, and a restart once the compaction has passed them. -/
theorem slices_recent_compacted :
    Lts.Always (step 10 10) (Recent 10) init
      [.write (putOf (ascii "/a")), .handle, .loop true, .write (putOf (ascii "/a")), .handle, .loop true,
        .compacted 3, .restart, .handle] :=
  (slices_recent_iff 10 10 (by decide) _).2
    ⟨fresh_other (by simp), fresh_other (by simp), fresh_loop (by decide +kernel), fresh_other (by simp),
      fresh_other (by simp), fresh_loop (by decide +kernel), fresh_other (by simp), fresh_other (by simp),
      fresh_other (by simp), trivial⟩

/-- **The operation at the seam comes twice**: a watcher that has recorded one put and is restarted
records it again. -/
theorem slice_doubled :
    ((Lts.exec (step 10 10) init
      [.write (putOf (ascii "/a")), .handle, .loop true, .restart, .handle, .loop true]).slice (ascii "/a")) =
      [⟨1, .put⟩, ⟨1, .put⟩] := by
  decide +kernel

end NatsRestart

end Harikube
