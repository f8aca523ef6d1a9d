import Harikube.Proof.Snapshot
import Harikube.Spec.Nats

/-!
# Reads of the NATS backend at an old revision

The btree keeps the last `hsize` operations of a key, so a read at a revision finds the operation
it is after only as long as fewer than `hsize` newer ones have followed.

* `find_replay`: the btree holds the last `hsize` operations of each key.
* `getSeqOp_eq`: the loop over them finds the last one up to the revision.
* `reads_select_iff`: `List` and `Count` select what they have to if and only if no newer
  operations have displaced it.
* `reads_miss_displaced`: ten updates make a key invisible at the revision before them.
-/

namespace Harikube

open Sorted Mvcc

namespace NatsKV

/-! ## The slice of a key -/

/-- The slice that `btreeWatcher` keeps: the last `hsize` operations. -/
def slice (hsize : ℕ) (l : List SeqOp) : List SeqOp := l.drop (l.length - hsize)

theorem slice_append {hsize : ℕ} (hpos : 0 < hsize) (l : List SeqOp) (o : SeqOp) :
    slice hsize (l ++ [o]) =
      (if (slice hsize l).length = hsize then (slice hsize l).tail else slice hsize l) ++ [o] := by
  have hlen : (slice hsize l).length = min l.length hsize := by
    unfold slice
    rw [List.length_drop]
    omega
  by_cases hfull : hsize ≤ l.length
  · rw [if_pos (by omega)]
    unfold slice
    rw [List.tail_drop, List.length_append, List.length_singleton,
      List.drop_append_of_le_length (by omega)]
    congr 2
    omega
  · rw [if_neg (by omega)]
    unfold slice
    rw [List.length_append, List.length_singleton, Nat.sub_eq_zero_of_le (by omega),
      Nat.sub_eq_zero_of_le (by omega)]
    rfl

theorem opsOf_append (ops : List (Bytes × SeqOp)) (p : Bytes × SeqOp) (k : Bytes) :
    opsOf (ops ++ [p]) k = if p.1 = k then opsOf ops k ++ [p.2] else opsOf ops k := by
  unfold opsOf
  rw [List.filter_append, List.map_append]
  split
  · rename_i hk
    simp [hk]
  · rename_i hk
    simp [hk]

/-- **The btree holds the last operations of each key.** -/
theorem find_replay {hsize : ℕ} (hpos : 0 < hsize) (ops : List (Bytes × SeqOp)) (k : Bytes) :
    (replay hsize ops).bt.find? k = if opsOf ops k = [] then none else some (slice hsize (opsOf ops k)) := by
  induction ops using List.reverseRecOn with
  | nil => rfl
  | append_singleton ops p ih =>
    have hstep : replay hsize (ops ++ [p]) = (replay hsize ops).observe hsize p.1 p.2 := by
      simp only [replay, List.foldl_append, List.foldl_cons, List.foldl_nil]
    rw [hstep, opsOf_append]
    simp only [observe]
    rw [OMap.find_insert]
    by_cases hk : k = p.1
    · subst hk
      have hval : ((replay hsize ops).bt.find? p.1).getD [] = slice hsize (opsOf ops p.1) := by
        rw [ih]
        split
        · rename_i hnil
          simp [hnil, slice]
        · rfl
      have hne : opsOf ops p.1 ++ [p.2] ≠ [] := by simp
      rw [if_pos rfl, if_pos rfl, hval, if_neg hne, slice_append hpos]
    · rw [if_neg hk, if_neg (Ne.symm hk), ih]

theorem getSeqOpLoop_eq {r : ℤ} (hr : 0 < r) (l : List SeqOp) :
    getSeqOpLoop r false l = (l.find? fun o => (o.seq : ℤ) ≤ r).filter fun o => o.op = .put := by
  induction l with
  | nil => rfl
  | cons o older ih =>
    unfold getSeqOpLoop
    by_cases ho : (o.seq : ℤ) ≤ r
    · rw [if_pos (.inr ho), List.find?_cons_of_pos (by simpa using ho)]
      by_cases hop : o.op = .put
      · simp [hop, Option.filter]
      · simp [hop, Option.filter]
    · rw [if_neg (by omega), List.find?_cons_of_neg (by simpa using ho), ih]

/-- **The loop finds the last operation up to the revision**, if it is a put. -/
theorem getSeqOp_eq {r : ℤ} (hr : 0 < r) (l : List SeqOp) :
    getSeqOp l r false = ((l.filter fun o => (o.seq : ℤ) ≤ r).getLast?).filter fun o => o.op = .put := by
  unfold getSeqOp
  rw [getSeqOpLoop_eq hr, ← List.head?_filter, List.filter_reverse, List.head?_reverse]

/-! ## What a slice still answers -/

/-- Operations in the order of their numbers split at a revision. -/
theorem filter_split {r : ℤ} : ∀ {l : List SeqOp}, (l.Pairwise fun a b => a.seq ≤ b.seq) →
    (l.filter fun o => (o.seq : ℤ) ≤ r) ++ (l.filter fun o => r < o.seq) = l := by
  intro l
  induction l with
  | nil => intro _; rfl
  | cons o l ih =>
    intro hs
    obtain ⟨ho, hl⟩ := List.pairwise_cons.1 hs
    by_cases hr : (o.seq : ℤ) ≤ r
    · rw [List.filter_cons_of_pos (by simpa using hr), List.filter_cons_of_neg (by simpa using hr),
        List.cons_append, ih hl]
    · have hall : ∀ o' ∈ l, ¬ (o'.seq : ℤ) ≤ r := fun o' ho' => by
        have := ho o' ho'
        omega
      have hnil : (l.filter fun o => (o.seq : ℤ) ≤ r) = [] :=
        List.filter_eq_nil_iff.2 fun o' ho' => by simpa using hall o' ho'
      have hself : (l.filter fun o => r < o.seq) = l :=
        List.filter_eq_self.2 fun o' ho' => by simpa using hall o' ho'
      rw [List.filter_cons_of_neg (by simpa using hr), List.filter_cons_of_pos (by simpa using hr), hnil, hself]
      rfl

/-- With fewer than `hsize` newer operations the slice has the last one up to the revision, and
otherwise it has none of those. -/
theorem getLast_slice {hsize : ℕ} {r : ℤ} {l : List SeqOp} (hs : l.Pairwise fun a b => a.seq ≤ b.seq) :
    ((slice hsize l).filter fun o => (o.seq : ℤ) ≤ r).getLast? =
      if (l.filter fun o => r < o.seq).length < hsize then (l.filter fun o => (o.seq : ℤ) ≤ r).getLast?
      else none := by
  have hsplit := filter_split (r := r) hs
  generalize hold : (l.filter fun o => (o.seq : ℤ) ≤ r) = old at hsplit ⊢
  generalize hnew : (l.filter fun o => r < o.seq) = new at hsplit ⊢
  have holdr : ∀ o ∈ old, (o.seq : ℤ) ≤ r := fun o ho => by
    rw [← hold] at ho
    simpa using (List.mem_filter.1 ho).2
  have hnewr : ∀ o ∈ new, ¬ (o.seq : ℤ) ≤ r := fun o ho => by
    rw [← hnew] at ho
    simpa using (List.mem_filter.1 ho).2
  have hnewnil : ∀ n, ((new.drop n).filter fun o => (o.seq : ℤ) ≤ r) = [] := fun n =>
    List.filter_eq_nil_iff.2 fun o ho => by simpa using hnewr o (List.mem_of_mem_drop ho)
  unfold slice
  rw [← hsplit, List.length_append, List.drop_append, List.filter_append, hnewnil, List.append_nil]
  have holdself : ((old.drop (old.length + new.length - hsize)).filter fun o => (o.seq : ℤ) ≤ r) =
      old.drop (old.length + new.length - hsize) :=
    List.filter_eq_self.2 fun o ho => by simpa using holdr o (List.mem_of_mem_drop ho)
  rw [holdself]
  split
  · rename_i hlt
    by_cases hnil : old = []
    · rw [hnil, List.drop_nil]
    · have hpos : 0 < old.length := List.length_pos_iff.2 hnil
      rw [List.getLast?_drop, if_neg (by omega)]
  · rename_i hge
    rw [List.drop_of_length_le (by omega)]
    rfl

/-! ## The scan -/

/-- What a scan without a limit collects. -/
def selected (kv : NatsKV) (key rangeEnd : Bytes) (r : ℤ) : List (Bytes × ℕ) :=
  (kv.bt.entries.filter fun p => inList key rangeEnd p.1).filterMap
    fun p => (getSeqOp p.2 r false).map fun op => (p.1, op.seq)

theorem matchesOf_eq (kv : NatsKV) (key rangeEnd : Bytes) (limit r : ℤ) :
    kv.matchesOf key rangeEnd limit r = atMost limit (kv.selected key rangeEnd r) := by
  unfold matchesOf
  rw [scan_eq _ _ _ _ _ fun h => by simpa using h, List.nil_append]
  unfold selected
  rw [← range_scan]
  rfl

theorem mem_selected {kv : NatsKV} {key rangeEnd : Bytes} {r : ℤ} {k : Bytes} {seq : ℕ} :
    (k, seq) ∈ kv.selected key rangeEnd r ↔
      inList key rangeEnd k = true ∧ ∃ val op, kv.bt.find? k = some val ∧ getSeqOp val r false = some op ∧ op.seq = seq := by
  unfold selected
  simp only [List.mem_filterMap, List.mem_filter, Option.map_eq_some_iff, Prod.mk.injEq]
  constructor
  · rintro ⟨⟨k', val⟩, ⟨hmem, hin⟩, op, hop, rfl, rfl⟩
    exact ⟨hin, val, op, OMap.mem_entries.1 hmem, hop, rfl⟩
  · rintro ⟨hin, val, op, hfind, hop, rfl⟩
    exact ⟨(k, val), ⟨OMap.mem_entries.2 hfind, hin⟩, op, hop, rfl, rfl⟩

theorem selected_sorted (kv : NatsKV) (key rangeEnd : Bytes) (r : ℤ) :
    (kv.selected key rangeEnd r).Pairwise fun a b => a.1 < b.1 := by
  refine List.Pairwise.filterMap _ ?_ (kv.bt.sorted.filter _)
  rintro ⟨k, val⟩ ⟨k', val'⟩ hlt b hb b' hb'
  obtain ⟨op, -, rfl⟩ := Option.map_eq_some_iff.1 hb
  obtain ⟨op', -, rfl⟩ := Option.map_eq_some_iff.1 hb'
  exact hlt

/-- The keys that a read at `r` selects are those whose last put it has to select and whose newer
operations leave room for it. -/
theorem mem_selected_replay {hsize : ℕ} (hpos : 0 < hsize) {ops : List (Bytes × SeqOp)}
    (hs : ops.Pairwise fun a b => a.2.seq ≤ b.2.seq) {r : ℤ} (hr : 0 < r) (c : ℤ) {key rangeEnd k : Bytes} {seq : ℕ} :
    (k, seq) ∈ selected { replay hsize ops with compactRev := c } key rangeEnd r ↔
      inList key rangeEnd k = true ∧ (newer ops k r).length < hsize ∧ lastOp ops k r = some ⟨seq, .put⟩ := by
  have hsorted : (opsOf ops k).Pairwise fun a b => a.seq ≤ b.seq := (hs.filter _).map _ fun _ _ h => h
  have hfind := find_replay hpos ops k
  have hseq : getSeqOp (slice hsize (opsOf ops k)) r false =
      (if (newer ops k r).length < hsize then lastOp ops k r else none).filter fun o => o.op = .put := by
    rw [getSeqOp_eq hr, getLast_slice hsorted]
    rfl
  have hput : ∀ o : SeqOp, (o.op = .put ∧ o.seq = seq) ↔ o = ⟨seq, .put⟩ := by
    rintro ⟨s, op⟩
    simp [and_comm]
  rw [mem_selected]
  refine and_congr_right fun _ => ?_
  by_cases hnil : opsOf ops k = []
  · -- the key has no operation at all
    rw [if_pos hnil] at hfind
    have hlast : lastOp ops k r = none := by simp [lastOp, hnil]
    simp [hfind, hlast]
  · rw [if_neg hnil] at hfind
    simp only [hfind, Option.some.injEq, exists_eq_left', exists_and_left, hseq]
    by_cases hlt : (newer ops k r).length < hsize
    · simp only [hlt, if_true, true_and, Option.filter_eq_some_iff, decide_eq_true_eq]
      constructor
      · rintro ⟨op, ⟨hop, hput'⟩, hseq'⟩
        rw [hop, (hput op).1 ⟨hput', hseq'⟩]
      · intro hop
        exact ⟨_, ⟨hop, rfl⟩, rfl⟩
    · simp [hlt]

/-- **`List` and `Count` at a revision that is not compacted select every key whose last
operation up to it is a put, with that operation, if and only if no newer operations have
displaced it.** A limit cuts the list. -/
theorem reads_select_iff (hsize : ℕ) (hpos : 0 < hsize) (ops : List (Bytes × SeqOp))
    (hs : ops.Pairwise fun a b => a.2.seq ≤ b.2.seq) (compactRev r : ℤ) (hone : 1 ≤ r) (hcompact : compactRev ≤ r)
    (hlast : r ≤ (replay hsize ops).lastSeq) (key rangeEnd : Bytes) :
    ∃ found : List (Bytes × ℕ),
      (∀ limit, listOps { replay hsize ops with compactRev := compactRev } key rangeEnd limit r =
        .ok (atMost limit found)) ∧
      count { replay hsize ops with compactRev := compactRev } key rangeEnd r = .ok found.length ∧
      (found.Pairwise fun a b => a.1 < b.1) ∧
      (Selects ops key rangeEnd r found ↔ Kept hsize ops key rangeEnd r) := by
  have hcheck : checkRevision { replay hsize ops with compactRev := compactRev } [] r = none := by
    unfold checkRevision
    rw [if_neg (by simp), if_pos (by omega), if_neg (by show ¬ r > (replay hsize ops).lastSeq; omega),
      if_neg (by show ¬ r < compactRev; omega)]
  have hlist : ∀ limit, listOps { replay hsize ops with compactRev := compactRev } key rangeEnd limit r =
      .ok (atMost limit (selected { replay hsize ops with compactRev := compactRev } key rangeEnd r)) := by
    intro limit
    unfold listOps
    rw [hcheck, matchesOf_eq]
  refine ⟨_, hlist, ?_, selected_sorted _ key rangeEnd r, ?_⟩
  · unfold count
    rw [hlist 0]
    rfl
  · have hmem : ∀ k seq, (k, seq) ∈ selected { replay hsize ops with compactRev := compactRev } key rangeEnd r ↔
        inList key rangeEnd k = true ∧ (newer ops k r).length < hsize ∧ lastOp ops k r = some ⟨seq, .put⟩ :=
      fun k seq => mem_selected_replay hpos hs (by omega) compactRev
    constructor
    · intro hsel k seq hin hop
      exact ((hmem k seq).1 ((hsel k seq).2 ⟨hin, hop⟩)).2.1
    · intro hkept k seq
      rw [hmem k seq]
      exact and_congr_right fun hin => ⟨fun h => h.2, fun hop => ⟨hkept k seq hin hop, hop⟩⟩

/-- A key that is put at the revisions from 1 on, and then another one. -/
def updates (n : ℕ) : List (Bytes × SeqOp) :=
  ((List.range n).map fun i => (ascii "/a", ⟨i + 1, .put⟩)) ++ [(ascii "/b", ⟨n + 1, .put⟩)]

/-- With the default history, a read at the first revision still finds the key after nine
updates. -/
theorem reads_select_nine :
    ∃ found, listOps { replay 10 (updates 10) with compactRev := 1 } (ascii "/") (ascii "0") 0 1 = .ok found ∧
      Selects (updates 10) (ascii "/") (ascii "0") 1 found := by
  obtain ⟨found, hlist, -, -, hsel⟩ := reads_select_iff 10 (by decide) (updates 10) (by decide) 1 1 (by decide)
    (by decide) (by decide +kernel) (ascii "/") (ascii "0")
  refine ⟨found, hlist 0, hsel.2 fun k seq hin hop => ?_⟩
  -- only the first key has an operation up to this revision
  have hfirst : ∀ p ∈ updates 10, (p.2.seq : ℤ) ≤ 1 → p.1 = ascii "/a" := by decide +kernel
  obtain ⟨hmem, hle⟩ := List.mem_filter.1 (List.mem_of_getLast? hop)
  obtain ⟨p, hp, hseq⟩ := List.mem_map.1 hmem
  obtain ⟨hp, hk⟩ := List.mem_filter.1 hp
  have hka : k = ascii "/a" := by
    rw [← hfirst p hp (by rw [hseq]; simpa using hle)]
    exact (decide_eq_true_eq.mp hk).symm
  rw [hka]
  decide +kernel

/-- **A displaced put**: after ten updates the key is missing at the revision that has
written it. -/
theorem reads_miss_displaced :
    listOps { replay 10 (updates 11) with compactRev := 1 } (ascii "/") (ascii "0") 0 1 = .ok [] ∧
      count { replay 10 (updates 11) with compactRev := 1 } (ascii "/") (ascii "0") 1 = .ok 0 ∧
      lastOp (updates 11) (ascii "/a") 1 = some ⟨1, .put⟩ := by
  decide +kernel

end NatsKV

end Harikube
