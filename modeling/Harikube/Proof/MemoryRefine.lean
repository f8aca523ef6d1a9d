import Harikube.Proof.Snapshot
import Harikube.Spec.Memory

/-!
# The in-memory backend refines the multi-version store

`Refines m h n`: the state `m` represents the writes `h` after `n` successful
compactions. The history of each key is its writes trimmed at the compact
revision, and the log is the tail of the writes. Its length is where the
compactions show: each of them leaves one write more than the compact revision
accounts for (`log_len`).

* `create_refines`, `update_refines`, `delete_refines`, `compact_refines`: each
  call keeps the relation, and answers as the multi-version store does.
* `run_refines`: so every reachable state represents the writes of its run.
-/

namespace Harikube

open Sorted Mvcc

/-- The write an entry records. -/
def Entry.toWrite (e : Entry) : Write := ⟨e.created, e.deleted, e.toKeyValue⟩

@[simp] theorem Entry.toWrite_delete (e : Entry) : e.toWrite.delete = e.deleted := rfl
@[simp] theorem Entry.toWrite_create (e : Entry) : e.toWrite.create = e.created := rfl
@[simp] theorem Entry.toWrite_kv (e : Entry) : e.toWrite.kv = e.toKeyValue := rfl
@[simp] theorem Entry.toKeyValue_modRevision (e : Entry) : e.toKeyValue.modRevision = e.revision := rfl
@[simp] theorem Entry.toKeyValue_key (e : Entry) : e.toKeyValue.key = e.key := rfl

namespace Memory

/-- The history of a key, empty if it has none. -/
def histOf (m : Memory) (k : Bytes) : List Entry := (m.keys.find? k).getD []

/-- `m` represents the writes `h` after `n` successful compactions. -/
structure Refines (m : Memory) (h : List Write) (n : ℕ) : Prop where
  hist : HistOK h
  cur : m.currentRevision = h.length
  compactions_le : (n : ℤ) ≤ m.compactRevision
  compactions_pos : n = 0 → m.compactRevision = 0
  compact_le : m.compactRevision ≤ h.length
  log_len : (m.log.length : ℤ) = h.length - m.compactRevision + n
  log : m.log.map Entry.toWrite = h.drop (h.length - m.log.length)
  keys : ∀ k, (m.histOf k).map Entry.toWrite = trim m.compactRevision (ofKey h k)

variable {m : Memory} {h : List Write} {n : ℕ}

theorem new_refines : Refines new [] 0 where
  hist := histOK_nil
  cur := rfl
  compactions_le := le_rfl
  compactions_pos := fun _ => rfl
  compact_le := le_rfl
  log_len := rfl
  log := rfl
  keys := fun _ => rfl

/-! ## Reads of one key -/

theorem latest_eq (m : Memory) (k : Bytes) : m.latest k = (m.histOf k).getLast? := by
  unfold latest histOf
  cases m.keys.find? k with
  | none => rfl
  | some hist => rfl

theorem live_map_toWrite (l : List Entry) :
    live (l.map Entry.toWrite) =
      l.getLast?.bind fun e => if e.deleted then none else some e.toKeyValue := by
  unfold live
  rw [List.getLast?_map, Option.bind_map]
  rfl

/-- The latest entry of a key is its live value, or a tombstone, or nothing. -/
theorem Refines.find_latest (hR : Refines m h n) (k : Bytes) :
    (snapshot h).find? k =
      (m.latest k).bind fun e => if e.deleted then none else some e.toKeyValue := by
  rw [find_snapshot, ← live_trim_all (ofKey_sorted hR.hist k) m.compactRevision, ← hR.keys k,
    live_map_toWrite, latest_eq]

/-- The history of a key is in revision order. -/
theorem Refines.histOf_sorted (hR : Refines m h n) (k : Bytes) :
    (m.histOf k).Pairwise fun a b => a.revision < b.revision := by
  have hs : ((m.histOf k).map Entry.toWrite).Pairwise
      fun a b => a.kv.modRevision < b.kv.modRevision := by
    rw [hR.keys k]
    exact trim_sorted (ofKey_sorted hR.hist k) _
  rw [List.pairwise_map] at hs
  exact hs

theorem atRevisionLoop_eq (revision : ℤ) (l : List Entry) :
    ∀ result, atRevisionLoop revision l result =
      (l.takeWhile fun e => e.revision ≤ revision).getLast?.or result := by
  induction l with
  | nil => intro result; rfl
  | cons e es ih =>
    intro result
    unfold atRevisionLoop
    by_cases he : e.revision ≤ revision
    · rw [if_pos he, ih, List.takeWhile_cons_of_pos (by simpa using he), List.getLast?_cons]
      cases (es.takeWhile fun e => e.revision ≤ revision).getLast? <;> rfl
    · rw [if_neg he, List.takeWhile_cons_of_neg (by simpa using he)]
      rfl

/-- In revision order, the loop of `atRevision` finds the last entry up to `revision`. -/
theorem takeWhile_revision {l : List Entry} (hs : l.Pairwise fun a b => a.revision < b.revision)
    (r : ℤ) : (l.takeWhile fun e => e.revision ≤ r) = l.filter fun e => e.revision ≤ r := by
  apply takeWhile_eq_filter Entry.revision _ hs
  intro x _ y _ hxy hy
  simp only [decide_eq_true_eq] at hy ⊢
  omega

theorem map_filter_toWrite (l : List Entry) (r : ℤ) :
    (l.filter fun e => e.revision ≤ r).map Entry.toWrite =
      (l.map Entry.toWrite).filter fun w => w.kv.modRevision ≤ r := by
  rw [List.filter_map]
  rfl

/-- The entry at a revision from the compact revision on is the value the key had then. -/
theorem Refines.find_atRevision (hR : Refines m h n) {r : ℤ} (hr : m.compactRevision ≤ r) (k : Bytes) :
    (snapshotAt h r).find? k =
      (m.atRevision k r).bind fun e => if e.deleted then none else some e.toKeyValue := by
  have hat : m.atRevision k r = ((m.histOf k).filter fun e => e.revision ≤ r).getLast? := by
    rw [← takeWhile_revision (hR.histOf_sorted k)]
    unfold atRevision histOf
    cases m.keys.find? k with
    | none => rfl
    | some hist =>
      rw [Option.bind_some, atRevisionLoop_eq, Option.or_none]
      rfl
  rw [find_snapshotAt hR.hist, ← live_trim (ofKey_sorted hR.hist k) hr, ← hR.keys k,
    ← map_filter_toWrite, live_map_toWrite, hat]

/-! ## Writes -/

/-- **Appending an entry with the next revision appends its write.** -/
theorem Refines.appendEntry (hR : Refines m h n) {e : Entry} (he : e.revision = m.currentRevision + 1) :
    Refines (m.appendEntry e) (h ++ [e.toWrite]) n := by
  have hcur := hR.cur
  have hlen := hR.log_len
  have hcn := hR.compactions_le
  have hcl := hR.compact_le
  have hrev : e.toWrite.kv.modRevision = nextRev h := by
    unfold nextRev
    simp only [Entry.toWrite_kv, Entry.toKeyValue_modRevision]
    omega
  set e' : Entry := { e with prev := ((m.keys.find? e.key).getD []).getLast?.map Entry.toKeyValue }
  refine ⟨hR.hist.append hrev, ?_, hcn, hR.compactions_pos, ?_, ?_, ?_, ?_⟩
  · simp only [Memory.appendEntry, List.length_append, List.length_singleton]
    push_cast
    omega
  · simp only [Memory.appendEntry, List.length_append, List.length_singleton]
    push_cast
    omega
  · simp only [Memory.appendEntry, List.length_append, List.length_singleton]
    push_cast
    omega
  · have h1 : (m.appendEntry e).log = m.log ++ [e'] := rfl
    rw [h1, List.map_append, hR.log, List.length_append, List.length_append]
    simp only [List.length_singleton, List.map_cons, List.map_nil]
    rw [Nat.add_sub_add_right, List.drop_append_of_le_length (by omega)]
    rfl
  · intro k
    have hkeys : (m.appendEntry e).histOf k =
        if k = e.key then m.histOf k ++ [e'] else m.histOf k := by
      unfold histOf
      simp only [Memory.appendEntry, OMap.find_insert]
      by_cases hk : k = e.key
      · rw [if_pos hk, if_pos hk, Option.getD_some, hk]
      · rw [if_neg hk, if_neg hk]
    have hcomp : (m.appendEntry e).compactRevision = m.compactRevision := rfl
    rw [hkeys, hcomp, ofKey_append]
    by_cases hk : k = e.key
    · subst hk
      have hk' : e.toWrite.kv.key = e.key := rfl
      rw [if_pos rfl, if_pos hk', List.map_append, hR.keys, trim_append]
      · rfl
      · rw [hrev]
        unfold nextRev
        omega
    · have hk' : e.toWrite.kv.key ≠ k := fun hc => hk hc.symm
      rw [if_neg hk, if_neg hk', hR.keys]

/-- **`Create`** writes if and only if the key is absent. -/
theorem create_refines (hR : Refines m h n) (key value : Bytes) (lease : ℤ) :
    Refines (m.create key value lease).2 (Mvcc.create h key value lease) n ∧
      (m.create key value lease).1.2 =
        if ((snapshot h).find? key).isSome then some .keyExists else none := by
  have hf := hR.find_latest key
  have hn : nextRev h = m.currentRevision + 1 := by unfold nextRev; rw [hR.cur]
  unfold create Mvcc.create
  simp only
  cases hl : m.latest key with
  | none =>
    rw [hl] at hf
    rw [hf]
    refine ⟨?_, by simp⟩
    rw [hn]
    exact hR.appendEntry (e := ⟨_, key, value, _, 1, _, lease, true, false, none⟩) rfl
  | some e =>
    rw [hl] at hf
    by_cases hd : e.deleted = true
    · rw [Option.bind_some, if_pos hd] at hf
      rw [hf]
      simp only [Option.any_some, hd, Bool.not_true, Bool.false_eq_true, if_false, Option.isSome_none,
        Option.map_some, Option.getD_some, and_true]
      rw [hn]
      exact hR.appendEntry (e := ⟨_, key, value, _, 1, _, lease, true, false, none⟩) rfl
    · rw [Option.bind_some, if_neg hd] at hf
      rw [hf]
      simpa [hd] using hR

/-- **`Update`** writes if and only if the key's mod revision is the given one. -/
theorem update_refines (hR : Refines m h n) (key value : Bytes) (revision lease : ℤ) :
    Refines (m.update key value revision lease).2 (Mvcc.update h key value revision lease) n ∧
      (m.update key value revision lease).1.2.2 =
        (((snapshot h).find? key).any fun kv => kv.modRevision = revision, none) := by
  have hf := hR.find_latest key
  have hn : nextRev h = m.currentRevision + 1 := by unfold nextRev; rw [hR.cur]
  unfold update Mvcc.update
  cases hl : m.latest key with
  | none =>
    rw [hl] at hf
    rw [hf]
    exact ⟨hR, rfl⟩
  | some e =>
    rw [hl, Option.bind_some] at hf
    by_cases hd : e.deleted = true
    · rw [if_pos hd] at hf
      rw [hf]
      simpa [hd] using hR
    · rw [if_neg hd] at hf
      rw [hf]
      by_cases hrev : e.revision = revision
      · simp only [hd, hrev, ne_eq, not_true_eq_false, if_false, Entry.toKeyValue_modRevision,
          Option.any_some, decide_true, Bool.false_eq_true, and_true]
        rw [hn]
        exact hR.appendEntry (e := ⟨_, key, value, _, _, _, lease, false, false, none⟩) rfl
      · simpa [hd, hrev] using hR

/-- **`Delete`** writes if and only if the key is live and, for a nonzero revision,
its mod revision is the given one. -/
theorem delete_refines (hR : Refines m h n) (key : Bytes) (revision : ℤ) :
    Refines (m.delete key revision).2 (Mvcc.delete h key revision) n ∧
      (m.delete key revision).1.2.2 =
        (((snapshot h).find? key).any fun kv => revision = 0 || kv.modRevision = revision, none) := by
  have hf := hR.find_latest key
  have hn : nextRev h = m.currentRevision + 1 := by unfold nextRev; rw [hR.cur]
  unfold delete Mvcc.delete
  cases hl : m.latest key with
  | none =>
    rw [hl] at hf
    rw [hf]
    exact ⟨hR, rfl⟩
  | some e =>
    rw [hl, Option.bind_some] at hf
    by_cases hd : e.deleted = true
    · rw [if_pos hd] at hf
      rw [hf]
      simpa [hd] using hR
    · rw [if_neg hd] at hf
      have hek : e.key = key := by
        have := key_of_find_snapshot hf
        simpa using this
      rw [hf]
      by_cases hrev : revision ≠ 0 ∧ e.revision ≠ revision
      · simpa [hd, hrev] using hR
      · simp only [hd, hrev, if_false, Entry.toKeyValue_modRevision, Option.any_some,
          Bool.false_eq_true]
        refine ⟨?_, ?_⟩
        · rw [hn, ← hek]
          exact hR.appendEntry (e := ⟨_, e.key, _, _, _, _, _, false, true, none⟩) rfl
        · have hor : revision = 0 ∨ e.revision = revision := by tauto
          rcases hor with h0 | h0 <;> simp [h0]

/-! ## Compaction -/

theorem floorIdx_eq (r : ℤ) (l : List Entry) :
    ∀ i floor, floorIdx r l i floor =
      if (l.takeWhile fun e => e.revision ≤ r).length = 0 then floor
      else some (i + (l.takeWhile fun e => e.revision ≤ r).length - 1) := by
  induction l with
  | nil => intro i floor; rfl
  | cons e es ih =>
    intro i floor
    unfold floorIdx
    by_cases he : e.revision ≤ r
    · rw [if_pos he, ih, List.takeWhile_cons_of_pos (by simpa using he), List.length_cons,
        if_neg (Nat.succ_ne_zero _)]
      split
      · rename_i h0
        rw [h0]
        rfl
      · congr 1
        omega
    · rw [if_neg he, List.takeWhile_cons_of_neg (by simpa using he)]
      rfl

theorem newHist_suffix (r : ℤ) (l : List Entry) : newHist r l <:+ l := by
  unfold newHist
  split
  · exact List.suffix_refl l
  · split
    · exact List.drop_suffix _ _
    · exact List.drop_suffix _ _

/-- **The scan of `Compact` trims a history at the compact revision.** -/
theorem newHist_toWrite {l : List Entry} (hs : l.Pairwise fun a b => a.revision < b.revision) (r : ℤ) :
    (newHist r l).map Entry.toWrite = trim r (l.map Entry.toWrite) := by
  have hle : ((l.map Entry.toWrite).filter fun w => w.kv.modRevision ≤ r) =
      (l.takeWhile fun e => e.revision ≤ r).map Entry.toWrite := by
    rw [takeWhile_revision hs, map_filter_toWrite]
  have hgt : ((l.map Entry.toWrite).filter fun w => r < w.kv.modRevision) =
      (l.dropWhile fun e => e.revision ≤ r).map Entry.toWrite := by
    rw [dropWhile_eq_filter Entry.revision _ hs, List.filter_map]
    · congr 1
      apply List.filter_congr
      intro e _
      exact decide_lt_eq_not e.revision r
    · intro x _ y _ hxy hy
      simp only [decide_eq_true_eq] at hy ⊢
      omega
  have hsplit : (l.takeWhile fun e => e.revision ≤ r) ++ (l.dropWhile fun e => e.revision ≤ r) = l :=
    List.takeWhile_append_dropWhile
  unfold trim floor
  rw [hle, hgt]
  unfold newHist
  rw [floorIdx_eq]
  rcases List.eq_nil_or_concat (l.takeWhile fun e => e.revision ≤ r) with hA | ⟨A, a, hA⟩
  · -- no entry at or below the compact revision
    rw [hA] at hsplit ⊢
    rw [List.nil_append] at hsplit
    rw [hsplit]
    rfl
  · rw [List.concat_eq_append] at hA
    rw [hA] at hsplit ⊢
    set B := l.dropWhile fun e => e.revision ≤ r
    have hlen : (A ++ [a]).length ≠ 0 := by simp
    have hidx : 0 + (A ++ [a]).length - 1 = A.length := by simp
    have hget : l[A.length]? = some a := by
      rw [← hsplit, List.append_assoc, List.getElem?_append_right le_rfl]
      simp
    have hdrop : l.drop A.length = a :: B := by
      rw [← hsplit, List.append_assoc, List.drop_left]
      rfl
    have hdrop1 : l.drop (A.length + 1) = B := by
      rw [← List.drop_drop, hdrop]
      rfl
    rw [if_neg hlen, hidx]
    simp only [hget, hdrop, hdrop1, List.map_append, List.map_cons, List.map_nil]
    by_cases hd : a.deleted = true
    · simp [Option.filter, hd]
    · simp [Option.filter, hd]

theorem clearPrev_toWrite (l : List Entry) :
    (clearPrev l).map Entry.toWrite = l.map Entry.toWrite := by
  cases l with
  | nil => rfl
  | cons e es => rfl

theorem compactHist_toWrite {l : List Entry} (hs : l.Pairwise fun a b => a.revision < b.revision) (r : ℤ) :
    ((compactHist r l).getD []).map Entry.toWrite = trim r (l.map Entry.toWrite) := by
  rw [← newHist_toWrite hs]
  unfold compactHist
  simp only
  split
  · rename_i h0
    rw [h0]
    rfl
  · split
    · rw [Option.getD_some, clearPrev_toWrite]
    · rename_i hlen
      rw [(newHist_suffix r l).eq_of_length (not_not.1 hlen)]
      rfl

/-- **A successful `Compact`** keeps the writes and leaves one more of them in the
log than the new compact revision accounts for. -/
theorem Refines.compact (hR : Refines m h n) {r : ℤ} (hr : m.compactRevision < r)
    (hcur : r ≤ m.currentRevision) : Refines (m.compact r).2 h (n + 1) := by
  have hc := hR.cur
  have hlen := hR.log_len
  have hcn := hR.compactions_le
  have hcl := hR.compact_le
  have hlog : ∀ l : List Entry, ∀ c : List ℤ,
      (l.map fun e => if e.revision ∈ c then { e with prev := none } else e).map Entry.toWrite =
        l.map Entry.toWrite := by
    intro l c
    rw [List.map_map]
    apply List.map_congr_left
    intro e _
    simp only [Function.comp_apply]
    split <;> rfl
  -- dropping `cut` entries; a cut of 0 drops none
  have hcut : ∀ l : List Entry,
      (if r - m.compactRevision - 1 > 0 then l.drop (r - m.compactRevision - 1).toNat else l) =
        l.drop (r - m.compactRevision - 1).toNat := by
    intro l
    split
    · rfl
    · rename_i h0
      rw [show (r - m.compactRevision - 1).toNat = 0 by omega, List.drop_zero]
  unfold Memory.compact
  simp only
  rw [if_neg (by omega), if_neg (by omega), hcut]
  refine ⟨hR.hist, hc, by push_cast; omega, by omega, by simp only; omega, ?_, ?_, ?_⟩
  · simp only [List.length_map, List.length_drop]
    push_cast
    omega
  · simp only [List.length_map, List.length_drop]
    rw [hlog, List.map_drop, hR.log, List.drop_drop]
    congr 1
    omega
  · intro k
    have hk : (m.keys.filterMap fun _ hist => compactHist r hist).find? k =
        (m.keys.find? k).bind (compactHist r) := OMap.find_filterMap _ _ _
    unfold histOf
    simp only [hk]
    have hkeys := hR.keys k
    have hs := hR.histOf_sorted k
    unfold histOf at hkeys hs
    rw [← trim_trim (ofKey_sorted hR.hist k) hr.le, ← hkeys]
    cases hf : m.keys.find? k with
    | none => rfl
    | some hist =>
      rw [hf] at hs
      exact compactHist_toWrite hs r

/-- A `Compact` outside the retained revisions fails and changes nothing. -/
theorem compact_fails (m : Memory) {r : ℤ} (hr : ¬ (m.compactRevision < r ∧ r ≤ m.currentRevision)) :
    (m.compact r).2 = m := by
  unfold Memory.compact
  simp only
  split
  · rfl
  · split
    · rfl
    · omega

/-! ## Runs -/

/-- Whether a call is a compaction that succeeds. -/
def compacts (m : Memory) : Op → Bool
  | .compact r => m.compactRevision < r && r ≤ m.currentRevision
  | _ => false

/-- The number of successful compactions after a call, from their number before it. -/
def countCompactions (m : Memory) (n : ℕ) (op : Op) : ℕ := if m.compacts op then n + 1 else n

/-- The number of compactions that succeed in a sequence of calls on `m`. -/
def compactionsFrom (m : Memory) : ℕ → List Op → ℕ
  | n, [] => n
  | n, op :: ops => compactionsFrom (m.step op) (m.countCompactions n op) ops

/-- The number of compactions that succeed in a sequence of calls on a new backend. -/
def compactions (ops : List Op) : ℕ := compactionsFrom new 0 ops

/-- **Every call keeps the relation.** -/
theorem step_refines (hR : Refines m h n) (op : Op) :
    Refines (m.step op) (Mvcc.step h op) (m.countCompactions n op) := by
  cases op with
  | create key value lease => exact (create_refines hR key value lease).1
  | update key value revision lease => exact (update_refines hR key value revision lease).1
  | delete key revision => exact (delete_refines hR key revision).1
  | compact r =>
    show Refines (m.compact r).2 h _
    unfold countCompactions compacts
    by_cases hr : m.compactRevision < r ∧ r ≤ m.currentRevision
    · rw [if_pos (by simpa using hr)]
      exact hR.compact hr.1 hr.2
    · rw [if_neg (by simpa using hr), compact_fails m hr]
      exact hR

theorem foldl_refines (ops : List Op) : ∀ {m : Memory} {h : List Write} {n : ℕ}, Refines m h n →
    Refines (ops.foldl step m) (ops.foldl Mvcc.step h) (compactionsFrom m n ops) := by
  induction ops with
  | nil => intro m h n hR; exact hR
  | cons op ops ih => intro m h n hR; exact ih (step_refines hR op)

/-- **Every reachable state represents the writes of its run.** -/
theorem run_refines (ops : List Op) : Refines (run ops) (Mvcc.run ops) (compactions ops) :=
  foldl_refines ops new_refines

end Memory

end Harikube
