import Harikube.Proof.MemoryRefine

/-!
# `List` of the in-memory backend shows every retained revision

* `listLoop_eq`: the loop over the iterator collects the live keys of the range in
  order and stops at the limit.
* `Refines.list_current`, `Refines.list_at`: a list shows the snapshot of the
  multi-version store, the current one for revision 0 and the one at revision `r`
  for every `r` from the compact revision to the current one.
* `memory_list_at_revision`: so after any sequence of writes and compactions.
-/

namespace Harikube

open Sorted Mvcc

namespace Memory

/-- What `List` shows for a key. -/
def liveAt (m : Memory) (revision : ℤ) (k : Bytes) : Option KeyValue :=
  (if revision > 0 then m.atRevision k revision else m.latest k).bind
    fun e => if e.deleted then none else some e.toKeyValue

/-- The key-value of a keys-only request. -/
def strip (keysOnly : Bool) (kv : KeyValue) : KeyValue :=
  if keysOnly then { kv with value := [] } else kv

/-- The loop goes on at key `k`. -/
def goesOn (key rangeEnd k : Bytes) : Bool :=
  !decide ((rangeEnd = [] ∧ k ≠ key) ∨ (rangeEnd ≠ [] ∧ rangeEnd ≤ k))

/-- The loop of `List` is a range scan. -/
theorem listLoop_eq_scan (m : Memory) (key rangeEnd : Bytes) (limit revision : ℤ) (keysOnly : Bool)
    (es : List (Bytes × List Entry)) :
    ∀ kvs : List KeyValue, listLoop m key rangeEnd limit revision keysOnly es kvs =
      scan (fun p => !goesOn key rangeEnd p.1) (fun p => (m.liveAt revision p.1).map (strip keysOnly)) limit es kvs := by
  induction es with
  | nil => intro kvs; rfl
  | cons p rest ih =>
    intro kvs
    obtain ⟨k, hist⟩ := p
    -- the loop body appends the key's value, if it is live
    have hbody : collect keysOnly kvs (if revision > 0 then m.atRevision k revision else m.latest k) =
        kvs ++ ((m.liveAt revision k).map (strip keysOnly)).toList := by
      unfold liveAt
      cases (if revision > 0 then m.atRevision k revision else m.latest k) with
      | none => simp [collect]
      | some e =>
        by_cases hd : e.deleted = true
        · simp [collect, hd]
        · simp [collect, hd, strip]
    simp only [listLoop, scan, goesOn, Bool.not_not, decide_eq_true_eq, hbody]
    simp only [ih, goesOn, Bool.not_not]

/-- **The loop of `List`**: the live keys of the range, cut at the limit. -/
theorem listLoop_eq (m : Memory) (key rangeEnd : Bytes) (limit revision : ℤ) (keysOnly : Bool) :
    listLoop m key rangeEnd limit revision keysOnly (m.keys.entries.dropWhile fun p => p.1 < key) [] =
      firstN limit (((m.keys.entries.filter fun p => inList key rangeEnd p.1).filterMap
        fun p => m.liveAt revision p.1).map (strip keysOnly)) := by
  rw [listLoop_eq_scan, scan_eq _ _ _ _ _ fun h => by simpa using h, List.nil_append, List.map_filterMap,
    ← range_scan]
  simp only [goesOn, Bool.not_not]
  rfl

/-- **A list shows a snapshot**, once the lookups of the snapshot are those of the list. -/
theorem list_of_snapshot (m : Memory) {s : OMap Bytes KeyValue} {revision : ℤ}
    (hs : ∀ k, s.find? k = m.liveAt revision k) (hkey : ∀ k kv, s.find? k = some kv → kv.key = k)
    (key rangeEnd : Bytes) (limit : ℤ) (keysOnly : Bool) :
    listLoop m key rangeEnd limit revision keysOnly
        (m.keys.entries.dropWhile fun p => p.1 < key) [] =
      (Mvcc.list s key rangeEnd limit).map (strip keysOnly) := by
  have hs' : s = m.keys.filterMap fun k _ => m.liveAt revision k := by
    apply OMap.ext_find
    intro k
    rw [OMap.find_filterMap, hs]
    cases hf : m.keys.find? k with
    | none =>
      unfold liveAt atRevision latest
      rw [hf]
      simp
    | some hist => rfl
  rw [listLoop_eq, hs', list_filterMap m.keys (fun k _ => m.liveAt revision k) (hs' ▸ hkey)]
  unfold firstN atMost
  split
  · rw [List.map_take]
  · rfl

variable {m : Memory} {h : List Write} {n : ℕ}

/-- **A list at revision 0 shows the current snapshot.** -/
theorem Refines.list_current (hR : Refines m h n) (key rangeEnd : Bytes) (limit : ℤ) (keysOnly : Bool)
    {revision : ℤ} (hr : revision ≤ 0) :
    m.list key rangeEnd limit revision keysOnly =
      (m.currentRevision, (Mvcc.list (snapshot h) key rangeEnd limit).map (strip keysOnly), none) := by
  have hs : ∀ k, (snapshot h).find? k = m.liveAt revision k := by
    intro k
    unfold liveAt
    rw [if_neg (by omega)]
    exact hR.find_latest k
  unfold list
  simp only
  rw [if_neg (by omega), if_neg (by omega), if_neg (by omega),
    list_of_snapshot m hs (fun k kv hf => key_of_find_snapshot hf)]

/-- **A list at a retained revision shows the snapshot at that revision.** -/
theorem Refines.list_at (hR : Refines m h n) (key rangeEnd : Bytes) (limit : ℤ) (keysOnly : Bool)
    {r : ℤ} (h0 : 0 < r) (hc : m.compactRevision ≤ r) (hr : r ≤ m.currentRevision) :
    m.list key rangeEnd limit r keysOnly =
      (r, (Mvcc.list (snapshotAt h r) key rangeEnd limit).map (strip keysOnly), none) := by
  have hs : ∀ k, (snapshotAt h r).find? k = m.liveAt r k := by
    intro k
    unfold liveAt
    rw [if_pos h0]
    exact hR.find_atRevision hc k
  unfold list
  simp only
  rw [if_neg (by omega), if_neg (by omega), if_pos (by omega),
    list_of_snapshot m hs (fun k kv hf => key_of_find_snapshot hf)]

theorem list_future (m : Memory) (key rangeEnd : Bytes) (limit : ℤ) (keysOnly : Bool) {r : ℤ}
    (h0 : 0 < r) (hr : m.currentRevision < r) :
    m.list key rangeEnd limit r keysOnly = (m.currentRevision, [], some .futureRev) := by
  unfold list
  simp only
  rw [if_pos (by omega)]

theorem list_compacted (m : Memory) (key rangeEnd : Bytes) (limit : ℤ) (keysOnly : Bool) {r : ℤ}
    (h0 : 0 < r) (hc : r < m.compactRevision) (hr : r ≤ m.currentRevision) :
    m.list key rangeEnd limit r keysOnly = (m.currentRevision, [], some .compacted) := by
  unfold list
  simp only
  rw [if_neg (by omega), if_pos (by omega)]

/-- **Every retained revision stays readable.** After any sequence of calls, with
`Mvcc.run ops` the writes that succeeded (as many as the current revision says), a
list at a revision `r` from the compact revision to the current one returns the
first `limit` live keys of the range in key order, as they were immediately after
the `r`-th write: as the multi-version store has them, and as a list of the current
revision returned them at any point of the run where `r` was current. A list at a
later revision fails with `futureRev`, at an earlier one with `compacted`. -/
theorem memory_list_at_revision (ops : List Op) (key rangeEnd : Bytes) (limit r : ℤ) :
    (run ops).currentRevision = (Mvcc.run ops).length ∧
    (0 < r → (run ops).compactRevision ≤ r → r ≤ (run ops).currentRevision →
      (run ops).list key rangeEnd limit r false =
        (r, Mvcc.list (snapshotAt (Mvcc.run ops) r) key rangeEnd limit, none) ∧
      ∀ pre post, ops = pre ++ post → (run pre).currentRevision = r →
        (run ops).list key rangeEnd limit r false = (run pre).list key rangeEnd limit 0 false) ∧
    ((run ops).currentRevision < r →
      ((run ops).list key rangeEnd limit r false).2.2 = some .futureRev) ∧
    (0 < r → r < (run ops).compactRevision →
      ((run ops).list key rangeEnd limit r false).2.2 = some .compacted) := by
  have hR := run_refines ops
  have hcur := hR.cur
  have hcl := hR.compact_le
  have hid : strip false = id := rfl
  refine ⟨hcur, ?_, ?_, ?_⟩
  · intro h0 hc hr
    have hlist := hR.list_at key rangeEnd limit false h0 hc hr
    rw [hid, List.map_id] at hlist
    refine ⟨hlist, ?_⟩
    rintro pre post rfl hpre
    have hRp := run_refines pre
    -- the first `r` writes of the whole run are the writes of the part
    have htake : (Mvcc.run (pre ++ post)).take r.toNat = Mvcc.run pre := by
      rw [show r.toNat = (Mvcc.run pre).length by rw [← hpre, hRp.cur]; rfl]
      exact List.prefix_iff_eq_take.1 (run_grows pre post) |>.symm
    rw [hlist, hRp.list_current key rangeEnd limit false le_rfl, hid, List.map_id, hpre]
    unfold snapshotAt
    rw [htake]
  · intro hr
    rw [list_future _ _ _ _ _ (by omega) hr]
  · intro h0 hc
    rw [list_compacted _ _ _ _ _ h0 hc (by omega)]

theorem memory_list_at_revision_compacted :
    let ops : List Op := [.create (ascii "/a") (ascii "1") 0, .create (ascii "/b") (ascii "2") 7,
      .update (ascii "/a") (ascii "3") 1 0, .delete (ascii "/b") 0, .compact 3, .create (ascii "/c") [] 0]
    (run ops).list (ascii "/") (ascii "0") 0 3 false =
      (3, [⟨ascii "/a", ascii "3", 2, 1, 3, 0⟩, ⟨ascii "/b", ascii "2", 1, 2, 2, 7⟩], none) :=
  ((memory_list_at_revision _ _ _ _ _).2.1 (by decide) (by decide) (by decide)).1.trans (by decide)

end Memory

end Harikube
