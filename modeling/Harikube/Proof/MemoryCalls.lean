import Harikube.Proof.MemoryList

/-!
# One key through the calls of the Memory backend

A client sees a key through `Get`. In a reachable state this is the key's live
key-value in the multi-version store, so what a call does to a key is read off
`Mvcc`.

* `Refines.get_current`, `Refines.get_now`: a read at revision 0 or at the current one.
* `Refines.create_content`, `Refines.update_content`, `Refines.delete_content`: the
  answer of a call and the key afterwards, from the key before it.
-/

namespace Harikube

open Mvcc Sorted

namespace Mvcc

/-- A live key-value has a positive mod revision, at most the last one. -/
theorem HistOK.modRevision_of_find {h : List Write} (hh : HistOK h) {k : Bytes} {kv : KeyValue}
    (hf : (snapshot h).find? k = some kv) : 0 < kv.modRevision ∧ kv.modRevision ≤ h.length := by
  rw [find_snapshot, live, Option.bind_eq_some_iff] at hf
  obtain ⟨w, hw, hkv⟩ := hf
  have hmem : w ∈ h := List.mem_of_mem_filter (List.mem_of_getLast? hw)
  split at hkv
  · simp at hkv
  · rw [← Option.some.inj hkv]
    exact hh.mem_le hmem

theorem firstN_map {α β : Type*} (f : α → β) (limit : ℤ) (l : List α) :
    firstN limit (l.map f) = (firstN limit l).map f := by
  unfold firstN
  split
  · exact List.map_take.symm
  · rfl

theorem values_one (h : List Write) (key : Bytes) :
    ((snapshot h).values.filter fun kv => inList key [] kv.key) = ((snapshot h).find? key).toList := by
  have hkeys : ∀ p ∈ (snapshot h).entries, p.2.key = p.1 := fun p hp =>
    key_of_find_snapshot (OMap.mem_entries.1 hp)
  unfold OMap.values inList
  rw [List.filter_map, OMap.filter_key _ key]
  · cases (snapshot h).find? key <;> rfl
  · intro b hb
    simp [hkeys b hb]

/-- A range request for one key. -/
theorem list_one (h : List Write) (key : Bytes) :
    list (snapshot h) key [] 1 = ((snapshot h).find? key).toList := by
  unfold list
  rw [values_one]
  cases (snapshot h).find? key <;> rfl

theorem find_create (h : List Write) (key value : Bytes) (lease : ℤ) :
    (snapshot (create h key value lease)).find? key =
      some (((snapshot h).find? key).getD ⟨key, value, 1, nextRev h, nextRev h, lease⟩) := by
  unfold create
  cases hf : (snapshot h).find? key with
  | none =>
    simp only
    rw [snapshot_append]
    simp [Write.apply]
  | some kv => exact hf

theorem find_update (h : List Write) (key value : Bytes) (revision lease : ℤ) :
    (snapshot (update h key value revision lease)).find? key =
      ((snapshot h).find? key).map fun kv =>
        if kv.modRevision = revision then ⟨key, value, kv.version + 1, kv.createRevision, nextRev h, lease⟩
        else kv := by
  unfold update
  cases hf : (snapshot h).find? key with
  | none => exact hf
  | some kv =>
    simp only [Option.map_some]
    by_cases hr : kv.modRevision = revision
    · rw [if_neg (not_not.2 hr), if_pos hr, snapshot_append]
      simp [Write.apply]
    · rw [if_pos hr, if_neg hr]
      exact hf

theorem find_delete (h : List Write) (key : Bytes) (revision : ℤ) :
    (snapshot (delete h key revision)).find? key =
      ((snapshot h).find? key).bind fun kv =>
        if revision = 0 ∨ kv.modRevision = revision then none else some kv := by
  unfold delete
  cases hf : (snapshot h).find? key with
  | none => exact hf
  | some kv =>
    have hkey := key_of_find_snapshot hf
    simp only [Option.bind_some]
    by_cases hr : revision = 0 ∨ kv.modRevision = revision
    · rw [if_neg (by tauto), if_pos hr, snapshot_append]
      simp [Write.apply, OMap.find_erase, hkey]
    · rw [if_pos (by tauto), if_neg hr]
      exact hf

end Mvcc

namespace Memory

variable {m : Memory} {h : List Write} {n : ℕ}

/-- What a client reads of a key. -/
def content (m : Memory) (key : Bytes) : Option KeyValue := (m.get key 0 false).2.1

theorem Refines.get_current (hR : Refines m h n) (key : Bytes) :
    m.get key 0 false = (m.currentRevision, (snapshot h).find? key, none) := by
  unfold get
  rw [hR.list_current key [] 1 false le_rfl, list_one]
  cases (snapshot h).find? key <;> rfl

/-- A read at the current revision. -/
theorem Refines.get_now (hR : Refines m h n) (key : Bytes) :
    m.get key m.currentRevision false = (m.currentRevision, (snapshot h).find? key, none) := by
  have hcur := hR.cur
  by_cases h0 : m.currentRevision = 0
  · rw [h0, hR.get_current key, h0]
  · have hnow : snapshotAt h m.currentRevision = snapshot h := by
      unfold snapshotAt
      rw [List.take_of_length_le (by omega)]
    unfold get
    rw [hR.list_at key [] 1 false (by omega) (hcur ▸ hR.compact_le) le_rfl, hnow, list_one]
    cases (snapshot h).find? key <;> rfl

theorem Refines.content_eq (hR : Refines m h n) (key : Bytes) :
    m.content key = (snapshot h).find? key := by
  unfold content
  rw [hR.get_current]

theorem Refines.content_pos (hR : Refines m h n) {key : Bytes} {kv : KeyValue}
    (hc : m.content key = some kv) :
    kv.key = key ∧ 0 < kv.modRevision ∧ kv.modRevision ≤ m.currentRevision := by
  rw [hR.content_eq] at hc
  rw [hR.cur]
  exact ⟨key_of_find_snapshot hc, hR.hist.modRevision_of_find hc⟩

theorem Refines.nextRev_eq (hR : Refines m h n) : nextRev h = m.currentRevision + 1 := by
  unfold nextRev
  rw [hR.cur]

theorem Refines.create_content (hR : Refines m h n) (key value : Bytes) (lease : ℤ) :
    (m.create key value lease).1.2 = (if (m.content key).isSome then some .keyExists else none) ∧
    (m.create key value lease).2.content key =
      some ((m.content key).getD
        ⟨key, value, 1, m.currentRevision + 1, m.currentRevision + 1, lease⟩) := by
  obtain ⟨hR', herr⟩ := create_refines hR key value lease
  rw [hR'.content_eq, hR.content_eq, find_create, hR.nextRev_eq]
  exact ⟨herr, rfl⟩

/-- A create that finds the key changes nothing and returns the current revision. -/
theorem Refines.create_exists (hR : Refines m h n) {key : Bytes} (hc : (m.content key).isSome)
    (value : Bytes) (lease : ℤ) :
    m.create key value lease = ((m.currentRevision, some .keyExists), m) := by
  have herr := (hR.create_content key value lease).1
  rw [if_pos hc] at herr
  unfold create at herr ⊢
  simp only at herr ⊢
  split at herr
  · rename_i hl
    rw [if_pos hl]
  · simp at herr

theorem Refines.update_content (hR : Refines m h n) (key value : Bytes) (revision lease : ℤ) :
    (m.update key value revision lease).1.2.2 =
      ((m.content key).any fun kv => kv.modRevision = revision, none) ∧
    (m.update key value revision lease).2.content key =
      (m.content key).map fun kv =>
        if kv.modRevision = revision then
          ⟨key, value, kv.version + 1, kv.createRevision, m.currentRevision + 1, lease⟩
        else kv := by
  obtain ⟨hR', herr⟩ := update_refines hR key value revision lease
  rw [hR'.content_eq, hR.content_eq, find_update, hR.nextRev_eq]
  exact ⟨herr, rfl⟩

theorem Refines.delete_content (hR : Refines m h n) (key : Bytes) (revision : ℤ) :
    (m.delete key revision).1.2.2 =
      ((m.content key).any fun kv => revision = 0 || kv.modRevision = revision, none) ∧
    (m.delete key revision).2.content key =
      (m.content key).bind fun kv =>
        if revision = 0 ∨ kv.modRevision = revision then none else some kv := by
  obtain ⟨hR', herr⟩ := delete_refines hR key revision
  rw [hR'.content_eq, hR.content_eq, find_delete]
  exact ⟨herr, rfl⟩

end Memory

end Harikube
