import Harikube.Spec.Types

/-!
# What a backend is for: a multi-version store

The abstract store is the list of all its writes, oldest first; the `r`-th write
is revision `r`. Its state at a revision is the map obtained by applying the
writes up to it. A backend may forget writes when it compacts; this store never
does, and is what the backends are compared with.
-/

namespace Harikube

/-- A call on a backend that may change its state. -/
inductive Op
  | create (key value : Bytes) (lease : ℤ)
  | update (key value : Bytes) (revision lease : ℤ)
  | delete (key : Bytes) (revision : ℤ)
  | compact (revision : ℤ)

namespace Mvcc

open Sorted

/-- A write: a put (`create` if the key was absent) or a delete, with the
key-value it leaves behind in the event stream. -/
structure Write where
  create : Bool
  delete : Bool
  kv : KeyValue
deriving DecidableEq

/-- Apply a write to the current key-values. -/
def Write.apply (s : OMap Bytes KeyValue) (w : Write) : OMap Bytes KeyValue :=
  if w.delete then s.erase w.kv.key else s.insert w.kv.key w.kv

/-- The live key-values after a sequence of writes. -/
def snapshot (h : List Write) : OMap Bytes KeyValue := h.foldl Write.apply OMap.empty

/-- The live key-values immediately after the `r`-th write. -/
def snapshotAt (h : List Write) (r : ℤ) : OMap Bytes KeyValue := snapshot (h.take r.toNat)

/-- The revision of the next write. -/
def nextRev (h : List Write) : ℤ := h.length + 1

/-- Create a key that is absent. -/
def create (h : List Write) (key value : Bytes) (lease : ℤ) : List Write :=
  match (snapshot h).find? key with
  | some _ => h
  | none => h ++ [⟨true, false, ⟨key, value, 1, nextRev h, nextRev h, lease⟩⟩]

/-- Replace the value of a key whose mod revision is `revision`. -/
def update (h : List Write) (key value : Bytes) (revision lease : ℤ) : List Write :=
  match (snapshot h).find? key with
  | none => h
  | some kv =>
    if kv.modRevision ≠ revision then h
    else h ++ [⟨false, false, ⟨key, value, kv.version + 1, kv.createRevision, nextRev h, lease⟩⟩]

/-- Delete a key whose mod revision is `revision`, or any live key for revision 0. -/
def delete (h : List Write) (key : Bytes) (revision : ℤ) : List Write :=
  match (snapshot h).find? key with
  | none => h
  | some kv =>
    if revision ≠ 0 ∧ kv.modRevision ≠ revision then h
    else h ++ [⟨false, true, { kv with modRevision := nextRev h }⟩]

/-- The writes after a call; a compaction forgets nothing here. -/
def step (h : List Write) : Op → List Write
  | .create key value lease => create h key value lease
  | .update key value revision lease => update h key value revision lease
  | .delete key revision => delete h key revision
  | .compact _ => h

/-- The writes of a sequence of calls. -/
def run (ops : List Op) : List Write := ops.foldl step []

/-- The keys of a range request: one key, or the half-open range. -/
def inList (key rangeEnd k : Bytes) : Bool :=
  if rangeEnd = [] then k = key else key ≤ k && k < rangeEnd

/-- The first `limit` elements, all of them if the limit is not positive. -/
def firstN {α : Type*} (limit : ℤ) (l : List α) : List α := if 0 < limit then l.take limit.toNat else l

/-- The key-values of a range in key order, at most `limit` of them when it is positive. -/
def list (s : OMap Bytes KeyValue) (key rangeEnd : Bytes) (limit : ℤ) : List KeyValue :=
  firstN limit (s.values.filter fun kv => inList key rangeEnd kv.key)

end Mvcc

end Harikube
