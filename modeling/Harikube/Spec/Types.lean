import Harikube.Sorted.Map

/-!
# Keys, values, events and errors

The data that the server, the backends and the watch streams exchange
(`pkg/server/types.go`). Revisions, versions and leases are `int64` counters that
only ever grow by one, so they are integers here.
-/

namespace Harikube

/-- A Go string or byte slice. The order is Go's: bytewise, a proper prefix first. -/
abbrev Bytes := List (Fin 256)

instance neZero_bytes : NeZero (256 : ℕ) := ⟨by decide⟩

/-- The bytes of an ASCII literal. -/
def ascii (s : String) : Bytes := s.toList.map fun c => Fin.ofNat 256 c.toNat

/-- A literal is the list of its characters; to compute its bytes from there is faster. -/
theorem ascii_ofList (l : List Char) : ascii (String.ofList l) = l.map fun c => Fin.ofNat 256 c.toNat := by
  unfold ascii
  rw [String.toList_ofList]

/-- The byte of a slash. -/
def slash : Fin 256 := Fin.ofNat 256 '/'.toNat

/-- The errors the modelled code returns. `decode` and `database` stand for the
errors of the object decoder and of the database driver, whose text is not read
anywhere; `join` is `errors.Join`, and `crash` a call that panics, on a nil pointer
or an index out of range. -/
inductive Err
  | keyExists
  | compacted
  | futureRev
  | notSupported
  | unhealthy
  | unsupported (field : String)
  | missing (what : String)
  | tooManyOps
  | keyNotFound
  | decode
  | database
  | join (e e' : Err)
  | crash
deriving DecidableEq

/-- `compactRevKey`: the key the apiserver tracks compaction with, also used
internally by kine for the same purpose. -/
def compactRevKey : Bytes := ascii "compact_rev_key"

/-- `compactRevAPI`: the key kine stores the apiserver's `compact_rev_key` under. -/
def compactRevAPI : Bytes := ascii "compact_rev_key_apiserver"

structure KeyValue where
  key : Bytes
  value : Bytes
  version : ℤ
  createRevision : ℤ
  modRevision : ℤ
  lease : ℤ
deriving DecidableEq

structure Event where
  delete : Bool
  create : Bool
  kv : KeyValue
  prevKV : Option KeyValue
deriving DecidableEq

/-- The key part of `Event.InRange`: the empty key watches everything, an empty
range end one key. -/
def inRange (key rangeEnd k : Bytes) : Bool :=
  key = [] || (rangeEnd ≠ [] && key ≤ k && k < rangeEnd) || k = key

/-- `Event.InRange`; a nil event is in no range. -/
def Event.inRange (e : Option Event) (key rangeEnd : Bytes) : Bool :=
  e.any fun e => Harikube.inRange key rangeEnd e.kv.key

end Harikube
