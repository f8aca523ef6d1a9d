import Harikube.Spec.Mvcc

/-!
# The t4 backend

`pkg/drivers/t4/backend.go` over a node of the t4 store. A node lists and counts the keys that have
a given prefix and are not before a given key, at its newest state or at an older revision, and its
watch delivers the events of all keys with a prefix. The backend gets a half-open range and has to
find the prefix from it.
-/

namespace Harikube

open Sorted

/-- The errors of a node that the backend translates; `other` is any other one. -/
inductive T4Error
  | noLeader
  | compacted
  | futureRevision
  | other
deriving DecidableEq

/-- `t4.KeyValue`. -/
structure T4KeyValue where
  key : Bytes
  value : Bytes
  revision : ℤ
  createRevision : ℤ
  lease : ℤ
deriving DecidableEq

/-- `t4.Event`. -/
structure T4Event where
  isDelete : Bool
  kv : T4KeyValue
  prevKV : Option T4KeyValue
deriving DecidableEq

/-- What a node answers reads with: its revisions, its key-values in key order at a revision (at
the newest one for 0), and the error of a read that fails. -/
structure T4Node where
  currentRevision : ℤ
  compactRevision : ℤ
  content : ℤ → List T4KeyValue
  failure : Option T4Error

namespace T4Node

/-- The keys that a node selects for a prefix and the options `WithRevision` and `WithFromKey`. -/
def selects (n : T4Node) (pref : Bytes) (revision : ℤ) (fromKey : Option Bytes) : List T4KeyValue :=
  (n.content revision).filter fun kv => pref.isPrefixOf kv.key && fromKey.all fun k => k ≤ kv.key

/-- `LinearizableList`, with `WithLimit`. -/
def linearizableList (n : T4Node) (pref : Bytes) (revision : ℤ) (fromKey : Option Bytes) (limit : Option ℤ) :
    Except T4Error (List T4KeyValue) :=
  match n.failure with
  | some e => .error e
  | none => .ok (Mvcc.firstN (limit.getD 0) (n.selects pref revision fromKey))

/-- `LinearizableCount`. -/
def linearizableCount (n : T4Node) (pref : Bytes) (revision : ℤ) (fromKey : Option Bytes) : Except T4Error ℤ :=
  match n.failure with
  | some e => .error e
  | none => .ok (n.selects pref revision fromKey).length

end T4Node

/-- The errors that the backend returns: those of package `server`, or one that is passed on. -/
inductive T4Backend.Err
  | noLeader
  | compacted
  | futureRev
  | passed (e : T4Error)
deriving DecidableEq

/-- `translateErr`. -/
def T4Error.translateErr : T4Error → T4Backend.Err
  | .noLeader => .noLeader
  | .compacted => .compacted
  | .futureRevision => .futureRev
  | .other => .passed .other

/-- `toServerKV`. -/
def T4KeyValue.toServerKV (kv : T4KeyValue) (keysOnly : Bool) : KeyValue :=
  ⟨kv.key, if keysOnly then [] else kv.value, 0, kv.createRevision, kv.revision, kv.lease⟩

/-- `toServerEvent`: a put is a create if there is no previous key-value. -/
def T4Event.toServerEvent (ev : T4Event) : Event :=
  ⟨ev.isDelete, !ev.isDelete && ev.prevKV.isNone, ev.kv.toServerKV false,
    ev.prevKV.map fun kv => kv.toServerKV false⟩

/-- `translateRange`: the prefix, and the key to start at. -/
def translateRange (key rangeEnd : Bytes) : Bytes × Bytes :=
  if rangeEnd ≠ [] ∧ key.length > rangeEnd.length then (key.take rangeEnd.length, key) else (key, [])

/-- The range end that etcd clients compute for a prefix: the last byte that can be incremented is,
and what follows it is cut. There is none if there is no such byte. -/
def prefixRangeEnd (pref : Bytes) : Option Bytes :=
  match pref.reverse.dropWhile fun c => c = 255 with
  | [] => none
  | c :: before => some (before.reverse ++ [c + 1])

namespace T4Node

/-- `List`; `readOpts` adds the revision if it is positive. -/
def list (n : T4Node) (key rangeEnd : Bytes) (limit revision : ℤ) (keysOnly : Bool) :
    ℤ × List KeyValue × Option T4Backend.Err :=
  let curRev := n.currentRevision
  if revision > 0 ∧ revision > curRev then (curRev, [], some .futureRev)
  else if revision > 0 ∧ revision < n.compactRevision then (curRev, [], some .compacted)
  else
    let (pref, startKey) := translateRange key rangeEnd
    let opt := if startKey ≠ [] then some startKey else none
    match n.linearizableList pref (max revision 0) opt (if limit > 0 then some limit else none) with
    | .error e => (curRev, [], some e.translateErr)
    | .ok kvs => (curRev, kvs.map fun kv => kv.toServerKV keysOnly, none)

/-- `Count`: unlike `List` it passes the start key on whenever the key is not empty, also an empty
one. -/
def count (n : T4Node) (key rangeEnd : Bytes) (revision : ℤ) : ℤ × ℤ × Option T4Backend.Err :=
  let curRev := n.currentRevision
  if revision > 0 ∧ revision > curRev then (curRev, 0, some .futureRev)
  else if revision > 0 ∧ revision < n.compactRevision then (curRev, 0, some .compacted)
  else
    let (pref, startKey) := translateRange key rangeEnd
    let opt := if key ≠ [] then some startKey else none
    match n.linearizableCount pref (max revision 0) opt with
    | .error e => (curRev, 0, some e.translateErr)
    | .ok c => (curRev, c, none)

end T4Node

/-! ## Watch -/

/-- `maxBatch`. -/
def maxBatch : ℕ := 64

/-- The loop over the channel of the node: a batch is an event and what of the following ones is
there at once. `ready` says how many there are, for one batch after the other. -/
def batches : List ℕ → List Event → List (List Event)
  | _, [] => []
  | [], ev :: evs => (ev :: evs).map fun e => [e]
  | r :: ready, ev :: evs =>
    (ev :: evs.take (min r (maxBatch - 1))) :: batches ready (evs.drop (min r (maxBatch - 1)))

/-- `node.Watch`: of the events from the revision on, those of the keys with the prefix. -/
def T4Node.watchPrefix (pref : Bytes) (events : List T4Event) : List T4Event :=
  events.filter fun ev => pref.isPrefixOf ev.kv.key

/-- `Watch`: an error at once for a start revision that is compacted, or the batches. `events` are
those of the node from the revision on. -/
def T4Node.watch (n : T4Node) (key rangeEnd : Bytes) (revision : ℤ) (events : List T4Event) (ready : List ℕ) :
    List (List Event) × Option T4Backend.Err :=
  if revision > 0 ∧ revision ≤ n.compactRevision then ([], some .compacted)
  else
    let (pref, _) := translateRange key rangeEnd
    (batches ready ((T4Node.watchPrefix pref events).map T4Event.toServerEvent), none)

/-- A read at the revision is neither in the future nor compacted, and the node does not fail. -/
def T4Node.Readable (n : T4Node) (revision : ℤ) : Prop :=
  ¬ (revision > 0 ∧ revision > n.currentRevision) ∧ ¬ (revision > 0 ∧ revision < n.compactRevision) ∧
    n.failure = none

/-- The key-values of the half-open range. -/
def T4Node.inRange (n : T4Node) (revision : ℤ) (key rangeEnd : Bytes) : List T4KeyValue :=
  (n.content (max revision 0)).filter fun kv => decide (key ≤ kv.key) && decide (kv.key < rangeEnd)

end Harikube
