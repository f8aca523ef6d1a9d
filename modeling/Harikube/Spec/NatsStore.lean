import Harikube.Spec.Nats

/-!
# The NATS backend and its bucket

The bucket is shared with other writers; `btreeWatcher` follows it. A call of `List` seeks the
btree, scans it under the read lock, fetches the values from the bucket one by one, and only then
reads the revision that it returns. Those are its steps.
-/

namespace Harikube

open Sorted

/-- `pos` counts the messages that the consumer of `btreeWatcher` has delivered. -/
structure NatsStore where
  stream : List NatsMsg
  pos : ℕ
  kv : NatsKV

/-- The key a message has for the watchers, none if its subject cannot be decoded. -/
def viewKey (key : Bytes) : Option Bytes := (encodeKey key).bind decodeKey

/-- Writers put the key into their data, and an invalid key cannot be written. -/
def NatsMsg.writable : NatsMsg → Bool
  | .put key data => encodeKey key ≠ none && data.kv.key = key
  | .marker key _ => encodeKey key ≠ none

namespace NatsStore

def init : NatsStore := ⟨[], 0, NatsKV.init⟩

/-- The next message reaches `btreeWatcher`: the handler of `Watch` drops it if it is below the
compact revision or its key cannot be decoded. `hist` is `revHistory`. -/
def observe (hist : ℕ) (s : NatsStore) : NatsStore :=
  match s.stream[s.pos]? with
  | none => s
  | some m =>
    if ((s.pos + 1 : ℕ) : ℤ) < s.kv.compactRev then { s with pos := s.pos + 1 }
    else
      match viewKey m.key with
      | none => { s with pos := s.pos + 1 }
      | some key => { s with pos := s.pos + 1, kv := s.kv.observe hist key ⟨s.pos + 1, m.op⟩ }

end NatsStore

/-- A message as a write of the multi-version store. A marker is a delete of its own. -/
def NatsMsg.write (seq : ℕ) : NatsMsg → Mvcc.Write
  | .put _ data => ⟨data.create, data.delete, (data.decode seq).kv⟩
  | .marker key _ => ⟨false, true, ⟨key, [], 0, 0, seq, 0⟩⟩

def natsWrites (stream : List NatsMsg) : List Mvcc.Write := (numbered stream).map fun m => m.1.write m.2

/-! ## A call of `List` at the current revision -/

/-- Where the call is: it has found a key to start at, it fetches what it has selected, or it has
returned. -/
inductive NatsListStage
  | idle
  | seeked
  | fetching (todo : List (Bytes × ℕ)) (kvs : List KeyValue)
  | returned (rev : ℕ) (kvs : List KeyValue)
  | failed
deriving DecidableEq

structure NatsList where
  store : NatsStore
  stage : NatsListStage

namespace NatsList

/-- The steps: a write into the bucket, a message that reaches the btree, a new compact revision,
and those of the call, which may also fail to fetch a value. -/
inductive Act
  | write (m : NatsMsg)
  | observe
  | compacted (rev : ℤ)
  | seek
  | scan
  | fetch
  | fetchFails
  | finish

/-- A call begins with `it.Seek(key)`: if there is no such key, nothing is selected. -/
def seek (key : Bytes) (x : NatsList) : NatsList :=
  match x.stage with
  | .seeked => x
  | .fetching _ _ => x
  | _ =>
    if (x.store.kv.bt.entries.dropWhile fun p => p.1 < key).isEmpty then { x with stage := .fetching [] [] }
    else { x with stage := .seeked }

def scan (key rangeEnd : Bytes) (limit : ℤ) (x : NatsList) : NatsList :=
  match x.stage with
  | .seeked => { x with stage := .fetching (x.store.kv.matchesOf key rangeEnd limit 0) [] }
  | _ => x

/-- A value that the bucket has forgotten is left out. -/
def fetch (hist : ℕ) (x : NatsList) : NatsList :=
  match x.stage with
  | .fetching ((k, seq) :: todo) kvs =>
    match natsGetRevision hist x.store.stream k seq with
    | .ok (s, data) => { x with stage := .fetching todo (kvs ++ [(data.decode s).kv]) }
    | .error .keyNotFound => { x with stage := .fetching todo kvs }
    | .error _ => { x with stage := .failed }
  | _ => x

def fetchFails (x : NatsList) : NatsList :=
  match x.stage with
  | .fetching (_ :: _) _ => { x with stage := .failed }
  | _ => x

/-- `BucketRevision`, and the return. -/
def finish (x : NatsList) : NatsList :=
  match x.stage with
  | .fetching [] kvs => { x with stage := .returned x.store.kv.lastSeq kvs }
  | _ => x

def step (hist : ℕ) (key rangeEnd : Bytes) (limit : ℤ) (x : NatsList) : Act → NatsList
  | .write m => if m.writable then { x with store := { x.store with stream := x.store.stream ++ [m] } } else x
  | .observe => { x with store := x.store.observe hist }
  | .compacted rev => { x with store := { x.store with kv := { x.store.kv with compactRev := rev } } }
  | .seek => x.seek key
  | .scan => x.scan key rangeEnd limit
  | .fetch => x.fetch hist
  | .fetchFails => x.fetchFails
  | .finish => x.finish

def init : NatsList := ⟨NatsStore.init, .idle⟩

/-- The call returns the range as it is at the revision it returns. -/
def Reflects (key rangeEnd : Bytes) (limit : ℤ) (x : NatsList) : Prop :=
  ∀ rev kvs, x.stage = .returned rev kvs →
    kvs = Mvcc.list (Mvcc.snapshotAt (natsWrites x.store.stream) rev) key rangeEnd limit

/-- The keys written round trip, no message is dropped, none of the range reaches the btree between
the scan and the return, and the bucket still has the values that the scan has selected. -/
def Steady (hist : ℕ) (key rangeEnd : Bytes) (x : NatsList) (a : Act) : Prop :=
  (∀ m, a = .write m → RoundTrips m.key) ∧
  (∀ m, a = .observe → x.store.stream[x.store.pos]? = some m →
    x.store.kv.compactRev ≤ x.store.pos + 1 ∧
      ∀ todo kvs, x.stage = .fetching todo kvs → Mvcc.inList key rangeEnd m.key = false) ∧
  ∀ k seq todo kvs, a = .fetch → x.stage = .fetching ((k, seq) :: todo) kvs →
    retained hist x.store.stream k seq = true

end NatsList

end Harikube
