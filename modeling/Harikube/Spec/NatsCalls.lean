import Harikube.Spec.NatsStore

/-!
# The writes of the NATS backend

`Create`, `Update` and `Delete` (`pkg/drivers/nats/backend.go`) read the key first and then write
with what they have read: a create or an update of the bucket, and for a delete a tombstone and
after it a delete marker. Each read and each write is a step, so that calls interleave; a write may
fail, also after it has taken effect, and the process may stop between two writes.
-/

namespace Harikube

open Sorted

namespace NatsStore

/-- `KeyValue.GetRevision`. -/
def getRevision (hist : ℕ) (s : NatsStore) (key : Bytes) (revision : ℤ) (check : Bool) : Except Err (ℕ × NatsData) :=
  let revision := if revision < 0 then 0 else revision
  match if check then s.kv.checkRevision key revision else none with
  | some e => .error e
  | none =>
    match s.kv.getRevisionOp key revision false with
    | none => .error .keyNotFound
    | some op => natsGetRevision hist s.stream key (if revision > 0 then op.seq else revision)

/-- `Backend.get`: the revision, and the data unless it is a tombstone and those are not allowed. -/
def get (hist : ℕ) (s : NatsStore) (key : Bytes) (revision : ℤ) (allowDeletes check : Bool) :
    ℤ × Except Err (Option NatsData) :=
  match s.getRevision hist key revision check with
  | .error e => (s.kv.lastSeq, .error e)
  | .ok (seq, data) =>
    let nd := data.decode seq
    let nd := if nd.create then { nd with kv := { nd.kv with createRevision := seq, modRevision := seq } } else nd
    if nd.delete && !allowDeletes then (s.kv.lastSeq, .ok none) else (seq, .ok (some nd))

/-- The second part of `KeyValue.List`; values that are not found are left out. -/
def fetchAll (hist : ℕ) (stream : List NatsMsg) : List (Bytes × ℕ) → Except Err (List KeyValue)
  | [] => .ok []
  | (k, seq) :: rest =>
    match natsGetRevision hist stream k seq with
    | .ok (s, data) => (fetchAll hist stream rest).map ((data.decode s).kv :: ·)
    | .error .keyNotFound => fetchAll hist stream rest
    | .error e => .error e

/-- `Backend.Get` at revision 0, a list of one key, when nothing else happens meanwhile. -/
def getCurrent (hist : ℕ) (s : NatsStore) (key : Bytes) : Except Err (Option KeyValue) :=
  (fetchAll hist s.stream (s.kv.matchesOf key [] 1 0)).map List.head?

/-- The data that `Create` writes. -/
def createData (key value : Bytes) (lease prevRevision : ℤ) : NatsData :=
  ⟨⟨key, value, 0, 0, 0, lease⟩, prevRevision, true, false⟩

/-- The first part of `Create`: the data and the sequence it expects, none for `KeyValue.Create`. -/
def createPlan (hist : ℕ) (s : NatsStore) (key value : Bytes) (lease : ℤ) : Except Err (NatsData × Option ℕ) :=
  match s.get hist key 0 true true with
  | (_, .error e) => if e = .keyNotFound then .ok (createData key value lease 0, none) else .error e
  | (_, .ok none) => .ok (createData key value lease 0, none)
  | (rev, .ok (some pnd)) =>
    if !pnd.delete then .error .keyExists
    else .ok (createData key value lease pnd.kv.modRevision, some rev.toNat)

/-- The first part of `Update`: none if the key is missing or its revision is another one. -/
def updatePlan (hist : ℕ) (s : NatsStore) (key value : Bytes) (revision lease : ℤ) : Option (NatsData × ℕ) :=
  match s.get hist key 0 false true with
  | (rev, .ok (some pnd)) =>
    if pnd.kv.modRevision ≠ revision then none
    else
      let createRevision := if pnd.kv.createRevision = 0 then rev else pnd.kv.createRevision
      some (⟨⟨key, value, 0, createRevision, 0, lease⟩, pnd.kv.modRevision, false, false⟩, revision.toNat)
  | _ => none

/-- The first part of `Delete`: the tombstone and the sequence it replaces. -/
def deletePlan (hist : ℕ) (s : NatsStore) (key : Bytes) (revision : ℤ) : Option (NatsData × ℕ) :=
  match s.get hist key 0 false true with
  | (rev, .ok (some pnd)) =>
    if pnd.delete then none
    else if revision ≠ 0 ∧ pnd.kv.modRevision ≠ revision then none
    else some (⟨pnd.kv, rev, false, true⟩, rev.toNat)
  | _ => none

/-- The write of `Create` and `Update`. -/
def bucketPut (stream : List NatsMsg) (key : Bytes) (data : NatsData) : Option ℕ → Except Err (List NatsMsg)
  | none => bucketCreate stream key data
  | some last => bucketUpdate stream key data last

/-- A `Create` succeeds when nothing else happens meanwhile. -/
def creates (hist : ℕ) (s : NatsStore) (key value : Bytes) (lease : ℤ) : Bool :=
  match s.createPlan hist key value lease with
  | .error _ => false
  | .ok (data, last) =>
    match bucketPut s.stream key data last with
    | .ok _ => true
    | .error _ => false

end NatsStore

/-- A call that has a write to make: a put, a tombstone, or the marker after the tombstone. -/
inductive NatsCall
  | put (key : Bytes) (data : NatsData) (last : Option ℕ)
  | tombstone (key : Bytes) (data : NatsData) (last : ℕ)
  | mark (key : Bytes) (drev : ℕ)
  | ended
deriving DecidableEq

structure NatsCalls where
  store : NatsStore
  calls : List NatsCall

namespace NatsCalls

/-- The steps. A write that is not `ok` has taken effect but is reported as failed; `fail` is a
write that has not taken effect. -/
inductive Act
  | observe
  | create (key value : Bytes) (lease : ℤ)
  | update (key value : Bytes) (revision lease : ℤ)
  | delete (key : Bytes) (revision : ℤ)
  | write (i : ℕ) (ok : Bool)
  | fail (i : ℕ)
  | crash

def addCall (x : NatsCalls) (c : NatsCall) : NatsCalls := { x with calls := x.calls ++ [c] }

/-- The bucket takes a write, or refuses it, and the call goes on as `next`, or ends. -/
def takes (x : NatsCalls) (i : ℕ) (result : Except Err (List NatsMsg)) (next : NatsCall) : NatsCalls :=
  match result with
  | .ok stream => { store := { x.store with stream := stream }, calls := x.calls.set i next }
  | .error _ => { x with calls := x.calls.set i .ended }

def write (x : NatsCalls) (i : ℕ) (ok : Bool) : NatsCalls :=
  match x.calls[i]? with
  | some (.put key data last) => x.takes i (NatsStore.bucketPut x.store.stream key data last) .ended
  | some (.tombstone key data last) =>
    x.takes i (bucketUpdate x.store.stream key data last)
      (if ok then .mark key (x.store.stream.length + 1) else .ended)
  | some (.mark key drev) => x.takes i (bucketDelete x.store.stream key drev) .ended
  | _ => x

def create (hist : ℕ) (x : NatsCalls) (key value : Bytes) (lease : ℤ) : NatsCalls :=
  match x.store.createPlan hist key value lease with
  | .ok (data, last) => x.addCall (.put key data last)
  | .error _ => x

def update (hist : ℕ) (x : NatsCalls) (key value : Bytes) (revision lease : ℤ) : NatsCalls :=
  match x.store.updatePlan hist key value revision lease with
  | some (data, last) => x.addCall (.put key data (some last))
  | none => x

def delete (hist : ℕ) (x : NatsCalls) (key : Bytes) (revision : ℤ) : NatsCalls :=
  match x.store.deletePlan hist key revision with
  | some (data, last) => x.addCall (.tombstone key data last)
  | none => x

/-- A new process, whose btree is filled again from the bucket. -/
def crash (x : NatsCalls) : NatsCalls := ⟨{ x.store with pos := 0, kv := NatsKV.init }, []⟩

def step (hist : ℕ) (x : NatsCalls) : Act → NatsCalls
  | .observe => { x with store := x.store.observe hist }
  | .create key value lease => x.create hist key value lease
  | .update key value revision lease => x.update hist key value revision lease
  | .delete key revision => x.delete hist key revision
  | .write i ok => x.write i ok
  | .fail i => { x with calls := x.calls.set i .ended }
  | .crash => x.crash

def init : NatsCalls := ⟨NatsStore.init, []⟩

/-- The last message of a key is a tombstone. -/
def Tombstoned (x : NatsCalls) (key : Bytes) : Prop :=
  ∃ m seq, lastMsg x.store.stream key = some (m, seq) ∧ m.tombstone = true

/-- A key that `Get` reports absent, with a btree that has caught up. -/
def Absent (hist : ℕ) (x : NatsCalls) (key : Bytes) : Prop :=
  x.store.pos = x.store.stream.length ∧ x.store.getCurrent hist key = .ok none

/-- It can be created if and only if its last message is no tombstone. -/
def CreatableIff (hist : ℕ) (x : NatsCalls) : Prop :=
  ∀ key value lease, RoundTrips key → x.Absent hist key →
    (x.store.creates hist key value lease = true ↔ ¬ x.Tombstoned key)

/-- With no call on its way, it can be created. -/
def Creatable (hist : ℕ) (x : NatsCalls) : Prop :=
  (∀ c ∈ x.calls, c = .ended) → ∀ key value lease, RoundTrips key → x.Absent hist key →
    x.store.creates hist key value lease = true

/-- The keys of the calls round trip. -/
def Keyed (_ : NatsCalls) : Act → Prop
  | .create key _ _ => RoundTrips key
  | .update key _ _ _ => RoundTrips key
  | .delete key _ => RoundTrips key
  | _ => True

/-- A delete that has written its tombstone also makes its second write. -/
def Whole (x : NatsCalls) (a : Act) : Prop :=
  (∀ i key data last, a = .write i false → x.calls[i]? ≠ some (.tombstone key data last)) ∧
  (∀ i key drev, a = .fail i → x.calls[i]? ≠ some (.mark key drev)) ∧
  ∀ key drev, a = .crash → NatsCall.mark key drev ∉ x.calls

end NatsCalls

end Harikube
