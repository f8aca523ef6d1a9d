import Harikube.Sorted.Scan
import Harikube.Spec.Mvcc
import Harikube.Spec.NatsCodec

/-!
# The NATS backend

`pkg/drivers/nats/kv.go` and `backend.go` over a JetStream key-value bucket. The bucket is the
list of all messages, of which the `n`-th has the sequence number `n`; it forgets a message once
there are `history` newer ones of its subject. The backend keeps a btree with the last operations
of each key, which a watcher fills from the bucket.
-/

namespace Harikube

open Sorted

/-- `jetstream.KeyValueOp`. -/
inductive NatsOp
  | put
  | delete
  | purge
deriving DecidableEq

/-- `natsData`. -/
structure NatsData where
  kv : KeyValue
  prevRevision : ℤ
  create : Bool
  delete : Bool
deriving DecidableEq

/-- A message: a put with its data, or a marker. The key is the one its writer has used. -/
inductive NatsMsg
  | put (key : Bytes) (data : NatsData)
  | marker (key : Bytes) (purge : Bool)
deriving DecidableEq

def NatsMsg.key : NatsMsg → Bytes
  | .put key _ => key
  | .marker key _ => key

/-- A put that is not a tombstone of `Backend.Delete`. -/
def NatsMsg.live : NatsMsg → Bool
  | .put _ data => !data.delete
  | .marker _ _ => false

/-- A tombstone of `Backend.Delete`. -/
def NatsMsg.tombstone : NatsMsg → Bool
  | .put _ data => data.delete
  | .marker _ _ => false

/-- The operation that the btree keeps of a message. -/
def NatsMsg.op : NatsMsg → NatsOp
  | .put _ data => if data.delete then .delete else .put
  | .marker _ purge => if purge then .purge else .delete

/-- `natsData.Decode` of the message with the number `seq`. -/
def NatsData.decode (d : NatsData) (seq : ℕ) : NatsData :=
  { d with kv := { d.kv with
      modRevision := seq
      createRevision := if d.kv.createRevision = 0 then seq else d.kv.createRevision } }

/-! ## The bucket -/

/-- The messages with their sequence numbers. -/
def numbered (stream : List NatsMsg) : List (NatsMsg × ℕ) := stream.zipIdx 1

/-- The last message of the subject of `key`. -/
def lastMsg (stream : List NatsMsg) (key : Bytes) : Option (NatsMsg × ℕ) :=
  (numbered stream).reverse.find? fun m => encodeKey m.1.key = encodeKey key

/-- The sequence number of the last message of a subject, 0 if it has none. -/
def lastSubjectSeq (stream : List NatsMsg) (key : Bytes) : ℕ := ((lastMsg stream key).map Prod.snd).getD 0

/-- The key-value bucket's `Create`: it succeeds if the key has no last message or that is a
marker. -/
def bucketCreate (stream : List NatsMsg) (key : Bytes) (data : NatsData) : Except Err (List NatsMsg) :=
  if encodeKey key = none then .error (.unsupported "key")
  else
    match lastMsg stream key with
    | some (.put _ _, _) => .error .keyExists
    | _ => .ok (stream ++ [.put key data])

/-- The key-value bucket's `Update`: it succeeds if `last` is the last sequence of the subject. -/
def bucketUpdate (stream : List NatsMsg) (key : Bytes) (data : NatsData) (last : ℕ) : Except Err (List NatsMsg) :=
  if encodeKey key = none then .error (.unsupported "key")
  else if lastSubjectSeq stream key = last then .ok (stream ++ [.put key data])
  else .error .keyExists

/-- The key-value bucket's `Delete` with `LastRevision`: it writes a marker. -/
def bucketDelete (stream : List NatsMsg) (key : Bytes) (last : ℕ) : Except Err (List NatsMsg) :=
  if encodeKey key = none then .error (.unsupported "key")
  else if lastSubjectSeq stream key = last then .ok (stream ++ [.marker key false])
  else .error .keyExists

/-- The bucket still has the message with the number `seq`. -/
def retained (history : ℕ) (stream : List NatsMsg) (key : Bytes) (seq : ℕ) : Bool :=
  ((stream.drop seq).filter fun m => encodeKey m.key = encodeKey key).length < history

/-- `KeyValue.getRevision`: the last message for a revision that is not positive, else the one
with that number. A marker is not found. -/
def natsGetRevision (history : ℕ) (stream : List NatsMsg) (key : Bytes) (revision : ℤ) :
    Except Err (ℕ × NatsData) :=
  if encodeKey key = none then .error (.unsupported "key")
  else if revision ≤ 0 then
    match lastMsg stream key with
    | some (.put _ data, seq) => .ok (seq, data)
    | _ => .error .keyNotFound
  else
    match (numbered stream)[revision.toNat - 1]? with
    | some (.put k data, seq) =>
      if encodeKey k = encodeKey key ∧ retained history stream key seq then .ok (seq, data)
      else .error .keyNotFound
    | _ => .error .keyNotFound

/-! ## The btree -/

/-- `seqOp`. -/
structure SeqOp where
  seq : ℕ
  op : NatsOp
deriving DecidableEq

/-- The fields of `KeyValue` that its watchers write. -/
structure NatsKV where
  bt : OMap Bytes (List SeqOp)
  lastSeq : ℕ
  compactRev : ℤ

namespace NatsKV

def init : NatsKV := ⟨OMap.empty, 0, 0⟩

/-- The loop body of `btreeWatcher`: the oldest operation of the key makes room for the new one.
`hsize` is the capacity of the slice. -/
def observe (hsize : ℕ) (kv : NatsKV) (key : Bytes) (o : SeqOp) : NatsKV :=
  let val := (kv.bt.find? key).getD []
  let val := if val.length = hsize then val.tail else val
  { kv with bt := kv.bt.insert key (val ++ [o]), lastSeq := o.seq }

/-- `checkRevision`. -/
def checkRevision (kv : NatsKV) (key : Bytes) (revision : ℤ) : Option Err :=
  if key ≠ [] ∧ kv.bt.find? key = none then some .keyNotFound
  else if revision > 0 then
    if revision > kv.lastSeq then some .futureRev
    else if revision < kv.compactRev then some .compacted
    else none
  else none

/-- The loop of `getSeqOp`, from the newest operation on. -/
def getSeqOpLoop (revision : ℤ) (allowDeleted : Bool) : List SeqOp → Option SeqOp
  | [] => none
  | op :: older =>
    if revision ≤ 0 ∨ (op.seq : ℤ) ≤ revision then
      if op.op ≠ .put ∧ !allowDeleted then none else some op
    else getSeqOpLoop revision allowDeleted older

def getSeqOp (val : List SeqOp) (revision : ℤ) (allowDeleted : Bool) : Option SeqOp :=
  getSeqOpLoop revision allowDeleted val.reverse

/-- `getRevisionOp`. -/
def getRevisionOp (kv : NatsKV) (key : Bytes) (revision : ℤ) (allowDeleted : Bool) : Option SeqOp :=
  (kv.bt.find? key).bind fun val => getSeqOp val revision allowDeleted

/-- The loop over the iterator stops. -/
def stops (key rangeEnd : Bytes) (p : Bytes × List SeqOp) : Bool :=
  (rangeEnd = [] ∧ p.1 ≠ key) ∨ (rangeEnd ≠ [] ∧ rangeEnd ≤ p.1)

/-- The scan of `List` and of `getListOps`, from `it.Seek(key)` on. -/
def matchesOf (kv : NatsKV) (key rangeEnd : Bytes) (limit revision : ℤ) : List (Bytes × ℕ) :=
  scan (stops key rangeEnd) (fun p => (getSeqOp p.2 revision false).map fun op => (p.1, op.seq)) limit
    (kv.bt.entries.dropWhile fun p => p.1 < key) []

/-- The first part of `List`: what it selects. -/
def listOps (kv : NatsKV) (key rangeEnd : Bytes) (limit revision : ℤ) : Except Err (List (Bytes × ℕ)) :=
  match kv.checkRevision [] revision with
  | some e => .error e
  | none => .ok (kv.matchesOf key rangeEnd limit revision)

/-- `Count`, by `getListOps`. -/
def count (kv : NatsKV) (key rangeEnd : Bytes) (revision : ℤ) : Except Err ℕ :=
  (kv.listOps key rangeEnd 0 revision).map List.length

/-! ## Reads at a revision -/

/-- The state after the watcher has observed some operations. -/
def replay (hsize : ℕ) (ops : List (Bytes × SeqOp)) : NatsKV :=
  ops.foldl (fun kv p => kv.observe hsize p.1 p.2) init

/-- The operations of a key, oldest first. -/
def opsOf (ops : List (Bytes × SeqOp)) (k : Bytes) : List SeqOp := (ops.filter fun p => p.1 = k).map Prod.snd

/-- The last operation of a key up to revision `r`. -/
def lastOp (ops : List (Bytes × SeqOp)) (k : Bytes) (r : ℤ) : Option SeqOp :=
  ((opsOf ops k).filter fun o => (o.seq : ℤ) ≤ r).getLast?

/-- The operations of a key after revision `r`. -/
def newer (ops : List (Bytes × SeqOp)) (k : Bytes) (r : ℤ) : List SeqOp :=
  (opsOf ops k).filter fun o => r < o.seq

/-- What a read at revision `r` has to select: the keys of the range whose last operation is a
put, each with that operation. -/
def Selects (ops : List (Bytes × SeqOp)) (key rangeEnd : Bytes) (r : ℤ) (selected : List (Bytes × ℕ)) : Prop :=
  ∀ k seq, (k, seq) ∈ selected ↔ Mvcc.inList key rangeEnd k = true ∧ lastOp ops k r = some ⟨seq, .put⟩

/-- No put that such a read has to select is displaced by newer operations of its key. -/
def Kept (hsize : ℕ) (ops : List (Bytes × SeqOp)) (key rangeEnd : Bytes) (r : ℤ) : Prop :=
  ∀ k seq, Mvcc.inList key rangeEnd k = true → lastOp ops k r = some ⟨seq, .put⟩ → (newer ops k r).length < hsize

end NatsKV

end Harikube
