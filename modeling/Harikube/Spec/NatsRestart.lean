import Harikube.Spec.NatsStore

/-!
# The btree watcher and its restarts

`KeyValue.btreeWatcher` (`pkg/drivers/nats/kv.go`). The handler of `Watch` takes the messages
from an ordered consumer and puts them into a channel, and the loop of `btreeWatcher` takes them
out and records their operations. After an error `Start` calls `btreeWatcher` again: it asks for a
new consumer that starts with `BucketRevision`, and the channel and the consumer of the call before
are gone. The btree stays.
-/

namespace Harikube

open Sorted

/-- A message in the channel, under the key that its subject decodes to. -/
structure NatsUpdate where
  key : Bytes
  seq : ℕ
  msg : NatsMsg
deriving DecidableEq

/-- `nd.Decode` has an error: only puts are decoded. -/
def NatsUpdate.skipped (u : NatsUpdate) (decodes : Bool) : Bool :=
  match u.msg with
  | .put _ _ => !decodes
  | .marker _ _ => false

/-- `pos` is the index of the message that the consumer looks at next. `seen` records the
operations that the loop has seen, the oldest first. -/
structure NatsRestart where
  stream : List NatsMsg
  kv : NatsKV
  pos : ℕ
  updates : List NatsUpdate
  seen : List (Bytes × SeqOp)

namespace NatsRestart

/-- The capacity of the channel. -/
def updatesCap : ℕ := 100

/-- The steps: a write into the bucket, a new compact revision, the handler, the loop, which may be
unable to decode a put, and a restart after an error. -/
inductive Act
  | write (m : NatsMsg)
  | compacted (rev : ℤ)
  | handle
  | loop (decodes : Bool)
  | restart

/-- The handler of `Watch(ctx, "/", "", br)`. The consumer passes over what the bucket has
forgotten; the handler drops what is below the compact revision or has no key, and blocks while the
channel is full. -/
def handle (history : ℕ) (x : NatsRestart) : NatsRestart :=
  match x.stream[x.pos]? with
  | none => x
  | some m =>
    if updatesCap ≤ x.updates.length then x
    else if !retained history x.stream m.key (x.pos + 1) then { x with pos := x.pos + 1 }
    else if ((x.pos + 1 : ℕ) : ℤ) < x.kv.compactRev then { x with pos := x.pos + 1 }
    else
      match viewKey m.key with
      | none => { x with pos := x.pos + 1 }
      | some key => { x with pos := x.pos + 1, updates := x.updates ++ [⟨key, x.pos + 1, m⟩] }

/-- The loop of `btreeWatcher`. -/
def loop (hsize : ℕ) (x : NatsRestart) (decodes : Bool) : NatsRestart :=
  match x.updates with
  | [] => x
  | u :: rest =>
    if u.skipped decodes then { x with updates := rest }
    else
      { x with
        updates := rest
        kv := x.kv.observe hsize u.key ⟨u.seq, u.msg.op⟩
        seen := x.seen ++ [(u.key, ⟨u.seq, u.msg.op⟩)] }

/-- A new call of `btreeWatcher`: all messages if nothing has been recorded, and otherwise
`OptStartSeq` is the sequence number recorded last, so that its message is the first one. -/
def restart (x : NatsRestart) : NatsRestart := { x with pos := x.kv.lastSeq - 1, updates := [] }

def step (history hsize : ℕ) (x : NatsRestart) : Act → NatsRestart
  | .write m => if m.writable then { x with stream := x.stream ++ [m] } else x
  | .compacted rev => { x with kv := { x.kv with compactRev := rev } }
  | .handle => x.handle history
  | .loop decodes => x.loop hsize decodes
  | .restart => x.restart

def init : NatsRestart := ⟨[], NatsKV.init, 0, [], []⟩

/-- The operations that the btree keeps of a key. -/
def slice (x : NatsRestart) (k : Bytes) : List SeqOp := (x.kv.bt.find? k).getD []

/-- The slice of every key is strictly increasing, not longer than `hsize`, and the most recent
`min hsize n` of the `n` operations seen. -/
def Recent (hsize : ℕ) (x : NatsRestart) : Prop :=
  ∀ k : Bytes,
    ((x.slice k).Pairwise fun a b => a.seq < b.seq) ∧ (x.slice k).length ≤ hsize ∧
      x.slice k = (NatsKV.opsOf x.seen k).drop
        ((NatsKV.opsOf x.seen k).length - min hsize (NatsKV.opsOf x.seen k).length)

/-- The loop is not given the operation that it has recorded last. -/
def Fresh (x : NatsRestart) (a : Act) : Prop :=
  ∀ decodes u, a = .loop decodes → x.updates.head? = some u → u.skipped decodes = false →
    u.seq ≠ x.kv.lastSeq

end NatsRestart

end Harikube
