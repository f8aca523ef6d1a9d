import Harikube.Spec.NatsRestart

/-!
# Replay at start and waiting for a sequence

`KeyValue.btreeWatcher`, `waitReady` and `waitForSequence` (`pkg/drivers/nats/kv.go`). The first
call of `btreeWatcher` replays the bucket and closes `readyCh` once it has recorded the sequence
that was the last one when it began; `Backend.Start` waits for that. A write waits until the btree
has its sequence: `lastSeq` is compared, and otherwise a goroutine waits on the condition variable
`seqCond`. `btreeWatcher` stores `lastSeq` and then broadcasts without the lock of `seqCond`.
-/

namespace Harikube

/-- Where `btreeWatcher` is: between two calls, in its loop, or after it has recorded `seq` and
before its broadcast. `target` is the last sequence of the bucket when the call began. -/
inductive BtreeWatcher
  | stopped
  | running (target : ℕ) (replay : Bool)
  | stored (target : ℕ) (replay : Bool) (seq : ℕ)
deriving DecidableEq

/-- Where a call of `waitForSequence` is: before the first test, in the loop of its goroutine before
the test or between the test and `Wait`, in `Wait`, at the closed channel `done`, or returned,
without an error or with one. -/
inductive WaitStage
  | entered
  | testing
  | unmet
  | sleeping
  | done
  | returned (ok : Bool)
deriving DecidableEq

/-- `closes` counts how often `readyCh` has been closed; a second time is a panic. -/
structure NatsReady where
  btree : NatsRestart
  watcher : BtreeWatcher
  ready : Bool
  closes : ℕ
  waits : List (ℕ × WaitStage)

namespace NatsReady

/-- The steps: a write into the bucket, a new compact revision, the steps of `btreeWatcher` and of
the handler of its watch, and those of the calls of `waitForSequence`. -/
inductive Act
  | write (m : NatsMsg)
  | compacted (rev : ℤ)
  | begin
  | handle
  | loop (decodes : Bool)
  | broadcast
  | fail
  | wait (seq : ℕ)
  | enter (i : ℕ)
  | test (i : ℕ)
  | sleep (i : ℕ)
  | receive (i : ℕ)
  | timeout (i : ℕ)

def lastSeq (x : NatsReady) : ℕ := x.btree.kv.lastSeq

/-- `seqCond.Broadcast`. -/
def wake : WaitStage → WaitStage
  | .sleeping => .testing
  | s => s

def wakeAll (waits : List (ℕ × WaitStage)) : List (ℕ × WaitStage) := waits.map fun w => (w.1, wake w.2)

/-- `btreeWatcher` up to its loop. An empty bucket has nothing to replay. -/
def begin (x : NatsReady) : NatsReady :=
  match x.watcher with
  | .stopped =>
    let target := x.btree.stream.length
    if x.lastSeq = 0 ∧ target = 0 then
      { x with btree := x.btree.restart, watcher := .running target false, ready := true, closes := x.closes + 1 }
    else { x with btree := x.btree.restart, watcher := .running target (x.lastSeq = 0) }
  | _ => x

def handle (history : ℕ) (x : NatsReady) : NatsReady :=
  match x.watcher with
  | .stopped => x
  | _ => { x with btree := x.btree.handle history }

/-- An update that cannot be decoded is skipped. -/
def loop (hsize : ℕ) (x : NatsReady) (decodes : Bool) : NatsReady :=
  match x.watcher, x.btree.updates with
  | .running target replay, u :: _ =>
    if u.skipped decodes then { x with btree := x.btree.loop hsize decodes }
    else { x with btree := x.btree.loop hsize decodes, watcher := .stored target replay u.seq }
  | _, _ => x

/-- The broadcast after an update was recorded, and the end of the replay. -/
def broadcast (x : NatsReady) : NatsReady :=
  match x.watcher with
  | .stored target replay seq =>
    let x := { x with watcher := .running target replay, waits := wakeAll x.waits }
    if replay ∧ target ≤ seq ∧ x.ready = false then { x with ready := true, closes := x.closes + 1 } else x
  | _ => x

/-- The watch reports an error, and the call returns. -/
def fail (x : NatsReady) : NatsReady :=
  match x.watcher with
  | .running _ _ => { x with watcher := .stopped }
  | _ => x

def setWait (x : NatsReady) (i : ℕ) (w : ℕ × WaitStage) : NatsReady := { x with waits := x.waits.set i w }

def enter (x : NatsReady) (i : ℕ) : NatsReady :=
  match x.waits[i]? with
  | some (seq, .entered) => x.setWait i (seq, if seq ≤ x.lastSeq then .returned true else .testing)
  | _ => x

def test (x : NatsReady) (i : ℕ) : NatsReady :=
  match x.waits[i]? with
  | some (seq, .testing) => x.setWait i (seq, if seq ≤ x.lastSeq then .done else .unmet)
  | _ => x

def sleep (x : NatsReady) (i : ℕ) : NatsReady :=
  match x.waits[i]? with
  | some (seq, .unmet) => x.setWait i (seq, .sleeping)
  | _ => x

def receive (x : NatsReady) (i : ℕ) : NatsReady :=
  match x.waits[i]? with
  | some (seq, .done) => x.setWait i (seq, .returned true)
  | _ => x

/-- The timer of the call fires or its context ends: it broadcasts and returns an error. -/
def timeout (x : NatsReady) (i : ℕ) : NatsReady :=
  match x.waits[i]? with
  | some (_, .entered) => x
  | some (_, .returned _) => x
  | some (seq, _) => { x with waits := (wakeAll x.waits).set i (seq, .returned false) }
  | none => x

def step (history hsize : ℕ) (x : NatsReady) : Act → NatsReady
  | .write m => { x with btree := x.btree.step history hsize (.write m) }
  | .compacted rev => { x with btree := x.btree.step history hsize (.compacted rev) }
  | .begin => x.begin
  | .handle => x.handle history
  | .loop decodes => x.loop hsize decodes
  | .broadcast => x.broadcast
  | .fail => x.fail
  | .wait seq => { x with waits := x.waits ++ [(seq, .entered)] }
  | .enter i => x.enter i
  | .test i => x.test i
  | .sleep i => x.sleep i
  | .receive i => x.receive i
  | .timeout i => x.timeout i

/-- A process that starts on a bucket with these messages. -/
def init (stream : List NatsMsg) : NatsReady := ⟨⟨stream, NatsKV.init, 0, [], []⟩, .stopped, false, 0, []⟩

/-- The btree shows an operation of the key that is not older than `n`. -/
def Shows (x : NatsReady) (key : Bytes) (n : ℕ) : Prop := ∃ o, (x.btree.slice key).getLast? = some o ∧ n ≤ o.seq

/-- The btree shows the message with the number `n`, or a newer one of its key, unless the bucket
has forgotten it. -/
def Reflects (history : ℕ) (x : NatsReady) (n : ℕ) : Prop :=
  ∀ m, x.btree.stream[n - 1]? = some m → RoundTrips m.key → retained history x.btree.stream m.key n = true →
    x.Shows m.key n

/-- Puts can be decoded, and no message is below the compact revision when it is delivered. -/
def Delivered (x : NatsReady) (a : Act) : Prop :=
  (∀ decodes, a = .loop decodes → decodes = true) ∧
  (a = .handle → x.btree.kv.compactRev ≤ x.btree.pos + 1)

/-- No broadcast is on its way. -/
def NotStored (x : NatsReady) : Prop := ∀ target replay seq, x.watcher ≠ .stored target replay seq

/-- A call sleeps although the btree has its sequence and no broadcast is on its way. -/
def Stuck (x : NatsReady) : Prop := x.NotStored ∧ ∃ w ∈ x.waits, w.2 = .sleeping ∧ w.1 ≤ x.lastSeq

/-- A call goes to sleep only before the btree has its sequence, or before the broadcast for it. -/
def InTime (x : NatsReady) (a : Act) : Prop :=
  ∀ i seq, a = .sleep i → x.waits[i]? = some (seq, .unmet) → x.lastSeq < seq ∨ ¬ x.NotStored

/-- `btreeWatcher` does not begin again while the bucket is empty. -/
def OnceEmpty (x : NatsReady) (a : Act) : Prop :=
  a = .begin → x.watcher = .stopped → x.btree.stream = [] → x.lastSeq = 0 → x.ready = false

end NatsReady

end Harikube
