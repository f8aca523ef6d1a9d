import Harikube.Spec.NatsCalls
import Harikube.Spec.Server

/-!
# Compaction in the NATS backend

`Backend.Compact`, `compactor` and `compactWatcher` (`pkg/drivers/nats/backend.go`). A call of
`Compact` stores its target, with a version before it, under `compactRevAPI`; the watcher takes the
compact revision from every put that it is shown, which are those of all keys without a leading
slash. Each read and each write of a call is a step of its own.
-/

namespace Harikube

open Sorted

/-- `decodeCompactValue`. -/
def decodeCompactValue (value : Bytes) : ℤ × ℤ := ((decodeVersion value).1, parseInt (decodeVersion value).2)

/-- The value that `Compact` stores for a target. -/
def encodeCompactValue (vers target : ℤ) : Bytes := encodeVersion vers (ascii (toString target))

/-- The target of `Compact`. -/
def compactTarget (minRetain revision currRev : ℤ) : ℤ :=
  let target := if revision > 1 then revision else currRev - minRetain
  if target < 0 then 0 else target

/-- A message's subject is one of the consumer of `compactWatcher`. -/
def NatsMsg.onMeta (m : NatsMsg) : Bool := ((encodeKey m.key).map metaSubject).getD false

/-- The compact revision that `compactWatcher` takes from a message. -/
def NatsMsg.compactRev (m : NatsMsg) : Option ℤ :=
  if m.onMeta = true ∧ viewKey m.key ≠ none then
    match m with
    | .put _ data =>
      if (decodeCompactValue data.kv.value).2 > 0 then some (decodeCompactValue data.kv.value).2 else none
    | .marker _ _ => none
  else none

/-- The compact revision that is stored in the bucket, 0 if there is none. -/
def storedRev (stream : List NatsMsg) : ℤ :=
  match lastMsg stream compactRevAPI with
  | some (.put _ data, _) => (decodeCompactValue data.kv.value).2
  | _ => 0

/-- Where a call of `Compact` is: before it, it has missed the key, it creates it, it has created
it, it has found it, it updates it, its write is on its way. -/
inductive CompactStage
  | called
  | missing (currRev : ℕ)
  | creating (currRev : ℕ) (data : NatsData) (last : Option ℕ)
  | created (currRev : ℕ)
  | located (currRev seq : ℕ)
  | updating (currRev : ℕ) (target : ℤ) (value : Bytes) (revision : ℤ)
  | planned (currRev : ℕ) (target : ℤ) (data : NatsData) (last : ℕ)
  | stored (currRev : ℕ) (target : ℤ)
  | ended
deriving DecidableEq

/-- `auto` is a call of `compactor`. -/
structure CompactCall where
  auto : Bool
  revision : ℤ
  stage : CompactStage
deriving DecidableEq

namespace CompactStage

/-- The key has been looked up, for a call that goes on as `miss` without it. -/
def lookup (hist : ℕ) (s : NatsStore) (currRev : ℕ) (miss : CompactStage) : CompactStage :=
  match natsGetRevision hist s.stream compactRevAPI 0 with
  | .ok (seq, _) => .located currRev seq
  | .error .keyNotFound => miss
  | .error _ => .ended

/-- The `Create` of the key, before its write. -/
def plansCreate (hist : ℕ) (s : NatsStore) (currRev : ℕ) : CompactStage :=
  match s.createPlan hist compactRevAPI (encodeCompactValue 1 0) 0 with
  | .ok (data, last) => .creating currRev data last
  | .error _ => .ended

/-- The stored value is read and compared with the target. -/
def compares (hist : ℕ) (minRetain : ℤ) (s : NatsStore) (revision : ℤ) (currRev seq : ℕ) : CompactStage :=
  match (s.get hist compactRevAPI seq false true).2 with
  | .ok (some nd) =>
    let target := compactTarget minRetain revision currRev
    if target > (decodeCompactValue nd.kv.value).2 + 1 then
      .updating currRev target (encodeCompactValue (wrap64 ((decodeCompactValue nd.kv.value).1 + 1)) target)
        nd.kv.modRevision
    else .ended
  | _ => .ended

/-- The `Update` of the key, before its write. -/
def plansUpdate (hist : ℕ) (s : NatsStore) (currRev : ℕ) (target : ℤ) (value : Bytes) (revision : ℤ) :
    CompactStage :=
  match s.updatePlan hist compactRevAPI value revision 0 with
  | some (data, last) => .planned currRev target data last
  | none => .ended

/-- The bucket takes a write, or refuses it. -/
def writes (s : NatsStore) (result : Except Err (List NatsMsg)) (next : CompactStage) : NatsStore × CompactStage :=
  match result with
  | .ok stream => ({ s with stream := stream }, next)
  | .error _ => (s, .ended)

/-- The next step of a call. -/
def next (hist : ℕ) (minRetain : ℤ) (s : NatsStore) (revision : ℤ) : CompactStage → NatsStore × CompactStage
  | .called => (s, lookup hist s s.kv.lastSeq (.missing s.kv.lastSeq))
  | .missing currRev => (s, plansCreate hist s currRev)
  | .creating currRev data last => writes s (NatsStore.bucketPut s.stream compactRevAPI data last) (.created currRev)
  | .created currRev => (s, lookup hist s currRev .ended)
  | .located currRev seq => (s, compares hist minRetain s revision currRev seq)
  | .updating currRev target value modRevision => (s, plansUpdate hist s currRev target value modRevision)
  | .planned currRev target data last => writes s (bucketUpdate s.stream compactRevAPI data last) (.stored currRev target)
  | .stored currRev target => (s, .stored currRev target)
  | .ended => (s, .ended)

end CompactStage

/-- `watched` counts the messages that the consumer of `compactWatcher` has passed. -/
structure NatsCompact where
  store : NatsStore
  watched : ℕ
  calls : List CompactCall

namespace NatsCompact

/-- The steps: a call of `Compact`, a tick of `compactor`, a step of a call, a read or a write of
it that fails, a write of another call or process, and the two watchers. A message that the bucket
has forgotten may be passed over. -/
inductive Act
  | compact (revision : ℤ)
  | tick
  | run (i : ℕ)
  | fail (i : ℕ)
  | write (m : NatsMsg)
  | observe
  | watch
  | passOver

def currentRev (x : NatsCompact) : ℕ := x.store.kv.lastSeq

def compactRev (x : NatsCompact) : ℤ := x.store.kv.compactRev

def addCall (x : NatsCompact) (auto : Bool) (revision : ℤ) : NatsCompact :=
  { x with calls := x.calls ++ [⟨auto, revision, .called⟩] }

def run (hist : ℕ) (minRetain : ℤ) (x : NatsCompact) (i : ℕ) : NatsCompact :=
  match x.calls[i]? with
  | none => x
  | some c =>
    let r := c.stage.next hist minRetain x.store c.revision
    { x with store := r.1, calls := x.calls.set i { c with stage := r.2 } }

def fail (x : NatsCompact) (i : ℕ) : NatsCompact :=
  match x.calls[i]? with
  | none => x
  | some c =>
    match c.stage with
    | .stored _ _ => x
    | _ => { x with calls := x.calls.set i { c with stage := .ended } }

/-- The next message reaches `compactWatcher`, unless it is below the compact revision. -/
def watch (x : NatsCompact) : NatsCompact :=
  match x.store.stream[x.watched]? with
  | none => x
  | some m =>
    if ((x.watched + 1 : ℕ) : ℤ) < x.store.kv.compactRev then { x with watched := x.watched + 1 }
    else
      match m.compactRev with
      | none => { x with watched := x.watched + 1 }
      | some rev =>
        { x with
          watched := x.watched + 1
          store := { x.store with kv := { x.store.kv with compactRev := rev } } }

def passOver (hist : ℕ) (x : NatsCompact) : NatsCompact :=
  match x.store.stream[x.watched]? with
  | none => x
  | some m => if retained hist x.store.stream m.key (x.watched + 1) then x else { x with watched := x.watched + 1 }

def step (hist : ℕ) (minRetain : ℤ) (x : NatsCompact) : Act → NatsCompact
  | .compact revision => x.addCall false revision
  -- the revision that `compactor` asks for is the current one
  | .tick => x.addCall true x.currentRev
  | .run i => x.run hist minRetain i
  | .fail i => x.fail i
  | .write m => if m.writable then { x with store := { x.store with stream := x.store.stream ++ [m] } } else x
  | .observe => { x with store := x.store.observe hist }
  | .watch => x.watch
  | .passOver => x.passOver hist

def init : NatsCompact := ⟨NatsStore.init, 0, []⟩

/-! ## What compaction has to keep -/

/-- The compact revision is not above the current revision, an explicit call beyond the current
revision has stored nothing, and an automatic one has kept what it has to retain. -/
structure Sound (minRetain : ℤ) (x : NatsCompact) : Prop where
  current : x.compactRev ≤ x.currentRev
  explicit : ∀ c ∈ x.calls, ∀ currRev target, c.auto = false → c.stage = .stored currRev target →
    c.revision ≤ currRev
  retains : ∀ c ∈ x.calls, ∀ currRev target, c.auto = true → c.stage = .stored currRev target →
    target ≤ currRev - minRetain

/-- The step does not take the compact revision back. -/
def Forward (hist : ℕ) (minRetain : ℤ) (x : NatsCompact) (a : Act) : Prop :=
  x.compactRev ≤ (x.step hist minRetain a).compactRev

/-- A call that is about to store its target: the target is not above the current revision, and
that of an automatic call leaves what is to be retained. -/
def Modest (hist : ℕ) (minRetain : ℤ) (x : NatsCompact) (c : CompactCall) : Prop :=
  ∀ currRev seq, c.stage = .located currRev seq →
    c.stage.next hist minRetain x.store c.revision = (x.store, .ended) ∨
      (compactTarget minRetain c.revision currRev ≤ currRev ∧
        (c.auto = true → compactTarget minRetain c.revision currRev ≤ currRev - minRetain))

/-- A message of another writer under the subject of `compactRevAPI` is no tombstone, does not lower
the stored revision and does not take it above the current one; under another subject that the
watcher is shown it has no compact revision. -/
def Harmless (s : NatsStore) (m : NatsMsg) : Prop :=
  if encodeKey m.key = encodeKey compactRevAPI then
    m.tombstone = false ∧ storedRev s.stream ≤ storedRev (s.stream ++ [m]) ∧
      storedRev (s.stream ++ [m]) ≤ s.kv.lastSeq
  else m.compactRev = none

/-- The targets are modest, and the other writes are harmless. -/
def Within (hist : ℕ) (minRetain : ℤ) (x : NatsCompact) (a : Act) : Prop :=
  (∀ i c, a = .run i → x.calls[i]? = some c → x.Modest hist minRetain c) ∧
  ∀ m, a = .write m → Harmless x.store m

end NatsCompact

end Harikube
