import Harikube.Spec.NatsCalls

/-!
# Leases of the NATS backend

`ExpireWatcher` (`pkg/drivers/nats/expire_watcher.go`) keeps a heap of the versions that expire.
`Create` and `Update` add an entry once their write has been reported to them. An entry that is due
is taken from the heap, and then `Backend.Delete` is called with it, whatever comes of that. Other
processes write into the same bucket, and a new process has an empty heap.
-/

namespace Harikube

structure ExpireEntry where
  key : Bytes
  seq : ℕ
  expires : ℤ
deriving DecidableEq

/-- `ExpireHeap.Next`: the entry at the top, if it does not expire after `now`. Of several that
expire first, `i` says which one is at the top. -/
def expireNext (heap : List ExpireEntry) (i : ℕ) (now : ℤ) : Option (ExpireEntry × List ExpireEntry) :=
  match heap[i]? with
  | none => none
  | some e =>
    if e.expires ≤ now ∧ ∀ e' ∈ heap, e.expires ≤ e'.expires then some (e, heap.eraseIdx i) else none

/-- `nd.KV.Lease`. -/
def NatsMsg.lease : NatsMsg → ℤ
  | .put _ data => data.kv.lease
  | .marker _ _ => 0

/-- The message is the last of its subject, a live version with a lease. -/
def Leased (stream : List NatsMsg) (m : NatsMsg) (seq : ℕ) : Prop :=
  lastMsg stream m.key = some (m, seq) ∧ m.live = true ∧ 0 < m.lease

/-- `adds` are the writes that have been reported to calls which have not called `Add` yet, with
their leases. `expiring` is the entry that the callback is running for, and its call once it has a
write to make. -/
structure NatsLease where
  backend : NatsCalls
  adds : List (Bytes × ℕ × ℤ)
  heap : List ExpireEntry
  expiring : Option (ExpireEntry × Option ℕ)

namespace NatsLease

/-- The steps: those of the calls, `ExpireWatcher.Add`, `ExpireHeap.Next` in `processExpired`, the
read of the callback, which may also fail, its return, and a write of another process. -/
inductive Act
  | call (a : NatsCalls.Act)
  | add (i : ℕ) (now : ℤ)
  | expire (i : ℕ) (now : ℤ)
  | callback
  | callbackFails
  | returns
  | peer (m : NatsMsg)

def stream (x : NatsLease) : List NatsMsg := x.backend.store.stream

/-- What `Create` and `Update` go on to add when their write is reported to them. -/
def reported (x : NatsLease) : NatsCalls.Act → List (Bytes × ℕ × ℤ)
  | .write i true =>
    match x.backend.calls[i]? with
    | some (.put key data last) =>
      match NatsStore.bucketPut x.stream key data last with
      | .ok _ => if data.kv.lease > 0 then [(key, x.stream.length + 1, data.kv.lease)] else []
      | .error _ => []
    | _ => []
  | _ => []

/-- A step of a call. A crash is the end of the process with its heap; `btreeWatcher` of the next
one fills the btree and adds nothing to the heap. -/
def call (hist : ℕ) (x : NatsLease) : NatsCalls.Act → NatsLease
  | .crash => ⟨x.backend.crash, [], [], none⟩
  | a => { x with backend := x.backend.step hist a, adds := x.adds ++ x.reported a }

def add (x : NatsLease) (i : ℕ) (now : ℤ) : NatsLease :=
  match x.adds[i]? with
  | none => x
  | some (key, seq, lease) => { x with adds := x.adds.eraseIdx i, heap := x.heap ++ [⟨key, seq, now + lease⟩] }

def expire (x : NatsLease) (i : ℕ) (now : ℤ) : NatsLease :=
  match x.expiring, expireNext x.heap i now with
  | none, some (e, heap) => { x with heap := heap, expiring := some (e, none) }
  | _, _ => x

/-- `Delete(key, seq)` reads the key: it goes on to its tombstone or returns. -/
def callback (hist : ℕ) (x : NatsLease) : NatsLease :=
  match x.expiring with
  | some (e, none) =>
    { x with
      backend := x.backend.delete hist e.key e.seq
      expiring :=
        if (x.backend.store.deletePlan hist e.key e.seq).isSome then some (e, some x.backend.calls.length) else none }
  | _ => x

/-- An error of the callback is logged. -/
def callbackFails (x : NatsLease) : NatsLease :=
  match x.expiring with
  | some (_, none) => { x with expiring := none }
  | _ => x

/-- The callback has made its writes, or they have failed. -/
def returns (x : NatsLease) : NatsLease :=
  match x.expiring with
  | some (_, some i) => if x.backend.calls[i]? = some .ended then { x with expiring := none } else x
  | _ => x

def peer (x : NatsLease) (m : NatsMsg) : NatsLease :=
  if m.writable then
    { x with backend := { x.backend with store := { x.backend.store with stream := x.stream ++ [m] } } }
  else x

def step (hist : ℕ) (x : NatsLease) : Act → NatsLease
  | .call a => x.call hist a
  | .add i now => x.add i now
  | .expire i now => x.expire i now
  | .callback => x.callback hist
  | .callbackFails => x.callbackFails
  | .returns => x.returns
  | .peer m => x.peer m

def init : NatsLease := ⟨NatsCalls.init, [], [], none⟩

/-- The heap has an entry for the version. -/
def InHeap (x : NatsLease) (key : Bytes) (seq : ℕ) : Prop := ∃ e ∈ x.heap, e.key = key ∧ e.seq = seq

/-- The heap has an entry, or the call that wrote the version is about to add one, or its callback
is running. -/
def Held (x : NatsLease) (key : Bytes) (seq : ℕ) : Prop :=
  x.InHeap key seq ∨ (∃ p ∈ x.adds, p.1 = key ∧ p.2.1 = seq) ∨ ∃ p ∈ x.expiring, p.1.key = key ∧ p.1.seq = seq

/-- Every live version with a lease is held, and it is in the heap when no call is about to add an
entry and no callback is running. -/
def Enforced (x : NatsLease) : Prop :=
  ∀ m seq, Leased x.stream m seq → x.Held m.key seq ∧ (x.adds = [] → x.expiring = none → x.InHeap m.key seq)

/-- The process stops only when no live version has a lease, other processes write none, a write of
one that takes effect is reported, and a callback returns only when its version is not live. -/
structure Sound (hist : ℕ) (x : NatsLease) (a : Act) : Prop where
  crash : a = .call .crash → ∀ m seq, ¬ Leased x.stream m seq
  peer : ∀ m, a = .peer m → m.live = true → m.lease ≤ 0
  write : ∀ i key data last stream, a = .call (.write i false) → x.backend.calls[i]? = some (.put key data last) →
    NatsStore.bucketPut x.stream key data last = .ok stream → data.kv.lease ≤ 0
  returns : ∀ p, x.expiring = some p → (x.step hist a).expiring = none → ∀ m, m.key = p.1.key →
    ¬ Leased x.stream m p.1.seq

end NatsLease

end Harikube
