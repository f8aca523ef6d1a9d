import Harikube.Spec.NatsCalls

/-!
# Several processes on one bucket, and the messages of a key

Each process has its own btree, its own position in the stream and its own calls; they share the
bucket. `Follows` says which message of a subject may come after which: a key is created, updated
any number of times and deleted by a tombstone, after which comes a marker or a new create.
-/

namespace Harikube

structure NatsProcess where
  pos : ℕ
  kv : NatsKV
  calls : List NatsCall

structure NatsCluster where
  stream : List NatsMsg
  processes : List NatsProcess

namespace NatsCluster

/-- The bucket as a process sees it, with its calls. -/
def view (x : NatsCluster) (p : NatsProcess) : NatsCalls := ⟨⟨x.stream, p.pos, p.kv⟩, p.calls⟩

/-- The steps: a process starts, a process makes a step, and the compact revision of a process is
set by its `compactWatcher`. -/
inductive Act
  | start
  | call (i : ℕ) (a : NatsCalls.Act)
  | compacted (i : ℕ) (rev : ℤ)

def call (hist : ℕ) (x : NatsCluster) (i : ℕ) (a : NatsCalls.Act) : NatsCluster :=
  match x.processes[i]? with
  | none => x
  | some p =>
    let y := (x.view p).step hist a
    ⟨y.store.stream, x.processes.set i ⟨y.store.pos, y.store.kv, y.calls⟩⟩

def compacted (x : NatsCluster) (i : ℕ) (rev : ℤ) : NatsCluster :=
  match x.processes[i]? with
  | none => x
  | some p => { x with processes := x.processes.set i { p with kv := { p.kv with compactRev := rev } } }

def step (hist : ℕ) (x : NatsCluster) : Act → NatsCluster
  | .start => { x with processes := x.processes ++ [⟨0, NatsKV.init, []⟩] }
  | .call i a => x.call hist i a
  | .compacted i rev => x.compacted i rev

def init : NatsCluster := ⟨[], []⟩

end NatsCluster

/-! ## The messages of a subject -/

/-- The revision at which a version that was read was created, as `get` returns it. -/
def NatsData.createdAt (d : NatsData) (seq : ℕ) : ℤ := if d.create then seq else (d.decode seq).kv.createRevision

/-- The data of a create that replaces the tombstone with the number `prev`, 0 for none. -/
def NatsData.Creates (d : NatsData) (prev : ℕ) : Prop :=
  d.create = true ∧ d.delete = false ∧ d.prevRevision = prev

/-- The message may come after this last message of its subject. -/
inductive Follows : Option (NatsMsg × ℕ) → NatsMsg → Prop
  | create {k : Bytes} {d : NatsData} (h : d.Creates 0) : Follows none (.put k d)
  | afterMarker {k k' : Bytes} {d : NatsData} {purge : Bool} {n : ℕ} (h : d.Creates 0) :
    Follows (some (.marker k' purge, n)) (.put k d)
  | afterTombstone {k k' : Bytes} {d d' : NatsData} {n : ℕ} (hd : d'.delete = true) (h : d.Creates n) :
    Follows (some (.put k' d', n)) (.put k d)
  /-- An update or a tombstone names the version before it, and keeps the revision of its create. -/
  | replace {k k' : Bytes} {d d' : NatsData} {n : ℕ} (hd : d'.delete = false) (h : d.create = false)
    (hprev : d.prevRevision = n) (hcreated : d.kv.createRevision = d'.createdAt n) :
    Follows (some (.put k' d', n)) (.put k d)
  | mark {k k' : Bytes} {d' : NatsData} {n : ℕ} (hd : d'.delete = true) :
    Follows (some (.put k' d', n)) (.marker k false)

/-- Every message follows the last message of its subject before it. -/
def Chained (stream : List NatsMsg) : Prop :=
  ∀ n m, stream[n]? = some m → Follows (lastMsg (stream.take n) m.key) m

/-- The messages of the subject of `key`, each with its number. -/
def subjectMsgs (stream : List NatsMsg) (key : Bytes) : List (NatsMsg × ℕ) :=
  (numbered stream).filter fun m => encodeKey m.1.key = encodeKey key

/-- An update or tombstone with the number `n` replaces a live version, the newest message of its
subject before it, and its create revision is that of the create since which the key has been alive. -/
structure Succeeds (stream : List NatsMsg) (key : Bytes) (d : NatsData) (n : ℕ) : Prop where
  replaced : ∃ k d' r, (NatsMsg.put k d', r) ∈ subjectMsgs stream key ∧ r < n ∧ d'.delete = false ∧
    d.prevRevision = r ∧ ∀ m ∈ subjectMsgs stream key, m.2 < n → m.2 ≤ r
  created : ∃ c k d₀, (NatsMsg.put k d₀, c) ∈ subjectMsgs stream key ∧ d₀.create = true ∧ c < n ∧
    d.kv.createRevision = c ∧
    ∀ m ∈ subjectMsgs stream key, c < m.2 → m.2 < n → ∃ k' d', m.1 = .put k' d' ∧ d'.create = false ∧ d'.delete = false

end Harikube
