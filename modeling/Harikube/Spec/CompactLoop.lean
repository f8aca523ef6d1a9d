import Harikube.Spec.Writers

/-!
# Compaction on several nodes

`compactor`, `compactIter` and `SQLLog.Compact` (`pkg/logstructured/sqllog/sql.go`) on any
number of nodes that share the database, with the calls of clients in between. A step is a read,
an insert or a compaction transaction; transactions are serializable, so each is one step.
-/

namespace Harikube

/-- The configuration: `compactMinRetain`, `compactBatchSize` and `compactInterval`. -/
structure CompactConfig where
  minRetain : ℤ
  batchSize : ℤ
  interval : ℤ

/-- The revision that the compaction transaction with these arguments commits, if it does. -/
def Kine.commits (t : Kine) (minRetain compactRev target : ℤ) : Option ℤ :=
  match t.currentRev, t.compactRev with
  | some currentRev, some dbCompactRev =>
    let target := SqlLog.safeCompactRev target currentRev minRetain
    if compactRev = dbCompactRev ∧ compactRev < target ∧ ((t.compact target).setCompactRevision target).isSome
    then some target else none
  | _, _ => none

/-- The variables of `compactIter`. -/
structure CompactIter where
  compactRev : ℤ
  targetCompactRev : ℤ
  iterCompactRev : ℤ
  compactedRev : ℤ
  currentRev : ℤ

namespace CompactIter

def new (compactRev targetCompactRev : ℤ) : CompactIter := ⟨compactRev, targetCompactRev, compactRev, compactRev, 0⟩

/-- The arguments of the next call of `compact`, if the loop goes on. -/
def args (cfg : CompactConfig) (l : CompactIter) : Option (ℤ × ℤ) :=
  if l.iterCompactRev < l.targetCompactRev then
    let iterCompactRev := wrap64 (l.iterCompactRev + cfg.batchSize)
    some (l.compactedRev, if iterCompactRev > l.targetCompactRev then l.targetCompactRev else iterCompactRev)
  else none

/-- The variables after a call of `compact`: revisions of 0 are not taken over. -/
def took (l : CompactIter) (iterCompactRev compacted current : ℤ) : CompactIter :=
  if compacted ≠ 0 ∧ current ≠ 0 then
    { l with iterCompactRev := iterCompactRev, compactedRev := compacted, currentRev := current }
  else { l with iterCompactRev := iterCompactRev }

/-- What `compactIter` returns, also when an error has ended the loop midway. -/
def result (l : CompactIter) : ℤ × ℤ :=
  if l.currentRev > 0 then (l.compactedRev, l.currentRev) else (l.compactRev, l.targetCompactRev)

end CompactIter

/-- The goroutine `compactor`: it has read the compact revision, it waits for the ticker with
the two revisions that it goes by, or it is in `compactIter`. -/
inductive Compactor
  | off
  | started (compactRev : ℤ)
  | waiting (compactRev targetCompactRev : ℤ)
  | running (l : CompactIter)

/-- A call of `SQLLog.Compact`: the target is not in the future, or `compactIter` runs. -/
inductive CompactRequest
  | checked (targetCompactRev : ℤ)
  | running (l : CompactIter)

/-- A node: its cached revision, its compactor and the calls of `Compact` on it. -/
structure CompactNode where
  currentRev : ℤ
  compactor : Compactor
  requests : List CompactRequest

/-- The database, the nodes, and the events that calls on a node have read and are going to append. -/
structure Cluster where
  db : Db
  nodes : ℕ → CompactNode
  pending : List (ℕ × Event)

/-- A call reads, or appends; a gap is filled; the next step of a compactor, of a call of
`Compact`, or a new call. `ok` is false for an error of the database. -/
inductive ClusterAct
  | read (node : ℕ) (call : LogStructured.Call)
  | insert (k : ℕ) (now : ℤ)
  | fill (revision : ℤ)
  | compactor (node : ℕ) (ok : Bool)
  | compact (node : ℕ) (targetCompactRev : ℤ) (ok : Bool)
  | request (node k : ℕ) (ok : Bool)

namespace Cluster

variable (c : Codec) (cfg : CompactConfig)

/-- The log as a node has it. -/
def log (x : Cluster) (i : ℕ) : SqlLog := ⟨x.db, (x.nodes i).currentRev⟩

def setNode (x : Cluster) (i : ℕ) (n : CompactNode) : Cluster := { x with nodes := Function.update x.nodes i n }

def setLog (x : Cluster) (i : ℕ) (s : SqlLog) : Cluster :=
  { x with db := s.db }.setNode i { x.nodes i with currentRev := s.currentRev }

def setCompactor (x : Cluster) (i : ℕ) (k : Compactor) : Cluster := x.setNode i { x.nodes i with compactor := k }

def setRequests (x : Cluster) (i : ℕ) (requests : List CompactRequest) : Cluster :=
  x.setNode i { x.nodes i with requests := requests }

/-- `compactRev, _ := s.d.GetCompactRevision(s.ctx)`: 0 if it fails. -/
def readCompact (x : Cluster) (i : ℕ) (ok : Bool) : ℤ :=
  if ok then (x.log i).getCompactRevision.toOption.getD 0 else 0

/-- `currentRev, _ := s.CurrentRevision(ctx)`: the cached revision, or 0 if there is none and the
read fails. -/
def readCurrent (x : Cluster) (i : ℕ) (ok : Bool) : ℤ × Cluster :=
  if ok then ((x.log i).currentRevision.1.toOption.getD 0, x.setLog i (x.log i).currentRevision.2)
  else ((x.nodes i).currentRev, x)

/-- One turn of the loop of `compactIter`: it goes on, or has returned. -/
def turn (x : Cluster) (i : ℕ) (l : CompactIter) (ok : Bool) : (CompactIter ⊕ ℤ × ℤ) × Cluster :=
  match l.args cfg with
  | none => (.inr l.result, x)
  | some (compactedRev, iterCompactRev) =>
    let r := if ok then (x.log i).compact cfg.minRetain compactedRev iterCompactRev
      else ((0, 0, some .database), x.log i)
    let l := l.took iterCompactRev r.1.1 r.1.2.1
    (if r.1.2.2.isSome then .inr l.result else .inl l, x.setLog i r.2)

def stepCompactor (x : Cluster) (i : ℕ) (ok : Bool) : Cluster :=
  match (x.nodes i).compactor with
  | .off => if cfg.interval ≤ 0 then x else x.setCompactor i (.started (x.readCompact i ok))
  | .started compactRev =>
    let r := x.readCurrent i ok
    r.2.setCompactor i (.waiting compactRev r.1)
  | .waiting compactRev targetCompactRev => x.setCompactor i (.running (.new compactRev targetCompactRev))
  | .running l =>
    match x.turn cfg i l ok with
    | (.inl l, x) => x.setCompactor i (.running l)
    | (.inr (compactRev, targetCompactRev), x) => x.setCompactor i (.waiting compactRev targetCompactRev)

def stepRequest (x : Cluster) (i k : ℕ) (ok : Bool) : Cluster :=
  let requests := (x.nodes i).requests
  match requests[k]? with
  | none => x
  | some (.checked targetCompactRev) =>
    let compactRev := x.readCompact i ok
    -- refused, or no-op unless automatic compaction is disabled
    if targetCompactRev ≤ compactRev ∨ cfg.interval > 0 then x.setRequests i (requests.eraseIdx k)
    else x.setRequests i (requests.set k (.running (.new compactRev targetCompactRev)))
  | some (.running l) =>
    match x.turn cfg i l ok with
    | (.inl l, x) => x.setRequests i (requests.set k (.running l))
    | (.inr _, x) => (x.setRequests i (requests.eraseIdx k)).readCurrent i ok |>.2

def step (x : Cluster) : ClusterAct → Cluster
  | .read i call =>
    match call.read (x.log i) with
    | (some e, log) => { x.setLog i log with pending := x.pending ++ [(i, e)] }
    | (none, log) => x.setLog i log
  | .insert k now =>
    match x.pending[k]? with
    | none => x
    | some (i, e) => { x.setLog i ((x.log i).append c now e).2 with pending := x.pending.eraseIdx k }
  | .fill revision => { x with db := { x.db with kine := (x.db.kine.fill revision).getD x.db.kine } }
  | .compactor i ok => x.stepCompactor cfg i ok
  | .compact i targetCompactRev ok =>
    let r := x.readCurrent i ok
    if targetCompactRev > r.1 then r.2
    else r.2.setRequests i ((r.2.nodes i).requests ++ [.checked targetCompactRev])
  | .request i k ok => x.stepRequest cfg i k ok

/-- The arguments of the compaction transaction of a step, if it has one. -/
def transaction (x : Cluster) : ClusterAct → Option (ℤ × ℤ)
  | .compactor i true =>
    match (x.nodes i).compactor with
    | .running l => l.args cfg
    | _ => none
  | .request i k true =>
    match (x.nodes i).requests[k]? with
    | some (.running l) => l.args cfg
    | _ => none
  | _ => none

/-- A started database, and nodes that have nothing cached. -/
def init (now : ℤ) : Cluster :=
  ⟨(LogStructured.start ⟨c, now⟩ SqlLog.init).2.db, fun _ => ⟨0, .off, []⟩, []⟩

end Cluster

end Harikube
