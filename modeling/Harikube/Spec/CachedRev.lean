import Mathlib.Data.Int.Init
import Mathlib.Order.Basic
import Mathlib.Algebra.Order.Ring.Int

/-!
# The cached revision

`SQLLog.currentRev` (`pkg/logstructured/sqllog/sql.go`) is stored by compare-and-swap from
three places: `Append`, `CurrentRevision` and the poll loop. Each load, each swap and each
statement on the database is a step. Rows get increasing ids, from this node and from its
peers.
-/

namespace Harikube

/-- A call of `Append`: it has loaded the cached revision, and then inserted its row. -/
inductive AppendCall
  | loaded (currentRev : ℤ)
  | inserted (currentRev rev : ℤ)
  | returned (rev : ℤ)
  | failed
deriving DecidableEq

/-- A call of `CurrentRevision` that has found no cached revision: it queries the database
and tries to store what it has found. -/
inductive RevStage
  | querying
  | queried (lastRev : ℤ)
  | reloading
  | returned (rev : ℤ)
  | failed
deriving DecidableEq

/-- A call of `CurrentRevision`. `written` are the revisions that an `Append` had returned or
the poll loop had handed on before the call, and `earlier` those that calls of
`CurrentRevision` had returned before it. -/
structure RevCall where
  written : List ℤ
  earlier : List ℤ
  stage : RevStage
deriving DecidableEq

/-- The poll loop: it has gone through rows up to `rev`, and then stored the revision. -/
inductive PollPhase
  | idle
  | passed (rev : ℤ)
  | stored (rev : ℤ)
deriving DecidableEq

/-- `ids` are the rows, the newest first. `poll` is the poll loop with its `pollRevision`,
once it is started. -/
structure CachedRev where
  ids : List ℤ
  currentRev : ℤ
  appends : List AppendCall
  calls : List RevCall
  poll : Option (ℤ × PollPhase)
  written : List ℤ
  returned : List ℤ

namespace CachedRev

/-- The steps. `place` is an insert by a peer; `pass` is an iteration of the poll loop that
passes rows up to the one with the id `rev`. -/
inductive Act
  | place (id : ℤ)
  | append
  | insert (i : ℕ) (id : ℤ)
  | insertFails (i : ℕ)
  | swap (i : ℕ)
  | currentRevision
  | query (i : ℕ)
  | queryFails (i : ℕ)
  | storeRev (i : ℕ)
  | reload (i : ℕ)
  | start
  | pass (rev : ℤ)
  | storePolled
  | hand

/-- The largest id, zero for an empty table. -/
def last (x : CachedRev) : ℤ := x.ids.headD 0

/-- A new row has a larger id than all others. -/
def place (x : CachedRev) (id : ℤ) : CachedRev := if id > x.last then { x with ids := id :: x.ids } else x

/-- `s.currentRev.CompareAndSwap`. -/
def compareAndSwap (x : CachedRev) (old new : ℤ) : CachedRev :=
  if x.currentRev = old then { x with currentRev := new } else x

def setAppend (x : CachedRev) (i : ℕ) (call : AppendCall) : CachedRev := { x with appends := x.appends.set i call }

def setCall (x : CachedRev) (i : ℕ) (c : RevCall) (stage : RevStage) : CachedRev :=
  { x with calls := x.calls.set i { c with stage := stage } }

/-- A call of `CurrentRevision` returns. -/
def returns (x : CachedRev) (i : ℕ) (c : RevCall) (rev : ℤ) : CachedRev :=
  { x.setCall i c (.returned rev) with returned := x.returned ++ [rev] }

/-- The parts of `Append`. -/
def insert (x : CachedRev) (i : ℕ) (id : ℤ) : CachedRev :=
  match x.appends[i]? with
  | some (.loaded currentRev) =>
    if id > x.last then (x.place id).setAppend i (.inserted currentRev id) else x
  | _ => x

def insertFails (x : CachedRev) (i : ℕ) : CachedRev :=
  match x.appends[i]? with
  | some (.loaded _) => x.setAppend i .failed
  | _ => x

def swap (x : CachedRev) (i : ℕ) : CachedRev :=
  match x.appends[i]? with
  | some (.inserted currentRev rev) =>
    { (x.compareAndSwap currentRev rev).setAppend i (.returned rev) with written := x.written ++ [rev] }
  | _ => x

/-- The parts of `CurrentRevision`. -/
def currentRevision (x : CachedRev) : CachedRev :=
  if x.currentRev ≠ 0 then
    { x with
      calls := x.calls ++ [⟨x.written, x.returned, .returned x.currentRev⟩]
      returned := x.returned ++ [x.currentRev] }
  else { x with calls := x.calls ++ [⟨x.written, x.returned, .querying⟩] }

def query (x : CachedRev) (i : ℕ) (fails : Bool) : CachedRev :=
  match x.calls[i]? with
  | some ⟨written, earlier, .querying⟩ =>
    x.setCall i ⟨written, earlier, .querying⟩ (if fails then .failed else .queried x.last)
  | _ => x

def storeRev (x : CachedRev) (i : ℕ) : CachedRev :=
  match x.calls[i]? with
  | some ⟨written, earlier, .queried lastRev⟩ =>
    if x.currentRev = 0 then
      (x.compareAndSwap 0 lastRev).returns i ⟨written, earlier, .queried lastRev⟩ lastRev
    else x.setCall i ⟨written, earlier, .queried lastRev⟩ .reloading
  | _ => x

def reload (x : CachedRev) (i : ℕ) : CachedRev :=
  match x.calls[i]? with
  | some ⟨written, earlier, .reloading⟩ => x.returns i ⟨written, earlier, .reloading⟩ x.currentRev
  | _ => x

/-- The poll loop starts at the largest revision there is. -/
def start (x : CachedRev) : CachedRev :=
  match x.poll with
  | none => { x with poll := some (x.last, .idle) }
  | some _ => x

def pass (x : CachedRev) (rev : ℤ) : CachedRev :=
  match x.poll with
  | some (pollRevision, .idle) =>
    if rev ∈ x.ids ∧ pollRevision < rev then { x with poll := some (pollRevision, .passed rev) } else x
  | _ => x

def storePolled (x : CachedRev) : CachedRev :=
  match x.poll with
  | some (pollRevision, .passed rev) =>
    { x.compareAndSwap pollRevision rev with poll := some (rev, .stored rev) }
  | _ => x

/-- The broadcaster receives the batch. -/
def hand (x : CachedRev) : CachedRev :=
  match x.poll with
  | some (pollRevision, .stored rev) =>
    { x with poll := some (pollRevision, .idle), written := x.written ++ [rev] }
  | _ => x

def step (x : CachedRev) : Act → CachedRev
  | .place id => x.place id
  | .append => { x with appends := x.appends ++ [.loaded x.currentRev] }
  | .insert i id => x.insert i id
  | .insertFails i => x.insertFails i
  | .swap i => x.swap i
  | .currentRevision => x.currentRevision
  | .query i => x.query i false
  | .queryFails i => x.query i true
  | .storeRev i => x.storeRev i
  | .reload i => x.reload i
  | .start => x.start
  | .pass rev => x.pass rev
  | .storePolled => x.storePolled
  | .hand => x.hand

/-- A node that has just been started on an empty table. -/
def init : CachedRev := ⟨[], 0, [], [], none, [], []⟩

/-- `CurrentRevision` never returns less than a call has returned before it. -/
def NeverDecreases (x : CachedRev) : Prop :=
  ∀ c ∈ x.calls, ∀ rev, c.stage = .returned rev → ∀ r ∈ c.earlier, r ≤ rev

/-- It returns at least every revision that an `Append` has returned or the poll loop has
handed on before. -/
def CoversWrites (x : CachedRev) : Prop :=
  ∀ c ∈ x.calls, ∀ rev, c.stage = .returned rev → ∀ r ∈ c.written, r ≤ rev

/-- A swap of `Append` or of the poll loop finds the value it expects, or one that is not
smaller than the one it stores. -/
def Swaps (x : CachedRev) (a : Act) : Prop :=
  (∀ i currentRev rev, a = .swap i → x.appends[i]? = some (.inserted currentRev rev) →
    x.currentRev = currentRev ∨ rev ≤ x.currentRev) ∧
  ∀ pollRevision rev, a = .storePolled → x.poll = some (pollRevision, .passed rev) →
    x.currentRev = pollRevision ∨ rev ≤ x.currentRev

end CachedRev

end Harikube
