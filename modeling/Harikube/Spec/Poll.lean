import Harikube.Spec.LogStructured

/-!
# The poll loop and the broadcaster

`SQLLog.startWatch` and `SQLLog.poll` (`pkg/logstructured/sqllog/sql.go`) and
`Broadcaster.stream` (`pkg/broadcaster/broadcaster.go`). Rows become visible in any order
of their ids, as they do when transactions that have reserved ids commit in another order.
Each SQL statement, each operation on a channel and each store of a shared variable is a
step; the poll loop may begin an iteration whenever it is not busy, woken by the ticker or
by a notification.
-/

namespace Harikube

/-- A batch of the poll loop: the events of consecutive revisions, nil for a fill row and
for a row behind a gap. -/
abbrev Batch := List (Option Event)

/-- Why the loop over the rows has been left: at its end, or at a missing revision that is
retried or filled. -/
inductive Gap
  | atEnd
  | retry (next : ℤ)
  | fill (next : ℤ)

/-- The loop over the rows of one query, with the variables it leaves behind. `skipped`
tells that `canSkipRevision` has let it go over a gap. -/
structure PollLoop where
  batch : Batch
  rev : ℤ
  saveLast : Bool
  gap : Gap
  skipped : Bool

/-- The loop. `elapsed` is `time.Since(skipTime) > time.Second`. -/
def pollLoop (skip : ℤ) (elapsed : Bool) : ℤ → List Row → PollLoop
  | rev, [] => ⟨[], rev, false, .atEnd, false⟩
  | rev, x :: rest =>
    let next := rev + 1
    if x.id ≠ next ∧ ¬ (next = skip ∧ elapsed) then
      ⟨List.replicate (rest.length + 1) none, rev, false, if skip ≠ next then .retry next else .fill next, false⟩
    else
      let r := pollLoop skip elapsed x.id rest
      ⟨(if Kine.isFill x.name then none else some (x.toEvent true true)) :: r.batch, r.rev, true, r.gap,
        r.skipped || x.id ≠ next⟩

/-- Where the poll loop is: waiting to be woken, about to query, or about to fill a
revision and then to publish what the loop over the rows has left. -/
inductive PollStage
  | waiting
  | querying
  | filling (next : ℤ) (r : PollLoop)

structure Poll where
  pollStart : ℤ
  pollRevision : ℤ
  skip : ℤ
  stage : PollStage

/-- The table, the poll loop once it is started, and the two batches that may be on their
way to the subscribers: the one the poll loop is sending and the one the broadcaster has
received. -/
structure Hub where
  table : Kine
  polledRev : ℤ
  poll : Option Poll
  outbox : Option Batch
  held : Option Batch

inductive HubAct
  | place (x : Row)
  | wake
  | query (limit : ℤ) (elapsed : Bool)
  | fill
  | receive
  | fanout

namespace Hub

/-- The end of an iteration: the batch is sent if a revision has been passed. -/
def publish (h : Hub) (p : Poll) (r : PollLoop) : Hub :=
  if r.saveLast then
    { h with poll := some { p with pollRevision := r.rev, stage := .waiting }, outbox := some r.batch }
  else { h with poll := some { p with stage := .waiting } }

/-- `polledRev` is stored at the beginning of an iteration, which waits until the last
batch has been received. -/
def wake (h : Hub) : Hub :=
  match h.poll, h.outbox with
  | some ⟨pollStart, pollRevision, skip, .waiting⟩, none =>
    { h with polledRev := pollRevision, poll := some ⟨pollStart, pollRevision, skip, .querying⟩ }
  | _, _ => h

/-- The loop over the rows that a query of the poll loop finds. -/
def scan (h : Hub) (p : Poll) (limit : ℤ) (elapsed : Bool) : PollLoop :=
  pollLoop p.skip elapsed p.pollRevision (h.table.after [] [] p.pollRevision limit)

def query (h : Hub) (limit : ℤ) (elapsed : Bool) : Hub :=
  match h.poll with
  | some ⟨pollStart, pollRevision, skip, .querying⟩ =>
    let p : Poll := ⟨pollStart, pollRevision, skip, .querying⟩
    let r := h.scan p limit elapsed
    match r.gap with
    | .atEnd => h.publish p r
    | .retry next => h.publish { p with skip := next } r
    | .fill next => { h with poll := some { p with stage := .filling next r } }
  | _ => h

/-- `Fill`, which fails if the revision has become visible. -/
def fill (h : Hub) : Hub :=
  match h.poll with
  | some ⟨pollStart, pollRevision, skip, .filling next r⟩ =>
    { h with table := (h.table.fill next).getD h.table }.publish ⟨pollStart, pollRevision, skip, .waiting⟩ r
  | _ => h

/-- The broadcaster receives the batch that the poll loop sends. -/
def receive (h : Hub) : Hub :=
  match h.outbox, h.held with
  | some batch, none => { h with outbox := none, held := some batch }
  | _, _ => h

/-- A step. What the subscribers get of `fanout` is their own part of the state. -/
def step (h : Hub) : HubAct → Hub
  | .place x => { h with table := (h.table.place x).getD h.table }
  | .wake => h.wake
  | .query limit elapsed => h.query limit elapsed
  | .fill => h.fill
  | .receive => h.receive
  | .fanout => { h with held := none }

/-- `Broadcaster.start` with `SQLLog.startWatch`, if the loop is not running: it polls from
the largest revision on. There is none only in an empty table. -/
def connect (h : Hub) : Option Hub :=
  match h.poll with
  | some _ => some h
  | none => h.table.currentRev.map fun rev => { h with poll := some ⟨rev, rev, 0, .waiting⟩ }

/-- A started database: the table has the row of `compact_rev_key`. -/
def init : Hub where
  table := ((Kine.empty.place ⟨1, compactRevKey, [], true, false, 0, 0, 0, [], []⟩).getD Kine.empty)
  polledRev := 0
  poll := none
  outbox := none
  held := none

end Hub

end Harikube
