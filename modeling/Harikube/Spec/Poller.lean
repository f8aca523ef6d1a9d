import Harikube.Spec.Poll

/-!
# The poll loop by itself

`SQLLog.poll` (`pkg/logstructured/sqllog/sql.go`) with all its variables, whatever `After`
and `Fill` return and however long they take (`Poller`); and the same loop on a table in
which rows become visible (`Polled`).
-/

namespace Harikube

/-- Where the loop is. `waitForMore` is the variable of the source, for the next iteration. -/
inductive PollerStage
  | waiting
  | storing
  | querying
  | filling (next : ℤ) (r : PollLoop) (waitForMore : Bool)
  | sending (r : PollLoop) (waitForMore : Bool)

/-- The variables of the loop. `sent` are the batches that the result channel has taken and
`handed` is the revision that the last of them goes up to, at first the one that the loop
starts from. `seen` are the revisions of the rows that `After` has returned and those that
the loop has filled itself. -/
structure Poller where
  pollRevision : ℤ
  skip : ℤ
  polledRev : ℤ
  stage : PollerStage
  sent : List Batch
  handed : ℤ
  seen : List ℤ

/-- What the loop meets: a notification, the ticker, the result of `After` (none for an
error) with what `time.Since(skipTime) > time.Second` says after it, the outcome of `Fill`,
and a receiver on the result channel. -/
inductive PollerAct
  | notified (check : ℤ)
  | tick
  | store
  | after (rows : Option (List Row)) (elapsed : Bool)
  | fill (ok : Bool)
  | send

namespace Poller

def init (pollStart : ℤ) : Poller := ⟨pollStart, 0, 0, .waiting, [], pollStart, []⟩

/-- The next iteration. -/
def top (p : Poller) (waitForMore : Bool) : Poller :=
  { p with stage := if waitForMore then .waiting else .storing }

/-- The end of an iteration, up to the send. -/
def publish (p : Poller) (r : PollLoop) (waitForMore : Bool) : Poller :=
  if r.saveLast then { p with pollRevision := r.rev, stage := .sending r waitForMore } else p.top waitForMore

/-- The iteration on the rows of a query. -/
def iterate (p : Poller) (rows : List Row) (elapsed : Bool) : Poller :=
  let r := pollLoop p.skip elapsed p.pollRevision rows
  let waitForMore := decide (rows.length < 100)
  let p' := { p with seen := p.seen ++ rows.map Row.id }
  match r.gap with
  | .atEnd => p'.publish r waitForMore
  | .retry next => { p' with skip := next }.publish r waitForMore
  | .fill next => { p' with stage := .filling next r waitForMore }

def step (p : Poller) : PollerAct → Poller
  | .notified check =>
    match p.stage with
    | .waiting => if check ≤ p.pollRevision then p else { p with stage := .storing }
    | _ => p
  | .tick =>
    match p.stage with
    | .waiting => { p with stage := .storing }
    | _ => p
  | .store =>
    match p.stage with
    | .storing => { p with polledRev := p.pollRevision, stage := .querying }
    | _ => p
  | .after rows elapsed =>
    match p.stage, rows with
    | .querying, some rows => p.iterate rows elapsed
    | .querying, none => p.top true
    | _, _ => p
  | .fill ok =>
    match p.stage with
    | .filling next r waitForMore =>
      { p with seen := if ok then p.seen ++ [next] else p.seen }.publish r waitForMore
    | _ => p
  | .send =>
    match p.stage with
    | .sending r waitForMore => { p with sent := p.sent ++ [r.batch], handed := r.rev }.top waitForMore
    | _ => p

/-- The events that have been sent, without the nil ones. -/
def events (p : Poller) : List Event := p.sent.flatten.reduceOption

end Poller

/-- A poll loop on a table. -/
structure Polled where
  table : Kine
  pollStart : ℤ
  poller : Poller

/-- Rows become visible in any order; the statements of the loop may fail. -/
inductive PolledAct
  | place (x : Row)
  | notified (check : ℤ)
  | tick
  | store
  | query (limit : ℤ) (elapsed : Bool)
  | queryFails
  | fill
  | fillFails
  | send

namespace Polled

/-- `SQLLog.startWatch`: the loop begins at the largest revision of the table. -/
def start (t : Kine) : Option Polled := t.currentRev.map fun rev => ⟨t, rev, .init rev⟩

/-- `Fill` of the revision that the loop wants to fill. -/
def fill (s : Polled) : Polled :=
  match s.poller.stage with
  | .filling next _ _ =>
    match s.table.fill next with
    | some t => { s with table := t, poller := s.poller.step (.fill true) }
    | none => { s with poller := s.poller.step (.fill false) }
  | _ => s

def step (s : Polled) : PolledAct → Polled
  | .place x => { s with table := (s.table.place x).getD s.table }
  | .notified check => { s with poller := s.poller.step (.notified check) }
  | .tick => { s with poller := s.poller.step .tick }
  | .store => { s with poller := s.poller.step .store }
  | .query limit elapsed =>
    { s with poller := s.poller.step (.after (some (s.table.after [] [] s.poller.pollRevision limit)) elapsed) }
  | .queryFails => { s with poller := s.poller.step (.after none false) }
  | .fill => s.fill
  | .fillFails => { s with poller := s.poller.step (.fill false) }
  | .send => { s with poller := s.poller.step .send }

end Polled

end Harikube
