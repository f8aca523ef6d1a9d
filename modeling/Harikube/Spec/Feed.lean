import Harikube.Spec.Broadcaster
import Harikube.Spec.Poll

/-!
# The goroutines of a watch

`LogStructured.Watch` over `SQLLog.Watch`: a watch subscribes to the broadcaster, queries
the rows that are there already, and then forwards the batches of the poll loop, first
through the filter of the SQL log, which drops other keys, and then through the filter of
`LogStructured`, which drops the revisions that the query has covered. The channels have
room for 100 batches.

`Stitch` is one such watch over the poll loop, with a reader of its result. `Twin` is two of
them, with a record of what each has been sent and of what its backlog query has found.
-/

namespace Harikube

/-- `filter` of the SQL log. `selected` is `filterEventBySelectors`; a batch of one event
is not filtered by it. -/
def SqlLog.filter (selected : KeyValue → Bool) (key rangeEnd : Bytes) (events : Batch) : List Event :=
  if events.length = 1 then events.filterMap fun e => if Event.inRange e key rangeEnd then e else none
  else
    events.filterMap fun e =>
      if Event.inRange e key rangeEnd && e.any fun e => selected e.kv || e.prevKV.any selected then e else none

/-- `filter` of `LogStructured`. -/
def LogStructured.filter (events : List Event) (rev : ℤ) : List Event :=
  events.dropWhile fun e => e.kv.modRevision ≤ rev

/-- The names that `After` queries for. -/
def watched (key rangeEnd name : Bytes) : Bool :=
  if key = [] then true else if rangeEnd = [] then name = key else Kine.between key rangeEnd name

/-- How far `LogStructured.Watch` has got. -/
inductive FeedStage
  | new
  | subscribed
  | listed (lastRevision : ℤ)
  | refused
deriving DecidableEq

/-- A watch: its request, its subscription (`sub`, as long as it is `inSubs`; `dropped`
once a batch has found it full), what its two goroutines hold, and its channels. -/
structure Feed where
  key : Bytes
  rangeEnd : Bytes
  startRevision : ℤ
  selected : KeyValue → Bool
  stage : FeedStage
  inSubs : Bool
  dropped : Bool
  sub : List Batch
  filtered : Option (List Event)
  res : List (List Event)
  forwarded : Option (List Event)
  result : List (List Event)

inductive FeedAct
  | subscribe
  | list
  | filter
  | send
  | forward
  | deliver

namespace Feed

def new (key rangeEnd : Bytes) (startRevision : ℤ) (selected : KeyValue → Bool) : Feed :=
  ⟨key, rangeEnd, startRevision, selected, .new, false, false, [], none, [], none, []⟩

/-- The revision that the backlog is queried after: it includes the start revision. -/
def after (f : Feed) : ℤ := if f.startRevision > 1 then f.startRevision - 1 else f.startRevision

/-- `Broadcaster.stream` sends a batch to one subscriber, and drops it if it is slow. -/
def fanout (f : Feed) (batch : Batch) : Feed :=
  if !f.inSubs then f
  else if f.sub.length < capacity then { f with sub := f.sub ++ [batch] }
  else { f with dropped := true }

/-- `SQLLog.After` for the backlog: the cut-off revision and the events, or `none` if the
revision is compacted. -/
def backlog (f : Feed) (t : Kine) : Option (ℤ × List Event) :=
  let kvs := (t.after f.key f.rangeEnd f.after 0).map (Row.toEvent true true)
  if kvs ≠ [] then
    if f.after > 0 ∧ f.after < t.compactRev.getD 0 then none else some (t.currentRev.getD 0, kvs)
  else if f.after > 0 then
    match t.compactRev with
    | none => none
    | some compact => if f.after < compact then none else some (f.after, [])
  else some (f.after, [])

def list (f : Feed) (t : Kine) : Feed :=
  match f.stage with
  | .subscribed =>
    match f.backlog t with
    | none => { f with stage := .refused }
    | some (lastRevision, kvs) =>
      { f with stage := .listed lastRevision, forwarded := if kvs ≠ [] then some kvs else none }
  | _ => f

/-- The goroutine of `SQLLog.Watch` reads a batch and filters it. -/
def filter (f : Feed) : Feed :=
  match f.sub, f.filtered with
  | batch :: sub, none =>
    let events := SqlLog.filter f.selected f.key f.rangeEnd batch
    { f with sub := sub, filtered := if events ≠ [] then some events else none }
  | _, _ => f

def send (f : Feed) : Feed :=
  match f.filtered with
  | some events =>
    if f.res.length < capacity then { f with filtered := none, res := f.res ++ [events] } else f
  | none => f

/-- The goroutine of `LogStructured.Watch` reads a batch and filters it; what is left is
sent even if it is empty. -/
def forward (f : Feed) : Feed :=
  match f.stage, f.res, f.forwarded with
  | .listed lastRevision, events :: res, none =>
    { f with res := res, forwarded := some (LogStructured.filter events lastRevision) }
  | _, _, _ => f

def deliver (f : Feed) : Feed :=
  match f.forwarded with
  | some events =>
    if f.result.length < capacity then { f with forwarded := none, result := f.result ++ [events] } else f
  | none => f

/-- A step of the watch over the table. -/
def step (f : Feed) (t : Kine) : FeedAct → Feed
  | .subscribe => match f.stage with
    | .new => { f with stage := .subscribed, inSubs := true }
    | _ => f
  | .list => f.list t
  | .filter => f.filter
  | .send => f.send
  | .forward => f.forward
  | .deliver => f.deliver

/-- The events the watch is for. -/
def wants (f : Feed) (e : Event) : Bool :=
  !Kine.isFill e.kv.key && watched f.key f.rangeEnd e.kv.key && f.after < e.kv.modRevision &&
    (f.selected e.kv || e.prevKV.any f.selected)

end Feed

/-- One watch over the poll loop; `delivered` is what its reader has got. -/
structure Stitch where
  hub : Hub
  feed : Feed
  delivered : List Event

namespace Stitch

/-- `connect` is a subscription of another watch, which starts the poll loop. -/
inductive Act
  | hub (a : HubAct)
  | connect
  | feed (a : FeedAct)
  | read

def step (x : Stitch) : Act → Stitch
  | .hub a =>
    { x with
      hub := x.hub.step a
      feed := match a, x.hub.held with
        | .fanout, some batch => x.feed.fanout batch
        | _, _ => x.feed }
  | .connect => { x with hub := x.hub.connect.getD x.hub }
  | .feed .subscribe =>
    match x.hub.connect with
    | some hub => { x with hub := hub, feed := x.feed.step x.hub.table .subscribe }
    | none => x
  | .feed a => { x with feed := x.feed.step x.hub.table a }
  | .read =>
    match x.feed.result with
    | events :: result =>
      { x with feed := { x.feed with result := result }, delivered := x.delivered ++ events }
    | [] => x

def init (key rangeEnd : Bytes) (startRevision : ℤ) (selected : KeyValue → Bool) : Stitch :=
  ⟨Hub.init, Feed.new key rangeEnd startRevision selected, []⟩

end Stitch

/-! ## Two watches -/

/-- A watch with its reader. `sent` are the batches that the broadcaster has sent to it,
and `found` the rows of the table when the backlog was queried. -/
structure Seat where
  feed : Feed
  delivered : List Event
  sent : List Batch
  found : List Row

inductive SeatAct
  | feed (a : FeedAct)
  | read

namespace Seat

def new (key rangeEnd : Bytes) (startRevision : ℤ) (selected : KeyValue → Bool) : Seat :=
  ⟨Feed.new key rangeEnd startRevision selected, [], [], []⟩

/-- What the watch gets of a step of the poll loop or the broadcaster. -/
def pass (s : Seat) (h : Hub) (a : HubAct) : Seat :=
  match a, h.held with
  | .fanout, some batch =>
    { s with feed := s.feed.fanout batch, sent := if s.feed.inSubs then s.sent ++ [batch] else s.sent }
  | _, _ => s

def step (s : Seat) (t : Kine) : SeatAct → Seat
  | .feed .list =>
    { s with feed := s.feed.step t .list, found := if s.feed.stage = .subscribed then t.rows else s.found }
  | .feed a => { s with feed := s.feed.step t a }
  | .read =>
    match s.feed.result with
    | events :: result => { s with feed := { s.feed with result := result }, delivered := s.delivered ++ events }
    | [] => s

end Seat

/-- Two watches of one request over one poll loop. -/
structure Twin where
  hub : Hub
  early : Seat
  late : Seat

namespace Twin

inductive Act
  | hub (a : HubAct)
  | connect
  | early (a : SeatAct)
  | late (a : SeatAct)

/-- The poll loop runs once a watch subscribes; there is no subscription without it. -/
def joins (h : Hub) : SeatAct → Option Hub
  | .feed .subscribe => h.connect
  | _ => some h

def step (x : Twin) : Act → Twin
  | .hub a => ⟨x.hub.step a, x.early.pass x.hub a, x.late.pass x.hub a⟩
  | .connect => { x with hub := x.hub.connect.getD x.hub }
  | .early a =>
    match joins x.hub a with
    | some hub => { x with hub := hub, early := x.early.step x.hub.table a }
    | none => x
  | .late a =>
    match joins x.hub a with
    | some hub => { x with hub := hub, late := x.late.step x.hub.table a }
    | none => x

def init (key rangeEnd : Bytes) (startRevision : ℤ) (selected : KeyValue → Bool) : Twin :=
  ⟨Hub.init, Seat.new key rangeEnd startRevision selected, Seat.new key rangeEnd startRevision selected⟩

/-- One watch is opened before the rows from the start revision on are written: none is
there when it queries the backlog. The other one is opened after they are: from then on
only newer rows are written. -/
def Opened (x : Twin) : Act → Prop
  | .hub (.place y) => x.late.feed.stage ≠ .new → ∀ z ∈ x.hub.table.rows, z.id < y.id
  | .early (.feed .list) => x.early.feed.stage = .subscribed → ∀ z ∈ x.hub.table.rows, z.id ≤ x.early.feed.after
  | .late (.feed .subscribe) => ∃ L, x.early.feed.stage = .listed L
  | _ => True

end Twin

end Harikube
