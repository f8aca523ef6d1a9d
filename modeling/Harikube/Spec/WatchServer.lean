import Harikube.Lts.Run
import Harikube.Spec.Types

/-!
# One watch stream of the server

`pkg/server/watch.go`: the receive loop of a stream, which creates and cancels watches, a goroutine
for each watch, two goroutines that report progress, and the mutex of `server.Send`. The map of the
watches and that of the progress channels are guarded by a read-write lock; what is done under the
write lock is one step, which waits for the readers. The backend is free: it delivers events, and
closes its channel, at any time.
-/

namespace Harikube

/-- `etcdserverpb.WatchResponse`; no `watchId` stands for `InvalidWatchID`. -/
structure WatchResponse where
  watchId : Option ℕ
  revision : ℤ
  created : Bool
  canceled : Bool
  compactRevision : ℤ
  events : List Event
deriving DecidableEq

/-- Where `watcher.watch` goes on after a call of `Cancel`: into its loop again, to the `Cancel` at
its end, or out. -/
inductive AfterCancel
  | again
  | final
  | stop
deriving DecidableEq

/-- The program points of `watcher.watch`: before the first response, before `backend.Watch`, at the
outer `select`, at the inner one with what has been read, before a response, and at the two parts of
`Cancel`. -/
inductive WatchStage
  | creating
  | opening
  | waiting
  | reading (events : List Event)
  | replying (events : List Event) (revision : ℤ) (last : Bool)
  | canceling (revision compactRev : ℤ) (next : AfterCancel)
  | announcing (revision compactRev : ℤ) (next : AfterCancel)
  | returned
deriving DecidableEq

/-- A watch: its request, its entries in the maps `watches` and `progress`, whether its progress
channel is closed, the channel from the backend, and its goroutine. -/
structure ServerWatch where
  startRevision : ℤ
  progressNotify : Bool
  registered : Bool
  inProgress : Bool
  progressClosed : Bool
  opened : Bool
  queue : List (List Event)
  queueClosed : Bool
  maxRev : ℤ
  stage : WatchStage
deriving DecidableEq

namespace ServerWatch

def new (startRevision : ℤ) (progressNotify : Bool) : ServerWatch :=
  ⟨startRevision, progressNotify, true, progressNotify, false, false, [], false, 0, .creating⟩

/-- `removeWatch`, and `Close` for one watch. -/
def remove (w : ServerWatch) : ServerWatch :=
  { w with registered := false, inProgress := false, progressClosed := w.progressClosed || w.inProgress }

/-- The goroutine is blocked in the outer `select`, so that it can be sent progress. -/
def parked (w : ServerWatch) : Bool := w.stage = .waiting && w.queue.isEmpty && !w.queueClosed

/-- A revision from the progress channel. -/
def takeProgress (w : ServerWatch) (progressRev : ℤ) : ServerWatch :=
  { w with stage := .replying [] (if progressRev ≥ w.maxRev then progressRev else 0) false }

/-- What has been read is to be sent; `last` if the channel is closed. -/
def batch (events : List Event) (last : Bool) : WatchStage :=
  .replying events ((events.getLast?.map fun e => e.kv.modRevision).getD 0) last

/-- The first read from the backend's channel, at the outer `select`. -/
def read (w : ServerWatch) : ServerWatch :=
  match w.stage, w.queue with
  | .waiting, events :: queue => { w with queue := queue, stage := .reading events }
  -- a closed channel yields no events, and no `ok` is asked for
  | .waiting, [] => if w.queueClosed then { w with stage := .reading [] } else w
  | _, _ => w

/-- Another read, at the inner `select`. -/
def readMore (w : ServerWatch) : ServerWatch :=
  match w.stage, w.queue with
  | .reading events, more :: queue => { w with queue := queue, stage := .reading (events ++ more) }
  | .reading events, [] => { w with stage := batch events w.queueClosed }
  | _, _ => w

/-- A closed progress channel yields revision 0. -/
def readClosed (w : ServerWatch) : ServerWatch :=
  match w.stage with
  | .waiting => if w.progressNotify && w.progressClosed then w.takeProgress 0 else w
  | _ => w

/-- The stage after a call of `Cancel`. -/
def afterCancel : AfterCancel → WatchStage
  | .again => .waiting
  | .final => .canceling 0 0 .stop
  | .stop => .returned

/-- `backend.Watch` returns, with the current and the compact revision if the start is compacted. -/
def openWatch (w : ServerWatch) (compacted : Option (ℤ × ℤ)) : ServerWatch :=
  match w.stage with
  | .opening =>
    match compacted with
    | some (rev, compactRev) => { w with stage := .canceling rev compactRev .stop }
    | none => { w with opened := true, stage := .waiting }
  | _ => w

/-- The backend sends a batch, or closes the channel. -/
def deliver (w : ServerWatch) (events : List Event) : ServerWatch :=
  if w.opened && !w.queueClosed then { w with queue := w.queue ++ [events] } else w

def closeQueue (w : ServerWatch) : ServerWatch := if w.opened then { w with queueClosed := true } else w

/-- There is something to send. -/
def replies (w : ServerWatch) (events : List Event) (revision : ℤ) : Bool :=
  revision ≠ 0 && (events.isEmpty || revision ≥ w.startRevision)

/-- The goroutine has sent its first response, and sends no other one unless it is given more. -/
def silent (w : ServerWatch) : Bool :=
  w.queue.isEmpty &&
    match w.stage with
    | .creating => false
    | .reading events => events.isEmpty
    | .replying events revision _ => !w.replies events revision
    | _ => true

end ServerWatch

/-- The receive loop: between two requests, or in the two parts of `Cancel`. -/
inductive RecvStage
  | idle
  | canceling (id : ℕ)
  | announcing (id : ℕ)
deriving DecidableEq

/-- `ProgressIfSynced` and `ProgressAll`: before a tick, synced to a revision, and offering it to
the channels that are left, under the read lock. -/
inductive TickStage
  | idle
  | synced (rev : ℤ)
  | offering (rev : ℤ) (left : List ℕ)
deriving DecidableEq

/-- The read lock is held. -/
def TickStage.locks : TickStage → Bool
  | .offering _ _ => true
  | _ => false

/-- A stream. The id of a watch is its place in the list. -/
structure WatchServer where
  watches : List ServerWatch
  recv : RecvStage
  tick : TickStage
  all : TickStage
  notify : Bool
  pending : List ℤ
  closed : Bool
  panicked : Bool
  maxRevision : ℤ
  log : List WatchResponse

namespace WatchServer

/-- The steps: the requests and the receive loop, the two progress goroutines and the broadcasts
that they start, the backend, and the goroutine of a watch. `ok` is false if a send fails. -/
inductive Act
  | create (startRevision : ℤ) (progressNotify : Bool)
  | reject (rev : ℤ) (ok : Bool)
  | cancelRequest (id : ℕ)
  | recvRemove
  | recvAnnounce (ok : Bool)
  | progressRequest
  | close
  | tickBegin (rev : ℤ)
  | tickLock
  | tickOffer (i : ℕ)
  | tickUnlock
  | allBegin (rev : ℤ)
  | allLock
  | allOffer (i : ℕ)
  | allUnlock
  | broadcast (j : ℕ) (ok : Bool)
  | deliver (i : ℕ) (events : List Event)
  | closeQueue (i : ℕ)
  | sendCreated (i : ℕ) (ok : Bool)
  | openWatch (i : ℕ) (compacted : Option (ℤ × ℤ))
  | read (i : ℕ)
  | readMore (i : ℕ)
  | readClosed (i : ℕ)
  | reply (i : ℕ) (ok : Bool)
  | remove (i : ℕ)
  | announce (i : ℕ) (ok : Bool)

/-- `server.Send`: the revision of a header never goes back. -/
def send (x : WatchServer) (wr : WatchResponse) (ok : Bool) : WatchServer :=
  let wr' := if wr.revision > 0 ∧ wr.revision ≤ x.maxRevision then { wr with revision := x.maxRevision } else wr
  { x with
    maxRevision := if wr.revision > x.maxRevision ∧ wr.revision > 0 then wr.revision else x.maxRevision
    log := if ok then x.log ++ [wr'] else x.log }

/-- A step of the goroutine of one watch that only changes the watch. -/
def update (x : WatchServer) (i : ℕ) (f : ServerWatch → ServerWatch) : WatchServer :=
  { x with watches := x.watches.modify i f }

/-- A reader holds the lock. -/
def locked (x : WatchServer) : Bool := x.tick.locks || x.all.locks

/-- The ids in the map `progress`. -/
def progressIds (x : WatchServer) : List ℕ :=
  (List.range x.watches.length).filter fun i => (x.watches[i]?.map ServerWatch.inProgress).getD false

def registered (x : WatchServer) (id : ℕ) : Bool := (x.watches[id]?.map ServerWatch.registered).getD false

/-! ## The receive loop -/

def create (x : WatchServer) (startRevision : ℤ) (progressNotify : Bool) : WatchServer :=
  if x.recv = .idle ∧ x.closed = false ∧ x.locked = false then
    { x with watches := x.watches ++ [.new startRevision progressNotify] }
  else x

/-- `CancelEarly`, for a request that is refused. -/
def reject (x : WatchServer) (rev : ℤ) (ok : Bool) : WatchServer :=
  if x.recv = .idle ∧ x.closed = false then x.send ⟨none, rev, true, true, 0, []⟩ ok else x

def cancelRequest (x : WatchServer) (id : ℕ) : WatchServer :=
  if x.recv = .idle ∧ x.closed = false then { x with recv := .canceling id } else x

/-- The first part of `Cancel`, `removeWatch`. An unknown id gets no response. -/
def recvRemove (x : WatchServer) : WatchServer :=
  match x.recv with
  | .canceling id =>
    if x.locked then x
    else { x.update id ServerWatch.remove with recv := if x.registered id then .announcing id else .idle }
  | _ => x

/-- The second part of `Cancel`. -/
def recvAnnounce (x : WatchServer) (ok : Bool) : WatchServer :=
  match x.recv with
  | .announcing id => { x.send ⟨some id, 0, false, true, 0, []⟩ ok with recv := .idle }
  | _ => x

/-- `Close`. -/
def close (x : WatchServer) : WatchServer :=
  if x.recv = .idle ∧ x.locked = false then { x with closed := true, watches := x.watches.map ServerWatch.remove }
  else x

/-! ## Progress -/

/-- A non-blocking send on the progress channel of a watch: whether it is received. A send on a
closed channel panics. -/
def offer (x : WatchServer) (i : ℕ) (rev : ℤ) : WatchServer × Bool :=
  match x.watches[i]? with
  | none => (x, false)
  | some w =>
    if w.progressClosed then ({ x with panicked := true }, false)
    else if w.parked then (x.update i fun w => w.takeProgress rev, true)
    else (x, false)

def tickBegin (x : WatchServer) (rev : ℤ) : WatchServer :=
  if x.tick = .idle ∧ x.notify = false then { x with tick := .synced rev } else x

def tickLock (x : WatchServer) : WatchServer :=
  match x.tick with
  | .synced rev => { x with tick := .offering rev x.progressIds }
  | _ => x

/-- The next channel of `ProgressIfSynced`, in any order. -/
def tickOffer (x : WatchServer) (i : ℕ) : WatchServer :=
  match x.tick with
  | .offering rev left =>
    if i ∈ left then { (x.offer i rev).1 with tick := .offering rev (left.erase i) } else x
  | _ => x

def tickUnlock (x : WatchServer) : WatchServer :=
  match x.tick with
  | .offering _ [] => { x with tick := .idle }
  | _ => x

def allBegin (x : WatchServer) (rev : ℤ) : WatchServer :=
  if x.all = .idle ∧ x.notify = true then { x with all := .synced rev } else x

def allLock (x : WatchServer) : WatchServer :=
  match x.all with
  | .synced rev => { x with all := .offering rev x.progressIds, notify := false }
  | _ => x

/-- The next channel of `ProgressAll`, which is sent revision 0; the first one that does not
receive it ends the tick. -/
def allOffer (x : WatchServer) (i : ℕ) : WatchServer :=
  match x.all with
  | .offering rev left =>
    if i ∈ left then
      { (x.offer i 0).1 with all := if (x.offer i 0).2 then .offering rev (left.erase i) else .idle }
    else x
  | _ => x

/-- All watches are synced: the broadcast is sent by a goroutine of its own. -/
def allUnlock (x : WatchServer) : WatchServer :=
  match x.all with
  | .offering rev [] => { x with all := .idle, pending := x.pending ++ [rev] }
  | _ => x

def broadcast (x : WatchServer) (j : ℕ) (ok : Bool) : WatchServer :=
  match x.pending[j]? with
  | some rev => { x.send ⟨none, rev, false, false, 0, []⟩ ok with pending := x.pending.eraseIdx j }
  | none => x

/-! ## The goroutine of a watch -/

def sendCreated (x : WatchServer) (i : ℕ) (ok : Bool) : WatchServer :=
  match x.watches[i]? with
  | none => x
  | some w =>
    if w.stage = .creating then
      (x.send ⟨some i, 0, true, false, 0, []⟩ ok).update i fun w =>
        { w with stage := if ok then .opening else .canceling 0 0 .stop }
    else x

/-- The response with the events or the progress, if there is something to send. A failed send is
followed by `Cancel`, and the loop goes on. -/
def reply (x : WatchServer) (i : ℕ) (ok : Bool) : WatchServer :=
  match x.watches[i]? with
  | none => x
  | some w =>
    match w.stage with
    | .replying events revision last =>
      if w.replies events revision then
        (x.send ⟨some i, revision, false, false, 0, events⟩ ok).update i fun w =>
          { w with
            maxRev := revision
            stage :=
              if ok then (if last then .canceling 0 0 .stop else .waiting)
              else .canceling 0 0 (if last then .final else .again) }
      else x.update i fun w => { w with stage := if last then .canceling 0 0 .stop else .waiting }
    | _ => x

def remove (x : WatchServer) (i : ℕ) : WatchServer :=
  match x.watches[i]? with
  | none => x
  | some w =>
    match w.stage with
    | .canceling revision compactRev next =>
      if x.locked then x
      else x.update i fun w =>
        { w.remove with
          stage := if w.registered then .announcing revision compactRev next else ServerWatch.afterCancel next }
    | _ => x

def announce (x : WatchServer) (i : ℕ) (ok : Bool) : WatchServer :=
  match x.watches[i]? with
  | none => x
  | some w =>
    match w.stage with
    | .announcing revision compactRev next =>
      (x.send ⟨some i, revision, false, true, compactRev, []⟩ ok).update i fun w =>
        { w with stage := ServerWatch.afterCancel next }
    | _ => x

def step (x : WatchServer) : Act → WatchServer
  | .create startRevision progressNotify => x.create startRevision progressNotify
  | .reject rev ok => x.reject rev ok
  | .cancelRequest id => x.cancelRequest id
  | .recvRemove => x.recvRemove
  | .recvAnnounce ok => x.recvAnnounce ok
  | .progressRequest => { x with notify := true }
  | .close => x.close
  | .tickBegin rev => x.tickBegin rev
  | .tickLock => x.tickLock
  | .tickOffer i => x.tickOffer i
  | .tickUnlock => x.tickUnlock
  | .allBegin rev => x.allBegin rev
  | .allLock => x.allLock
  | .allOffer i => x.allOffer i
  | .allUnlock => x.allUnlock
  | .broadcast j ok => x.broadcast j ok
  | .deliver i events => x.update i fun w => w.deliver events
  | .closeQueue i => x.update i ServerWatch.closeQueue
  | .sendCreated i ok => x.sendCreated i ok
  | .openWatch i compacted => x.update i fun w => w.openWatch compacted
  | .read i => x.update i ServerWatch.read
  | .readMore i => x.update i ServerWatch.readMore
  | .readClosed i => x.update i ServerWatch.readClosed
  | .reply i ok => x.reply i ok
  | .remove i => x.remove i
  | .announce i ok => x.announce i ok

def init : WatchServer := ⟨[], .idle, .idle, .idle, false, [], false, false, 0, []⟩

/-! ## The order of the responses -/

/-- The responses for one watch. -/
def responsesOf (log : List WatchResponse) (id : ℕ) : List WatchResponse := log.filter fun r => r.watchId = some id

/-- One Created response, then responses with events or progress, then at most one Canceled
response. -/
def InOrder (rs : List WatchResponse) : Prop :=
  rs = [] ∨ ∃ first replies rest, rs = first :: (replies ++ rest) ∧
    (first.created = true ∧ first.canceled = false) ∧
    (∀ r ∈ replies, r.created = false ∧ r.canceled = false) ∧
    (rest = [] ∨ ∃ last, rest = [last] ∧ last.created = false ∧ last.canceled = true)

/-- The responses of every watch are in order. -/
def Ordered (x : WatchServer) : Prop := ∀ id, InOrder (responsesOf x.log id)

/-- The Created response of a watch has been sent. -/
def Announced (x : WatchServer) (id : ℕ) : Prop := ∃ r ∈ x.log, r.watchId = some id ∧ r.created = true

/-- The Canceled response of a watch has been sent or is about to be. -/
def Canceled (x : WatchServer) (id : ℕ) : Prop :=
  (∃ r ∈ x.log, r.watchId = some id ∧ r.canceled = true) ∨ x.recv = .announcing id ∨
    ∃ w revision compactRev next, x.watches[id]? = some w ∧ w.stage = .announcing revision compactRev next

/-- A request of the client cancels a watch when its goroutine has announced it and has nothing to
send; after a failed send it is canceled with nothing in its queue; nothing is delivered to a
canceled watch; and a Canceled response does not get through where the Created one has not. -/
structure Orderly (x : WatchServer) (a : Act) : Prop where
  recv : ∀ id w, a = .recvRemove → x.recv = .canceling id → x.watches[id]? = some w → w.registered = true →
    w.silent = true
  own : ∀ i w, a = .remove i → x.watches[i]? = some w → w.registered = true → w.queue = []
  deliver : ∀ i events, a = .deliver i events → ¬ x.Canceled i
  recvAnnounce : ∀ id, a = .recvAnnounce true → x.recv = .announcing id → x.Announced id
  announce : ∀ i, a = .announce i true → x.Announced i

end WatchServer

end Harikube
