import Harikube.Heap.Binary
import Harikube.Spec.NatsLease

/-!
# The heap and the loop of the expire watcher

`ExpireHeap` (`pkg/drivers/nats/expire_watcher.go`) is a `container/heap` under a mutex, ordered by
`expires`. `ExpireWatcher` has one goroutine that waits for the entry at the top: it arms a timer
and then waits for the timer, for `wakeCh`, and for the end of its context. `Add` and `RemoveKey`
change the heap and then send to `wakeCh`, which has room for one value; the send is dropped if the
channel is full.

Times are those of one clock.
-/

namespace Harikube

open Heap

/-- The entries of a heap are in heap order, whatever calls have been made. -/
structure ExpireHeap where
  entries : List ExpireEntry
  ordered : IsHeap ExpireEntry.expires entries

namespace ExpireHeap

def newExpireHeap : ExpireHeap := ⟨Heap.init ExpireEntry.expires [], init_isHeap []⟩

def add (h : ExpireHeap) (entry : ExpireEntry) : ExpireHeap := ⟨push ExpireEntry.expires h.entries entry, h.ordered.push entry⟩

def remove (h : ExpireHeap) : Option (ExpireEntry × ExpireHeap) :=
  match hp : pop ExpireEntry.expires h.entries with
  | none => none
  | some (entry, rest) => some (entry, ⟨rest, h.ordered.pop hp⟩)

def peek (h : ExpireHeap) : Option ExpireEntry := h.entries[0]?

def next (h : ExpireHeap) (expired : ℤ) : Option (ExpireEntry × ExpireHeap) :=
  match h.peek with
  | none => none
  | some e => if expired < e.expires then none else h.remove

/-- The removed entries, and the heap built anew from the others if there are any. -/
def removeByKey (h : ExpireHeap) (key : Bytes) : List ExpireEntry × ExpireHeap :=
  let removed := h.entries.filter (·.key = key)
  let remaining := h.entries.filter (·.key ≠ key)
  if removed = [] then (removed, h) else (removed, ⟨Heap.init ExpireEntry.expires remaining, init_isHeap remaining⟩)

variable {h h' : ExpireHeap} {e : ExpireEntry} {now : ℤ}

theorem remove_cases (hr : h.remove = some (e, h')) : h.peek = some e ∧ (e :: h'.entries).Perm h.entries := by
  unfold remove at hr
  split at hr
  · cases hr
  · rename_i entry rest hp
    cases hr
    exact ⟨pop_head hp, pop_perm _ hp⟩

theorem next_cases (hn : h.next now = some (e, h')) :
    h.peek = some e ∧ e.expires ≤ now ∧ (e :: h'.entries).Perm h.entries := by
  unfold next at hn
  split at hn
  · cases hn
  · rename_i top htop
    split at hn
    · cases hn
    · rename_i hdue
      obtain ⟨hpeek, hperm⟩ := remove_cases hn
      have heq : top = e := Option.some.inj (htop.symm.trans hpeek)
      exact ⟨hpeek, heq ▸ not_lt.1 hdue, hperm⟩

theorem next_length (hn : h.next now = some (e, h')) : h'.entries.length < h.entries.length := by
  rw [← (next_cases hn).2.2.length_eq, List.length_cons]
  exact Nat.lt_succ_self _

/-- `processExpired` without other calls in between: the entries that the callback is called with,
in order, and the heap. An entry that is not due would be dropped. -/
def processExpired (h : ExpireHeap) (now : ℤ) : List ExpireEntry × ExpireHeap :=
  match hn : h.next now with
  | none => ([], h)
  | some (entry, h') =>
    if now < entry.expires then ([], h')
    else (entry :: (processExpired h' now).1, (processExpired h' now).2)
termination_by h.entries.length
decreasing_by all_goals exact next_length hn

end ExpireHeap

/-! ## The loop -/

/-- A timer of the loop: the expiry it was set for, the time at which it fires, and whether it has
put its value into its channel and whether that has been received. -/
inductive TimerState
  | running
  | fired
  | received
deriving DecidableEq

structure Timer where
  expires : ℤ
  deadline : ℤ
  state : TimerState
deriving DecidableEq

/-- Where the goroutine of `Start` is. -/
inductive WatcherLoop
  /-- At the top of the loop, before `Peek`. -/
  | top
  /-- After `Peek`. -/
  | peeked (next : Option ExpireEntry)
  /-- After `time.Until` of a top that expires later, before the timer is set. -/
  | waiting (expires wait : ℤ)
  | select
  /-- At the start of `processExpired`. -/
  | process
  /-- In the loop of `processExpired`, with its time, before `Next`. -/
  | taking (now : ℤ)
  /-- The callback runs for the entry. -/
  | callback (entry : ExpireEntry) (now : ℤ)
  | stopped
deriving DecidableEq

/-- `signals` counts the calls of `Add` and `RemoveKey` that have changed the heap and have not sent
to `wakeCh` yet. `calls` are the calls of the callback with the time they were made at, and
`removed` the entries returned by `RemoveKey`. -/
structure ExpireWatcher where
  now : ℤ
  heap : ExpireHeap
  wakeCh : Bool
  signals : ℕ
  cancelled : Bool
  timer : Option Timer
  loop : WatcherLoop
  calls : List (ExpireEntry × ℤ)
  removed : List ExpireEntry

namespace ExpireWatcher

/-- The steps: time passes, a caller changes the heap, a caller signals, the context is cancelled,
the timer fires, a step of the loop that needs no choice, and the cases of its `select`. -/
inductive Act
  | passes (d : ℕ)
  | add (entry : ExpireEntry)
  | removeKey (key : Bytes)
  | signal
  | cancel
  | fires
  | run
  | receiveDone
  | receiveWake
  | receiveTimer

def removeKey (x : ExpireWatcher) (key : Bytes) : ExpireWatcher :=
  let r := x.heap.removeByKey key
  if r.1 = [] then x else { x with heap := r.2, removed := x.removed ++ r.1, signals := x.signals + 1 }

def signal (x : ExpireWatcher) : ExpireWatcher :=
  if x.signals = 0 then x else { x with signals := x.signals - 1, wakeCh := true }

def fires (x : ExpireWatcher) : ExpireWatcher :=
  match x.timer with
  | some t => if t.state = .running ∧ t.deadline ≤ x.now then { x with timer := some { t with state := .fired } } else x
  | none => x

/-- `Stop` and `Reset` leave no value in the channel of the timer, so a timer that is set again is
as good as a new one. -/
def run (x : ExpireWatcher) : ExpireWatcher :=
  match x.loop with
  | .top => { x with loop := .peeked x.heap.peek }
  | .peeked none => { x with timer := none, loop := .select }
  | .peeked (some e) =>
    if e.expires - x.now ≤ 0 then { x with loop := .process }
    else { x with loop := .waiting e.expires (e.expires - x.now) }
  | .waiting expires wait => { x with timer := some ⟨expires, x.now + wait, .running⟩, loop := .select }
  | .process => { x with loop := .taking x.now }
  | .taking now =>
    match x.heap.next now with
    | none => { x with loop := .top }
    | some (e, h) =>
      if now < e.expires then { x with heap := h, loop := .top }
      else { x with heap := h, loop := .callback e now, calls := x.calls ++ [(e, x.now)] }
  | .callback _ now => { x with loop := .taking now }
  | .select => x
  | .stopped => x

def receiveDone (x : ExpireWatcher) : ExpireWatcher :=
  if x.loop = .select ∧ x.cancelled then { x with timer := none, loop := .stopped } else x

def receiveWake (x : ExpireWatcher) : ExpireWatcher :=
  if x.loop = .select ∧ x.wakeCh then { x with wakeCh := false, loop := .top } else x

def receiveTimer (x : ExpireWatcher) : ExpireWatcher :=
  match x.timer with
  | some t =>
    if x.loop = .select ∧ t.state = .fired then
      { x with timer := some { t with state := .received }, loop := .process }
    else x
  | none => x

def step (x : ExpireWatcher) : Act → ExpireWatcher
  | .passes d => { x with now := x.now + d }
  | .add entry => { x with heap := x.heap.add entry, signals := x.signals + 1 }
  | .removeKey key => x.removeKey key
  | .signal => x.signal
  | .cancel => { x with cancelled := true }
  | .fires => x.fires
  | .run => x.run
  | .receiveDone => x.receiveDone
  | .receiveWake => x.receiveWake
  | .receiveTimer => x.receiveTimer

/-- `NewExpireWatcher`, and the goroutine of `Start` at the top of its loop. -/
def init (now : ℤ) : ExpireWatcher := ⟨now, ExpireHeap.newExpireHeap, false, 0, false, none, .top, [], []⟩

/-- The entries that the calls of a run add. -/
def added (acts : List Act) : List ExpireEntry :=
  acts.filterMap fun
    | .add entry => some entry
    | _ => none

/-- The loop waits in its `select` and no case of it can go on. -/
def Blocked (x : ExpireWatcher) : Prop :=
  x.loop = .select ∧ x.wakeCh = false ∧ x.cancelled = false ∧ ∀ t ∈ x.timer, t.state ≠ .fired

/-- A timer is running for an entry that expires no later than any entry of the heap. -/
def ArmedForTop (x : ExpireWatcher) : Prop :=
  ∃ t, x.timer = some t ∧ t.state = .running ∧ t.expires ≤ t.deadline ∧ ∀ e ∈ x.heap.entries, t.expires ≤ e.expires

end ExpireWatcher

end Harikube
