import Harikube.Spec.Types

/-!
# The broadcaster

`Broadcaster` (`pkg/broadcaster/broadcaster.go`): the goroutine of `stream` reads batches
and sends each one to every subscriber under the lock, without waiting. A subscriber whose
buffer is full is unsubscribed, by a goroutine that has to get the lock first; meanwhile the
subscriber may read.

Batches are named by their position in the sequence that is broadcast.
-/

namespace Harikube

/-- The capacity of the channels. -/
def capacity : ℕ := 100

/-- The channel of a subscriber: what is in its buffer and what has been received, the
position of the sequence at the time of `Subscribe`, and whether a batch has been dropped. -/
structure Channel where
  start : ℕ
  queue : List ℕ
  received : List ℕ
  dropped : Bool
deriving DecidableEq

/-- `next` is the position of the next batch. While `stream` holds the lock, `sending` has
the subscribers that it has still to send it to, in any order. `unsubs` counts the
goroutines that are going to call `unsub`. -/
structure Broadcaster where
  running : Bool
  next : ℕ
  sending : Option (Finset ℕ)
  subs : Finset ℕ
  channel : ℕ → Option Channel
  unsubs : ℕ → ℕ

/-- `cancel` is the end of the context of a subscriber, `finish` that of the input. -/
inductive BroadcastAct
  | subscribe (i : ℕ)
  | take
  | send (i : ℕ)
  | unlock
  | receive (i : ℕ)
  | cancel (i : ℕ)
  | unsub (i : ℕ)
  | finish

namespace Broadcaster

def init : Broadcaster := ⟨false, 0, none, ∅, fun _ => none, fun _ => 0⟩

def setChannel (b : Broadcaster) (i : ℕ) (c : Channel) : Broadcaster :=
  { b with channel := Function.update b.channel i (some c) }

def subscribe (b : Broadcaster) (i : ℕ) : Broadcaster :=
  if b.sending = none ∧ b.channel i = none then
    { b.setChannel i ⟨b.next, [], [], false⟩ with running := true, subs := insert i b.subs }
  else b

/-- The loop of `stream` over the subscribers, for one of them. -/
def send (b : Broadcaster) (i : ℕ) : Broadcaster :=
  match b.sending, b.channel i with
  | some todo, some c =>
    if i ∉ todo then b
    else if c.queue.length < capacity then
      { b.setChannel i { c with queue := c.queue ++ [b.next] } with sending := some (todo.erase i) }
    else
      -- slow consumer, drop
      { b.setChannel i { c with dropped := true } with
        sending := some (todo.erase i)
        unsubs := Function.update b.unsubs i (b.unsubs i + 1) }
  | _, _ => b

/-- The subscriber receives, also what is left in the buffer of a closed channel. -/
def receive (b : Broadcaster) (i : ℕ) : Broadcaster :=
  match b.channel i with
  | some ⟨start, n :: queue, received, dropped⟩ => b.setChannel i ⟨start, queue, received ++ [n], dropped⟩
  | _ => b

def step (b : Broadcaster) : BroadcastAct → Broadcaster
  | .subscribe i => b.subscribe i
  | .take => if b.running ∧ b.sending = none then { b with sending := some b.subs } else b
  | .send i => b.send i
  | .unlock => if b.sending = some ∅ then { b with sending := none, next := b.next + 1 } else b
  | .receive i => b.receive i
  | .cancel i => { b with unsubs := Function.update b.unsubs i (b.unsubs i + 1) }
  | .unsub i =>
    if b.sending = none ∧ 0 < b.unsubs i then
      { b with unsubs := Function.update b.unsubs i (b.unsubs i - 1), subs := b.subs.erase i }
    else b
  | .finish => if b.running ∧ b.sending = none then { b with running := false, subs := ∅ } else b

end Broadcaster

end Harikube
