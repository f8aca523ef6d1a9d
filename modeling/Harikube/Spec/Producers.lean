import Harikube.Spec.Poller

/-!
# The producers of the event stream

`SendMessage` (`pkg/streams/drivers/register.go`), which the poll loop calls with each batch after
the broadcaster has received it. The producers are registered when the server starts, before the
loop runs; what they do with a message is their own.
-/

namespace Harikube

/-- A call of a producer's `SendMessage`; the producer is the index in the list of those registered. -/
structure Message where
  producer : ℕ
  key : Bytes
  value : Bytes
deriving DecidableEq

namespace Streams

/-- The message of an event. An event of a row always has a key-value, so that of the previous
key-value is never sent. -/
def message (producer : ℕ) (e : Event) : Message := ⟨producer, e.kv.key, e.kv.value⟩

/-- `SendMessage`: the messages that are sent, and whether a nil event has been dereferenced,
which ends the process. Without producers no event is looked at. -/
def sendMessage (producers : ℕ) : Batch → List Message × Bool
  | [] => ([], false)
  | none :: rest => if producers = 0 then sendMessage producers rest else ([], true)
  | some e :: rest =>
    let r := sendMessage producers rest
    ((List.range producers).map (fun i => message i e) ++ r.1, r.2)

end Streams

/-- The poll loop with the messages that it has had sent, in order. -/
structure Streamed where
  poller : Poller
  messages : List Message
  crashed : Bool

namespace Streamed

def init (pollStart : ℤ) : Streamed := ⟨.init pollStart, [], false⟩

/-- A step of the loop; after a batch has been taken from it, its messages are sent. -/
def step (producers : ℕ) (x : Streamed) (a : PollerAct) : Streamed :=
  if x.crashed then x
  else
    match a, x.poller.stage with
    | .send, .sending r _ =>
      let out := Streams.sendMessage producers r.batch
      ⟨x.poller.step .send, x.messages ++ out.1, out.2⟩
    | a, _ => { x with poller := x.poller.step a }

/-- The messages that a producer has been sent. -/
def sentTo (x : Streamed) (producer : ℕ) : List Message := x.messages.filter fun m => m.producer = producer

end Streamed

end Harikube
