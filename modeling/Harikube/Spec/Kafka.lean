import Harikube.Spec.Types

/-!
# The Kafka consumer

`StartKafkaConsumer` (`pkg/streams/kafka.go`), one reader on one partition. The reader fetches
the messages one after the other; with a validation pool of size one it handles each of them
itself, with a larger pool it hands them to goroutines, at most as many as the pool has places.
The steps are those of `handleMessage`: the check of the key, the dry run, the decoding with the
backend's call, the write to the dead letter queue (DLQ) and the commit. What comes from
outside, the dry run, the decoding, the backend, the DLQ and the broker, may have any outcome.
Offsets count from where the group starts to read.
-/

namespace Harikube

/-- The operation, `keyParts[1]`. -/
inductive KafkaOp
  | create
  | update
  | delete
  | unsupported
deriving DecidableEq

/-- How the part of `handleMessage` from the decoding to the backend's call ends: the object
cannot be decoded, its defaults not be marshalled, its resource version not be parsed; or the
backend is called, and returns an error, or neither an error nor success, or success. -/
inductive KafkaOutcome
  | undecoded
  | unmarshalled
  | unparsed
  | error
  | refused
  | done
deriving DecidableEq

/-- Where `handleMessage` is: before the check of the key, before the dry run, before the
decoding, before the write to the DLQ, before the reader is closed, and before the commit. -/
inductive KafkaStage
  | received
  | validate (object : Bytes) (op : KafkaOp)
  | apply (object : Bytes) (op : KafkaOp)
  | deadLetter
  | close
  | commit
deriving DecidableEq

structure KafkaWorker where
  offset : ℕ
  stage : KafkaStage
deriving DecidableEq

/-- The fetch loop: it fetches, it has a message and waits for a place in the pool, it handles
a message itself, or it has left the loop. -/
inductive KafkaLoop
  | fetching
  | dispatch (offset : ℕ)
  | handling
  | stopped
deriving DecidableEq

/-- A call of the backend. `session` counts the readers, since a new one fetches again what is
not committed. -/
structure KafkaCall where
  session : ℕ
  offset : ℕ
  object : Bytes
  outcome : KafkaOutcome
deriving DecidableEq

/-- `validationPoolSize` and whether there is a DLQ. -/
structure KafkaConfig where
  pool : ℤ
  dlq : Bool

/-- Messages are handed to goroutines: `validationPoolSize > 1`. -/
def KafkaConfig.async (cfg : KafkaConfig) : Bool := cfg.pool > 1

/-- `keys` are the keys of the partition's messages, `committed` is the group's offset (the next
message to read), and `position` the reader's. `calls`, `dead` and `commits` record the
backend's calls, the writes to the DLQ and the commits. -/
structure Kafka where
  keys : List Bytes
  committed : ℕ
  session : ℕ
  position : ℕ
  closed : Bool
  loop : KafkaLoop
  workers : List KafkaWorker
  calls : List KafkaCall
  dead : List ℕ
  commits : List ℕ

namespace Kafka

/-- The steps. Those of `handleMessage` name the worker by its place in the list. `reopen` is
the new reader after the loop was left, `crash` a new process. -/
inductive Act
  | produce (key : Bytes)
  | fetch
  | dispatch
  | check (i : ℕ)
  | validate (i : ℕ) (ok : Bool)
  | apply (i : ℕ) (outcome : KafkaOutcome)
  | deadLetter (i : ℕ) (ok : Bool)
  | close (i : ℕ)
  | commit (i : ℕ) (took ok : Bool)
  | reopen
  | crash

def parseOp (op : Bytes) : KafkaOp :=
  if op = ascii "create" then .create
  else if op = ascii "update" then .update
  else if op = ascii "delete" then .delete
  else .unsupported

/-- `strings.Split(key, "#")` into the object's key and the operation. -/
def parseKey (key : Bytes) : Option (Bytes × KafkaOp) :=
  match key.splitOn (Fin.ofNat 256 '#'.toNat) with
  | [object, op] => some (object, parseOp op)
  | _ => none

/-- Where a message goes that cannot be applied. -/
def failed (cfg : KafkaConfig) : KafkaStage := if cfg.dlq then .deadLetter else .commit

def setStage (x : Kafka) (i offset : ℕ) (stage : KafkaStage) : Kafka :=
  { x with workers := x.workers.set i ⟨offset, stage⟩ }

/-- `handleMessage` returns: a loop that has called it itself goes on, or is left. -/
def finish (cfg : KafkaConfig) (x : Kafka) (i : ℕ) (leave : Bool) : Kafka :=
  { x with
    workers := x.workers.eraseIdx i
    loop := if cfg.async then x.loop else if leave then .stopped else .fetching }

/-- `FetchMessage`; a closed reader returns an error, and the loop tries again. -/
def fetch (cfg : KafkaConfig) (x : Kafka) : Kafka :=
  match x.loop, x.closed with
  | .fetching, false =>
    if x.position < x.keys.length then
      if cfg.async then { x with loop := .dispatch x.position, position := x.position + 1 }
      else
        { x with
          loop := .handling, position := x.position + 1
          workers := x.workers ++ [⟨x.position, .received⟩] }
    else x
  | _, _ => x

/-- The semaphore has a place, and the goroutine is started. -/
def dispatch (cfg : KafkaConfig) (x : Kafka) : Kafka :=
  match x.loop with
  | .dispatch offset =>
    if (x.workers.length : ℤ) < cfg.pool then
      { x with loop := .fetching, workers := x.workers ++ [⟨offset, .received⟩] }
    else x
  | _ => x

def check (cfg : KafkaConfig) (x : Kafka) (i : ℕ) : Kafka :=
  match x.workers[i]? with
  | some ⟨offset, .received⟩ =>
    match (x.keys[offset]?).bind parseKey with
    | some (object, op) => x.setStage i offset (.validate object op)
    | none => x.setStage i offset (failed cfg)
  | _ => x

def validate (cfg : KafkaConfig) (x : Kafka) (i : ℕ) (ok : Bool) : Kafka :=
  match x.workers[i]? with
  | some ⟨offset, .validate object op⟩ =>
    x.setStage i offset (if ok then .apply object op else failed cfg)
  | _ => x

/-- The outcome of an operation: a return without a commit, or the backend's call and the stage
after it. `Create` returns only an error; an operation that is not supported makes no call. -/
inductive Applied
  | returns
  | calls (stage : KafkaStage)
  | fails (stage : KafkaStage)
  | impossible

def applied (cfg : KafkaConfig) : KafkaOp → KafkaOutcome → Applied
  | .create, .undecoded => .returns
  | .create, .unmarshalled => .returns
  | .create, .error => .calls (failed cfg)
  | .create, .done => .calls .commit
  | .update, .undecoded => .returns
  | .update, .unparsed => .returns
  | .update, .error => .calls (failed cfg)
  | .update, .refused => .calls .commit
  | .update, .done => .calls .commit
  | .delete, .error => .calls (failed cfg)
  | .delete, .refused => .calls .commit
  | .delete, .done => .calls .commit
  | .unsupported, _ => .fails (failed cfg)
  | _, _ => .impossible

def apply (cfg : KafkaConfig) (x : Kafka) (i : ℕ) (outcome : KafkaOutcome) : Kafka :=
  match x.workers[i]? with
  | some ⟨offset, .apply object op⟩ =>
    match applied cfg op outcome with
    | .returns => x.finish cfg i false
    | .calls stage =>
      { x.setStage i offset stage with calls := x.calls ++ [⟨x.session, offset, object, outcome⟩] }
    | .fails stage => x.setStage i offset stage
    | .impossible => x
  | _ => x

/-- `dlqWriter.SendMessage`. After an error a goroutine closes the reader before it returns. -/
def deadLetter (cfg : KafkaConfig) (x : Kafka) (i : ℕ) (ok : Bool) : Kafka :=
  match x.workers[i]? with
  | some ⟨offset, .deadLetter⟩ =>
    if ok then { x.setStage i offset .commit with dead := x.dead ++ [offset] }
    else if cfg.async then x.setStage i offset .close
    else x.finish cfg i true
  | _ => x

def close (cfg : KafkaConfig) (x : Kafka) (i : ℕ) : Kafka :=
  match x.workers[i]? with
  | some ⟨_, .close⟩ => { x.finish cfg i true with closed := true }
  | _ => x

/-- `CommitMessages`; it fails on a closed reader. An error may hide that the broker has taken
the commit. -/
def commit (cfg : KafkaConfig) (x : Kafka) (i : ℕ) (took ok : Bool) : Kafka :=
  match x.workers[i]? with
  | some ⟨offset, .commit⟩ =>
    if x.closed then x.finish cfg i true
    else if took then
      { x.finish cfg i (!ok) with committed := offset + 1, commits := x.commits ++ [offset] }
    else x.finish cfg i (!ok)
  | _ => x

/-- A new reader, which starts at the group's offset. -/
def restart (x : Kafka) : Kafka :=
  { x with session := x.session + 1, position := x.committed, closed := false, loop := .fetching, workers := [] }

/-- The loop is left, and no goroutine is left. -/
def reopen (x : Kafka) : Kafka :=
  match x.loop, x.workers with
  | .stopped, [] => x.restart
  | _, _ => x

def step (cfg : KafkaConfig) (x : Kafka) : Act → Kafka
  | .produce key => { x with keys := x.keys ++ [key] }
  | .fetch => x.fetch cfg
  | .dispatch => x.dispatch cfg
  | .check i => x.check cfg i
  | .validate i ok => x.validate cfg i ok
  | .apply i outcome => x.apply cfg i outcome
  | .deadLetter i ok => x.deadLetter cfg i ok
  | .close i => x.close cfg i
  | .commit i took ok => x.commit cfg i took ok
  | .reopen => x.reopen
  | .crash => x.restart

def init : Kafka := ⟨[], 0, 0, 0, false, .fetching, [], [], [], []⟩

/-- A message has taken effect in the backend, or it is in the DLQ. -/
def Settled (x : Kafka) (offset : ℕ) : Prop :=
  (∃ c ∈ x.calls, c.offset = offset ∧ c.outcome = .done) ∨ offset ∈ x.dead

instance decidableSettled (x : Kafka) (offset : ℕ) : Decidable (x.Settled offset) :=
  inferInstanceAs (Decidable (_ ∨ _))

/-- A commit acknowledges only settled messages. -/
def Acknowledged (x : Kafka) : Prop := ∀ offset ∈ x.commits, ∀ o ≤ offset, x.Settled o

instance decidableAcknowledged (x : Kafka) : Decidable x.Acknowledged :=
  inferInstanceAs (Decidable (∀ offset ∈ x.commits, ∀ o ≤ offset, x.Settled o))

/-- A reader applies the messages of one object in the order of their offsets. -/
def InOrder (x : Kafka) : Prop :=
  x.calls.Pairwise fun a b => a.session = b.session → a.object = b.object → a.offset < b.offset

/-- The backend's call is made, and it succeeds or returns an error; and a message is committed
only when no goroutine is left with an earlier one. -/
def Settling (x : Kafka) (a : Act) : Prop :=
  (∀ i outcome, a = .apply i outcome → outcome = .done ∨ outcome = .error) ∧
  ∀ i took ok offset, a = .commit i took ok → x.workers[i]? = some ⟨offset, .commit⟩ →
    ∀ w ∈ x.workers, offset ≤ w.offset

end Kafka

end Harikube
