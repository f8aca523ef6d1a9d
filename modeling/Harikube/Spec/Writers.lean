import Harikube.Spec.LogStructured

/-!
# Concurrent writers and compaction

Any number of `Create`, `Update` and `Delete` calls in flight at once. A call is one
read step, `l.get`, and, if the code then goes on to it, one insert step,
`SQLLog.Append`; compaction transactions happen between the steps.
-/

namespace Harikube.LogStructured

inductive Call
  | create (key value : Bytes) (lease : ℤ)
  | update (key value : Bytes) (revision lease : ℤ)
  | delete (key : Bytes) (revision : ℤ)

namespace Call

def key : Call → Bytes
  | create key _ _ => key
  | update key _ _ _ => key
  | delete key _ => key

def isCreate : Call → Bool
  | create _ _ _ => true
  | _ => false

/-- The read step: the event the call goes on to append, if it does not return. -/
def read (s : SqlLog) : Call → Option Event × SqlLog
  | create key value lease =>
    let g := get' s key 0 true true
    (if g.1.2.2.isSome then none else createEvent key value lease g.1.2.1, g.2)
  | update key value revision lease =>
    let g := get' s key 0 false false
    (if g.1.2.2.isSome then none
      else g.1.2.1.bind fun event =>
        if event.kv.modRevision ≠ revision then none else some (updateEvent key value lease event), g.2)
  | delete key revision =>
    let g := get' s key 0 true false
    (if g.1.2.2.isSome then none
      else g.1.2.1.bind fun event =>
        if event.delete then none
        else if revision ≠ 0 ∧ event.kv.modRevision ≠ revision then none
        else some (deleteEvent key event), g.2)

/-- The call when no other step comes between its own. -/
def serial (env : SqlEnv) (s : SqlLog) : Call → SqlLog
  | create key value lease => (LogStructured.create env s key value lease).2
  | update key value revision lease => (LogStructured.update env s key value revision lease).2
  | delete key revision => (LogStructured.delete env s key revision).2

/-- The last row of the key is one the call may supersede: none or a tombstone for a
create, the live row with the given id for an update or a delete. -/
def suits (call : Call) (last : Option Row) : Bool :=
  match call with
  | create _ _ _ => last.all Row.deleted
  | update _ _ revision _ => last.any fun x => !x.deleted && x.id = revision
  | delete _ revision => last.any fun x => !x.deleted && (revision = 0 || x.id = revision)

end Call

/-- An insert that has taken place: the call, the revision it superseded, and the last
row of the key in the table it was inserted into. -/
structure Done where
  call : Call
  prev : ℤ
  before : Option Row

/-- The log, the calls between their two steps, and the inserts so far. -/
structure Writers where
  log : SqlLog
  pending : List (Call × Event)
  done : List Done

inductive WAct
  | read (call : Call)
  | insert (i : ℕ) (now : ℤ)
  | compact (target : ℤ)

namespace Writers

variable (c : Codec) (minRetain : ℤ)

def step (x : Writers) : WAct → Writers
  | .read call =>
    match call.read x.log with
    | (some e, log) => { x with log := log, pending := x.pending ++ [(call, e)] }
    | (none, log) => { x with log := log }
  | .insert i now =>
    match x.pending[i]? with
    | none => x
    | some (call, e) =>
      let r := x.log.append c now e
      { log := r.2
        pending := x.pending.eraseIdx i
        done :=
          if r.1.2.isSome then x.done
          else x.done ++ [⟨call, prevRev e, x.log.db.kine.last call.key⟩] }
  | .compact target =>
    -- never the most recent `minRetain` revisions
    if target ≤ x.log.db.kine.currentRev.getD 0 - minRetain then
      { x with log := withTable x.log ((x.log.db.kine.compact target).setCompactRevision target) }
    else x

/-- A started database without calls. -/
def init (now : ℤ) : Writers := ⟨(start ⟨c, now⟩ SqlLog.init).2, [], []⟩

/-- Every insert took place after a row its call may supersede, and no version of a key
was superseded twice. -/
def Linearizable (x : Writers) : Prop :=
  (∀ d ∈ x.done, d.call.suits d.before = true) ∧
  x.done.Pairwise fun d d' => d.call.key = d'.call.key → d.prev = d'.prev → d.prev = 0

instance (x : Writers) : Decidable x.Linearizable := inferInstanceAs (Decidable (_ ∧ _))

/-- What a compaction must not delete while calls are in flight: the row that already
supersedes the version a call has read, and the tombstone that a create has read. -/
def Spares (x : Writers) (target : ℤ) : Prop :=
  ∀ p ∈ x.pending, ∀ y ∈ x.log.db.kine.rows, y.name = p.1.key →
    (y.prevRevision = prevRev p.2 ∨ p.1.isCreate = true ∧ y.id = prevRev p.2) →
    y.id ∉ x.log.db.kine.compactIds target

instance (x : Writers) (target : ℤ) : Decidable (x.Spares target) :=
  inferInstanceAs (Decidable (∀ p ∈ x.pending, _))

end Writers

end Harikube.LogStructured
