import Harikube.Spec.LogStructured

/-!
# A conditional write among others

`LogStructured.Update` and `LogStructured.Delete` with the calls of other clients between
their statements, and with an insert that may fail for any reason: the unique index, the
decoder, or an error of the database.
-/

namespace Harikube.LogStructured

/-- What happens during a call: the calls of others between its read and its insert, an error
of the database at the insert and whether the row is stored all the same, the calls of others
before it reads again, and an error of the database at that read. -/
structure Race where
  before : List SqlOp
  insertErr : Option (Err × Bool)
  after : List SqlOp
  readErr : Option Err

/-- No call of others is on a name that the log uses itself. -/
def Race.plain (r : Race) : Bool := r.before.all SqlOp.plain && r.after.all SqlOp.plain

variable (env : SqlEnv) (race : Race)

/-- The calls of others. -/
def others (s : SqlLog) (ops : List SqlOp) : SqlLog := ops.foldl (step env.codec) s

/-- `SQLLog.Append`, unless the database fails. -/
def appendRacing (s : SqlLog) (e : Event) : (ℤ × Option Err) × SqlLog :=
  match race.insertErr with
  | some (err, stored) => ((0, some err), if stored then { s with db := (s.append env.codec env.now e).2.db } else s)
  | none => s.append env.codec env.now e

/-- The second `get`, unless the database fails. -/
def rereadRacing (s : SqlLog) (key : Bytes) (includeDeletes : Bool) : (ℤ × Option Event × Option Err) × SqlLog :=
  match race.readErr with
  | some err => ((0, none, some err), s)
  | none => get' s key 0 includeDeletes false

/-- `Update`. An error of the insert is dropped, that of the second read is returned. -/
def updateRacing (s : SqlLog) (key value : Bytes) (revision lease : ℤ) :
    (ℤ × Option KeyValue × Bool × Option Err) × SqlLog :=
  let g := get' s key 0 false false
  let r : (ℤ × Option KeyValue × Bool × Option Err) × SqlLog :=
    match g.1.2.2 with
    | some err => ((0, none, false, some err), g.2)
    | none =>
      match g.1.2.1 with
      | none => ((0, none, false, none), g.2)
      | some event =>
        if event.kv.modRevision ≠ revision then ((g.1.1, some event.kv, false, none), g.2)
        else
          let e := updateEvent key value lease event
          let w := appendRacing env race (others env g.2 race.before) e
          match w.1.2 with
          | none => ((w.1.1, some { e.kv with modRevision := w.1.1 }, true, none), w.2)
          | some _ =>
            let l := rereadRacing race (others env w.2 race.after) key false
            ((l.1.1, l.1.2.1.map Event.kv, false, l.1.2.2), l.2)
  let a := adjustRevision r.2 r.1.1
  ((a.1, r.1.2), a.2)

/-- `Delete`. Both errors are dropped. -/
def deleteRacing (s : SqlLog) (key : Bytes) (revision : ℤ) : (ℤ × Option KeyValue × Bool × Option Err) × SqlLog :=
  let g := get' s key 0 true false
  let r : (ℤ × Option KeyValue × Bool × Option Err) × SqlLog :=
    match g.1.2.2 with
    | some err => ((0, none, false, some err), g.2)
    | none =>
      match g.1.2.1 with
      | none => ((g.1.1, none, true, none), g.2)
      | some event =>
        if event.delete then ((g.1.1, none, false, none), g.2)
        else if revision ≠ 0 ∧ event.kv.modRevision ≠ revision then ((g.1.1, some event.kv, false, none), g.2)
        else
          let w := appendRacing env race (others env g.2 race.before) (deleteEvent key event)
          match w.1.2 with
          | none => ((w.1.1, some event.kv, true, none), w.2)
          | some _ =>
            let l := rereadRacing race (others env w.2 race.after) key true
            match l.1.2.2, l.1.2.1 with
            | none, some latest => ((l.1.1, some latest.kv, false, none), l.2)
            | _, _ => ((w.1.1, some event.kv, false, none), l.2)
  let a := adjustRevision r.2 r.1.1
  ((a.1, r.1.2), a.2)

/-- The live row of a key. -/
def liveRow (t : Kine) (key : Bytes) : Option Row := (t.last key).filter fun x => !x.deleted

/-- An update that fails without an error does not return the revision it was to compare with. -/
def UpdateGenuine (s : SqlLog) (key value : Bytes) (revision lease : ℤ) : Prop :=
  let r := (updateRacing env race s key value revision lease).1.2
  r.2 = (false, none) → ∀ kv ∈ r.1, kv.modRevision ≠ revision

/-- After a delete at a revision that fails without an error the key is not live at it. -/
def DeleteGenuine (s : SqlLog) (key : Bytes) (revision : ℤ) : Prop :=
  let r := deleteRacing env race s key revision
  revision ≠ 0 → r.1.2.2 = (false, none) → ∀ x ∈ liveRow r.2.db.kine key, x.id ≠ revision

/-- A call that has found the revision live, and whose insert of `event` then fails, does not
find it live when it reads again. -/
def Lost (s : SqlLog) (key : Bytes) (revision : ℤ) (event : Event → Event) : Prop :=
  ∀ x ∈ liveRow s.db.kine key, x.id = revision →
    let w := appendRacing env race (others env s race.before) (event (x.toEvent true false))
    w.1.2 ≠ none → ∀ y ∈ liveRow (others env w.2 race.after).db.kine key, y.id ≠ revision

end Harikube.LogStructured
