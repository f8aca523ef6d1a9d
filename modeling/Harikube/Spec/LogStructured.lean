import Harikube.Spec.Insert
import Harikube.Spec.Server

/-!
# The log-structured backend over a SQL log

`SQLLog` (`pkg/logstructured/sqllog/sql.go`) and `LogStructured`
(`pkg/logstructured/logstructured.go`) as one caller at a time sees them. What other
goroutines do between the statements of a call is modelled where it matters, with the
same functions for the parts of a call.
-/

namespace Harikube

/-- `scan`: the event of a row, without its value unless `val`, and without the previous
value unless `prev`. -/
def Row.toEvent (val prev : Bool) (x : Row) : Event where
  delete := x.deleted
  create := x.created
  kv := ⟨x.name, if val then x.value else [], 0, if x.created then x.id else x.createRevision, x.id, x.lease⟩
  prevKV :=
    if x.created then none
    else some ⟨x.name, if val && prev then x.oldValue else [], 0, x.createRevision, x.prevRevision, x.lease⟩

/-- The database and the revision cached by the process. -/
structure SqlLog where
  db : Db
  currentRev : ℤ

namespace SqlLog

def init : SqlLog := ⟨Db.empty, 0⟩

/-- `CurrentRevision`: the cached revision, read from the table the first time. A NULL
does not scan. -/
def currentRevision (s : SqlLog) : Except Err ℤ × SqlLog :=
  if s.currentRev ≠ 0 then (.ok s.currentRev, s)
  else
    match s.db.kine.currentRev with
    | none => (.error .database, s)
    | some rev => (.ok rev, { s with currentRev := rev })

/-- `GetCompactRevision`. -/
def getCompactRevision (s : SqlLog) : Except Err ℤ :=
  match s.db.kine.compactRev with
  | none => .error .database
  | some rev => .ok rev

/-- The rows that `List` queries for. `cond` is the condition of the selectors; a read of
one key at revision 0 has none. -/
def listRows (t : Kine) (key rangeEnd : Bytes) (limit revision : ℤ) (includeDeleted : Bool)
    (cond : Row → Bool) : List Row :=
  if revision = 0 then
    if rangeEnd = [] then t.getSingle key includeDeleted
    else t.list (Kine.between key rangeEnd) none limit includeDeleted cond
  else
    t.list (if rangeEnd = [] then (· = key) else Kine.between key rangeEnd) (some revision) limit
      includeDeleted cond

/-- The checks of `List` on the revision. -/
def listCheck (rev compact revision : ℤ) (events : List Event) : ℤ × List Event × Option Err :=
  if revision > rev then (rev, [], some .futureRev)
  else if revision > 0 ∧ revision < compact then (rev, [], some .compacted)
  else (rev, events, none)

/-- `List`. The revisions come with the rows, or from two more reads if there are none. -/
def list (s : SqlLog) (key rangeEnd : Bytes) (limit revision : ℤ) (includeDeleted keysOnly : Bool)
    (cond : Row → Bool) : (ℤ × List Event × Option Err) × SqlLog :=
  let t := s.db.kine
  let events := (listRows t key rangeEnd limit revision includeDeleted cond).map (Row.toEvent (!keysOnly) false)
  if events ≠ [] then (listCheck (t.currentRev.getD 0) (t.compactRev.getD 0) revision events, s)
  else
    match s.currentRevision with
    | (.error err, s) => ((0, [], some err), s)
    | (.ok rev, s) =>
      match s.getCompactRevision with
      | .error err => ((0, [], some err), s)
      | .ok compact => (listCheck rev compact revision [], s)

/-- `Count`. -/
def count (s : SqlLog) (key rangeEnd : Bytes) (revision : ℤ) (cond : Row → Bool) :
    (ℤ × ℤ × Option Err) × SqlLog :=
  let t := s.db.kine
  let rev := t.currentRev.getD 0
  if revision = 0 then ((rev, t.count key rangeEnd none cond, none), s)
  else if revision > rev then ((rev, 0, some .futureRev), s)
  else if revision < t.compactRev.getD 0 then ((rev, 0, some .compacted), s)
  else ((rev, t.count key rangeEnd (some revision) cond, none), s)

/-- `Append`; with one caller at a time the cached revision is replaced. -/
def append (c : Codec) (now : ℤ) (s : SqlLog) (e : Event) : (ℤ × Option Err) × SqlLog :=
  let prev := e.prevKV.getD ⟨[], [], 0, 0, 0, 0⟩
  match c.insert s.db now e.kv.key e.create e.delete e.kv.createRevision prev.modRevision e.kv.lease
      e.kv.value prev.value with
  | .error err => ((0, some err), s)
  | .ok (rev, db) => ((rev, none), ⟨db, rev⟩)

/-- The row of `compact_rev_key` that `compactStart` keeps of several: the one with the
largest previous revision among those that have a previous key-value. -/
def compactStartKeeps (events : List Event) : ℤ :=
  (events.foldl (fun (acc : ℤ × ℤ) e =>
    match e.prevKV with
    | some p => if p.modRevision > acc.1 then (p.modRevision, e.kv.modRevision) else acc
    | none => acc) (0, 0)).2

/-- `compactStart`. -/
def compactStart (c : Codec) (now : ℤ) (s : SqlLog) : Option Err × SqlLog :=
  match (s.db.kine.after compactRevKey [] 0 0).map (Row.toEvent true true) with
  | [] =>
    let r := s.append c now ⟨false, true, ⟨compactRevKey, [], 0, 0, 0, 0⟩, none⟩
    (r.1.2, r.2)
  | [_] => (none, s)
  | events =>
    let maxID := compactStartKeeps events
    let t := events.foldl (fun (t : Kine) e =>
      if e.kv.modRevision = maxID then t else t.deleteRevision e.kv.modRevision) s.db.kine
    (none, { s with db := { s.db with kine := t } })

/-- `safeCompactRev`. -/
def safeCompactRev (target currentRev minRetain : ℤ) : ℤ :=
  let safeRev := currentRev - minRetain
  let safeRev := if target < safeRev then target else safeRev
  if safeRev < 0 then 0 else safeRev

/-- `compact`: the compaction transaction, with the compact revision the caller
believes in. -/
def compact (minRetain : ℤ) (s : SqlLog) (compactRev target : ℤ) : (ℤ × ℤ × Option Err) × SqlLog :=
  let t := s.db.kine
  match t.currentRev, t.compactRev with
  | some currentRev, some dbCompactRev =>
    if compactRev ≠ dbCompactRev then ((dbCompactRev, currentRev, some .compacted), s)
    else
      let target := safeCompactRev target currentRev minRetain
      if target ≤ compactRev then ((dbCompactRev, currentRev, some .compacted), s)
      else
        match (t.compact target).setCompactRevision target with
        | none => ((0, 0, some .database), s)
        | some t => ((target, currentRev, none), { s with db := { s.db with kine := t } })
  | _, _ => ((0, 0, some .database), s)

end SqlLog

/-- The parameters of the backend: the decoders and the clock. -/
structure SqlEnv where
  codec : Codec
  now : ℤ

namespace LogStructured

/-- `get`, which `Get`, `Create`, `Update` and `Delete` read the key with. -/
def get' (s : SqlLog) (key : Bytes) (revision : ℤ) (includeDeletes keysOnly : Bool) :
    (ℤ × Option Event × Option Err) × SqlLog :=
  let r := s.list key [] 1 revision includeDeletes keysOnly fun _ => true
  if r.1.2.2.isSome then ((0, none, r.1.2.2), r.2) else ((r.1.1, r.1.2.1.head?, none), r.2)

def adjustRevision (s : SqlLog) (rev : ℤ) : ℤ × SqlLog :=
  if rev ≠ 0 then (rev, s)
  else
    match s.currentRevision with
    | (.ok newRev, s) => (newRev, s)
    | (.error _, s) => (rev, s)

def get (s : SqlLog) (key : Bytes) (revision : ℤ) (keysOnly : Bool) :
    (ℤ × Option KeyValue × Option Err) × SqlLog :=
  let r := get' s key revision false keysOnly
  let a := adjustRevision r.2 r.1.1
  ((a.1, r.1.2.1.map Event.kv, r.1.2.2), a.2)

/-- The event a `Create` appends, `none` if the key exists. -/
def createEvent (key value : Bytes) (lease : ℤ) (prevEvent : Option Event) : Option Event :=
  let event (prevRev : ℤ) : Event := ⟨false, true, ⟨key, value, 0, 0, 0, lease⟩, some ⟨[], [], 0, 0, prevRev, 0⟩⟩
  match prevEvent with
  | none => some (event 0)
  | some e => if e.delete then some (event e.kv.modRevision) else none

/-- The event an `Update` appends. -/
def updateEvent (key value : Bytes) (lease : ℤ) (event : Event) : Event :=
  ⟨false, false, ⟨key, value, 0, event.kv.createRevision, 0, lease⟩,
    some ⟨[], [], 0, 0, event.kv.modRevision, 0⟩⟩

/-- The event a `Delete` appends. -/
def deleteEvent (key : Bytes) (event : Event) : Event :=
  ⟨true, false, ⟨key, [], 0, 0, 0, 0⟩, some ⟨[], [], 0, 0, event.kv.modRevision, 0⟩⟩

/-- The revision an event says it supersedes, 0 for a key that is not in the table. -/
def prevRev (e : Event) : ℤ := (e.prevKV.map KeyValue.modRevision).getD 0

variable (env : SqlEnv)

def create (s : SqlLog) (key value : Bytes) (lease : ℤ) : (ℤ × Option Err) × SqlLog :=
  let g := get' s key 0 true true
  let r : (ℤ × Option Err) × SqlLog :=
    match g.1.2.2 with
    | some err => ((0, some err), g.2)
    | none =>
      match createEvent key value lease g.1.2.1 with
      | none => ((0, some .keyExists), g.2)
      | some e => g.2.append env.codec env.now e
  let a := adjustRevision r.2 r.1.1
  ((a.1, r.1.2), a.2)

def delete (s : SqlLog) (key : Bytes) (revision : ℤ) :
    (ℤ × Option KeyValue × Bool × Option Err) × SqlLog :=
  let g := get' s key 0 true false
  let r : (ℤ × Option KeyValue × Bool × Option Err) × SqlLog :=
    match g.1.2.2 with
    | some err => ((0, none, false, some err), g.2)
    | none =>
      match g.1.2.1 with
      | none => ((g.1.1, none, true, none), g.2)
      | some event =>
        if event.delete then ((g.1.1, none, false, none), g.2)
        else if revision ≠ 0 ∧ event.kv.modRevision ≠ revision then ((g.1.1, some event.kv, false, none), g.2)
        else
          let w := g.2.append env.codec env.now (deleteEvent key event)
          match w.1.2 with
          | none => ((w.1.1, some event.kv, true, none), w.2)
          | some _ =>
            -- the error is taken for a conflict: report the latest state
            let l := get' w.2 key 0 true false
            match l.1.2.2, l.1.2.1 with
            | none, some latest => ((l.1.1, some latest.kv, false, none), l.2)
            | _, _ => ((w.1.1, some event.kv, false, none), l.2)
  let a := adjustRevision r.2 r.1.1
  ((a.1, r.1.2), a.2)

def update (s : SqlLog) (key value : Bytes) (revision lease : ℤ) :
    (ℤ × Option KeyValue × Bool × Option Err) × SqlLog :=
  let g := get' s key 0 false false
  let r : (ℤ × Option KeyValue × Bool × Option Err) × SqlLog :=
    match g.1.2.2 with
    | some err => ((0, none, false, some err), g.2)
    | none =>
      match g.1.2.1 with
      | none => ((0, none, false, none), g.2)
      | some event =>
        if event.kv.modRevision ≠ revision then ((g.1.1, some event.kv, false, none), g.2)
        else
          let e := updateEvent key value lease event
          let w := g.2.append env.codec env.now e
          match w.1.2 with
          | none => ((w.1.1, some { e.kv with modRevision := w.1.1 }, true, none), w.2)
          | some _ =>
            -- the error of the insert is replaced by that of the read
            let l := get' w.2 key 0 false false
            ((l.1.1, l.1.2.1.map Event.kv, false, l.1.2.2), l.2)
  let a := adjustRevision r.2 r.1.1
  ((a.1, r.1.2), a.2)

def list (s : SqlLog) (key rangeEnd : Bytes) (limit revision : ℤ) (keysOnly : Bool) (cond : Row → Bool) :
    (ℤ × List KeyValue × Option Err) × SqlLog :=
  let r := s.list key rangeEnd limit revision false keysOnly cond
  ((r.1.1, r.1.2.1.map Event.kv, r.1.2.2), r.2)

/-- `LogStructured` as the backend of a server. `selected` is the condition that the
drivers render the selectors to. -/
def backend (selected : (labelSelector fieldSelector : Bytes) → Row → Bool) : Backend SqlLog where
  create := create env
  update := update env
  delete := delete env
  get := get
  list s key rangeEnd limit revision keysOnly labels fields :=
    list s key rangeEnd limit revision keysOnly (selected labels fields)
  count s key rangeEnd revision labels fields := s.count key rangeEnd revision (selected labels fields)

/-- `server.HealthKey` and `server.HealthVal`. -/
def healthKey : Bytes := ascii "/registry/health"

def healthVal : Bytes := ascii "\x7b\"health\":\"true\"\x7d"

/-- `Start`. A failure to create the health check key is only logged. -/
def start (s : SqlLog) : Option Err × SqlLog :=
  let r := s.compactStart env.codec env.now
  match r.1 with
  | some err => (some err, r.2)
  | none => (none, (create env r.2 healthKey healthVal 0).2)

end LogStructured

/-! ## Runs -/

/-- A call on the backend at a time of the clock, a gap filled by the poll loop, or a
compaction transaction that reaches `CompactSQL`. -/
inductive SqlOp
  | create (now : ℤ) (key value : Bytes) (lease : ℤ)
  | update (now : ℤ) (key value : Bytes) (revision lease : ℤ)
  | delete (now : ℤ) (key : Bytes) (revision : ℤ)
  | fill (revision : ℤ)
  | compact (target : ℤ)

/-- The key of a call is neither `compact_rev_key` nor the name of a fill row. -/
def SqlOp.plain : SqlOp → Bool
  | .create _ key _ _ => key ≠ compactRevKey && !Kine.isFill key
  | .update _ key _ _ _ => key ≠ compactRevKey && !Kine.isFill key
  | .delete _ key _ => key ≠ compactRevKey && !Kine.isFill key
  | .fill _ => true
  | .compact _ => true

namespace LogStructured

/-- A change of the table by another goroutine, if its statement succeeds. -/
def withTable (s : SqlLog) (t : Option Kine) : SqlLog :=
  match t with
  | some t => { s with db := { s.db with kine := t } }
  | none => s

def step (c : Codec) (s : SqlLog) : SqlOp → SqlLog
  | .create now key value lease => (create ⟨c, now⟩ s key value lease).2
  | .update now key value revision lease => (update ⟨c, now⟩ s key value revision lease).2
  | .delete now key revision => (delete ⟨c, now⟩ s key revision).2
  | .fill revision => withTable s (s.db.kine.fill revision)
  | .compact target => withTable s ((s.db.kine.compact target).setCompactRevision target)

/-- The state after a sequence of calls on a new database that has been started. -/
def run (c : Codec) (now : ℤ) (ops : List SqlOp) : SqlLog :=
  ops.foldl (step c) (start ⟨c, now⟩ SqlLog.init).2

end LogStructured

end Harikube
