import Harikube.Spec.LogStructured

/-!
# A list among concurrent appends

One call of `SQLLog.List` for the current state of a range, with the appends of other
goroutines of the process between its statements. Each SQL statement and each operation
on the cached revision is one step; a row is visible as soon as it is inserted, in the
order of ids.
-/

namespace Harikube.SqlLog

/-- How far an `Append` has got: it has loaded the cached revision, or has inserted its
row and is about to replace the cached revision it has loaded. -/
inductive AppendStage
  | loaded (e : Event) (currentRev : ℤ)
  | inserted (currentRev rev : ℤ)

/-- How far the list has got. Without rows it calls `CurrentRevision`, which loads the
cached revision, and reads the table and swaps if that is 0; then it reads the compact
revision. -/
inductive ListStage
  | start
  | load
  | table
  | swap (lastRev : ℤ)
  | reload
  | compact (rev : ℤ)
  | returned (rev : ℤ) (events : List Event)
  | failed

structure Listing where
  log : SqlLog
  appends : List AppendStage
  stage : ListStage

inductive LAct
  | append (e : Event)
  | advance (i : ℕ) (now : ℤ)
  | list

/-- The names that `List` asks for. -/
def selects (key rangeEnd : Bytes) : Bytes → Bool :=
  if rangeEnd = [] then (· = key) else Kine.between key rangeEnd

namespace Listing

variable (c : Codec) (key rangeEnd : Bytes) (keysOnly : Bool)

/-- The next step of the list. -/
def listStep (x : Listing) : Listing :=
  let t := x.log.db.kine
  match x.stage with
  | .start =>
    let events := (listRows t key rangeEnd 0 0 false fun _ => true).map (Row.toEvent (!keysOnly) false)
    if events ≠ [] then { x with stage := .returned (t.currentRev.getD 0) events }
    else { x with stage := .load }
  | .load => { x with stage := if x.log.currentRev ≠ 0 then .compact x.log.currentRev else .table }
  | .table =>
    match t.currentRev with
    | none => { x with stage := .failed }
    | some rev => { x with stage := .swap rev }
  | .swap lastRev =>
    if x.log.currentRev = 0 then
      { x with log := { x.log with currentRev := lastRev }, stage := .compact lastRev }
    else { x with stage := .reload }
  | .reload => { x with stage := .compact x.log.currentRev }
  | .compact rev =>
    match t.compactRev with
    | none => { x with stage := .failed }
    | some _ => { x with stage := .returned rev [] }
  | .returned _ _ => x
  | .failed => x

/-- The next step of an append: the insert, or the swap of the cached revision. -/
def appendStep (x : Listing) (i : ℕ) (now : ℤ) : Listing :=
  match x.appends[i]? with
  | none => x
  | some (.loaded e currentRev) =>
    match x.log.append c now e with
    | ((rev, none), log) =>
      { x with
        log := { x.log with db := log.db }
        appends := x.appends.set i (.inserted currentRev rev) }
    | ((_, some _), _) => { x with appends := x.appends.eraseIdx i }
  | some (.inserted currentRev rev) =>
    { x with
      log := if x.log.currentRev = currentRev then { x.log with currentRev := rev } else x.log
      appends := x.appends.eraseIdx i }

def step (x : Listing) : LAct → Listing
  | .append e => { x with appends := x.appends ++ [.loaded e x.log.currentRev] }
  | .advance i now => x.appendStep c i now
  | .list => x.listStep key rangeEnd keysOnly

/-- An empty database and a list that has not begun. -/
def init : Listing := ⟨SqlLog.init, [], .start⟩

/-- The live rows of the range as of a revision. -/
def asOf (t : Kine) (rev : ℤ) : List Row :=
  t.list (selects key rangeEnd) (some rev) 0 false fun _ => true

/-- What is returned is exactly what was live in the range as of the revision returned. -/
def Exact (x : Listing) : Prop :=
  ∀ rev events, x.stage = .returned rev events →
    events = (asOf key rangeEnd x.log.db.kine rev).map (Row.toEvent (!keysOnly) false)

/-- The step does not return an empty result with a revision at which the range was not
empty. -/
def EmptyThen (x : Listing) (a : LAct) : Prop :=
  ∀ rev, a = .list → x.stage = .compact rev → x.log.db.kine.compactRev ≠ none →
    asOf key rangeEnd x.log.db.kine rev = []

end Listing

end Harikube.SqlLog
