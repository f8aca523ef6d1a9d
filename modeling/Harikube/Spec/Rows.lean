import Harikube.Spec.LogStructured

/-!
# Reading the rows of a query

`RowsToEvents`, and `SQLLog.List` and `SQLLog.After` around it
(`pkg/logstructured/sqllog/sql.go`), with a cursor that may fail: a row may not scan, and
`rows.Next` may end the iteration early, which only `rows.Err` tells from the end of the
rows. What the database answers to the queries of a call is a parameter (`Replies`).
-/

namespace Harikube

/-- What `scan` reads of a row: the event, and the columns with the current and the compact
revision, 0 for a NULL. -/
structure Scanned where
  event : Event
  rev : ℤ
  compact : ℤ

/-- `sql.Rows`: the rows that `rows.Next` comes to, of which `none` does not scan, and what
`rows.Err` reports after them. -/
structure Rows where
  rows : List (Option Scanned)
  err : Option Err

/-- Reading the rows fails. -/
def Rows.fails (r : Rows) : Bool := r.rows.any Option.isNone || r.err.isSome

/-- The loop of `RowsToEvents`, with what it has read so far. -/
def Rows.toEvents : List (Option Scanned) → ℤ × ℤ × List Event → ℤ × ℤ × List Event × Option Err
  -- `rows.Err` is not asked why there is no next row
  | [], (rev, compact, result) => (rev, compact, result, none)
  | none :: _, _ => (0, 0, [], some .database)
  | some x :: rest, (_, _, result) => toEvents rest (x.rev, x.compact, result ++ [x.event])

/-- `RowsToEvents`: the current and the compact revision, the events, and the error. -/
def Rows.rowsToEvents (r : Rows) : ℤ × ℤ × List Event × Option Err := toEvents r.rows (0, 0, [])

/-- What the database answers to the queries of a call, and the cached revision. -/
structure Replies where
  query : Except Err Rows
  currentRev : ℤ
  readCurrent : Except Err ℤ
  readCompact : Except Err ℤ

namespace Replies

/-- `SQLLog.CurrentRevision`. -/
def currentRevision (a : Replies) : Except Err ℤ := if a.currentRev ≠ 0 then .ok a.currentRev else a.readCurrent

/-- The revisions of an empty result, which are read on their own. -/
def revisions (a : Replies) : Except Err (ℤ × ℤ) :=
  match a.currentRevision with
  | .error err => .error err
  | .ok rev =>
    match a.readCompact with
    | .error err => .error err
    | .ok compact => .ok (rev, compact)

/-- `SQLLog.List`. -/
def list (a : Replies) (revision : ℤ) : ℤ × List Event × Option Err :=
  match a.query with
  | .error err => (0, [], some err)
  | .ok rows =>
    match rows.rowsToEvents with
    | (_, _, _, some err) => (0, [], some err)
    | (rev, compact, result, none) =>
      if result = [] then
        match a.revisions with
        | .error err => (0, [], some err)
        | .ok (rev, compact) => SqlLog.listCheck rev compact revision []
      else SqlLog.listCheck rev compact revision result

/-- The check of `After` on the revision. -/
def afterCheck (rev compact revision : ℤ) (result : List Event) (err : Option Err) : ℤ × List Event × Option Err :=
  if revision > 0 ∧ revision < compact then (rev, [], some .compacted) else (rev, result, err)

/-- `SQLLog.After`. -/
def after (a : Replies) (revision : ℤ) : ℤ × List Event × Option Err :=
  match a.query with
  | .error err => (0, [], some err)
  | .ok rows =>
    match rows.rowsToEvents with
    | (rev, compact, result, err) =>
      if revision > 0 ∧ result = [] then
        match a.revisions with
        | .error err => (0, [], some err)
        -- the nil error of the last read has taken the place of the cursor's
        | .ok (rev, compact) => afterCheck rev compact revision result none
      else afterCheck rev compact revision result err

end Replies

/-- The cursor over rows of a table that are all read. -/
def Kine.cursor (t : Kine) (val prev : Bool) (rows : List Row) : Rows :=
  ⟨rows.map fun x => some ⟨x.toEvent val prev, t.currentRev.getD 0, t.compactRev.getD 0⟩, none⟩

/-- The answers of a healthy database to a list. -/
def SqlLog.replies (s : SqlLog) (val prev : Bool) (rows : List Row) : Replies where
  query := .ok (s.db.kine.cursor val prev rows)
  currentRev := s.currentRev
  readCurrent := (s.db.kine.currentRev.map Except.ok).getD (.error .database)
  readCompact := s.getCompactRevision

end Harikube
