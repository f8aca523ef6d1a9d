import Harikube.Spec.Mvcc

/-!
# The kine table

The table `kine` of the SQLite driver (`pkg/drivers/sqlite/sqlite.go`) with its
primary key, its AUTOINCREMENT sequence and the unique index on
`(name, prev_revision)`, and the statements that `pkg/drivers/generic/generic.go`
runs on it. A statement that violates a constraint has no effect and returns `none`.
-/

namespace Harikube

open Mvcc (firstN)

structure Row where
  id : ℤ
  name : Bytes
  uid : Bytes
  created : Bool
  deleted : Bool
  createRevision : ℤ
  prevRevision : ℤ
  lease : ℤ
  value : Bytes
  oldValue : Bytes
deriving DecidableEq

/-- Two rows that the unique index does not admit together. -/
def Row.clash (x y : Row) : Prop := x.name = y.name ∧ x.prevRevision = y.prevRevision

instance (x y : Row) : Decidable (x.clash y) := inferInstanceAs (Decidable (_ ∧ _))

theorem Row.clash.symm {x y : Row} (h : x.clash y) : y.clash x := ⟨h.1.symm, h.2.symm⟩

/-- The table, its rows in the order of the primary key. `seq` is the largest id it
has ever had (`sqlite_sequence`). -/
structure Kine where
  rows : List Row
  seq : ℤ
  sorted : rows.Pairwise fun x y => x.id < y.id
  unique : ∀ x ∈ rows, ∀ y ∈ rows, x.clash y → x = y
  bounded : ∀ x ∈ rows, 0 < x.id ∧ x.id ≤ seq
  seq_nonneg : 0 ≤ seq

namespace Kine

def empty : Kine where
  rows := []
  seq := 0
  sorted := List.Pairwise.nil
  unique := fun _ hx => absurd hx List.not_mem_nil
  bounded := fun _ hx => absurd hx List.not_mem_nil
  seq_nonneg := le_rfl

/-! ## Statements that write -/

/-- `InsertLastInsertIDSQL`: the row gets the next id, and as old value the value of
the row `oldId`. -/
def insert (t : Kine) (x : Row) (oldId : ℤ) : Option (ℤ × Kine) :=
  if h : ∀ y ∈ t.rows, ¬ y.clash x then
    let oldValue := ((t.rows.find? fun y => y.id = oldId).map Row.value).getD []
    some (t.seq + 1,
      { rows := t.rows ++ [{ x with id := t.seq + 1, oldValue := oldValue }]
        seq := t.seq + 1
        sorted := by
          rw [List.pairwise_append]
          refine ⟨t.sorted, List.pairwise_singleton _ _, fun y hy z hz => ?_⟩
          rw [List.mem_singleton.1 hz]
          have := (t.bounded y hy).2
          show y.id < t.seq + 1
          omega
        unique := by
          intro y hy z hz hc
          simp only [List.mem_append, List.mem_singleton] at hy hz
          rcases hy with hy | rfl <;> rcases hz with hz | rfl
          · exact t.unique y hy z hz hc
          · exact absurd hc (h y hy)
          · exact absurd hc.symm (h z hz)
          · rfl
        bounded := by
          intro y hy
          have hseq := t.seq_nonneg
          rcases List.mem_append.1 hy with hy | hy
          · have := t.bounded y hy
            omega
          · rw [List.mem_singleton.1 hy]
            show 0 < t.seq + 1 ∧ t.seq + 1 ≤ t.seq + 1
            omega
        seq_nonneg := by
          have := t.seq_nonneg
          omega })
  else none

/-- A row with an id of its own becomes part of the table. -/
def place (t : Kine) (x : Row) : Option Kine :=
  if h : 0 < x.id ∧ ∀ y ∈ t.rows, y.id ≠ x.id ∧ ¬ y.clash x then
    some
      { rows := (t.rows.filter fun y => y.id < x.id) ++ x :: t.rows.filter fun y => x.id < y.id
        seq := max t.seq x.id
        sorted := by
          rw [List.pairwise_append]
          refine ⟨t.sorted.filter _, List.pairwise_cons.2 ⟨fun z hz => ?_, t.sorted.filter _⟩,
            fun y hy z hz => ?_⟩
          · exact of_decide_eq_true (List.mem_filter.1 hz).2
          · have hy' : y.id < x.id := of_decide_eq_true (List.mem_filter.1 hy).2
            rcases List.mem_cons.1 hz with rfl | hz
            · exact hy'
            · exact lt_trans hy' (of_decide_eq_true (List.mem_filter.1 hz).2)
        unique := by
          have hmem : ∀ y, y ∈ (t.rows.filter fun y => y.id < x.id) ++
              x :: (t.rows.filter fun y => x.id < y.id) → y ∈ t.rows ∨ y = x := by
            intro y hy
            simp only [List.mem_append, List.mem_cons, List.mem_filter] at hy
            tauto
          intro y hy z hz hc
          rcases hmem y hy with hy' | hy' <;> rcases hmem z hz with hz' | hz'
          · exact t.unique y hy' z hz' hc
          · exact absurd (hz' ▸ hc) (h.2 y hy').2
          · exact absurd (hy' ▸ hc).symm (h.2 z hz').2
          · rw [hy', hz']
        bounded := by
          intro y hy
          have := h.1
          simp only [List.mem_append, List.mem_cons, List.mem_filter] at hy
          rcases hy with ⟨hy, -⟩ | rfl | ⟨hy, -⟩
          · have := t.bounded y hy
            omega
          · omega
          · have := t.bounded y hy
            omega
        seq_nonneg := by
          have := t.seq_nonneg
          omega }
  else none

/-- `IsFill`. -/
def isFill (name : Bytes) : Bool := (ascii "gap-").isPrefixOf name

/-- The row that `Fill` inserts: a tombstone under a name of its own. -/
def fillRow (revision : ℤ) : Row :=
  ⟨revision, ascii "gap-" ++ ascii (toString revision), [], false, true, 0, 0, 0, [], []⟩

/-- `FillSQL`: insert a row with a given id. -/
def fill (t : Kine) (revision : ℤ) : Option Kine := t.place (fillRow revision)

/-- Keep the rows that satisfy a condition. -/
def keep (t : Kine) (p : Row → Bool) : Kine where
  rows := t.rows.filter p
  seq := t.seq
  sorted := t.sorted.filter p
  unique := fun x hx y hy => t.unique x (List.mem_of_mem_filter hx) y (List.mem_of_mem_filter hy)
  bounded := fun x hx => t.bounded x (List.mem_of_mem_filter hx)
  seq_nonneg := t.seq_nonneg

/-- The ids that `CompactSQL` selects: the predecessors of the rows up to the target,
and the tombstones up to it. -/
def compactIds (t : Kine) (target : ℤ) : List ℤ :=
  ((t.rows.filter fun kp => kp.name ≠ compactRevKey ∧ kp.prevRevision ≠ 0 ∧ kp.id ≤ target).map
    Row.prevRevision) ++
  ((t.rows.filter fun kd => kd.deleted ∧ kd.id ≤ target).map Row.id)

/-- `CompactSQL`. -/
def compact (t : Kine) (target : ℤ) : Kine := t.keep fun kv => kv.id ∉ t.compactIds target

/-- `UpdateCompactSQL`: set the previous revision of every `compact_rev_key` row, unless
there are several. -/
def setCompactRevision (t : Kine) (revision : ℤ) : Option Kine :=
  let set (x : Row) : Row := if x.name = compactRevKey then { x with prevRevision := revision } else x
  have hid : ∀ x, (set x).id = x.id := fun x => by simp only [set]; split <;> rfl
  if h : ∀ x ∈ t.rows, ∀ y ∈ t.rows, (set x).clash (set y) → set x = set y then
    some
      { rows := t.rows.map set
        seq := t.seq
        sorted := by
          rw [List.pairwise_map]
          exact t.sorted.imp fun hlt => by rw [hid, hid]; exact hlt
        unique := by
          intro x hx y hy hc
          obtain ⟨x', hx', rfl⟩ := List.mem_map.1 hx
          obtain ⟨y', hy', rfl⟩ := List.mem_map.1 hy
          exact h x' hx' y' hy' hc
        bounded := by
          intro x hx
          obtain ⟨x', hx', rfl⟩ := List.mem_map.1 hx
          rw [hid]
          exact t.bounded x' hx'
        seq_nonneg := t.seq_nonneg }
  else none

/-- `DeleteSQL`. -/
def deleteRevision (t : Kine) (revision : ℤ) : Kine := t.keep fun x => x.id ≠ revision

/-! ## Queries -/

/-- `CurrentRevSQL`: the largest id, NULL on an empty table. -/
def currentRev (t : Kine) : Option ℤ := t.rows.getLast?.map Row.id

/-- `CompactRevSQL`: the largest previous revision of the `compact_rev_key` rows. -/
def compactRev (t : Kine) : Option ℤ :=
  ((t.rows.filter fun x => x.name = compactRevKey).map Row.prevRevision).max?

/-- The rows of the subqueries `BetweenNameSQL` and `EqualsNameSQL`: for each name that
`sel` selects, the row with the largest id among those up to `upTo`, or among all. -/
def latest (t : Kine) (sel : Bytes → Bool) (upTo : Option ℤ) : List Row :=
  let rows := t.rows.filter fun x => upTo.all fun r => x.id ≤ r
  rows.filter fun x => sel x.name && rows.all fun y => y.name ≠ x.name || y.id ≤ x.id

/-- The row with the largest id of a name. -/
def last (t : Kine) (name : Bytes) : Option Row := (t.rows.filter fun x => x.name = name).getLast?

/-- The names of `BetweenNameSQL`. -/
def between (key rangeEnd name : Bytes) : Bool := key ≤ name && name < rangeEnd

/-- The list queries (`ListFmt`): the latest rows, without the deleted ones unless they
are asked for, with the condition `cond` of the selectors, in the order of names. -/
def list (t : Kine) (sel : Bytes → Bool) (upTo : Option ℤ) (limit : ℤ) (includeDeleted : Bool)
    (cond : Row → Bool) : List Row :=
  firstN limit ((((t.latest sel upTo).filter fun x => !x.deleted || includeDeleted).filter cond).insertionSort
    fun x y => x.name ≤ y.name)

/-- `GetSingleSQL`: the latest row of a name. -/
def getSingle (t : Kine) (name : Bytes) (includeDeleted : Bool) : List Row :=
  (t.latest (· = name) none).filter fun x => !x.deleted || includeDeleted

/-- The count queries (`CountCurrentSQL`, `CountRevisionSQL`). -/
def count (t : Kine) (key rangeEnd : Bytes) (upTo : Option ℤ) (cond : Row → Bool) : ℤ :=
  (((t.latest (between key rangeEnd) upTo).filter fun x => !x.deleted).filter cond).length

/-- `After`: the rows above a revision, of all names, of one, or of a range. -/
def after (t : Kine) (key rangeEnd : Bytes) (rev limit : ℤ) : List Row :=
  firstN limit (t.rows.filter fun x => rev < x.id &&
    (if key = [] then true else if rangeEnd = [] then x.name = key else between key rangeEnd x.name))

end Kine

end Harikube
