import Harikube.Spec.Selectors

/-!
# An insert and its transaction

`Generic.Insert` outside an enclosing transaction, with `Tx.InsertMetadata`, as the calls that
it makes to the database, each of which may fail. What a call writes is visible to others at
once, or, inside of the transaction, once that is committed. A statement that fails has no
effect, and a commit that fails ends the transaction without effect, as `database/sql` and
its drivers have it.

The nested inserts of `InsertMetadata` are made with the transaction in their context, but
their value is empty, so that they do not get to use it: they run on a connection of their
own.
-/

namespace Harikube.InsertTx

/-- The errors of a statement. -/
inductive SqlErr
  | unique
  | other
deriving DecidableEq

def SqlErr.toErr : SqlErr → Err
  | unique => .keyExists
  | other => .database

/-- What a statement writes: a row of `kine`, `kine_owners`, `kine_labels` or `kine_fields`. -/
inductive Write
  | row (x : Row)
  | owner (r : OwnerRow)
  | label (l : LabelRow)
  | fields (f : FieldRow)

/-- The transaction that the call opens. -/
inductive TxState
  | unopened
  | opened (pending : List Write)
  | committed
  | rolledBack

/-- The database, as the call sees it: which of its calls fail, how many there have been, the
transaction, and what others can see of what the call has written. -/
structure World where
  fails : ℕ → Option SqlErr
  calls : ℕ
  tx : TxState
  visible : List Write

/-- A part of the code: it returns a result or an error, and changes the database in either
case. -/
def Act (α : Type) : Type := World → Except Err α × World

namespace Act

def pure' {α : Type} (a : α) : Act α := fun w => (.ok a, w)

def bind' {α β : Type} (x : Act α) (f : α → Act β) : Act β := fun w =>
  match x w with
  | (.ok a, w) => f a w
  | (.error err, w) => (.error err, w)

instance : Monad Act where
  pure := pure'
  bind := bind'

def fail {α : Type} (err : Err) : Act α := fun w => (.error err, w)

/-- A result that does not come from the database. -/
def lift {α : Type} : Except Err α → Act α
  | .ok a => pure' a
  | .error err => fail err

end Act

open Act

/-- A call to the database, with its effect. -/
def call (effect : World → World) : Act Unit := fun w =>
  let w' := { w with calls := w.calls + 1 }
  match w.fails w.calls with
  | some err => (.error err.toErr, w')
  | none => (.ok (), effect w')

def query : Act Unit := call id

def begin : Act Unit := call fun w => { w with tx := .opened [] }

/-- A statement on the database itself. -/
def executeOutside (x : Write) : Act Unit := call fun w => { w with visible := w.visible ++ [x] }

/-- A statement on the transaction if there is one. -/
def execute (x : Write) : Act Unit := call fun w =>
  match w.tx with
  | .opened pending => { w with tx := .opened (pending ++ [x]) }
  | _ => { w with visible := w.visible ++ [x] }

def commit : Act Unit := fun w =>
  match call id w with
  | (.error err, w) => (.error err, { w with tx := .rolledBack })
  | (.ok (), w) =>
    match w.tx with
    | .opened pending => (.ok (), { w with tx := .committed, visible := w.visible ++ pending })
    | _ => (.ok (), w)

/-- The transaction is done even if the statement fails. -/
def rollback : Act Unit := fun w =>
  match call id w with
  | (r, w) => (r, { w with tx := .rolledBack })

/-- What drivers differ in: whether the id comes with the result of the statement, and which
errors of the other kind of statement are tried again. -/
structure Dialect where
  lastInsertId : Bool
  insertRetry : Err → Bool

/-- What the queries find: the id of the new row, the dependents of an owner, and the last row
with a UID. -/
structure Reads where
  id : ℤ
  owned : Bytes → List (Row × Bool)
  byUID : Bytes → Option Row

variable (c : Codec) (d : Dialect) (reads : Reads)

/-- A statement, and again after errors that are retriable, `n` times. -/
def attempts (x : Act Unit) : ℕ → Act Unit
  | 0 => x
  | n + 1 => fun w =>
    match x w with
    | (.error err, w) => if d.insertRetry err then attempts x n w else (.error err, w)
    | r => r

/-- The insert of a row of `kine`, in both variants. -/
def insertRow (execute : Write → Act Unit) (x : Row) : Act Unit :=
  if d.lastInsertId then execute (.row x) else attempts d (execute (.row x)) 19

/-- An `Insert` of a tombstone inside of `InsertMetadata`. -/
def nestedInsert (key : Bytes) (createRevision previousRevision : ℤ) : Act Unit :=
  match c.decodeObject key [] with
  | none => fail .decode
  | some m => insertRow d executeOutside ⟨0, key, m.uid, false, true, createRevision, previousRevision, 0, [], []⟩

/-- The rewritten row of a dependent: queued, or inserted at once if the driver has no
`LastInsertID`. -/
def insertDependent (owned : Row) (value : Bytes) (queued : List Write) : Act (List Write) :=
  if d.lastInsertId then pure (queued ++ [.row (Codec.dependentRow owned value)])
  else do
    execute (.row (Codec.dependentRow owned value))
    pure queued

/-- The loop over the dependents: what is queued, and `foregroundDeletionBlocked`. -/
def ownedLoop (now : ℤ) (uid : Bytes) (orphan foreground : Bool) :
    List (Row × Bool) → List Write → Bool → Act (List Write × Bool)
  | [], queued, blocked => pure (queued, blocked)
  | (owned, block) :: rest, queued, blocked =>
    match c.decode owned.value with
    | none => fail .decode
    | some obj =>
      if orphan then
        match Codec.removeOwners obj.ownerReferences (Codec.ownersToDelete uid obj.ownerReferences) with
        | none => fail .crash
        | some refs =>
          match c.marshal { obj with ownerReferences := refs } with
          | none => fail .decode
          | some value => do
            let queued ← insertDependent d owned value queued
            ownedLoop now uid orphan foreground rest queued blocked
      else if obj.finalizers = [] then do
        nestedInsert c d owned.name owned.createRevision owned.id
        ownedLoop now uid orphan foreground rest queued blocked
      else if obj.deletionTimestamp.isSome && foreground && block then
        ownedLoop now uid orphan foreground rest queued true
      else if obj.deletionTimestamp.isNone then
        match c.marshal { obj with deletionTimestamp := some now } with
        | none => fail .decode
        | some value => do
          let queued ← insertDependent d owned value queued
          ownedLoop now uid orphan foreground rest queued (blocked || (foreground && block))
      else ownedLoop now uid orphan foreground rest queued blocked

/-- The loop over `foregroundGCNeeded`. The loop that should look for blocking dependents
reads the exhausted cursor of the owner, so it never finds one. -/
def gcLoop : List Bytes → Act Unit
  | [] => pure ()
  | uid :: rest => do
    query
    match reads.byUID uid with
    | none => gcLoop rest
    | some owner =>
      if owner.deleted then gcLoop rest
      else
        match c.decode owner.value with
        | none => fail .decode
        | some obj =>
          if obj.finalizers ≠ [deleteDependents] then gcLoop rest
          else do
            query
            nestedInsert c d owner.name owner.createRevision owner.id
            gcLoop rest

def executeAll : List Write → Act Unit
  | [] => pure ()
  | x :: rest => do
    execute x
    executeAll rest

/-- The statements for the owners, labels and fields, the owners to look at again, and whether
the row deletes. -/
def metadataStart (key prevValue : Bytes) (m : Meta) (delete : Bool) :
    Except Err (List Write × List Bytes × Bool) :=
  let owners := m.owners.map fun o => Write.owner ⟨reads.id, o.uid, o.blockOwnerDeletion⟩
  if !delete then
    match c.unblockedOwners m prevValue m.owners with
    | .error err => .error err
    | .ok gc =>
      .ok (owners ++ (labelRows reads.id key m.labels).map .label ++ (fieldRows reads.id key m.fieldsSet).map .fields,
        gc, m.finalizers = [deleteDependents])
  else .ok (if m.labels.any fun l => l.1 = skipLabel then owners else [], [], true)

/-- The dependents of a row that deletes: what is queued, and the owners to look at again. -/
def metadataOwned (now : ℤ) (key : Bytes) (createRevision : ℤ) (m : Meta) (queued : List Write) (gc : List Bytes) :
    Act (List Write × List Bytes) := do
  let foreground : Bool := m.finalizers = [deleteDependents]
  query
  let owned ← ownedLoop c d now m.uid (m.finalizers = [orphanDependents]) foreground (reads.owned m.uid) queued false
  let blocked := owned.2
  if foreground && blocked then pure (owned.1, gc)
  else if foreground then do
    nestedInsert c d key createRevision reads.id
    pure (owned.1, gc ++ m.owners.map OwnerReference.uid)
  else pure (owned.1, gc ++ m.owners.map OwnerReference.uid)

/-- `Tx.InsertMetadata`. -/
def insertMetadata (now : ℤ) (key : Bytes) (createRevision : ℤ) (prevValue : Bytes) (m : Meta) (delete : Bool) :
    Act Unit := do
  let start ← lift (metadataStart c reads key prevValue m delete)
  let skip : Bool := m.labels.any fun l => l.1 = skipLabel
  let rest ← if skip && start.2.2 then metadataOwned c d reads now key createRevision m start.1 start.2.1
    else pure (start.1, start.2.1)
  executeAll rest.1
  gcLoop c d reads rest.2

/-- The deferred function: it gets the result of the insert of the row. -/
def deferred (metadata : Act Unit) : Except Err Unit → Act ℤ
  | .error err => fun w =>
    match rollback w with
    | (.error rbErr, w) => (.error (.join err rbErr), w)
    | (.ok (), w) => (.error err, w)
  | .ok () => do
    metadata
    commit
    pure reads.id

/-- The part of the code that a deferred function follows, with its result. -/
def withDeferred (x : Act Unit) (f : Except Err Unit → Act ℤ) : Act ℤ := fun w => f (x w).1 (x w).2

/-- `Generic.Insert`. -/
def insert (now : ℤ) (key : Bytes) (create delete : Bool) (createRevision previousRevision ttl : ℤ)
    (value prevValue : Bytes) : Act ℤ :=
  match c.decodeObject key value with
  | none => fail .decode
  | some m =>
    -- an update that leaves only the orphan finalizer is a delete
    let delete := delete ||
      ((m.labels.any fun l => l.1 = skipLabel) && !create && m.finalizers = [orphanDependents])
    let row := insertRow d execute
      ⟨reads.id, key, m.uid, create, delete, createRevision, previousRevision, ttl, value, []⟩
    if value ≠ [] ∧ (m.labels ≠ [] ∨ m.fieldsSet ≠ [] ∨ m.owners ≠ [] ∨ delete) then do
      begin
      withDeferred row (deferred reads (insertMetadata c d reads now key createRevision prevValue m delete))
    else do
      row
      pure reads.id

end Harikube.InsertTx
