import Harikube.Spec.Kine

/-!
# Inserting an object

`Generic.Insert` and `Tx.InsertMetadata` (`pkg/drivers/generic/{generic,tx}.go`) for
the SQLite driver. An insert whose value carries labels, fields or owners, or that
deletes, runs in a transaction that also writes the rows of dependents and owners;
on an error the transaction is not committed, and no row of it is ever visible.

The decoders belong to Kubernetes and are a parameter (`Codec`). The tables
`kine_labels` and `kine_fields` are only read by selectors and are left out.
-/

namespace Harikube

/-- `metav1.OwnerReference`, as far as it is read. -/
structure OwnerReference where
  uid : Bytes
  blockOwnerDeletion : Option Bool
deriving DecidableEq

/-- What `decodeObject` returns of a value. -/
structure Meta where
  uid : Bytes := []
  labels : List (Bytes × Bytes) := []
  fieldsSet : List (Bytes × Bytes) := []
  owners : List OwnerReference := []
  finalizers : List Bytes := []

/-- `unstructured.Unstructured`: the metadata that is read or changed, and the rest. -/
structure Object where
  ownerReferences : List OwnerReference
  finalizers : List Bytes
  deletionTimestamp : Option ℤ
  rest : Bytes

/-- The decoders and the encoder; `none` is an error. -/
structure Codec where
  decodeObject : (key value : Bytes) → Option Meta
  decode : Bytes → Option Object
  marshal : Object → Option Bytes

/-- A row of `kine_owners`. -/
structure OwnerRow where
  kineId : ℤ
  owner : Bytes
  blockOwnerDeletion : Option Bool

/-- The database. -/
structure Db where
  kine : Kine
  owners : List OwnerRow

namespace Db

def empty : Db := ⟨Kine.empty, []⟩

/-- `GetOwnedSQL`: for each name the last row that has been recorded with the owner, if
it is not deleted, with its `block_owner_deletion`. The groups come in the order of names. -/
def getOwned (db : Db) (uid : Bytes) : List (Row × Bool) :=
  let joined := db.kine.rows.filter fun k => db.owners.any fun ko => ko.owner = uid && ko.kineId = k.id
  let groups := joined.filter fun k => joined.all fun y => y.name ≠ k.name || y.id ≤ k.id
  ((groups.filter fun k => !k.deleted).insertionSort fun x y => x.name ≤ y.name).map fun k =>
    (k, ((db.owners.find? fun ko => ko.owner = uid && ko.kineId = k.id).bind
      OwnerRow.blockOwnerDeletion).getD false)

/-- `GetUIDSQL`: the last row with the UID. -/
def getUID (db : Db) (uid : Bytes) : Option Row := (db.kine.rows.filter fun k => k.uid = uid).getLast?

/-- `InsertLastInsertIDSQL`; a violated unique index is translated to `ErrKeyExists`. -/
def insertRow (db : Db) (x : Row) (oldId : ℤ) : Except Err (ℤ × Db) :=
  match db.kine.insert x oldId with
  | some (id, kine) => .ok (id, { db with kine := kine })
  | none => .error .keyExists

end Db

/-- A statement that `InsertMetadata` queues. -/
inductive Stmt
  | insertOwner (r : OwnerRow)
  | insertRow (x : Row)

/-- Execute a queued statement. The row of a dependent has its old value looked up by a
value instead of an id, which finds nothing. -/
def Stmt.execute (db : Db) : Stmt → Except Err Db
  | .insertOwner r => .ok { db with owners := db.owners ++ [r] }
  | .insertRow x => (db.insertRow x 0).map Prod.snd

def skipLabel : Bytes := ascii "skip-controller-manager-metadata-caching"

/-- `metav1.FinalizerDeleteDependents`. -/
def deleteDependents : Bytes := ascii "foregroundDeletion"

/-- `metav1.FinalizerOrphanDependents`. -/
def orphanDependents : Bytes := ascii "orphan"

namespace Codec

variable (c : Codec)

/-- An insert of a nil value inside `InsertMetadata`. It does not join the transaction
but runs on a connection of its own, which cannot write while the transaction holds
the write lock. -/
def nestedInsert (key : Bytes) : Except Err Unit :=
  match c.decodeObject key [] with
  | none => .error .decode
  | some _ => .error .database

/-- The loop over `ownersToDelete`: the indices of the original list are used on the
list that gets shorter. `none` is an index out of range. -/
def removeOwners : List OwnerReference → List ℕ → Option (List OwnerReference)
  | refs, [] => some refs
  | refs, i :: is => if i < refs.length then removeOwners (refs.eraseIdx i) is else none

/-- The indices of the references to `uid`. -/
def ownersToDelete (uid : Bytes) (refs : List OwnerReference) : List ℕ :=
  (refs.zipIdx.filter fun p => p.1.uid = uid).map Prod.snd

/-- The row that rewrites a dependent: lease 0, after the row it was read from. -/
def dependentRow (owned : Row) (value : Bytes) : Row :=
  ⟨0, owned.name, owned.uid, false, false, owned.createRevision, owned.id, 0, value, []⟩

/-- The loop over the dependents: the statements queued so far, and
`foregroundDeletionBlocked`. -/
def ownedLoop (now : ℤ) (uid : Bytes) (orphan foreground : Bool) :
    List (Row × Bool) → List Stmt × Bool → Except Err (List Stmt × Bool)
  | [], acc => .ok acc
  | (owned, block) :: rest, (stmts, blocked) =>
    match c.decode owned.value with
    | none => .error .decode
    | some obj =>
      if orphan then
        match removeOwners obj.ownerReferences (ownersToDelete uid obj.ownerReferences) with
        | none => .error .crash
        | some refs =>
          match c.marshal { obj with ownerReferences := refs } with
          | none => .error .decode
          | some value =>
            ownedLoop now uid orphan foreground rest
              (stmts ++ [.insertRow (dependentRow owned value)], blocked)
      else if obj.finalizers = [] then
        match c.nestedInsert owned.name with
        | .error err => .error err
        | .ok () => ownedLoop now uid orphan foreground rest (stmts, blocked)
      else if obj.deletionTimestamp.isSome && foreground && block then
        ownedLoop now uid orphan foreground rest (stmts, true)
      else if obj.deletionTimestamp.isNone then
        match c.marshal { obj with deletionTimestamp := some now } with
        | none => .error .decode
        | some value =>
          ownedLoop now uid orphan foreground rest
            (stmts ++ [.insertRow (dependentRow owned value)], blocked || (foreground && block))
      else ownedLoop now uid orphan foreground rest (stmts, blocked)

/-- The owners of an update without `blockOwnerDeletion` whose previous value had it. -/
def unblockedOwners (m : Meta) (prevValue : Bytes) : List OwnerReference → Except Err (List Bytes)
  | [] => .ok []
  | owner :: rest =>
    match unblockedOwners m prevValue rest with
    | .error err => .error err
    | .ok uids =>
      if m.labels.any (fun l => l.1 = skipLabel) && !owner.blockOwnerDeletion.getD false && prevValue ≠ [] then
        match c.decode prevValue with
        | none => .error .decode
        | some prev =>
          if prev.ownerReferences.any fun por => por.uid = owner.uid && por.blockOwnerDeletion.getD false then
            .ok (owner.uid :: uids)
          else .ok uids
      else .ok uids

/-- The loop over `foregroundGCNeeded`. The order, Go's of a map, only decides which
error is returned. The loop that should look for blocking dependents reads the
exhausted cursor of the owner, so it never finds one. -/
def gcLoop (db : Db) : List Bytes → Except Err Unit
  | [] => .ok ()
  | uid :: rest =>
    match db.getUID uid with
    | none => gcLoop db rest
    | some owner =>
      if owner.deleted then gcLoop db rest
      else
        match c.decode owner.value with
        | none => .error .decode
        | some obj =>
          if obj.finalizers ≠ [deleteDependents] then gcLoop db rest
          else
            match c.nestedInsert owner.name with
            | .error err => .error err
            | .ok () => gcLoop db rest

/-- Execute the queued statements in order. -/
def executeAll (db : Db) : List Stmt → Except Err Db
  | [] => .ok db
  | s :: rest =>
    match s.execute db with
    | .error err => .error err
    | .ok db => executeAll db rest

/-- The owner rows, the owners to look at again, and whether the row deletes: what
`InsertMetadata` knows before it looks at the dependents. -/
def metadataStart (id : ℤ) (prevValue : Bytes) (m : Meta) (delete : Bool) :
    Except Err (List Stmt × List Bytes × Bool) :=
  let skip := m.labels.any fun l => l.1 = skipLabel
  let ownerStmts := m.owners.map fun o => Stmt.insertOwner ⟨id, o.uid, o.blockOwnerDeletion⟩
  if !delete then
    match c.unblockedOwners m prevValue m.owners with
    | .error err => .error err
    | .ok gc => .ok (ownerStmts, gc, m.finalizers = [deleteDependents])
  else .ok (if skip then ownerStmts else [], [], true)

/-- The dependents of a row that deletes: the statements and the owners to look at again. -/
def metadataOwned (db : Db) (now : ℤ) (key : Bytes) (m : Meta) (stmts : List Stmt) (gc : List Bytes) :
    Except Err (List Stmt × List Bytes) :=
  let foreground : Bool := m.finalizers = [deleteDependents]
  let orphan : Bool := m.finalizers = [orphanDependents]
  match c.ownedLoop now m.uid orphan foreground (db.getOwned m.uid) (stmts, false) with
  | .error err => .error err
  | .ok (stmts, blocked) =>
    if foreground && blocked then .ok (stmts, gc)
    else
      match if foreground then c.nestedInsert key else .ok () with
      | .error err => .error err
      | .ok () => .ok (stmts, gc ++ m.owners.map OwnerReference.uid)

/-- `Tx.InsertMetadata` after the row `id` of `key` has been inserted in the transaction. -/
def insertMetadata (db : Db) (now id : ℤ) (key prevValue : Bytes) (m : Meta) (delete : Bool) :
    Except Err Db :=
  match c.metadataStart id prevValue m delete with
  | .error err => .error err
  | .ok (stmts, gc, delete) =>
    match if m.labels.any (fun l => l.1 = skipLabel) && delete then c.metadataOwned db now key m stmts gc
        else .ok (stmts, gc) with
    | .error err => .error err
    | .ok (stmts, gc) =>
      match executeAll db stmts with
      | .error err => .error err
      | .ok db =>
        match c.gcLoop db gc with
        | .error err => .error err
        | .ok () => .ok db

/-- `Generic.Insert` outside an enclosing transaction: the id of the row and the
database after the commit. -/
def insert (db : Db) (now : ℤ) (key : Bytes) (create delete : Bool)
    (createRevision previousRevision ttl : ℤ) (value prevValue : Bytes) : Except Err (ℤ × Db) :=
  match c.decodeObject key value with
  | none => .error .decode
  | some m =>
    -- an update that leaves only the orphan finalizer is a delete
    let delete := delete ||
      (m.labels.any (fun l => l.1 = skipLabel) && !create && m.finalizers = [orphanDependents])
    match db.insertRow ⟨0, key, m.uid, create, delete, createRevision, previousRevision, ttl, value, []⟩
        previousRevision with
    | .error err => .error err
    | .ok (id, db) =>
      if value ≠ [] ∧ (m.labels ≠ [] ∨ m.fieldsSet ≠ [] ∨ m.owners ≠ [] ∨ delete) then
        match c.insertMetadata db now id key prevValue m delete with
        | .error err => .error err
        | .ok db => .ok (id, db)
      else .ok (id, db)

end Codec

end Harikube
