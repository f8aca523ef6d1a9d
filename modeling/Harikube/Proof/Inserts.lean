import Harikube.Proof.Chain

/-!
# What a call inserts

* `Grows`: rows are added one after another, each at the end of the chain of its name.
* `insert_grows`: `Generic.Insert` adds the row it is asked for and then, through
  `InsertMetadata`, only rows of dependents that follow a row they were read from.
* `getEvent`, `create_grows`, `update_grows`, `delete_grows`: a call of `LogStructured`
  reads the last row of its key and inserts after it, or leaves the table alone.
* `run_ok`: **so every table that calls, fills and compactions can reach is made of
  chains.**
-/

namespace Harikube

open Kine

/-- A row is added at the end of the chain of its name. -/
def Kine.Grow (t t' : Kine) : Prop :=
  ∃ (x : Row) (oldId id : ℤ), t.Follows x ∧ t.insert x oldId = some (id, t')

def Kine.Grows : Kine → Kine → Prop := Relation.ReflTransGen Kine.Grow

namespace Kine

variable {t t' : Kine}

theorem Grows.chain (hg : Grows t t') (hc : Chain t) : Chain t' := by
  induction hg with
  | refl => exact hc
  | tail _ hstep ih =>
    obtain ⟨x, oldId, id, hx, hi⟩ := hstep
    exact ih.insert hx hi

theorem Grow.mem (hg : Grow t t') {y : Row} (hy : y ∈ t.rows) : y ∈ t'.rows := by
  obtain ⟨x, oldId, id, -, hi⟩ := hg
  obtain ⟨-, -, old, hrows⟩ := insert_eq_some hi
  rw [hrows]
  exact List.mem_append_left _ hy

theorem Grows.mem (hg : Grows t t') {y : Row} (hy : y ∈ t.rows) : y ∈ t'.rows := by
  induction hg with
  | refl => exact hy
  | tail _ hstep ih => exact hstep.mem ih

/-- No row of `compact_rev_key` is added. -/
theorem Grows.compactKey (hg : Grows t t') {y : Row} (hy : y ∈ t'.rows) (hn : y.name = compactRevKey) :
    y ∈ t.rows := by
  induction hg with
  | refl => exact hy
  | tail _ hstep ih =>
    obtain ⟨x, oldId, id, hx, hi⟩ := hstep
    obtain ⟨-, -, old, hrows⟩ := insert_eq_some hi
    rw [hrows, List.mem_append, List.mem_singleton] at hy
    rcases hy with hy | rfl
    · exact ih hy
    · exact absurd hn hx.1

end Kine

/-- The rows of the table stay, and the rows that are added have new ids. -/
def Kine.Adds (t t' : Kine) : Prop :=
  t.seq ≤ t'.seq ∧ ∃ extra, t'.rows = t.rows ++ extra ∧ ∀ x ∈ extra, t.seq < x.id

theorem Kine.Adds.refl (t : Kine) : Adds t t :=
  ⟨le_rfl, [], (List.append_nil _).symm, fun _ h => absurd h List.not_mem_nil⟩

theorem Kine.Adds.trans {t t' t'' : Kine} (h : Adds t t') (h' : Adds t' t'') : Adds t t'' := by
  obtain ⟨hle, extra, hrows, hnew⟩ := h
  obtain ⟨hle', extra', hrows', hnew'⟩ := h'
  refine ⟨hle.trans hle', extra ++ extra', by rw [hrows', hrows, List.append_assoc], fun x hx => ?_⟩
  rcases List.mem_append.1 hx with hx | hx
  · exact hnew x hx
  · exact lt_of_le_of_lt hle (hnew' x hx)

theorem Kine.Adds.of_insert {t t' : Kine} {x : Row} {oldId id : ℤ} (h : t.insert x oldId = some (id, t')) :
    Adds t t' := by
  obtain ⟨-, -, old, hrows⟩ := insert_eq_some h
  have hseq := insert_seq h
  refine ⟨by omega, _, hrows, fun y hy => ?_⟩
  rw [List.mem_singleton.1 hy]
  show t.seq < t.seq + 1
  omega

/-! ## The database -/

/-- The rows of the table form chains, and `compact_rev_key` is nobody's dependent. -/
structure Db.OK (db : Db) : Prop where
  chain : Chain db.kine
  owners : ∀ ko ∈ db.owners, ∀ x ∈ db.kine.rows, x.id = ko.kineId → x.name ≠ compactRevKey

theorem Db.ok_empty : Db.empty.OK := ⟨chain_empty, fun _ h => absurd h List.not_mem_nil⟩

/-- Growth keeps the owners as they should be. -/
theorem Db.OK.grows {db db' : Db} (h : db.OK) (hg : Grows db.kine db'.kine) (ho : db'.owners = db.owners) :
    db'.OK := by
  refine ⟨hg.chain h.chain, fun ko hko x hx hid hn => ?_⟩
  rw [ho] at hko
  exact h.owners ko hko x (hg.compactKey hx hn) hid hn

/-- The condition on a queued statement: an owner row is for a row that is there, and a
row of a dependent follows the row it was read from. -/
def Stmt.OK (t : Kine) : Stmt → Prop
  | .insertOwner r => ∃ y ∈ t.rows, y.id = r.kineId ∧ y.name ≠ compactRevKey
  | .insertRow x => x.name ≠ compactRevKey ∧ isFill x.name = false ∧
      ∃ y ∈ t.rows, y.name = x.name ∧ y.id = x.prevRevision

theorem Stmt.OK.grows {t t' : Kine} {s : Stmt} (hs : s.OK t) (hg : Grows t t') : s.OK t' := by
  cases s with
  | insertOwner r =>
    obtain ⟨y, hy, hyr⟩ := hs
    exact ⟨y, hg.mem hy, hyr⟩
  | insertRow x =>
    obtain ⟨hn, hf, y, hy, hyx⟩ := hs
    exact ⟨hn, hf, y, hg.mem hy, hyx⟩

theorem Db.insertRow_eq_ok {db db' : Db} {x : Row} {oldId id : ℤ} (h : db.insertRow x oldId = .ok (id, db')) :
    db.kine.insert x oldId = some (id, db'.kine) ∧ db'.owners = db.owners := by
  unfold insertRow at h
  split at h
  · rename_i i k hi
    simp only [Except.ok.injEq, Prod.mk.injEq] at h
    obtain ⟨rfl, rfl⟩ := h
    exact ⟨hi, rfl⟩
  · simp at h

theorem Db.insertRow_of_some {db : Db} {x : Row} {oldId id : ℤ} {t : Kine} (h : db.kine.insert x oldId = some (id, t)) :
    db.insertRow x oldId = .ok (id, { db with kine := t }) := by
  unfold insertRow
  rw [h]

/-- What a statement does. -/
theorem Stmt.execute_cases {db db' : Db} {s : Stmt} (h : s.execute db = .ok db') :
    (∃ r, s = .insertOwner r ∧ db' = { db with owners := db.owners ++ [r] }) ∨
      ∃ x id, s = .insertRow x ∧ db.insertRow x 0 = .ok (id, db') := by
  cases s with
  | insertOwner r => exact .inl ⟨r, rfl, (Except.ok.inj h).symm⟩
  | insertRow x =>
    change (db.insertRow x 0).map Prod.snd = .ok db' at h
    cases hi : db.insertRow x 0 with
    | error err => rw [hi] at h; simp [Except.map] at h
    | ok p =>
      rw [hi] at h
      obtain rfl : p.2 = db' := Except.ok.inj h
      exact .inr ⟨x, p.1, rfl, hi⟩

theorem Stmt.execute_ok {db db' : Db} {s : Stmt} (hdb : db.OK) (hs : s.OK db.kine)
    (h : s.execute db = .ok db') : db'.OK ∧ Grows db.kine db'.kine := by
  rcases Stmt.execute_cases h with ⟨r, rfl, rfl⟩ | ⟨x, id, rfl, hi⟩
  · obtain ⟨y, hy, hyr, hyn⟩ := hs
    refine ⟨⟨hdb.chain, fun ko hko x hx hid => ?_⟩, .refl⟩
    rcases List.mem_append.1 hko with hko | hko
    · exact hdb.owners ko hko x hx hid
    · rw [List.mem_singleton.1 hko] at hid
      rw [eq_of_id hx hy (hid.trans hyr.symm)]
      exact hyn
  · obtain ⟨hn, hf, hy⟩ := hs
    obtain ⟨hins, ho⟩ := Db.insertRow_eq_ok hi
    have hg : Grows db.kine db'.kine := .single ⟨x, 0, id, ⟨hn, hf, Or.inr hy⟩, hins⟩
    exact ⟨hdb.grows hg ho, hg⟩

namespace Codec

theorem executeAll_cons {db db' : Db} {s : Stmt} {rest : List Stmt} (h : executeAll db (s :: rest) = .ok db') :
    ∃ d, s.execute db = .ok d ∧ executeAll d rest = .ok db' := by
  unfold executeAll at h
  cases he : s.execute db with
  | error err => rw [he] at h; simp at h
  | ok d =>
    rw [he] at h
    exact ⟨d, rfl, h⟩

/-- **The invariant rule for queued statements**: a statement that meets its condition keeps the
invariant, and the conditions of the statements after it. -/
theorem executeAll_keeps {I : Db → Prop} {Q : Db → Stmt → Prop}
    (hstep : ∀ {db d : Db} {s : Stmt}, I db → Q db s → s.execute db = .ok d → I d ∧ ∀ s', Q db s' → Q d s')
    (stmts : List Stmt) : ∀ {db db' : Db}, I db → (∀ s ∈ stmts, Q db s) → executeAll db stmts = .ok db' → I db' := by
  induction stmts with
  | nil =>
    intro db db' hdb _ h
    obtain rfl : db = db' := Except.ok.inj h
    exact hdb
  | cons s rest ih =>
    intro db db' hdb hs h
    obtain ⟨d, he, hrest⟩ := executeAll_cons h
    obtain ⟨hd, hQ⟩ := hstep hdb (hs s List.mem_cons_self) he
    exact ih hd (fun s' hs' => hQ s' (hs s' (List.mem_cons_of_mem _ hs'))) hrest

theorem executeAll_ok (stmts : List Stmt) {db db' : Db} (hdb : db.OK) (hs : ∀ s ∈ stmts, s.OK db.kine)
    (h : executeAll db stmts = .ok db') : db'.OK ∧ Grows db.kine db'.kine := by
  refine executeAll_keeps (I := fun d => d.OK ∧ Grows db.kine d.kine) (Q := fun d s => s.OK d.kine) ?_ stmts
    ⟨hdb, .refl⟩ hs h
  rintro d d' s ⟨hd, hg⟩ hsd he
  obtain ⟨hd', hg'⟩ := Stmt.execute_ok hd hsd he
  exact ⟨⟨hd', hg.trans hg'⟩, fun s' hs' => hs'.grows hg'⟩

/-! ## InsertMetadata -/

theorem mem_getOwned {db : Db} {uid : Bytes} {p : Row × Bool} (hp : p ∈ db.getOwned uid) :
    p.1 ∈ db.kine.rows ∧ p.1.deleted = false ∧ ∃ ko ∈ db.owners, ko.kineId = p.1.id := by
  unfold Db.getOwned at hp
  simp only [List.mem_map, List.mem_insertionSort, List.mem_filter] at hp
  obtain ⟨k, ⟨⟨⟨hk, hany⟩, -⟩, hd⟩, rfl⟩ := hp
  obtain ⟨ko, hko, hid⟩ := List.any_eq_true.1 hany
  simp only [Bool.and_eq_true, decide_eq_true_eq] at hid
  exact ⟨hk, by simpa using hd, ko, hko, hid.2⟩

/-- A dependent found in the table may be rewritten. -/
theorem dependentRow_ok {db : Db} (hdb : db.OK) {uid : Bytes} {p : Row × Bool}
    (hp : p ∈ db.getOwned uid) (value : Bytes) :
    Stmt.OK db.kine (.insertRow (dependentRow p.1 value)) := by
  obtain ⟨hrow, hd, ko, hko, hid⟩ := mem_getOwned hp
  refine ⟨hdb.owners ko hko p.1 hrow hid.symm, ?_, p.1, hrow, rfl, rfl⟩
  show isFill p.1.name = false
  by_contra hf
  rw [Bool.not_eq_false] at hf
  have := (hdb.chain.gap p.1 hrow hf).2
  rw [hd] at this
  exact absurd this Bool.false_ne_true

/-- The row of a dependent is written anew: without its owner if dependents are orphaned,
and else with a deletion timestamp if it has finalizers and no timestamp. -/
def Rewrites (c : Codec) (orphan : Bool) (owned : Row) : Prop :=
  ∃ obj, c.decode owned.value = some obj ∧
    (orphan = true ∨ obj.finalizers ≠ [] ∧ obj.deletionTimestamp = none)

/-- The loop over the dependents queues rows of those that it writes anew. -/
theorem ownedLoop_queues (c : Codec) (now : ℤ) (uid : Bytes) (orphan foreground : Bool) {Q : Stmt → Prop}
    (owned : List (Row × Bool)) :
    ∀ {acc res : List Stmt × Bool},
      (∀ p ∈ owned, c.Rewrites orphan p.1 → ∀ v, Q (.insertRow (dependentRow p.1 v))) →
      (∀ s ∈ acc.1, Q s) → c.ownedLoop now uid orphan foreground owned acc = .ok res →
      ∀ s ∈ res.1, Q s := by
  induction owned with
  | nil =>
    intro acc res _ hacc h
    obtain rfl : acc = res := Except.ok.inj h
    exact hacc
  | cons p rest ih =>
    rintro ⟨stmts, blocked⟩ res howned hacc h
    obtain ⟨k, block⟩ := p
    have hrest : ∀ p ∈ rest, c.Rewrites orphan p.1 → ∀ v, Q (.insertRow (dependentRow p.1 v)) :=
      fun p hp => howned p (List.mem_cons_of_mem _ hp)
    -- a rewritten dependent is queued behind the statements so far
    have hpush : c.Rewrites orphan k → ∀ v, ∀ s ∈ stmts ++ [Stmt.insertRow (dependentRow k v)], Q s := by
      intro hk v s hs
      rcases List.mem_append.1 hs with hs | hs
      · exact hacc s hs
      · rw [List.mem_singleton.1 hs]
        exact howned (k, block) List.mem_cons_self hk v
    unfold ownedLoop at h
    split at h
    · simp at h
    · rename_i obj hobj
      split at h
      · rename_i horphan
        split at h
        · simp at h
        · split at h
          · simp at h
          · exact ih hrest (hpush ⟨obj, hobj, .inl horphan⟩ _) h
      · split at h
        · split at h
          · simp at h
          · exact ih hrest hacc h
        · rename_i hfin
          split at h
          · exact ih hrest (show ∀ s ∈ (stmts, true).1, Q s from hacc) h
          · split at h
            · rename_i htime
              split at h
              · simp at h
              · exact ih hrest (hpush ⟨obj, hobj, .inr ⟨hfin, Option.isNone_iff_eq_none.1 htime⟩⟩ _) h
            · exact ih hrest hacc h

theorem metadataStart_queues (c : Codec) {Q : Stmt → Prop} {id : ℤ} {prevValue : Bytes} {m : Meta} {delete : Bool}
    {res : List Stmt × List Bytes × Bool} (howner : ∀ o ∈ m.owners, Q (.insertOwner ⟨id, o.uid, o.blockOwnerDeletion⟩))
    (h : c.metadataStart id prevValue m delete = .ok res) :
    (∀ s ∈ res.1, Q s) ∧ res.2.2 = (delete || decide (m.finalizers = [deleteDependents])) := by
  have howner : ∀ s ∈ m.owners.map fun o => Stmt.insertOwner ⟨id, o.uid, o.blockOwnerDeletion⟩, Q s := by
    intro s hs
    obtain ⟨o, ho, rfl⟩ := List.mem_map.1 hs
    exact howner o ho
  unfold metadataStart at h
  split at h
  · rename_i hdel
    split at h
    · simp at h
    · rw [← Except.ok.inj h]
      refine ⟨howner, ?_⟩
      rw [show delete = false by simpa using hdel]
      rfl
  · rename_i hdel
    rw [← Except.ok.inj h]
    refine ⟨fun s hs => ?_, ?_⟩
    · simp only at hs
      split at hs
      · exact howner s hs
      · exact absurd hs List.not_mem_nil
    · rw [show delete = true by simpa using hdel]
      rfl

theorem metadataOwned_queues (c : Codec) {Q : Stmt → Prop} {db : Db} {now : ℤ} {key : Bytes} {m : Meta}
    {stmts : List Stmt} {gc : List Bytes} {res : List Stmt × List Bytes}
    (hdep : ∀ p ∈ db.getOwned m.uid, c.Rewrites (m.finalizers = [orphanDependents]) p.1 →
      ∀ v, Q (.insertRow (dependentRow p.1 v)))
    (hs : ∀ s ∈ stmts, Q s) (h : c.metadataOwned db now key m stmts gc = .ok res) : ∀ s ∈ res.1, Q s := by
  unfold metadataOwned at h
  simp only at h
  split at h
  · simp at h
  · rename_i stmts' blocked hloop
    have hall := c.ownedLoop_queues now m.uid _ _ (db.getOwned m.uid) hdep hs hloop
    split at h
    · rw [← Except.ok.inj h]
      exact hall
    · split at h
      · simp at h
      · rw [← Except.ok.inj h]
        exact hall

/-- The dependents are looked at: the object has the label, and it is deleted or waits for
its dependents to be. -/
def cascades (m : Meta) (delete : Bool) : Bool :=
  m.labels.any (fun l => l.1 = skipLabel) && (delete || m.finalizers = [deleteDependents])

/-- **What `InsertMetadata` does**: it executes the statements that it has queued, owner
rows for the new row and rows of dependents that are written anew. -/
theorem insertMetadata_executes (c : Codec) {Q : Stmt → Prop} {db db' : Db} {now id : ℤ} {key prevValue : Bytes}
    {m : Meta} {delete : Bool} (howner : ∀ o ∈ m.owners, Q (.insertOwner ⟨id, o.uid, o.blockOwnerDeletion⟩))
    (hdep : cascades m delete = true → ∀ p ∈ db.getOwned m.uid,
      c.Rewrites (m.finalizers = [orphanDependents]) p.1 → ∀ v, Q (.insertRow (dependentRow p.1 v)))
    (h : c.insertMetadata db now id key prevValue m delete = .ok db') :
    ∃ stmts, (∀ s ∈ stmts, Q s) ∧ executeAll db stmts = .ok db' := by
  unfold insertMetadata at h
  split at h
  · simp at h
  · rename_i stmts gc del hstart
    obtain ⟨hs, hdel⟩ := c.metadataStart_queues howner hstart
    split at h
    · simp at h
    · rename_i stmts' gc' howned
      have hs' : ∀ s ∈ stmts', Q s := by
        split at howned
        · rename_i hskip
          have hcas : cascades m delete = true := by
            rw [← hskip]
            unfold cascades
            rw [← hdel]
          exact c.metadataOwned_queues (hdep hcas) hs howned
        · obtain ⟨rfl, rfl⟩ := Prod.mk.inj (Except.ok.inj howned)
          exact hs
      split at h
      · simp at h
      · rename_i d hex
        split at h
        · simp at h
        · rw [← Except.ok.inj h]
          exact ⟨stmts', hs', hex⟩

theorem insertMetadata_ok (c : Codec) {db db' : Db} (hdb : db.OK) {now id : ℤ} {key prevValue : Bytes}
    {m : Meta} {delete : Bool} (hid : ∃ y ∈ db.kine.rows, y.id = id ∧ y.name ≠ compactRevKey)
    (h : c.insertMetadata db now id key prevValue m delete = .ok db') :
    db'.OK ∧ Grows db.kine db'.kine := by
  obtain ⟨stmts, hs, hex⟩ := c.insertMetadata_executes (Q := Stmt.OK db.kine) (fun _ _ => hid)
    (fun _ p hp _ v => dependentRow_ok hdb hp v) h
  exact executeAll_ok stmts hdb hs hex

/-- Whether the row of an insert is a tombstone: an update that leaves only the orphan
finalizer is. -/
def deletes (m : Meta) (create delete : Bool) : Bool :=
  delete || (m.labels.any (fun l => l.1 = skipLabel) && !create && m.finalizers = [orphanDependents])

/-- The row that an insert writes, up to its id and old value. -/
def insertedRow (m : Meta) (key : Bytes) (create delete : Bool) (createRevision previousRevision ttl : ℤ)
    (value : Bytes) : Row :=
  ⟨0, key, m.uid, create, deletes m create delete, createRevision, previousRevision, ttl, value, []⟩

/-- An insert has metadata to write. -/
def HasMetadata (m : Meta) (create delete : Bool) (value : Bytes) : Prop :=
  value ≠ [] ∧ (m.labels ≠ [] ∨ m.fieldsSet ≠ [] ∨ m.owners ≠ [] ∨ deletes m create delete = true)

/-- **What `Generic.Insert` does**: it decodes the value, writes the row, and then the
metadata if there is any. -/
theorem insert_cases (c : Codec) {db db' : Db} {now id : ℤ} {key : Bytes} {create delete : Bool}
    {createRevision previousRevision ttl : ℤ} {value prevValue : Bytes}
    (h : c.insert db now key create delete createRevision previousRevision ttl value prevValue = .ok (id, db')) :
    ∃ m d, c.decodeObject key value = some m ∧
      db.insertRow (insertedRow m key create delete createRevision previousRevision ttl value) previousRevision =
        .ok (id, d) ∧
      (HasMetadata m create delete value ∧
          c.insertMetadata d now id key prevValue m (deletes m create delete) = .ok db' ∨
        ¬ HasMetadata m create delete value ∧ db' = d) := by
  unfold insert at h
  split at h
  · simp at h
  · rename_i m hm
    simp only at h
    split at h
    · simp at h
    · rename_i i d hrow
      split at h
      · rename_i hmeta
        split at h
        · simp at h
        · rename_i d' hins
          obtain ⟨rfl, rfl⟩ := Prod.mk.inj (Except.ok.inj h)
          exact ⟨m, d, hm, hrow, .inl ⟨hmeta, hins⟩⟩
      · rename_i hmeta
        obtain ⟨rfl, rfl⟩ := Prod.mk.inj (Except.ok.inj h)
        exact ⟨m, d, hm, hrow, .inr ⟨hmeta, rfl⟩⟩

/-- An insert without metadata. -/
theorem insert_bare (c : Codec) {db d : Db} {now id : ℤ} {key : Bytes} {create delete : Bool}
    {createRevision previousRevision ttl : ℤ} {value prevValue : Bytes} {m : Meta}
    (hm : c.decodeObject key value = some m)
    (hrow : db.insertRow (insertedRow m key create delete createRevision previousRevision ttl value)
      previousRevision = .ok (id, d)) (hmeta : ¬ HasMetadata m create delete value) :
    c.insert db now key create delete createRevision previousRevision ttl value prevValue = .ok (id, d) := by
  unfold insertedRow deletes at hrow
  unfold HasMetadata deletes at hmeta
  unfold insert
  simp only [hm, hrow, if_neg hmeta]

/-- An insert with metadata. -/
theorem insert_metadata (c : Codec) {db d db' : Db} {now id : ℤ} {key : Bytes} {create delete : Bool}
    {createRevision previousRevision ttl : ℤ} {value prevValue : Bytes} {m : Meta}
    (hm : c.decodeObject key value = some m)
    (hrow : db.insertRow (insertedRow m key create delete createRevision previousRevision ttl value)
      previousRevision = .ok (id, d)) (hmeta : HasMetadata m create delete value)
    (hins : c.insertMetadata d now id key prevValue m (deletes m create delete) = .ok db') :
    c.insert db now key create delete createRevision previousRevision ttl value prevValue = .ok (id, db') := by
  unfold insertedRow deletes at hrow
  unfold deletes at hins
  unfold HasMetadata deletes at hmeta
  unfold insert
  simp only [hm, hrow, if_pos hmeta, hins]

/-- **What `Generic.Insert` adds**: its row, and then rows of dependents. -/
theorem insert_grows (c : Codec) {db db' : Db} {now id : ℤ} {key : Bytes} {create delete : Bool}
    {createRevision previousRevision ttl : ℤ} {value prevValue : Bytes}
    (h : c.insert db now key create delete createRevision previousRevision ttl value prevValue = .ok (id, db')) :
    ∃ (uid : Bytes) (del : Bool) (t : Kine),
      db.kine.insert ⟨0, key, uid, create, del, createRevision, previousRevision, ttl, value, []⟩
        previousRevision = some (id, t) ∧
      (db.OK → db.kine.Follows ⟨0, key, uid, create, del, createRevision, previousRevision, ttl, value, []⟩ →
        db'.OK ∧ Grows t db'.kine) := by
  obtain ⟨m, d, -, hrow, hmeta⟩ := c.insert_cases h
  obtain ⟨hins, ho⟩ := Db.insertRow_eq_ok hrow
  refine ⟨_, _, _, hins, fun hdb hf => ?_⟩
  obtain ⟨old, hnew⟩ := mem_of_insert hins
  have hd : d.OK := hdb.grows (.single ⟨_, _, _, hf, hins⟩) ho
  rcases hmeta with ⟨-, hmeta⟩ | ⟨-, rfl⟩
  · exact c.insertMetadata_ok hd ⟨_, hnew, rfl, hf.1⟩ hmeta
  · exact ⟨hd, .refl⟩

theorem executeAll_adds (stmts : List Stmt) {db db' : Db} (h : executeAll db stmts = .ok db') :
    Adds db.kine db'.kine := by
  refine executeAll_keeps (I := fun d => Adds db.kine d.kine) (Q := fun _ _ => True) ?_ stmts (Adds.refl _)
    (fun _ _ => trivial) h
  intro d d' s hadds _ he
  refine ⟨hadds.trans ?_, fun _ _ => trivial⟩
  rcases Stmt.execute_cases he with ⟨r, rfl, rfl⟩ | ⟨x, id, rfl, hi⟩
  · exact Adds.refl _
  · exact Adds.of_insert (Db.insertRow_eq_ok hi).1

theorem insertMetadata_adds (c : Codec) {db db' : Db} {now id : ℤ} {key prevValue : Bytes} {m : Meta}
    {delete : Bool} (h : c.insertMetadata db now id key prevValue m delete = .ok db') :
    Adds db.kine db'.kine := by
  obtain ⟨stmts, -, hex⟩ := c.insertMetadata_executes (Q := fun _ => True) (fun _ _ => trivial)
    (fun _ _ _ _ _ => trivial) h
  exact executeAll_adds stmts hex

/-- The row of an insert comes first, and all rows after it have new ids. -/
theorem insert_row_adds (c : Codec) {db db' : Db} {now id : ℤ} {key : Bytes} {create delete : Bool}
    {createRevision previousRevision ttl : ℤ} {value prevValue : Bytes}
    (h : c.insert db now key create delete createRevision previousRevision ttl value prevValue = .ok (id, db')) :
    ∃ m t, c.decodeObject key value = some m ∧
      db.kine.insert (insertedRow m key create delete createRevision previousRevision ttl value)
        previousRevision = some (id, t) ∧ Adds t db'.kine := by
  obtain ⟨m, d, hm, hrow, hmeta⟩ := c.insert_cases h
  refine ⟨m, d.kine, hm, (Db.insertRow_eq_ok hrow).1, ?_⟩
  rcases hmeta with ⟨-, hmeta⟩ | ⟨-, rfl⟩
  · exact c.insertMetadata_adds hmeta
  · exact Adds.refl _

/-- **Whatever `Generic.Insert` inserts has a new id**, and the id it returns is one of them. -/
theorem insert_adds (c : Codec) {db db' : Db} {now id : ℤ} {key : Bytes} {create delete : Bool}
    {createRevision previousRevision ttl : ℤ} {value prevValue : Bytes}
    (h : c.insert db now key create delete createRevision previousRevision ttl value prevValue = .ok (id, db')) :
    Adds db.kine db'.kine ∧ 0 < id ∧ id ≤ db'.kine.seq := by
  obtain ⟨m, t, -, hins, hadds⟩ := c.insert_row_adds h
  obtain ⟨-, hi, -⟩ := insert_eq_some hins
  have hseq := insert_seq hins
  have hnn := db.kine.seq_nonneg
  have hle := hadds.1
  exact ⟨(Adds.of_insert hins).trans hadds, by omega, by omega⟩

/-- The insert of a new key with an empty value writes its row and nothing else. -/
theorem insert_nil (c : Codec) {db db' : Db} {now id : ℤ} {key : Bytes}
    {createRevision previousRevision ttl : ℤ} {prevValue : Bytes}
    (h : c.insert db now key true false createRevision previousRevision ttl [] prevValue = .ok (id, db')) :
    ∃ uid, db.insertRow ⟨0, key, uid, true, false, createRevision, previousRevision, ttl, [], []⟩
      previousRevision = .ok (id, db') := by
  obtain ⟨m, d, -, hrow, ⟨⟨hne, -⟩, -⟩ | ⟨-, rfl⟩⟩ := c.insert_cases h
  · exact absurd rfl hne
  · have hdel : deletes m true false = false := by simp [deletes]
    unfold insertedRow at hrow
    rw [hdel] at hrow
    exact ⟨m.uid, hrow⟩

end Codec

end Harikube
