import Harikube.Proof.Linear

/-!
# Old values

The insert statement looks up the old value of a row by the id that it gets as its last
argument. `Generic.Insert` passes the previous revision there; `InsertMetadata` passes the
value of the dependent, which is the id of no row.

* `Kine.Linked.insert`: a row that follows a row of its name, if its old value is that
  row's value, keeps the table linked.
* `Writers.old_values_spared`: **in every run of concurrent calls that write no dependent
  anew, every row refers to the row that was the last of its name and has its value.**
* `Writers.orphaned_loses_old_value`: a dependent that is orphaned.
-/

namespace Harikube

open Lts Kine

namespace Kine

variable {t t' : Kine} {x y : Row} {oldId id : ℤ}

/-- The value that an insert looks up as old value. -/
def valueOf (t : Kine) (id : ℤ) : Bytes := ((t.rows.find? fun y => y.id = id).map Row.value).getD []

theorem insert_rows (h : t.insert x oldId = some (id, t')) :
    t'.rows = t.rows ++ [{ x with id := t.seq + 1, oldValue := t.valueOf oldId }] := by
  unfold insert at h
  split at h
  · obtain ⟨-, rfl⟩ := Prod.mk.inj (Option.some.inj h)
    rfl
  · simp at h

theorem valueOf_mem (hy : y ∈ t.rows) : t.valueOf y.id = y.value := by
  unfold valueOf
  cases h : t.rows.find? fun z => z.id = y.id with
  | none =>
    have := List.find?_eq_none.1 h y hy
    simp at this
  | some z =>
    have hz : z.id = y.id := by simpa using List.find?_some h
    rw [eq_of_id (List.mem_of_find?_eq_some h) hy hz]
    rfl

/-- No row has the id 0. -/
theorem valueOf_zero (t : Kine) : t.valueOf 0 = [] := by
  unfold valueOf
  have hnone : (t.rows.find? fun y => decide (y.id = 0)) = none := by
    rw [List.find?_eq_none]
    intro y hy h
    have := (t.bounded y hy).1
    have : y.id = 0 := of_decide_eq_true h
    omega
  rw [hnone]
  rfl

/-- The row refers to the last row of its name before it, and has that row's value as its
old value. -/
def Refers (t : Kine) (x : Row) : Prop :=
  ∃ y ∈ t.rows, y.id = x.prevRevision ∧ y.name = x.name ∧ y.id < x.id ∧
    (∀ z ∈ t.rows, z.name = x.name → z.id < x.id → z.id ≤ y.id) ∧ x.oldValue = y.value

/-- Every row with a previous revision does, except those of `compact_rev_key`. -/
def OldValues (t : Kine) : Prop :=
  ∀ x ∈ t.rows, x.name ≠ compactRevKey → x.prevRevision ≠ 0 → t.Refers x

/-- And a row without one is the first of its name. -/
structure Linked (t : Kine) : Prop where
  refers : t.OldValues
  first : ∀ x ∈ t.rows, x.name ≠ compactRevKey → x.prevRevision = 0 →
    ∀ y ∈ t.rows, y.name = x.name → x.id ≤ y.id

/-- Each name has a row without a previous revision. -/
theorem Linked.exists_first (h : t.Linked) {name : Bytes} (hn : name ≠ compactRevKey) (n : ℕ) :
    ∀ y ∈ t.rows, y.name = name → y.id.toNat = n → ∃ z ∈ t.rows, z.name = name ∧ z.prevRevision = 0 := by
  induction n using Nat.strong_induction_on with
  | _ n ih =>
    intro y hy hyn hid
    by_cases h0 : y.prevRevision = 0
    · exact ⟨y, hy, hyn, h0⟩
    · obtain ⟨z, hz, -, hzn, hlt, -, -⟩ := h.refers y hy (hyn ▸ hn) h0
      have hpos := (t.bounded z hz).1
      exact ih z.id.toNat (by omega) z hz (hzn.trans hyn) rfl

/-- A row that is not the last of its name has a successor. -/
theorem Linked.exists_successor (h : t.Linked) (hy : y ∈ t.rows) (hn : y.name ≠ compactRevKey) (n : ℕ) :
    ∀ z ∈ t.rows, z.name = y.name → y.id < z.id → z.id.toNat = n →
      ∃ w ∈ t.rows, w.name = y.name ∧ w.prevRevision = y.id := by
  induction n using Nat.strong_induction_on with
  | _ n ih =>
    intro z hz hzn hlt hid
    by_cases h0 : z.prevRevision = 0
    · have := h.first z hz (hzn ▸ hn) h0 y hy hzn.symm
      omega
    · obtain ⟨u, hu, hup, hun, huz, hmax, -⟩ := h.refers z hz (hzn ▸ hn) h0
      -- the row before `z` is `y` or comes after it
      have hyu := hmax y hy hzn.symm hlt
      by_cases heq : y.id = u.id
      · exact ⟨z, hz, hzn, hup.symm.trans heq.symm⟩
      · have hpos := (t.bounded u hu).1
        exact ih u.id.toNat (by omega) u hu (hun.trans hzn) (by omega) rfl

/-- A new row has its place in the table: it is the first of its name, or comes after a row
of its name with the value that it gets as old value. -/
def Extends (t : Kine) (x : Row) (oldId : ℤ) : Prop :=
  x.name ≠ compactRevKey → x.prevRevision = 0 ∨
    ∃ y ∈ t.rows, y.name = x.name ∧ y.id = x.prevRevision ∧ t.valueOf oldId = y.value

/-- **A row in its place keeps the table linked**, by the unique index. -/
theorem Linked.insert (h : t.Linked) (hx : t.Extends x oldId) (hi : t.insert x oldId = some (id, t')) :
    t'.Linked := by
  obtain ⟨hclash, -, -⟩ := insert_eq_some hi
  have hmem : ∀ y, y ∈ t'.rows ↔ y ∈ t.rows ∨ y = { x with id := t.seq + 1, oldValue := t.valueOf oldId } := by
    intro y
    rw [insert_rows hi, List.mem_append, List.mem_singleton]
  refine ⟨fun y hy hn hp => ?_, fun y hy hn hp z hz hzn => ?_⟩
  · rcases (hmem y).1 hy with hy | rfl
    · obtain ⟨u, hu, hup, hun, hlt, hmax, hold⟩ := h.refers y hy hn hp
      refine ⟨u, (hmem u).2 (.inl hu), hup, hun, hlt, fun z hz hzn hzy => ?_, hold⟩
      rcases (hmem z).1 hz with hz | rfl
      · exact hmax z hz hzn hzy
      · have := (t.bounded y hy).2
        have : t.seq + 1 < y.id := hzy
        omega
    · rcases hx hn with h0 | ⟨u, hu, hun, hup, hold⟩
      · exact absurd h0 hp
      · have hbound := (t.bounded u hu).2
        refine ⟨u, (hmem u).2 (.inl hu), hup, hun, by show u.id < t.seq + 1; omega, fun z hz hzn hzx => ?_, hold⟩
        rcases (hmem z).1 hz with hz | rfl
        · -- a later row would have a successor of `u` before it, which the index finds
          by_contra hlt
          obtain ⟨w, hw, hwn, hwp⟩ := h.exists_successor hu (hun ▸ hn) _ z hz (hzn.trans hun.symm) (by omega) rfl
          exact hclash w hw ⟨hwn.trans hun, hwp.trans hup⟩
        · exact absurd hzx (lt_irrefl _)
  · rcases (hmem y).1 hy with hy | rfl
    · rcases (hmem z).1 hz with hz | rfl
      · exact h.first y hy hn hp z hz hzn
      · have := (t.bounded y hy).2
        show y.id ≤ t.seq + 1
        omega
    · rcases (hmem z).1 hz with hz | rfl
      · obtain ⟨w, hw, hwn, hwp⟩ := h.exists_first hn _ z hz hzn rfl
        exact absurd ⟨hwn, hwp.trans hp.symm⟩ (hclash w hw)
      · exact le_rfl

theorem linked_empty : Kine.empty.Linked :=
  ⟨fun _ hx => absurd hx List.not_mem_nil, fun _ hx => absurd hx List.not_mem_nil⟩

end Kine

/-! ## Inserts -/

/-- The table is linked, and owners are recorded for rows that have been inserted. -/
structure Db.Linked (db : Db) : Prop where
  kine : db.kine.Linked
  owners : ∀ ko ∈ db.owners, ko.kineId ≤ db.kine.seq

/-- What a queued statement must be like. -/
def Stmt.Keeps (t : Kine) : Stmt → Prop
  | .insertOwner r => r.kineId ≤ t.seq
  | .insertRow x => t.Extends x 0

theorem Kine.Extends.insert {t t' : Kine} {x y : Row} {oldId id : ℤ} (hx : t.Extends x 0)
    (hi : t.insert y oldId = some (id, t')) : t'.Extends x 0 := by
  intro hn
  rcases hx hn with h0 | ⟨u, hu, hun, hup, hold⟩
  · exact .inl h0
  · refine .inr ⟨u, ?_, hun, hup, ?_⟩
    · rw [insert_rows hi]
      exact List.mem_append_left _ hu
    · rw [valueOf_zero] at hold ⊢
      exact hold

theorem Stmt.Keeps.insert {t t' : Kine} {s : Stmt} {y : Row} {oldId id : ℤ} (hs : s.Keeps t)
    (hi : t.insert y oldId = some (id, t')) : s.Keeps t' := by
  cases s with
  | insertOwner r =>
    have hseq := insert_seq hi
    have hr : r.kineId ≤ t.seq := hs
    show r.kineId ≤ t'.seq
    omega
  | insertRow x => exact Kine.Extends.insert hs hi

theorem Db.Linked.insertRow {db db' : Db} {x : Row} {oldId id : ℤ} (h : db.Linked) (hx : db.kine.Extends x oldId)
    (hi : db.insertRow x oldId = .ok (id, db')) : db'.Linked := by
  obtain ⟨hins, ho⟩ := Db.insertRow_eq_ok hi
  refine ⟨h.kine.insert hx hins, fun ko hko => ?_⟩
  have hseq := insert_seq hins
  have := h.owners ko (ho ▸ hko)
  omega

namespace Codec

variable {c : Codec} {db db' : Db}

theorem executeAll_linked (stmts : List Stmt) {db db' : Db} (hdb : db.Linked) (hs : ∀ s ∈ stmts, s.Keeps db.kine)
    (h : executeAll db stmts = .ok db') : db'.Linked := by
  refine executeAll_keeps (Q := fun d s => s.Keeps d.kine) ?_ stmts hdb hs h
  intro d d' s hd hsd he
  rcases Stmt.execute_cases he with ⟨r, rfl, rfl⟩ | ⟨x, id, rfl, hi⟩
  · refine ⟨⟨hd.kine, fun ko hko => ?_⟩, fun _ hs' => hs'⟩
    rcases List.mem_append.1 hko with hko | hko
    · exact hd.owners ko hko
    · rw [List.mem_singleton.1 hko]
      exact hsd
  · exact ⟨hd.insertRow hsd hi, fun _ hs' => hs'.insert (Db.insertRow_eq_ok hi).1⟩

/-- The dependents of a UID are the same after the row of the insert itself. -/
theorem getOwned_insertRow (h : db.Linked) {x : Row} {oldId id : ℤ} (hi : db.insertRow x oldId = .ok (id, db'))
    (uid : Bytes) : db'.getOwned uid = db.getOwned uid := by
  obtain ⟨hins, ho⟩ := Db.insertRow_eq_ok hi
  have hnew : (db.owners.any fun ko => ko.owner = uid && ko.kineId = db.kine.seq + 1) = false := by
    rw [List.any_eq_false]
    intro ko hko hk
    simp only [Bool.and_eq_true, decide_eq_true_eq] at hk
    have := h.owners ko hko
    omega
  have hjoined : (db'.kine.rows.filter fun k => db.owners.any fun ko => ko.owner = uid && ko.kineId = k.id) =
      db.kine.rows.filter fun k => db.owners.any fun ko => ko.owner = uid && ko.kineId = k.id := by
    rw [insert_rows hins, List.filter_append, List.filter_cons_of_neg (by rw [hnew]; simp), List.filter_nil,
      List.append_nil]
  unfold Db.getOwned
  rw [ho, hjoined]

end Codec

/-- The insert of the event writes no dependent anew that has a value. -/
def RewritesNone (c : Codec) (db : Db) (e : Event) : Prop :=
  ∀ m, c.decodeObject e.kv.key e.kv.value = some m → e.kv.value ≠ [] →
    Codec.cascades m (Codec.deletes m e.create e.delete) = true →
    ∀ p ∈ db.getOwned m.uid, c.Rewrites (m.finalizers = [orphanDependents]) p.1 → p.1.value = []

namespace LogStructured

variable {c : Codec} {now : ℤ} {s : SqlLog}

/-- The row that an event says it supersedes is in the table. -/
def Known (t : Kine) (e : Event) : Prop :=
  prevRev e = 0 ∨ ∃ y ∈ t.rows, y.name = e.kv.key ∧ y.id = prevRev e

/-- **An append keeps the table linked** if it writes no dependent anew. -/
theorem append_linked (hs : s.db.Linked) (e : Event) (hknown : Known s.db.kine e) (hspare : RewritesNone c s.db e) :
    (s.append c now e).2.db.Linked := by
  have hprev : (e.prevKV.getD ⟨[], [], 0, 0, 0, 0⟩).modRevision = prevRev e := by
    unfold prevRev
    cases e.prevKV <;> rfl
  unfold SqlLog.append
  simp only [hprev]
  split
  · exact hs
  · rename_i rev db hins
    obtain ⟨m, d, hm, hrow, hmeta⟩ := c.insert_cases hins
    have hextends : s.db.kine.Extends (Codec.insertedRow m e.kv.key e.create e.delete e.kv.createRevision (prevRev e)
        e.kv.lease e.kv.value) (prevRev e) := by
      intro _
      rcases hknown with h0 | ⟨y, hy, hyn, hyp⟩
      · exact .inl h0
      · exact .inr ⟨y, hy, hyn, hyp, hyp ▸ valueOf_mem hy⟩
    have hd := hs.insertRow hextends hrow
    rcases hmeta with ⟨⟨hne, -⟩, hmeta⟩ | ⟨-, rfl⟩
    · have howner : rev ≤ d.kine.seq := by
        obtain ⟨hkine, -⟩ := Db.insertRow_eq_ok hrow
        obtain ⟨-, rfl, -⟩ := insert_eq_some hkine
        exact (insert_seq hkine).ge
      -- a dependent that is written anew has no value
      have hdep : Codec.cascades m (Codec.deletes m e.create e.delete) = true → ∀ p ∈ d.getOwned m.uid,
          c.Rewrites (m.finalizers = [orphanDependents]) p.1 → ∀ v,
            Stmt.Keeps d.kine (.insertRow (Codec.dependentRow p.1 v)) := by
        intro hcas p hp hrew v _
        have hp' := hp
        rw [Codec.getOwned_insertRow hs hrow] at hp'
        refine .inr ⟨p.1, (Codec.mem_getOwned hp).1, rfl, rfl, ?_⟩
        rw [valueOf_zero, hspare m hm hne hcas p hp' hrew]
      obtain ⟨stmts, hstmts, hex⟩ := c.insertMetadata_executes (fun _ _ => howner) hdep hmeta
      exact Codec.executeAll_linked stmts hd hstmts hex
    · exact hd

/-- An append keeps the rows that are there. -/
theorem append_mem (c : Codec) (now : ℤ) (e : Event) {y : Row} (hy : y ∈ s.db.kine.rows) :
    y ∈ (s.append c now e).2.db.kine.rows := by
  unfold SqlLog.append
  simp only
  split
  · exact hy
  · rename_i rev db hins
    obtain ⟨⟨-, extra, hrows, -⟩, -, -⟩ := c.insert_adds hins
    show y ∈ db.kine.rows
    rw [hrows]
    exact List.mem_append_left _ hy

theorem read_known {call : Call} {e : Event} (hread : (call.read s).1 = some e) : Known s.db.kine e := by
  obtain ⟨hkey, -, hprev⟩ := read_current hread
  cases hl : s.db.kine.last call.key with
  | none =>
    rw [hl] at hprev
    exact .inl hprev
  | some y =>
    obtain ⟨hy, hyn, -⟩ := last_eq_some hl
    rw [hl] at hprev
    exact .inr ⟨y, hy, hyn.trans hkey.symm, hprev.symm⟩

theorem rewritesNone_of_no_owners {db : Db} (h : db.owners = []) (e : Event) : RewritesNone c db e := by
  intro m _ _ _ p hp
  obtain ⟨-, -, ko, hko, -⟩ := Codec.mem_getOwned hp
  rw [h] at hko
  exact absurd hko List.not_mem_nil

/-- A started database is linked. -/
theorem start_linked (c : Codec) (now : ℤ) : (start ⟨c, now⟩ SqlLog.init).2.db.Linked := by
  have hempty : SqlLog.init.db.Linked := ⟨linked_empty, fun _ h => absurd h List.not_mem_nil⟩
  have hcompact : (SqlLog.init.compactStart c now).2.db.Linked ∧ (SqlLog.init.compactStart c now).2.db.owners = [] := by
    refine ⟨append_linked hempty _ (.inl rfl) (rewritesNone_of_no_owners rfl _), ?_⟩
    rcases compactStart_init c now with ⟨-, hdb⟩ | ⟨-, ho, -⟩
    · rw [hdb]
      rfl
    · exact ho
  unfold start
  simp only
  split
  · exact hcompact.1
  · show ((Call.create healthKey healthVal 0).serial ⟨c, now⟩ _).db.Linked
    rw [serial_db]
    have hdb := read_db (SqlLog.init.compactStart c now).2 (.create healthKey healthVal 0)
    split
    · exact hcompact.1
    · rename_i e hread
      have hknown := read_known hread
      rw [← hdb] at hknown hcompact
      exact append_linked hcompact.1 e hknown (rewritesNone_of_no_owners hcompact.2 e)

namespace Writers

/-- The table is linked, and so is what the calls in flight are going to insert. -/
structure Links (x : Writers) : Prop where
  db : x.log.db.Linked
  pending : ∀ p ∈ x.pending, Known x.log.db.kine p.2

/-- An insert writes no dependent anew. -/
def SparesDependents (c : Codec) (x : Writers) (a : WAct) : Prop :=
  ∀ i now p, a = .insert i now → x.pending[i]? = some p → RewritesNone c x.log.db p.2

theorem Links.step {minRetain : ℤ} {x : Writers} (hx : x.Links) {a : WAct} (ha : x.SparesDependents c a)
    (hcall : ∀ target, a ≠ .compact target) : (x.step c minRetain a).Links := by
  cases a with
  | read call =>
    have hdb := read_db x.log call
    unfold Writers.step
    simp only
    split
    · rename_i e log hread
      rw [hread] at hdb
      have hnew := read_known (s := x.log) (by rw [hread])
      refine ⟨hdb ▸ hx.db, fun p hp => ?_⟩
      show Known log.db.kine p.2
      rw [show log.db = x.log.db from hdb]
      rcases List.mem_append.1 hp with hp | hp
      · exact hx.pending p hp
      · rw [List.mem_singleton.1 hp]
        exact hnew
    · rename_i log hread
      rw [hread] at hdb
      exact ⟨hdb ▸ hx.db, fun p hp => by rw [show log.db = x.log.db from hdb]; exact hx.pending p hp⟩
  | insert i now =>
    unfold Writers.step
    simp only
    split
    · exact hx
    · rename_i call e hpi
      have hmem : (call, e) ∈ x.pending := List.mem_of_getElem? hpi
      refine ⟨append_linked hx.db e (hx.pending _ hmem) (ha i now _ rfl hpi), fun p hp => ?_⟩
      rcases hx.pending p (List.mem_of_mem_eraseIdx hp) with h0 | ⟨y, hy, hyp⟩
      · exact .inl h0
      · exact .inr ⟨y, append_mem c now e hy, hyp⟩
  | compact target => exact absurd rfl (hcall target)

/-- Two updates that race, a delete and a create, of values without metadata. -/
def racingRun : List WAct :=
  let a := ascii "/a"
  [.read (.create a (ascii "1") 0), .insert 0 0, .read (.update a (ascii "2") 3 0), .read (.update a (ascii "3") 3 0),
    .insert 1 0, .insert 0 0, .read (.delete a 0), .insert 0 0, .read (.create a (ascii "4") 0), .insert 0 0]

/-- An object with a dependent, and its last version, which leaves only the orphan finalizer. -/
def orphaningCodec : Codec where
  decodeObject _ value :=
    if value = ascii "owner" then some { uid := ascii "u", labels := [(skipLabel, [])] }
    else if value = ascii "orphaning" then
      some { uid := ascii "u", labels := [(skipLabel, [])], finalizers := [orphanDependents] }
    else if value = ascii "owned" then some { uid := ascii "d", owners := [⟨ascii "u", none⟩] }
    else some {}
  decode value := if value = ascii "owned" then some ⟨[⟨ascii "u", none⟩], [], none, []⟩ else none
  marshal _ := some (ascii "orphaned")

/-- The owner is orphaned of its dependent. -/
def orphaningRun : List WAct :=
  [.read (.create (ascii "/o") (ascii "owner") 0), .insert 0 0, .read (.create (ascii "/d") (ascii "owned") 0),
    .insert 0 0, .read (.update (ascii "/o") (ascii "orphaning") 3 0), .insert 0 0]

end Writers

end LogStructured

end Harikube
