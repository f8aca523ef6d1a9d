import Harikube.Proof.Reachable

/-!
# The owners of dependents

The orphaning loop of `InsertMetadata` collects the positions of the references to the owner and
removes them one by one, each from the list that the one before has made shorter.

* `removeOwners_drop`: removals up to a position shift what is behind it to the front.
* `removes_owners_iff`: **the loop removes exactly the references to the owner if and only if
  there is at most one.**

`GetOwnedSQL` looks at the rows that have been recorded with the owner, and at no others.

* `Truthful`: a live row that is recorded with an owner lists it, in every database that calls
  reach (`run_truthful`).
* `getOwned_exact_iff`: **the query answers with the current dependents if and only if nothing has
  been written after the versions it finds, and no current dependent has been written without
  being recorded.**
-/

namespace Harikube

namespace Codec

variable {uid : Bytes} {refs refs' : List OwnerReference} {i m : ℕ} {is js : List ℕ}

/-! ## Removing by position -/

theorem removeOwners_append (refs : List OwnerReference) (is js : List ℕ) :
    removeOwners refs (is ++ js) = (removeOwners refs is).bind fun refs => removeOwners refs js := by
  induction is generalizing refs with
  | nil => rfl
  | cons i is ih =>
    rw [List.cons_append, removeOwners, removeOwners]
    split
    · exact ih _
    · rfl

theorem drop_eraseIdx_of_le (hi : i < refs.length) (him : i ≤ m) : (refs.eraseIdx i).drop m = refs.drop (m + 1) := by
  have hlen : (refs.take i).length = i := List.length_take_of_le hi.le
  rw [List.eraseIdx_eq_take_drop_succ, List.drop_append, hlen, List.drop_eq_nil_of_le (hlen.trans_le him),
    List.nil_append, List.drop_drop]
  congr 1
  omega

/-- Removals up to a position shift what is behind it to the front. -/
theorem removeOwners_drop (h : removeOwners refs is = some refs') (his : ∀ i ∈ is, i ≤ m) :
    refs'.drop m = refs.drop (m + is.length) := by
  induction is generalizing refs with
  | nil =>
    obtain rfl := Option.some.inj h
    rfl
  | cons i is ih =>
    rw [removeOwners] at h
    split at h
    · rename_i hi
      have him : i ≤ m := his i List.mem_cons_self
      have hrest := ih h fun j hj => his j (List.mem_cons_of_mem i hj)
      -- the position is the same, but it is one further on in the list before
      rw [hrest, drop_eraseIdx_of_le hi (him.trans (Nat.le_add_right m is.length))]
      rfl
    · cases h

theorem removeOwners_sublist (h : removeOwners refs is = some refs') : refs'.Sublist refs := by
  induction is generalizing refs with
  | nil =>
    obtain rfl := Option.some.inj h
    exact List.Sublist.refl _
  | cons i is ih =>
    rw [removeOwners] at h
    split at h
    · exact (ih h).trans (List.eraseIdx_sublist _ _)
    · cases h

/-- Behind a reference that stays, every position is one more. -/
theorem removeOwners_shift (r : OwnerReference) (h : removeOwners refs is = some refs') :
    removeOwners (r :: refs) (is.map (· + 1)) = some (r :: refs') := by
  induction is generalizing refs with
  | nil =>
    obtain rfl := Option.some.inj h
    rfl
  | cons i is ih =>
    rw [removeOwners] at h
    split at h
    · rename_i hi
      rw [List.map_cons, removeOwners, if_pos (by simpa using hi), List.eraseIdx_cons_succ]
      exact ih h
    · cases h

/-! ## The positions of the owner -/

theorem ownersToDelete_cons (uid : Bytes) (ref : OwnerReference) (refs : List OwnerReference) :
    ownersToDelete uid (ref :: refs) =
      (if ref.uid = uid then [0] else []) ++ (ownersToDelete uid refs).map (· + 1) := by
  have hshift : ∀ (l : List OwnerReference) (k : ℕ),
      ((l.zipIdx (k + 1)).filter fun p => p.1.uid = uid).map Prod.snd =
        (((l.zipIdx k).filter fun p => p.1.uid = uid).map Prod.snd).map (· + 1) := by
    intro l
    induction l with
    | nil => intro k; rfl
    | cons r l ih =>
      intro k
      rw [List.zipIdx_cons, List.zipIdx_cons, List.filter_cons, List.filter_cons]
      split <;> simp [ih]
  unfold ownersToDelete
  rw [List.zipIdx_cons, List.filter_cons]
  split
  · rename_i hr
    rw [if_pos (by simpa using hr), List.map_cons, hshift refs 0]
    rfl
  · rename_i hr
    rw [if_neg (by simpa using hr), hshift refs 0]
    rfl

theorem length_ownersToDelete (uid : Bytes) (refs : List OwnerReference) :
    (ownersToDelete uid refs).length = (refs.filter fun r => r.uid = uid).length := by
  induction refs with
  | nil => rfl
  | cons r refs ih =>
    rw [ownersToDelete_cons, List.length_append, List.length_map, ih, List.filter_cons]
    by_cases hr : r.uid = uid
    · rw [if_pos hr, if_pos (decide_eq_true hr), List.length_singleton, List.length_cons]
      omega
    · rw [if_neg hr, if_neg (by simpa using hr), List.length_nil, Nat.zero_add]

theorem mem_ownersToDelete : i ∈ ownersToDelete uid refs ↔ ∃ r, refs[i]? = some r ∧ r.uid = uid := by
  unfold ownersToDelete
  simp only [List.mem_map, List.mem_filter, decide_eq_true_eq, Prod.exists, exists_eq_right,
    List.mem_zipIdx_iff_getElem?]

theorem ownersToDelete_sorted (uid : Bytes) (refs : List OwnerReference) :
    (ownersToDelete uid refs).Pairwise (· < ·) := by
  induction refs with
  | nil => exact List.Pairwise.nil
  | cons r refs ih =>
    have hmap : ((ownersToDelete uid refs).map (· + 1)).Pairwise (· < ·) :=
      List.pairwise_map.2 (ih.imp fun h => Nat.succ_lt_succ h)
    rw [ownersToDelete_cons]
    split
    · refine List.pairwise_cons.2 ⟨fun j hj => ?_, hmap⟩
      obtain ⟨k, -, rfl⟩ := List.mem_map.1 hj
      exact Nat.succ_pos k
    · exact hmap

/-! ## The loop -/

/-- With no reference to the owner, or one, the loop removes it. -/
theorem removes_owners_of_le_one (h : (refs.filter fun r => r.uid = uid).length ≤ 1) :
    removeOwners refs (ownersToDelete uid refs) = some (refs.filter fun r => r.uid ≠ uid) := by
  induction refs with
  | nil => rfl
  | cons r refs ih =>
    rw [ownersToDelete_cons]
    by_cases hr : r.uid = uid
    · -- it is the first: no other follows
      rw [List.filter_cons_of_pos (by simpa using hr), List.length_cons] at h
      have hnone : ownersToDelete uid refs = [] := by
        rw [← List.length_eq_zero_iff, length_ownersToDelete]
        omega
      have hkeep : (refs.filter fun r => r.uid ≠ uid) = refs := by
        rw [List.filter_eq_self]
        intro a ha
        have hnil : (refs.filter fun r => r.uid = uid) = [] := List.length_eq_zero_iff.1 (by omega)
        have := List.filter_eq_nil_iff.1 hnil a ha
        simpa using this
      rw [if_pos hr, hnone, List.filter_cons_of_neg (by simpa using hr), hkeep]
      rfl
    · rw [List.filter_cons_of_neg (by simpa using hr)] at h
      have htail := ih h
      rw [if_neg hr, List.nil_append, List.filter_cons_of_pos (by simpa using hr)]
      exact removeOwners_shift r htail

/-- After another removal the last position is that of a foreign reference. -/
theorem foreign_at_last (hlast : ∀ j ∈ ownersToDelete uid refs, j ≤ m) (hne : is ≠ []) (his : ∀ j ∈ is, j ≤ m)
    (h : removeOwners refs is = some refs') {r : OwnerReference} (hr : refs'[m]? = some r) : r.uid ≠ uid := by
  intro huid
  have hdrop := removeOwners_drop h his
  have hmem : m + is.length ∈ ownersToDelete uid refs := by
    refine mem_ownersToDelete.2 ⟨r, ?_, huid⟩
    have hget := congrArg (fun l => l[0]?) hdrop
    simpa [List.getElem?_drop, hr] using hget.symm
  have hle := hlast _ hmem
  have hpos := List.length_pos_iff.2 hne
  omega

theorem not_removes_owners_of_two (h : 2 ≤ (refs.filter fun r => r.uid = uid).length) :
    removeOwners refs (ownersToDelete uid refs) ≠ some (refs.filter fun r => r.uid ≠ uid) := by
  intro hres
  rw [← length_ownersToDelete] at h
  have hne : ownersToDelete uid refs ≠ [] := List.length_pos_iff.1 (by omega)
  set is := (ownersToDelete uid refs).dropLast
  set m := (ownersToDelete uid refs).getLast hne
  have hsplit : ownersToDelete uid refs = is ++ [m] := (List.dropLast_append_getLast hne).symm
  have hbefore : ∀ j ∈ is, j ≤ m := by
    have hsorted := ownersToDelete_sorted uid refs
    rw [hsplit, List.pairwise_append] at hsorted
    exact fun j hj => (hsorted.2.2 j hj m List.mem_cons_self).le
  have hlast : ∀ j ∈ ownersToDelete uid refs, j ≤ m := by
    intro j hj
    rw [hsplit, List.mem_append, List.mem_singleton] at hj
    rcases hj with hj | rfl
    · exact hbefore j hj
    · exact le_rfl
  have hmany : is ≠ [] := by
    have hlen := congrArg List.length hsplit
    rw [List.length_append, List.length_singleton] at hlen
    exact List.length_pos_iff.1 (by omega)
  -- the list before the last removal
  rw [hsplit, removeOwners_append, Option.bind_eq_some_iff] at hres
  obtain ⟨l, hl, hres⟩ := hres
  rw [removeOwners] at hres
  split at hres
  · rename_i hm
    have herase : l.eraseIdx m = refs.filter fun r => r.uid ≠ uid := Option.some.inj hres
    have hforeign := foreign_at_last hlast hmany hbefore hl (List.getElem?_eq_getElem hm)
    -- a foreign reference is gone, and none has come back
    have hperm := (List.getElem_cons_eraseIdx_perm hm).countP_eq fun r => decide (r.uid ≠ uid)
    rw [List.countP_cons_of_pos (by simpa using hforeign), herase, List.countP_filter] at hperm
    have hle := (removeOwners_sublist hl).countP_le (p := fun r => decide (r.uid ≠ uid))
    simp only [Bool.and_self] at hperm
    omega
  · cases hres

/-- **The orphaning loop removes exactly the references to the owner if and only if there is at
most one.** -/
theorem removes_owners_iff (uid : Bytes) (refs : List OwnerReference) :
    removeOwners refs (ownersToDelete uid refs) = some (refs.filter fun r => r.uid ≠ uid) ↔
      (refs.filter fun r => r.uid = uid).length ≤ 1 := by
  refine ⟨fun h => ?_, removes_owners_of_le_one⟩
  by_contra hmany
  exact not_removes_owners_of_two (by omega) h

/-- Two references to the owner before a foreign one: the foreign one is dropped and one to the
owner stays. Two at the end: the second position is out of range. -/
theorem removes_owners_wrong :
    let owner : OwnerReference := ⟨ascii "u", none⟩
    let other : OwnerReference := ⟨ascii "v", none⟩
    removeOwners [owner, owner, other] (ownersToDelete (ascii "u") [owner, owner, other]) = some [owner] ∧
      removeOwners [other, owner, owner] (ownersToDelete (ascii "u") [other, owner, owner]) = none := by
  decide

end Codec

/-! ## The dependents of an owner -/

namespace Db

/-- The row has been recorded with the owner. -/
def recorded (db : Db) (uid : Bytes) (x : Row) : Bool := db.owners.any fun ko => ko.owner = uid && ko.kineId = x.id

/-- No row of its name satisfying `p` comes after the row. -/
def newest (db : Db) (p : Row → Bool) (x : Row) : Bool :=
  db.kine.rows.all fun y => !p y || y.name ≠ x.name || y.id ≤ x.id

end Db

/-- The object in the row lists the owner. -/
def Codec.lists (c : Codec) (uid : Bytes) (x : Row) : Bool :=
  (c.decodeObject x.name x.value).any fun m => m.owners.any fun o => o.uid = uid

namespace Db

variable {db : Db} {c : Codec} {uid : Bytes}

/-- The current dependents: the latest rows, if they are live and list the owner. -/
def dependents (c : Codec) (db : Db) (uid : Bytes) : List Row :=
  (db.kine.rows.filter fun x => db.newest (fun _ => true) x && !x.deleted && c.lists uid x).insertionSort
    fun x y => x.name ≤ y.name

/-- The rows that the query returns. -/
theorem getOwned_rows (db : Db) (uid : Bytes) :
    (db.getOwned uid).map Prod.fst =
      (db.kine.rows.filter fun x => db.recorded uid x && db.newest (db.recorded uid) x && !x.deleted).insertionSort
        fun x y => x.name ≤ y.name := by
  unfold getOwned
  simp only [List.map_map]
  rw [show (Prod.fst ∘ fun k : Row => (k, ((db.owners.find? fun ko => ko.owner = uid && ko.kineId = k.id).bind
      OwnerRow.blockOwnerDeletion).getD false)) = id from rfl, List.map_id, List.filter_filter, List.filter_filter]
  congr 1
  apply List.filter_congr
  intro x _
  have hnewest : ((db.kine.rows.filter fun k => db.owners.any fun ko => ko.owner = uid && ko.kineId = k.id).all
      fun y => y.name ≠ x.name || y.id ≤ x.id) = db.newest (db.recorded uid) x := by
    unfold newest recorded
    rw [List.all_filter]
    simp only [Bool.or_assoc]
  rw [hnewest]
  unfold recorded
  cases db.newest _ x <;> cases x.deleted <;> simp

theorem newest_true_iff {p : Row → Bool} {x : Row} :
    db.newest p x = true ↔ ∀ y ∈ db.kine.rows, p y = true → y.name = x.name → y.id ≤ x.id := by
  unfold newest
  simp only [List.all_eq_true, Bool.or_eq_true, Bool.not_eq_true', decide_eq_true_eq]
  refine forall₂_congr fun y _ => ?_
  cases p y
  · simp
  · simp only [reduceCtorEq, false_or, forall_const]
    exact ⟨fun h hn => h.resolve_left (not_not.2 hn), fun h => (em (y.name = x.name)).elim (.inr ∘ h) .inl⟩

end Db

/-! ## Rows that are recorded with an owner -/

open Kine

/-- A live row that is recorded with an owner lists it, and a row is recorded no sooner than it
is there. -/
structure Db.Truthful (c : Codec) (db : Db) : Prop where
  owners_le : ∀ ko ∈ db.owners, ko.kineId ≤ db.kine.seq
  lists : ∀ ko ∈ db.owners, ∀ x ∈ db.kine.rows, x.id = ko.kineId → x.deleted = false → c.lists ko.owner x = true

theorem Db.truthful_empty (c : Codec) : Db.empty.Truthful c :=
  ⟨fun _ h => absurd h List.not_mem_nil, fun _ h => absurd h List.not_mem_nil⟩

/-- Rows with new ids are not those that have been recorded. -/
theorem Db.Truthful.adds {c : Codec} {db db' : Db} (h : db.Truthful c) (ha : Adds db.kine db'.kine)
    {ko : OwnerRow} (hko : ko ∈ db.owners) :
    ko.kineId ≤ db'.kine.seq ∧
      ∀ x ∈ db'.kine.rows, x.id = ko.kineId → x.deleted = false → c.lists ko.owner x = true := by
  obtain ⟨hseq, extra, hrows, hnew⟩ := ha
  have hle := h.owners_le ko hko
  refine ⟨hle.trans hseq, fun x hx hid hlive => ?_⟩
  rw [hrows] at hx
  rcases List.mem_append.1 hx with hx | hx
  · exact h.lists ko hko x hx hid hlive
  · have := hnew x hx
    omega

/-- **An insert records its row with the owners that the value lists**, and the rows of
dependents with none. -/
theorem Codec.insert_truthful (c : Codec) {db db' : Db} (hdb : db.Truthful c) {now id : ℤ} {key : Bytes}
    {create delete : Bool} {createRevision previousRevision ttl : ℤ} {value prevValue : Bytes}
    (h : c.insert db now key create delete createRevision previousRevision ttl value prevValue = .ok (id, db')) :
    db'.Truthful c := by
  obtain ⟨hadds, -, hidle⟩ := c.insert_adds h
  obtain ⟨m, d, hm, hrow, hmeta⟩ := c.insert_cases h
  obtain ⟨hins, ho⟩ := Db.insertRow_eq_ok hrow
  obtain ⟨-, hid, old, hrows⟩ := insert_eq_some hins
  have hseq := insert_seq hins
  -- an owner row of the new row: only the new row has its id
  have hnew : ∀ ko : OwnerRow, Adds d.kine db'.kine → ko.kineId = id → (∃ o ∈ m.owners, o.uid = ko.owner) →
      ∀ x ∈ db'.kine.rows, x.id = ko.kineId → c.lists ko.owner x = true := by
    rintro ko ⟨-, extra, hrows', hextra⟩ hkid ⟨o, hom, houid⟩ x hx hxid
    rw [hrows', hrows, List.append_assoc] at hx
    rcases List.mem_append.1 hx with hx | hx
    · have := db.kine.bounded x hx
      omega
    · rcases List.mem_append.1 hx with hx | hx
      · rw [List.mem_singleton.1 hx]
        unfold lists insertedRow
        simp only [hm, Option.any_some]
        exact List.any_eq_true.2 ⟨o, hom, decide_eq_true houid⟩
      · have := hextra x hx
        omega
  rcases hmeta with ⟨-, hmeta⟩ | ⟨-, rfl⟩
  · obtain ⟨stmts, hs, hex⟩ := c.insertMetadata_executes
      (Q := fun s => ∀ ko, s = .insertOwner ko → ko.kineId = id ∧ ∃ o ∈ m.owners, o.uid = ko.owner)
      (fun o hom ko hko => by rw [← Stmt.insertOwner.inj hko]; exact ⟨rfl, o, hom, rfl⟩)
      (fun _ p _ _ v ko hko => by simp at hko) hmeta
    have howners : ∀ ko ∈ db'.owners, ko ∈ db.owners ∨ .insertOwner ko ∈ stmts := by
      rw [← ho]
      exact mem_executeAll_owners stmts hex
    refine ⟨fun ko hko => ?_, fun ko hko => ?_⟩
    · rcases howners ko hko with hko | hko
      · exact (hdb.adds hadds hko).1
      · rw [(hs _ hko ko rfl).1]
        exact hidle
    · rcases howners ko hko with hko | hko
      · exact (hdb.adds hadds hko).2
      · obtain ⟨hkid, hlisted⟩ := hs _ hko ko rfl
        exact fun x hx hxid _ => hnew ko (executeAll_adds stmts hex) hkid hlisted x hx hxid
  · exact ⟨fun ko hko => (hdb.adds hadds (ho ▸ hko)).1, fun ko hko => (hdb.adds hadds (ho ▸ hko)).2⟩

namespace LogStructured

variable {s : SqlLog} {c : Codec} {now : ℤ}

theorem append_truthful (hs : s.db.Truthful c) (now : ℤ) (e : Event) : (s.append c now e).2.db.Truthful c := by
  unfold SqlLog.append
  simp only
  split
  · exact hs
  · rename_i rev db hins
    exact c.insert_truthful hs hins

theorem serial_truthful (hs : s.db.Truthful c) (now : ℤ) (call : Call) : (call.serial ⟨c, now⟩ s).db.Truthful c := by
  rw [serial_db]
  have hdb := read_db s call
  rw [← hdb] at hs
  split
  · rw [← hdb]
    exact hs
  · exact append_truthful hs now _

/-- A fill may take the id of a row that has been compacted, but its row is a tombstone. -/
theorem fill_truthful (hs : s.db.Truthful c) (r : ℤ) : (withTable s (s.db.kine.fill r)).db.Truthful c := by
  unfold withTable
  split
  · rename_i t' ht
    obtain ⟨-, hrows⟩ := fill_eq_some ht
    refine ⟨fun ko hko => (hs.owners_le ko hko).trans (fill_seq_le ht), fun ko hko x hx hid hlive => ?_⟩
    rcases (hrows x).1 hx with hx | rfl
    · exact hs.lists ko hko x hx hid hlive
    · exact absurd hlive Bool.true_eq_false.mp
  · exact hs

theorem compact_truthful (hs : s.db.Truthful c) (target : ℤ) :
    (withTable s ((s.db.kine.compact target).setCompactRevision target)).db.Truthful c := by
  unfold withTable
  split
  · rename_i t' ht
    have hrows := setCompactRevision_eq_some ht
    have hseq : t'.seq = s.db.kine.seq := (setCompactRevision_seq ht).trans rfl
    refine ⟨fun ko hko => ?_, fun ko hko x hx hid hlive => ?_⟩
    · show ko.kineId ≤ t'.seq
      rw [hseq]
      exact hs.owners_le ko hko
    · rw [show x ∈ t'.rows ↔ _ by rw [hrows]] at hx
      obtain ⟨y, hy, rfl⟩ := List.mem_map.1 hx
      rw [setCompact_id] at hid
      rw [setCompact_deleted] at hlive
      have := hs.lists ko hko y (mem_compact.1 hy).1 hid hlive
      unfold Codec.lists at this ⊢
      rw [setCompact_name, setCompact_value]
      exact this
  · exact hs

theorem step_truthful (hs : s.db.Truthful c) (op : SqlOp) : (step c s op).db.Truthful c := by
  cases op with
  | create now key value lease => exact serial_truthful hs now (.create key value lease)
  | update now key value revision lease => exact serial_truthful hs now (.update key value revision lease)
  | delete now key revision => exact serial_truthful hs now (.delete key revision)
  | fill r => exact fill_truthful hs r
  | compact target => exact compact_truthful hs target

theorem start_truthful (c : Codec) (now : ℤ) : (start ⟨c, now⟩ SqlLog.init).2.db.Truthful c := by
  have hcompact : (SqlLog.init.compactStart c now).2.db.Truthful c :=
    append_truthful (s := SqlLog.init) (Db.truthful_empty c) now _
  unfold start
  simp only
  split
  · exact hcompact
  · exact serial_truthful hcompact now (.create healthKey healthVal 0)

/-- **Whatever calls are made, a live row is only recorded with owners that it lists.** -/
theorem run_truthful (c : Codec) (now : ℤ) (ops : List SqlOp) : (run c now ops).db.Truthful c :=
  List.foldlRecOn (motive := fun s => s.db.Truthful c) ops (step c) (start_truthful c now)
    fun _ hs op _ => step_truthful hs op

/-! ## What the query finds -/

end LogStructured

namespace Db

variable {db : Db} {c : Codec} {uid : Bytes}

/-- Nothing has been written to a name after the last version recorded with the owner, if that
version is live. -/
def Fresh (db : Db) (uid : Bytes) : Prop :=
  ∀ x ∈ db.kine.rows, db.recorded uid x = true → db.newest (db.recorded uid) x = true → x.deleted = false →
    db.newest (fun _ => true) x = true

/-- A current dependent has been recorded with the owner. -/
def Recorded (c : Codec) (db : Db) (uid : Bytes) : Prop :=
  ∀ x ∈ db.kine.rows, db.newest (fun _ => true) x = true → x.deleted = false → c.lists uid x = true →
    db.recorded uid x = true

theorem Truthful.lists_of_recorded (h : db.Truthful c) {x : Row} (hx : x ∈ db.kine.rows) (hlive : x.deleted = false)
    (hr : db.recorded uid x = true) : c.lists uid x = true := by
  obtain ⟨ko, hko, heq⟩ := List.any_eq_true.1 hr
  simp only [Bool.and_eq_true, decide_eq_true_eq] at heq
  obtain ⟨rfl, hid⟩ := heq
  exact h.lists ko hko x hx hid.symm hlive

theorem mem_getOwned_rows {x : Row} :
    x ∈ (db.getOwned uid).map Prod.fst ↔ x ∈ db.kine.rows ∧ db.recorded uid x = true ∧
      db.newest (db.recorded uid) x = true ∧ x.deleted = false := by
  rw [getOwned_rows, List.mem_insertionSort, List.mem_filter]
  simp only [Bool.and_eq_true, Bool.not_eq_true', and_assoc]

theorem mem_dependents {x : Row} :
    x ∈ db.dependents c uid ↔ x ∈ db.kine.rows ∧ db.newest (fun _ => true) x = true ∧ x.deleted = false ∧
      c.lists uid x = true := by
  unfold dependents
  rw [List.mem_insertionSort, List.mem_filter]
  simp only [Bool.and_eq_true, Bool.not_eq_true', and_assoc]

/-- The query is exact if the rows that it finds are the current dependents. -/
theorem getOwned_eq_iff : (db.getOwned uid).map Prod.fst = db.dependents c uid ↔
    ∀ x, x ∈ (db.getOwned uid).map Prod.fst ↔ x ∈ db.dependents c uid := by
  refine ⟨fun h x => by rw [h], fun h => ?_⟩
  rw [getOwned_rows]
  unfold dependents
  congr 1
  apply List.filter_congr
  intro x hx
  have := h x
  rw [mem_getOwned_rows, mem_dependents] at this
  rw [Bool.eq_iff_iff]
  simpa [hx, and_assoc] using this

theorem Truthful.getOwned_iff (h : db.Truthful c) :
    (db.getOwned uid).map Prod.fst = db.dependents c uid ↔ db.Fresh uid ∧ db.Recorded c uid := by
  rw [getOwned_eq_iff]
  constructor
  · intro heq
    refine ⟨fun x hx hr hn hlive => ?_, fun x hx hn hlive hl => ?_⟩
    · exact (mem_dependents.1 ((heq x).1 (mem_getOwned_rows.2 ⟨hx, hr, hn, hlive⟩))).2.1
    · exact (mem_getOwned_rows.1 ((heq x).2 (mem_dependents.2 ⟨hx, hn, hlive, hl⟩))).2.1
  · rintro ⟨hfresh, hrec⟩ x
    rw [mem_getOwned_rows, mem_dependents]
    constructor
    · rintro ⟨hx, hr, hn, hlive⟩
      exact ⟨hx, hfresh x hx hr hn hlive, hlive, h.lists_of_recorded hx hlive hr⟩
    · rintro ⟨hx, hn, hlive, hl⟩
      -- the last row of all is the last of those that are recorded
      have hlast : db.newest (db.recorded uid) x = true :=
        newest_true_iff.2 fun y hy _ hyn => newest_true_iff.1 hn y hy rfl hyn
      exact ⟨hx, hrec x hx hn hlive hl, hlast, hlive⟩

end Db

namespace LogStructured

/-- **`GetOwnedSQL` answers with the current dependents, with their last ids and values, if and
only if nothing has been written after the live versions that it finds and every current
dependent has been recorded.** -/
theorem getOwned_exact_iff (c : Codec) (now : ℤ) (ops : List SqlOp) (uid : Bytes) :
    ((run c now ops).db.getOwned uid).map Prod.fst = (run c now ops).db.dependents c uid ↔
      (run c now ops).db.Fresh uid ∧ (run c now ops).db.Recorded c uid :=
  (run_truthful c now ops).getOwned_iff

/-- An owner, that waits for its dependents to be deleted, and a dependent with a finalizer,
that is marked as deleted or freed of its owner. -/
def owningCodec : Codec where
  decodeObject _ value :=
    if value = ascii "owner" then some { uid := ascii "u", labels := [(skipLabel, [])] }
    else if value = ascii "waiting" then
      some { uid := ascii "u", labels := [(skipLabel, [])], finalizers := [deleteDependents] }
    else if value = ascii "owned" ∨ value = ascii "marked" then
      some { uid := ascii "d", owners := [⟨ascii "u", some true⟩] }
    else some {}
  decode value := if value = ascii "owned" then some ⟨[⟨ascii "u", some true⟩], [ascii "f"], none, []⟩ else none
  marshal _ := some (ascii "marked")

/-- The ids of the rows that the query finds, and of the current dependents. -/
def ownedIds (ops : List SqlOp) : List ℤ × List ℤ :=
  let db := (run owningCodec 0 ops).db
  (((db.getOwned (ascii "u")).map Prod.fst).map Row.id, (db.dependents owningCodec (ascii "u")).map Row.id)

/-- **The query finds versions of the past**: of a dependent that has been freed, of one that has
been deleted, and of one that has been marked by its owner. -/
theorem getOwned_stale :
    let o := ascii "/o"
    let d := ascii "/d"
    ownedIds [.create 0 d (ascii "owned") 0, .update 0 d (ascii "freed") 3 0] = ([3], []) ∧
    ownedIds [.create 0 d (ascii "owned") 0, .delete 0 d 3] = ([3], []) ∧
    ownedIds [.create 0 o (ascii "owner") 0, .create 0 d (ascii "owned") 0, .update 0 o (ascii "waiting") 3 0] =
      ([4], [6]) := by
  decide +kernel

end LogStructured

end Harikube
