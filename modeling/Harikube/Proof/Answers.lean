import Harikube.Proof.OldValues
import Harikube.Proof.Put

/-!
# What the calls of the SQL backend answer

In a started database reads at revision 0 do not fail, and an insert after the last row of
its key is not refused by the unique index. So what a call answers is decided by the last
row of its key, as long as `InsertMetadata` has no dependents to look at.

* `get'_ready`, `list_ready`: reads.
* `append_last`: **an append after the last row succeeds.**
* `create_answer`, `update_stale`, `update_append`, `delete_never`, `delete_tombstone`,
  `delete_append`: the answers, case by case.
-/

namespace Harikube.LogStructured

open Kine SqlLog

variable {s : SqlLog} {key value : Bytes} {x : Row} {env : SqlEnv}

/-- The table has the row of `compact_rev_key`, and a revision is cached or none. -/
structure Ready (s : SqlLog) : Prop where
  row : ∃ x ∈ s.db.kine.rows, x.name = compactRevKey
  rev : 0 ≤ s.currentRev

/-! ## Reads -/

theorem compactRev_of_row {t : Kine} (h : ∃ x ∈ t.rows, x.name = compactRevKey) : ∃ r, t.compactRev = some r := by
  obtain ⟨x, hx, hn⟩ := h
  unfold Kine.compactRev
  cases hr : ((t.rows.filter fun x => x.name = compactRevKey).map Row.prevRevision).max? with
  | some r => exact ⟨r, rfl⟩
  | none =>
    rw [List.max?_eq_none_iff, List.map_eq_nil_iff, List.filter_eq_nil_iff] at hr
    exact absurd (decide_eq_true hn) (hr x hx)

/-- **A list at revision 0 does not fail.** -/
theorem list_ready (h : Ready s) (key rangeEnd : Bytes) (limit : ℤ) (includeDeleted keysOnly : Bool)
    (cond : Row → Bool) :
    (s.list key rangeEnd limit 0 includeDeleted keysOnly cond).1.2 =
      ((listRows s.db.kine key rangeEnd limit 0 includeDeleted cond).map (Row.toEvent (!keysOnly) false), none) := by
  obtain ⟨y, hy, -⟩ := h.row
  obtain ⟨r, hr⟩ := compactRev_of_row h.row
  have hcached : 0 ≤ s.cachedRev := by
    have := h.rev
    have := currentRev_pos hy
    unfold cachedRev
    split <;> omega
  unfold SqlLog.list
  simp only
  split
  · rw [listCheck_zero (currentRev_nonneg _)]
  · rename_i hnil
    rw [ne_eq, not_not] at hnil
    rw [currentRevision_of_mem hy, hnil]
    simp only [getCompactRevision, hr]
    rw [listCheck_zero hcached]

theorem get'_ready (h : Ready s) (key : Bytes) (includeDeletes keysOnly : Bool) :
    (get' s key 0 includeDeletes keysOnly).1.2 =
      (((s.db.kine.last key).filter fun x => !x.deleted || includeDeletes).map (Row.toEvent (!keysOnly) false),
        none) := by
  have hlist := list_ready h key [] 1 includeDeletes keysOnly fun _ => true
  have hev := get'_event s key includeDeletes keysOnly
  unfold get' at hev ⊢
  simp only at hev ⊢
  rw [hlist] at hev ⊢
  simp only [Option.isSome_none, Bool.false_eq_true, if_false] at hev ⊢
  rw [hev]

theorem get_ready (h : Ready s) (key : Bytes) (keysOnly : Bool) :
    (get s key 0 keysOnly).1.2 =
      (((s.db.kine.last key).filter fun x => !x.deleted).map fun x => (x.toEvent (!keysOnly) false).kv, none) := by
  unfold get
  simp only
  rw [get'_ready h]
  simp only [Bool.or_false, Option.map_map]
  rfl

/-! ## The cached revision -/

theorem currentRevision_rev (h : 0 ≤ s.currentRev) : 0 ≤ s.currentRevision.2.currentRev := by
  have hnn := currentRev_nonneg s.db.kine
  unfold currentRevision
  split
  · exact h
  · split
    · exact h
    · rename_i rev hrev
      rw [hrev] at hnn
      exact hnn

theorem list_rev (h : 0 ≤ s.currentRev) (key rangeEnd : Bytes) (limit revision : ℤ) (includeDeleted keysOnly : Bool)
    (cond : Row → Bool) : 0 ≤ (s.list key rangeEnd limit revision includeDeleted keysOnly cond).2.currentRev := by
  have hrev := currentRevision_rev h
  unfold SqlLog.list
  simp only
  split
  · exact h
  · split
    · rename_i hc
      rw [hc] at hrev
      exact hrev
    · rename_i hc
      rw [hc] at hrev
      split <;> exact hrev

theorem get'_rev (h : 0 ≤ s.currentRev) (key : Bytes) (revision : ℤ) (includeDeletes keysOnly : Bool) :
    0 ≤ (get' s key revision includeDeletes keysOnly).2.currentRev := by
  have hrev := list_rev h key [] 1 revision includeDeletes keysOnly fun _ => true
  unfold get'
  simp only
  split <;> exact hrev

theorem adjustRevision_rev (h : 0 ≤ s.currentRev) (rev : ℤ) : 0 ≤ (adjustRevision s rev).2.currentRev := by
  have hrev := currentRevision_rev h
  unfold adjustRevision
  split
  · exact h
  · split <;> rename_i hc <;> rw [hc] at hrev <;> exact hrev

theorem append_rev (h : 0 ≤ s.currentRev) (c : Codec) (now : ℤ) (e : Event) :
    0 ≤ (s.append c now e).2.currentRev := by
  unfold SqlLog.append
  simp only
  split
  · exact h
  · rename_i rev db hins
    have hpos := (c.insert_adds hins).2.1
    show 0 ≤ rev
    omega

theorem serial_rev (h : 0 ≤ s.currentRev) (env : SqlEnv) (call : Call) : 0 ≤ (call.serial env s).currentRev := by
  cases call with
  | create key value lease =>
    have hg := get'_rev h key 0 true true
    refine adjustRevision_rev ?_ _
    split
    · exact hg
    · split
      · exact hg
      · exact append_rev hg _ _ _
  | update key value revision lease =>
    have hg := get'_rev h key 0 false false
    refine adjustRevision_rev ?_ _
    split
    · exact hg
    · split
      · exact hg
      · split
        · exact hg
        · simp only
          split
          · exact append_rev hg _ _ _
          · exact get'_rev (append_rev hg _ _ _) _ _ _ _
  | delete key revision =>
    have hg := get'_rev h key 0 true false
    refine adjustRevision_rev ?_ _
    split
    · exact hg
    · split
      · exact hg
      · split
        · exact hg
        · split
          · exact hg
          · simp only
            split
            · exact append_rev hg _ _ _
            · split <;> exact get'_rev (append_rev hg _ _ _) _ _ _ _

/-- A call leaves a database ready. -/
theorem Ready.serial (h : Ready s) (env : SqlEnv) (call : Call) : Ready (call.serial env s) := by
  have hdb := serial_db env s call
  obtain ⟨y, hy, hyn⟩ := h.row
  refine ⟨⟨y, ?_, hyn⟩, serial_rev h.rev env call⟩
  rw [hdb]
  split
  · exact hy
  · have hread := read_db s call
    exact append_mem env.codec env.now _ (by rw [hread]; exact hy)

/-! ## Appends -/

/-- The unique index admits a row after the last of its name. -/
theorem insert_last {t : Kine} (hc : Chain t) (hn : x.name ≠ compactRevKey)
    (hp : x.prevRevision = ((t.last x.name).map Row.id).getD 0) (oldId : ℤ) :
    ∃ t', t.insert x oldId = some (t.seq + 1, t') := by
  have hfree : ∀ y ∈ t.rows, ¬ y.clash x := by
    rintro y hy ⟨hyn, hyp⟩
    cases hl : t.last x.name with
    | none => exact last_eq_none.1 hl y hy hyn
    | some z =>
      -- a row of the name points at an earlier one, so not at the last
      obtain ⟨hz, -, hmax⟩ := last_eq_some hl
      have hzid : y.prevRevision = z.id := by rw [hyp, hp, hl]; rfl
      have hpos := (t.bounded z hz).1
      have hlt := hc.prev_lt y hy (hyn ▸ hn) (by omega)
      have hle := hmax y hy hyn
      omega
  unfold Kine.insert
  exact ⟨_, dif_pos hfree⟩

theorem unblockedOwners_nil (c : Codec) (m : Meta) (owners : List OwnerReference) :
    c.unblockedOwners m [] owners = .ok [] := by
  induction owners with
  | nil => rfl
  | cons o rest ih =>
    unfold Codec.unblockedOwners
    simp [ih]

theorem executeAll_owners (rs : List OwnerRow) (db : Db) :
    Codec.executeAll db (rs.map Stmt.insertOwner) = .ok { db with owners := db.owners ++ rs } := by
  induction rs generalizing db with
  | nil => simp [Codec.executeAll]
  | cons r rest ih =>
    show Codec.executeAll { db with owners := db.owners ++ [r] } (rest.map Stmt.insertOwner) = _
    rw [ih]
    simp

/-- Without dependents to look at, and without a previous value, `InsertMetadata` does not
fail and inserts owner rows only. -/
theorem insertMetadata_quiet (c : Codec) (db : Db) (now id : ℤ) (key : Bytes) (m : Meta) (delete : Bool)
    (hquiet : Codec.cascades m delete = false) :
    ∃ owners, c.insertMetadata db now id key [] m delete = .ok { db with owners := db.owners ++ owners } ∧
      (m.owners = [] → owners = []) := by
  have hmap : m.owners.map (fun o => Stmt.insertOwner ⟨id, o.uid, o.blockOwnerDeletion⟩) =
      (m.owners.map fun o => (⟨id, o.uid, o.blockOwnerDeletion⟩ : OwnerRow)).map Stmt.insertOwner := by
    rw [List.map_map]
    rfl
  unfold Codec.cascades at hquiet
  unfold Codec.insertMetadata Codec.metadataStart
  cases delete with
  | false =>
    refine ⟨m.owners.map fun o => ⟨id, o.uid, o.blockOwnerDeletion⟩, ?_, fun h => by rw [h]; rfl⟩
    rw [Bool.false_or] at hquiet
    simp only [Bool.not_false, if_true, unblockedOwners_nil, hquiet, Bool.false_eq_true, if_false, hmap,
      executeAll_owners, Codec.gcLoop]
  | true =>
    rw [Bool.true_or, Bool.and_true] at hquiet
    refine ⟨[], ?_, fun _ => rfl⟩
    simp only [Bool.not_true, Bool.false_eq_true, if_false, hquiet, Bool.false_and, Codec.executeAll, Codec.gcLoop,
      List.append_nil]

/-- Nothing stands in the way of the row of an event: it comes after the last one of its
key, and there are no dependents to look at. -/
structure Admits (c : Codec) (t : Kine) (e : Event) (m : Meta) : Prop where
  decoded : c.decodeObject e.kv.key e.kv.value = some m
  quiet : e.kv.value = [] ∨ Codec.cascades m (Codec.deletes m e.create e.delete) = false
  after : prevRev e = ((t.last e.kv.key).map Row.id).getD 0
  prevValue : (e.prevKV.getD ⟨[], [], 0, 0, 0, 0⟩).value = []

theorem append_of_insert {c : Codec} {now rev : ℤ} {e : Event} {db : Db}
    (hval : (e.prevKV.getD ⟨[], [], 0, 0, 0, 0⟩).value = [])
    (h : c.insert s.db now e.kv.key e.create e.delete e.kv.createRevision (prevRev e) e.kv.lease e.kv.value [] =
      .ok (rev, db)) : s.append c now e = ((rev, none), ⟨db, rev⟩) := by
  have hprev : (e.prevKV.getD ⟨[], [], 0, 0, 0, 0⟩).modRevision = prevRev e := by
    unfold prevRev
    cases e.prevKV <;> rfl
  unfold SqlLog.append
  simp only [hprev, hval, h]

/-- **An append after the last row of its key succeeds**, and inserts one row. -/
theorem append_last {c : Codec} {e : Event} {m : Meta} (hc : Chain s.db.kine) (hn : e.kv.key ≠ compactRevKey)
    (h : Admits c s.db.kine e m) (now : ℤ) :
    ∃ db : Db, s.append c now e = ((s.db.kine.seq + 1, none), ⟨db, s.db.kine.seq + 1⟩) ∧
      s.db.kine.insert (eventRow e m.uid (Codec.deletes m e.create e.delete)) (prevRev e) =
        some (s.db.kine.seq + 1, db.kine) ∧
      (e.kv.value = [] ∨ m.owners = [] → db.owners = s.db.owners) := by
  obtain ⟨t, ht⟩ := insert_last (x := eventRow e m.uid (Codec.deletes m e.create e.delete)) hc hn h.after (prevRev e)
  have hrow : s.db.insertRow (Codec.insertedRow m e.kv.key e.create e.delete e.kv.createRevision (prevRev e)
      e.kv.lease e.kv.value) (prevRev e) = .ok (s.db.kine.seq + 1, { s.db with kine := t }) :=
    Db.insertRow_of_some ht
  by_cases hmeta : Codec.HasMetadata m e.create e.delete e.kv.value
  · have hquiet := h.quiet.resolve_left hmeta.1
    obtain ⟨owners, hins, hnone⟩ := insertMetadata_quiet c { s.db with kine := t } now (s.db.kine.seq + 1) e.kv.key m
      (Codec.deletes m e.create e.delete) hquiet
    refine ⟨{ s.db with kine := t, owners := s.db.owners ++ owners }, ?_, ht, fun howners => ?_⟩
    · exact append_of_insert h.prevValue (c.insert_metadata h.decoded hrow hmeta hins)
    · show s.db.owners ++ owners = s.db.owners
      rw [hnone (howners.resolve_left hmeta.1), List.append_nil]
  · refine ⟨{ s.db with kine := t }, ?_, ht, fun _ => rfl⟩
    exact append_of_insert h.prevValue (c.insert_bare h.decoded hrow hmeta)

theorem live_deleted (hx : ((s.db.kine.last key).filter fun x => !x.deleted) = some x) : x.deleted = false := by
  simpa using (Option.filter_eq_some_iff.1 hx).2

/-! ## Creates -/

variable (env)

theorem last_filter_true (t : Kine) (key : Bytes) :
    ((t.last key).filter fun x => !x.deleted || true) = t.last key := by
  cases t.last key <;> simp [Option.filter]

theorem createEvent_absent {t : Kine} (hx : ((t.last key).filter fun x => !x.deleted) = none) (value : Bytes)
    (lease : ℤ) :
    createEvent key value lease ((t.last key).map (Row.toEvent false false)) =
      some ⟨false, true, ⟨key, value, 0, 0, 0, lease⟩,
        some ⟨[], [], 0, 0, ((t.last key).map Row.id).getD 0, 0⟩⟩ := by
  cases hl : t.last key with
  | none => rfl
  | some y =>
    rw [hl] at hx
    have hdel : y.deleted = true := by simpa [Option.filter] using hx
    simp [createEvent, Row.toEvent, hdel]

theorem createEvent_live {t : Kine} {x : Row} (hx : ((t.last key).filter fun x => !x.deleted) = some x)
    (value : Bytes) (lease : ℤ) :
    createEvent key value lease ((t.last key).map (Row.toEvent false false)) = none := by
  obtain ⟨hl, hlive⟩ := Option.filter_eq_some_iff.1 hx
  have hdel : x.deleted = false := by simpa using hlive
  simp [createEvent, Row.toEvent, hl, hdel]

theorem create_taken (h : Ready s) {lease : ℤ}
    (he : createEvent key value lease ((s.db.kine.last key).map (Row.toEvent false false)) = none) :
    (create env s key value lease).1.2 = some .keyExists ∧ (create env s key value lease).2.db = s.db := by
  unfold create
  simp only [get'_ready h, last_filter_true, Bool.not_true, he, adjustRevision_db, get'_db, and_self]

theorem create_append (h : Ready s) {lease : ℤ} {e : Event}
    (he : createEvent key value lease ((s.db.kine.last key).map (Row.toEvent false false)) = some e) :
    (create env s key value lease).1.2 = (s.append env.codec env.now e).1.2 ∧
      (create env s key value lease).2.db = (s.append env.codec env.now e).2.db := by
  have hcongr := append_congr (get'_db s key 0 true true) env.codec env.now e
  unfold create
  simp only [get'_ready h, last_filter_true, Bool.not_true, he, adjustRevision_db]
  exact ⟨congrArg Prod.snd hcongr.1, hcongr.2⟩

/-! ## Updates -/

theorem update_missing (h : Ready s) (hx : ((s.db.kine.last key).filter fun x => !x.deleted) = none)
    (value : Bytes) (revision lease : ℤ) :
    (update env s key value revision lease).1.2 = (none, false, none) ∧
      (update env s key value revision lease).2.db = s.db := by
  unfold update
  simp only [get'_ready h, Bool.or_false, hx, Option.map_none, adjustRevision_db, get'_db, and_self]

theorem update_stale (hx : ((s.db.kine.last key).filter fun x => !x.deleted) = some x) {revision : ℤ}
    (hid : x.id ≠ revision) (value : Bytes) (lease : ℤ) :
    (update env s key value revision lease).1.2 = (some (x.toEvent true false).kv, false, none) ∧
      (update env s key value revision lease).2.db = s.db := by
  have hrev : (x.toEvent true false).kv.modRevision ≠ revision := hid
  unfold update
  simp only [get'_found (live_or hx false), Bool.not_false, if_pos hrev, adjustRevision_db, and_self]

theorem update_append (hx : ((s.db.kine.last key).filter fun x => !x.deleted) = some x) {revision lease : ℤ}
    (hid : x.id = revision) {rev : ℤ} {db : Db}
    (happ : s.append env.codec env.now (updateEvent key value lease (x.toEvent true false)) =
      ((rev, none), ⟨db, rev⟩)) :
    (update env s key value revision lease).1.2 =
        (some { (updateEvent key value lease (x.toEvent true false)).kv with modRevision := rev }, true, none) ∧
      (update env s key value revision lease).2.db = db := by
  have hrev : ¬ (x.toEvent true false).kv.modRevision ≠ revision := not_not.2 hid
  unfold update
  simp only [get'_found (live_or hx false), Bool.not_false, if_neg hrev, happ, adjustRevision_db, and_self]

/-- The error of the insert is dropped. -/
theorem update_failed (hx : ((s.db.kine.last key).filter fun x => !x.deleted) = some x) {revision lease : ℤ}
    (hid : x.id = revision) {rev : ℤ} {err : Err}
    (happ : s.append env.codec env.now (updateEvent key value lease (x.toEvent true false)) = ((rev, some err), s)) :
    (update env s key value revision lease).1.2 = (some (x.toEvent true false).kv, false, none) := by
  have hrev : ¬ (x.toEvent true false).kv.modRevision ≠ revision := not_not.2 hid
  unfold update
  simp only [get'_found (live_or hx false), Bool.not_false, if_neg hrev, happ, Option.map_some]

/-! ## Deletes -/

/-- A delete of a key that is not in the table. -/
theorem delete_never (h : Ready s) (hx : s.db.kine.last key = none) (revision : ℤ) :
    (delete env s key revision).1.2 = (none, true, none) ∧ (delete env s key revision).2.db = s.db := by
  have hread := get'_ready h key true false
  rw [last_filter_true, hx, Option.map_none] at hread
  unfold delete
  simp only [hread, adjustRevision_db, get'_db, and_self]

/-- A delete of a key whose last row is a tombstone. -/
theorem delete_tombstone (h : Ready s) (hx : s.db.kine.last key = some x) (hdel : x.deleted = true) (revision : ℤ) :
    (delete env s key revision).1.2 = (none, false, none) ∧ (delete env s key revision).2.db = s.db := by
  have hevent : (x.toEvent (!false) false).delete = true := hdel
  have hread := get'_ready h key true false
  rw [last_filter_true, hx, Option.map_some] at hread
  unfold delete
  simp only [hread, hevent, if_true, adjustRevision_db, get'_db, and_self]

theorem delete_stale (hx : ((s.db.kine.last key).filter fun x => !x.deleted) = some x) {revision : ℤ}
    (hid : revision ≠ 0 ∧ x.id ≠ revision) :
    (delete env s key revision).1.2 = (some (x.toEvent true false).kv, false, none) ∧
      (delete env s key revision).2.db = s.db := by
  have hlive : (x.toEvent true false).delete = false := live_deleted hx
  have hrev : revision ≠ 0 ∧ (x.toEvent true false).kv.modRevision ≠ revision := hid
  unfold delete
  simp only [get'_found (live_or hx true), Bool.not_false, hlive, Bool.false_eq_true, if_false, if_pos hrev,
    adjustRevision_db, and_self]

theorem delete_append (hx : ((s.db.kine.last key).filter fun x => !x.deleted) = some x) {revision : ℤ}
    (hid : ¬ (revision ≠ 0 ∧ x.id ≠ revision)) {rev : ℤ} {db : Db}
    (happ : s.append env.codec env.now (deleteEvent key (x.toEvent true false)) = ((rev, none), ⟨db, rev⟩)) :
    (delete env s key revision).1.2 = (some (x.toEvent true false).kv, true, none) ∧
      (delete env s key revision).2.db = db := by
  have hlive : (x.toEvent true false).delete = false := live_deleted hx
  have hrev : ¬ (revision ≠ 0 ∧ (x.toEvent true false).kv.modRevision ≠ revision) := hid
  unfold delete
  simp only [get'_found (live_or hx true), Bool.not_false, hlive, Bool.false_eq_true, if_false, if_neg hrev, happ,
    adjustRevision_db, and_self]

/-- The error of the insert is taken for a conflict. -/
theorem delete_failed (hx : ((s.db.kine.last key).filter fun x => !x.deleted) = some x) {revision : ℤ}
    (hid : ¬ (revision ≠ 0 ∧ x.id ≠ revision)) {rev : ℤ} {err : Err}
    (happ : s.append env.codec env.now (deleteEvent key (x.toEvent true false)) = ((rev, some err), s)) :
    (delete env s key revision).1.2 = (some (x.toEvent true false).kv, false, none) := by
  have hlive : (x.toEvent true false).delete = false := live_deleted hx
  have hrev : ¬ (revision ≠ 0 ∧ (x.toEvent true false).kv.modRevision ≠ revision) := hid
  unfold delete
  simp only [get'_found (live_or hx true), Bool.not_false, hlive, Bool.false_eq_true, if_false, if_neg hrev, happ]

end Harikube.LogStructured
