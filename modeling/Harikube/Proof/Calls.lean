import Harikube.Proof.Inserts

/-!
# What a call reads, and the tables that calls can reach

* `get'_event`: `get` at revision 0 returns the event of the last row of its key.
* `create_ok`, `update_ok`, `delete_ok`: a call inserts after that row, so it keeps the
  chains; `run_ok`: **every reachable table is made of chains.**
-/

namespace Harikube

open Kine

namespace Kine

variable {t : Kine} {name : Bytes} {x : Row}

theorem last_eq_none : t.last name = none ↔ ∀ y ∈ t.rows, y.name ≠ name := by
  unfold last
  rw [List.getLast?_eq_none_iff, List.filter_eq_nil_iff]
  simp

theorem last_eq_some (h : t.last name = some x) :
    x ∈ t.rows ∧ x.name = name ∧ ∀ y ∈ t.rows, y.name = name → y.id ≤ x.id := by
  have hmem := List.mem_of_getLast? h
  obtain ⟨hx, hn⟩ := List.mem_filter.1 hmem
  refine ⟨hx, of_decide_eq_true hn, fun y hy hyn => ?_⟩
  obtain ⟨init, hinit⟩ : ∃ init, (t.rows.filter fun x => x.name = name) = init ++ [x] :=
    ⟨_, (List.dropLast_append_getLast? x h).symm⟩
  have hsorted := t.sorted.filter fun x => x.name = name
  rw [hinit, List.pairwise_append] at hsorted
  have hy' : y ∈ init ++ [x] := hinit ▸ List.mem_filter.2 ⟨hy, decide_eq_true hyn⟩
  rcases List.mem_append.1 hy' with hy' | hy'
  · exact (hsorted.2.2 y hy' x (List.mem_singleton.2 rfl)).le
  · rw [List.mem_singleton.1 hy']

theorem last_eq_of_max (hx : x ∈ t.rows) (hmax : ∀ y ∈ t.rows, y.name = x.name → y.id ≤ x.id) :
    t.last x.name = some x := by
  cases h : t.last x.name with
  | none => exact absurd rfl (last_eq_none.1 h x hx)
  | some y =>
    obtain ⟨hy, hyn, hymax⟩ := last_eq_some h
    rw [eq_of_id hy hx (le_antisymm (hmax y hy hyn) (hymax x hx rfl))]

theorem mem_latest {sel : Bytes → Bool} {upTo : Option ℤ} :
    x ∈ t.latest sel upTo ↔ x ∈ t.rows ∧ (upTo.all fun r => x.id ≤ r) = true ∧ sel x.name = true ∧
      ∀ y ∈ t.rows, (upTo.all fun r => y.id ≤ r) = true → y.name = x.name → y.id ≤ x.id := by
  unfold latest
  simp only [List.mem_filter, Bool.and_eq_true, List.all_eq_true, Bool.or_eq_true, decide_eq_true_eq]
  constructor
  · rintro ⟨⟨hx, hr⟩, hs, hmax⟩
    refine ⟨hx, hr, hs, fun y hy hyr hyn => ?_⟩
    rcases hmax y ⟨hy, hyr⟩ with h | h
    · exact absurd hyn h
    · exact h
  · rintro ⟨hx, hr, hs, hmax⟩
    refine ⟨⟨hx, hr⟩, hs, fun y hy => ?_⟩
    by_cases hyn : y.name = x.name
    · exact Or.inr (hmax y hy.1 hy.2 hyn)
    · exact Or.inl hyn

theorem latest_sorted (t : Kine) (sel : Bytes → Bool) (upTo : Option ℤ) :
    (t.latest sel upTo).Pairwise fun x y => x.id < y.id :=
  (t.sorted.filter _).filter _

/-- The latest rows of one name. -/
theorem latest_one (t : Kine) (name : Bytes) : t.latest (· = name) none = (t.last name).toList := by
  refine Sorted.ext_of_sorted Row.id (latest_sorted t _ _) ?_ fun x => ?_
  · cases t.last name <;> simp
  · rw [mem_latest, Option.mem_toList]
    constructor
    · rintro ⟨hx, -, hn, hmax⟩
      have hn' : x.name = name := of_decide_eq_true hn
      rw [← hn']
      exact last_eq_of_max hx fun y hy hyn => hmax y hy rfl hyn
    · intro h
      obtain ⟨hx, hn, hmax⟩ := last_eq_some h
      exact ⟨hx, rfl, decide_eq_true hn, fun y hy _ hyn => hmax y hy (hyn.trans hn)⟩

theorem getSingle_eq (t : Kine) (name : Bytes) (includeDeleted : Bool) :
    t.getSingle name includeDeleted =
      ((t.last name).filter fun x => !x.deleted || includeDeleted).toList := by
  unfold getSingle
  rw [latest_one]
  cases t.last name with
  | none => rfl
  | some x => cases hd : !x.deleted || includeDeleted <;> simp [Option.filter, hd]

/-- The largest id bounds every id. -/
theorem id_le_currentRev {x : Row} (hx : x ∈ t.rows) : x.id ≤ t.currentRev.getD 0 := by
  unfold currentRev
  cases h : t.rows.getLast? with
  | none =>
    rw [List.getLast?_eq_none_iff] at h
    rw [h] at hx
    exact absurd hx List.not_mem_nil
  | some y =>
    show x.id ≤ y.id
    have hsorted := t.sorted
    rw [← List.dropLast_append_getLast? y h, List.pairwise_append] at hsorted
    rw [← List.dropLast_append_getLast? y h] at hx
    rcases List.mem_append.1 hx with hx | hx
    · exact (hsorted.2.2 x hx y (List.mem_singleton.2 rfl)).le
    · rw [List.mem_singleton.1 hx]

theorem currentRev_pos (hx : x ∈ t.rows) : 0 < t.currentRev.getD 0 := by
  have hle := id_le_currentRev hx
  have hpos := (t.bounded x hx).1
  omega

theorem currentRev_le_seq (t : Kine) : t.currentRev.getD 0 ≤ t.seq := by
  unfold currentRev
  cases h : t.rows.getLast? with
  | none => exact t.seq_nonneg
  | some y => exact (t.bounded y (List.mem_of_getLast? h)).2

end Kine

namespace SqlLog

theorem currentRevision_db (s : SqlLog) : s.currentRevision.2.db = s.db := by
  unfold currentRevision
  split
  · rfl
  · split <;> rfl

/-- A list changes nothing in the database. -/
theorem list_db (s : SqlLog) (key rangeEnd : Bytes) (limit revision : ℤ) (includeDeleted keysOnly : Bool)
    (cond : Row → Bool) : (s.list key rangeEnd limit revision includeDeleted keysOnly cond).2.db = s.db := by
  have hdb := s.currentRevision_db
  unfold list
  simp only
  split
  · rfl
  · split
    · rename_i err s' hs
      rw [hs] at hdb
      exact hdb
    · rename_i rev s' hs
      rw [hs] at hdb
      split <;> exact hdb

/-- The revision of a row that is in the table is not in the future. -/
theorem currentRev_nonneg (t : Kine) : 0 ≤ t.currentRev.getD 0 := by
  unfold Kine.currentRev
  cases h : t.rows.getLast? with
  | none => rfl
  | some x =>
    have := (t.bounded x (List.mem_of_getLast? h)).1
    show 0 ≤ x.id
    omega

end SqlLog

namespace LogStructured

open SqlLog

theorem adjustRevision_db (s : SqlLog) (rev : ℤ) : (adjustRevision s rev).2.db = s.db := by
  have hdb := s.currentRevision_db
  unfold adjustRevision
  split
  · rfl
  · split <;> rename_i h <;> rw [h] at hdb <;> exact hdb

theorem get'_db (s : SqlLog) (key : Bytes) (revision : ℤ) (includeDeletes keysOnly : Bool) :
    (get' s key revision includeDeletes keysOnly).2.db = s.db := by
  have hdb := s.list_db key [] 1 revision includeDeletes keysOnly fun _ => true
  unfold get'
  simp only
  split <;> exact hdb

theorem listRows_one (t : Kine) (key : Bytes) (limit : ℤ) (includeDeletes : Bool) (cond : Row → Bool) :
    listRows t key [] limit 0 includeDeletes cond =
      ((t.last key).filter fun x => !x.deleted || includeDeletes).toList := by
  unfold listRows
  rw [if_pos rfl, if_pos rfl, getSingle_eq]

theorem listCheck_zero {rev : ℤ} (hrev : 0 ≤ rev) (compact : ℤ) (events : List Event) :
    listCheck rev compact 0 events = (rev, events, none) := by
  unfold listCheck
  rw [if_neg (by omega), if_neg (by omega)]

/-- A `get` that finds the last row of its key returns it with the revision of the table. -/
theorem get'_found {s : SqlLog} {key : Bytes} {includeDeletes : Bool} {x : Row}
    (hx : ((s.db.kine.last key).filter fun x => !x.deleted || includeDeletes) = some x) (keysOnly : Bool) :
    get' s key 0 includeDeletes keysOnly =
      ((s.db.kine.currentRev.getD 0, some (x.toEvent (!keysOnly) false), none), s) := by
  unfold get' SqlLog.list
  simp only [listRows_one, hx, Option.toList_some, List.map_cons, List.map_nil, ne_eq, reduceCtorEq,
    not_false_eq_true, if_true, listCheck_zero (currentRev_nonneg s.db.kine)]
  rfl

/-- **`get` returns the last row of its key.** -/
theorem get'_event (s : SqlLog) (key : Bytes) (includeDeletes keysOnly : Bool) :
    (get' s key 0 includeDeletes keysOnly).1.2.1 =
      ((s.db.kine.last key).filter fun x => !x.deleted || includeDeletes).map
        (Row.toEvent (!keysOnly) false) := by
  cases hlast : (s.db.kine.last key).filter fun x => !x.deleted || includeDeletes with
  | none =>
    unfold get' SqlLog.list
    simp only [listRows_one, hlast, Option.toList_none, List.map_nil, ne_eq, not_true_eq_false, if_false,
      Option.map_none]
    split
    · rfl
    · split
      · rfl
      · unfold listCheck
        split_ifs <;> rfl
  | some x =>
    rw [get'_found hlast]
    rfl

/-! ## Calls keep the chains -/

variable {s : SqlLog} {c : Codec} {now : ℤ}

/-- The row an event is inserted as, up to what the decoder decides. -/
def eventRow (e : Event) (uid : Bytes) (deleted : Bool) : Row :=
  ⟨0, e.kv.key, uid, e.create, deleted, e.kv.createRevision, prevRev e, e.kv.lease, e.kv.value, []⟩

/-- `Append` fails and changes nothing, or inserts the row of the event and then the
rows of dependents. -/
theorem append_cases (c : Codec) (now : ℤ) (s : SqlLog) (e : Event) :
    (∃ err, s.append c now e = ((0, some err), s)) ∨
    ∃ (rev : ℤ) (db : Db) (uid : Bytes) (del : Bool) (t : Kine),
      s.append c now e = ((rev, none), ⟨db, rev⟩) ∧
      s.db.kine.insert (eventRow e uid del) (prevRev e) = some (rev, t) ∧
      (s.db.OK → s.db.kine.Follows (eventRow e uid del) → db.OK ∧ Grows t db.kine) := by
  have hprev : (e.prevKV.getD ⟨[], [], 0, 0, 0, 0⟩).modRevision = prevRev e := by
    unfold prevRev
    cases e.prevKV <;> rfl
  unfold append
  simp only [hprev]
  split
  · rename_i err _
    exact Or.inl ⟨err, rfl⟩
  · rename_i rev db hins
    obtain ⟨uid, del, t, hrow, hok⟩ := c.insert_grows hins
    exact Or.inr ⟨rev, db, uid, del, t, rfl, hrow, hok⟩

/-- Appending an event that has its place at the end of the chain of its key. -/
theorem append_ok (hs : s.db.OK) (e : Event) (hn : e.kv.key ≠ compactRevKey) (hf : isFill e.kv.key = false)
    (hplace : (prevRev e = 0 ∧ ∀ y ∈ s.db.kine.rows, y.name ≠ e.kv.key) ∨
      ∃ y ∈ s.db.kine.rows, y.name = e.kv.key ∧ y.id = prevRev e) :
    (s.append c now e).2.db.OK := by
  rcases append_cases c now s e with ⟨err, happ⟩ | ⟨rev, db, uid, del, t, happ, -, hok⟩
  · rw [happ]
    exact hs
  · rw [happ]
    exact (hok hs ⟨hn, hf, hplace⟩).1

theorem create_ok (hs : s.db.OK) {key : Bytes} (hn : key ≠ compactRevKey) (hf : isFill key = false)
    (value : Bytes) (lease : ℤ) : (create ⟨c, now⟩ s key value lease).2.db.OK := by
  have hdb := get'_db s key 0 true true
  have hev := get'_event s key true true
  unfold create
  simp only [adjustRevision_db]
  split
  · rw [hdb]; exact hs
  · split
    · rw [hdb]; exact hs
    · rename_i e he
      have hplace : e.kv.key = key ∧
          ((prevRev e = 0 ∧ ∀ y ∈ s.db.kine.rows, y.name ≠ key) ∨
            ∃ y ∈ s.db.kine.rows, y.name = key ∧ y.id = prevRev e) := by
        rw [hev] at he
        cases hl : s.db.kine.last key with
        | none =>
          rw [hl] at he
          simp only [createEvent, Option.filter, Option.map_none, Option.some.injEq] at he
          subst he
          exact ⟨rfl, Or.inl ⟨rfl, last_eq_none.1 hl⟩⟩
        | some x =>
          obtain ⟨hx, hxn, -⟩ := last_eq_some hl
          rw [hl] at he
          simp only [createEvent, Option.filter, Bool.or_true, if_true, Option.map_some] at he
          split at he
          · rw [← Option.some.inj he]
            exact ⟨rfl, Or.inr ⟨x, hx, hxn, rfl⟩⟩
          · simp at he
      obtain ⟨rfl, hp⟩ := hplace
      rw [← hdb] at hs hp
      exact append_ok hs e hn hf hp

/-- An update or a delete that gets to its insert follows the row it has read. -/
theorem append_after_ok (c : Codec) (now : ℤ) (hs : s.db.OK) {key : Bytes} (hn : key ≠ compactRevKey) (hf : isFill key = false)
    {includeDeletes : Bool} {event e : Event} (hev : (get' s key 0 includeDeletes false).1.2.1 = some event)
    (hk : e.kv.key = key) (hp : prevRev e = event.kv.modRevision) :
    ((get' s key 0 includeDeletes false).2.append c now e).2.db.OK := by
  have hdb := get'_db s key 0 includeDeletes false
  rw [get'_event, Option.map_eq_some_iff] at hev
  obtain ⟨x, hx, rfl⟩ := hev
  rw [Option.filter_eq_some_iff] at hx
  obtain ⟨hxm, hxn, -⟩ := last_eq_some hx.1
  rw [← hk] at hn hf hxn
  rw [← hdb] at hs hxm
  exact append_ok hs e hn hf (Or.inr ⟨x, hxm, hxn, hp.symm⟩)

theorem update_ok (hs : s.db.OK) {key : Bytes} (hn : key ≠ compactRevKey) (hf : isFill key = false)
    (value : Bytes) (revision lease : ℤ) : (update ⟨c, now⟩ s key value revision lease).2.db.OK := by
  have hdb := get'_db s key 0 false false
  have hs' : (get' s key 0 false false).2.db.OK := hdb ▸ hs
  unfold update
  simp only [adjustRevision_db]
  split
  · exact hs'
  · split
    · exact hs'
    · rename_i event hev
      split
      · exact hs'
      · have hok := append_after_ok c now hs hn hf hev
          (e := updateEvent key value lease event) rfl rfl
        split
        · exact hok
        · rw [get'_db]
          exact hok

theorem delete_ok (hs : s.db.OK) {key : Bytes} (hn : key ≠ compactRevKey) (hf : isFill key = false)
    (revision : ℤ) : (delete ⟨c, now⟩ s key revision).2.db.OK := by
  have hdb := get'_db s key 0 true false
  have hs' : (get' s key 0 true false).2.db.OK := hdb ▸ hs
  unfold delete
  simp only [adjustRevision_db]
  split
  · exact hs'
  · split
    · exact hs'
    · rename_i event hev
      split
      · exact hs'
      · split
        · exact hs'
        · have hok := append_after_ok c now hs hn hf hev (e := deleteEvent key event) rfl rfl
          split
          · exact hok
          · split <;> (rw [get'_db]; exact hok)

/-- A decoder for values without metadata. -/
def plainCodec : Codec := ⟨fun _ _ => some {}, fun _ => none, fun _ => none⟩

/-! ## Runs -/

theorem withTable_ok (hs : s.db.OK) {t : Option Kine}
    (ht : ∀ t', t = some t' → Chain t' ∧ ∀ x ∈ t'.rows, x.name = compactRevKey →
      ∃ y ∈ s.db.kine.rows, y.name = x.name ∧ y.id = x.id) : (withTable s t).db.OK := by
  unfold withTable
  split
  · rename_i t'
    obtain ⟨hc, hrows⟩ := ht t' rfl
    refine ⟨hc, fun ko hko x hx hid hn => ?_⟩
    obtain ⟨y, hy, hyn, hyid⟩ := hrows x hx hn
    exact hs.owners ko hko y hy (hyid.trans hid) (hyn.trans hn)
  · exact hs

theorem fill_ok (hs : s.db.OK) (r : ℤ) : (withTable s (s.db.kine.fill r)).db.OK := by
  refine withTable_ok hs fun t' ht => ⟨hs.chain.fill ht, fun x hx hn => ?_⟩
  rcases ((fill_eq_some ht).2 x).1 hx with hx | rfl
  · exact ⟨x, hx, rfl, rfl⟩
  · have hgap := isFill_fillRow r
    rw [hn, isFill_compactRevKey] at hgap
    exact absurd hgap Bool.false_ne_true

theorem compact_ok (hs : s.db.OK) (target : ℤ) :
    (withTable s ((s.db.kine.compact target).setCompactRevision target)).db.OK := by
  refine withTable_ok hs fun t' ht => ⟨(hs.chain.compact target).setCompactRevision ht, fun x hx _ => ?_⟩
  rw [setCompactRevision_eq_some ht] at hx
  obtain ⟨y, hy, rfl⟩ := List.mem_map.1 hx
  exact ⟨y, (mem_compact.1 hy).1, (setCompact_name _ _).symm, (setCompact_id _ _).symm⟩

/-- The compaction transaction of the SQL log does nothing or is the compaction step to
the target it finds safe. -/
theorem sqlLog_compact_step (minRetain compactRev target : ℤ) :
    (s.compact minRetain compactRev target).2 = s ∨
      ∃ r, (s.compact minRetain compactRev target).2 = step c s (.compact r) := by
  unfold SqlLog.compact
  simp only
  split
  · rename_i currentRev dbCompactRev _ _
    split
    · exact Or.inl rfl
    · split
      · exact Or.inl rfl
      · right
        refine ⟨safeCompactRev target currentRev minRetain, ?_⟩
        show _ = withTable s ((s.db.kine.compact _).setCompactRevision _)
        cases (s.db.kine.compact (safeCompactRev target currentRev minRetain)).setCompactRevision
          (safeCompactRev target currentRev minRetain) with
        | none => rfl
        | some t' => rfl
  · exact Or.inl rfl

theorem step_ok (hs : s.db.OK) {op : SqlOp} (hop : op.plain = true) : (step c s op).db.OK := by
  cases op with
  | create now key value lease =>
    simp only [SqlOp.plain, Bool.and_eq_true, decide_eq_true_eq, Bool.not_eq_true'] at hop
    exact create_ok hs hop.1 hop.2 value lease
  | update now key value revision lease =>
    simp only [SqlOp.plain, Bool.and_eq_true, decide_eq_true_eq, Bool.not_eq_true'] at hop
    exact update_ok hs hop.1 hop.2 value revision lease
  | delete now key revision =>
    simp only [SqlOp.plain, Bool.and_eq_true, decide_eq_true_eq, Bool.not_eq_true'] at hop
    exact delete_ok hs hop.1 hop.2 revision
  | fill r => exact fill_ok hs r
  | compact target => exact compact_ok hs target

/-- `compactStart` on an empty database fails, or writes the row of `compact_rev_key`. -/
theorem compactStart_init (c : Codec) (now : ℤ) :
    ((SqlLog.init.compactStart c now).1 ≠ none ∧ (SqlLog.init.compactStart c now).2 = SqlLog.init) ∨
    ((SqlLog.init.compactStart c now).1 = none ∧ (SqlLog.init.compactStart c now).2.db.owners = [] ∧
      ∃ x, (SqlLog.init.compactStart c now).2.db.kine.rows = [x] ∧ x.name = compactRevKey ∧ x.created = true ∧
        x.deleted = false ∧ x.prevRevision = 0) := by
  unfold compactStart
  have hnone : (SqlLog.init.db.kine.after compactRevKey [] 0 0).map (Row.toEvent true true) = [] := rfl
  rw [hnone]
  simp only
  unfold append
  simp only
  split
  · exact .inl ⟨by simp, rfl⟩
  · rename_i rev db hins
    obtain ⟨uid, hrow⟩ := c.insert_nil hins
    obtain ⟨hkine, ho⟩ := Db.insertRow_eq_ok hrow
    obtain ⟨-, -, old, hrows⟩ := insert_eq_some hkine
    exact .inr ⟨rfl, ho, _, hrows, rfl, rfl, rfl, rfl⟩

/-- The first row, `compact_rev_key`'s, is a chain of its own. -/
theorem compactStart_ok : (SqlLog.init.compactStart c now).2.db.OK := by
  rcases compactStart_init c now with ⟨-, hdb⟩ | ⟨-, ho, x, hrows, hn, -, hd, -⟩
  · rw [hdb]
    exact Db.ok_empty
  · have hone : ∀ y ∈ (SqlLog.init.compactStart c now).2.db.kine.rows, y.name = compactRevKey ∧ y.deleted = false := by
      intro y hy
      rw [hrows] at hy
      rw [List.mem_singleton.1 hy]
      exact ⟨hn, hd⟩
    refine ⟨⟨fun x hx hn => absurd (hone x hx).1 hn, fun x hx hn => absurd (hone x hx).1 hn,
      fun x hx z _ _ hn => absurd (hone x hx).1 hn, fun x hx hg => ?_, fun x hx _ => (hone x hx).2⟩,
      fun ko hko => ?_⟩
    · rw [(hone x hx).1, isFill_compactRevKey] at hg
      exact absurd hg Bool.false_ne_true
    · rw [ho] at hko
      exact absurd hko List.not_mem_nil

theorem start_ok (c : Codec) (now : ℤ) : (start ⟨c, now⟩ SqlLog.init).2.db.OK := by
  unfold start
  simp only
  split
  · exact compactStart_ok
  · exact create_ok compactStart_ok (by decide) (by decide) _ _

/-- **Every table that calls, fills and compactions reach is made of chains.** -/
theorem run_ok (c : Codec) (now : ℤ) (ops : List SqlOp) (hops : ops.all SqlOp.plain = true) :
    (run c now ops).db.OK := by
  unfold run
  have hstart := start_ok c now
  generalize (start ⟨c, now⟩ SqlLog.init).2 = s at hstart
  induction ops generalizing s with
  | nil => exact hstart
  | cons op ops ih =>
    rw [List.all_cons, Bool.and_eq_true] at hops
    exact ih hops.2 (step c s op) (step_ok hstart hops.1)

end LogStructured

end Harikube
