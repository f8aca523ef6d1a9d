import Harikube.Proof.Linear
import Harikube.Proof.Answers
import Harikube.Proof.Compaction

/-!
# The databases that calls reach

Beyond its chains a database that a started backend reaches keeps its bounds
(`Db.Sound`): it has the row of `compact_rev_key`, no compact revision beyond the ids
there have been, and no owner of a row that is not there yet. A row that is inserted then
is the last of its name also after its metadata has been written (`append_last_row`): the
rows of dependents that come after it are of other names.

* `run_sound`: **every database is sound** that calls, fills and compactions reach, with
  compactions up to the ids there are.
-/

namespace Harikube

open Kine LogStructured

structure Db.Sound (db : Db) : Prop where
  ok : db.OK
  row : ∃ x ∈ db.kine.rows, x.name = compactRevKey
  compact_le : ∀ x ∈ db.kine.rows, x.name = compactRevKey → x.prevRevision ≤ db.kine.seq
  owners_le : ∀ ko ∈ db.owners, ko.kineId ≤ db.kine.seq

/-- The compact revision is one of the rows'. -/
theorem Kine.compactRev_le {t : Kine} {b : ℤ} (hb : 0 ≤ b)
    (h : ∀ x ∈ t.rows, x.name = compactRevKey → x.prevRevision ≤ b) : t.compactRev.getD 0 ≤ b := by
  unfold Kine.compactRev
  cases hr : ((t.rows.filter fun x => x.name = compactRevKey).map Row.prevRevision).max? with
  | none => exact hb
  | some r =>
    obtain ⟨x, hx, rfl⟩ := List.mem_map.1 (List.max?_mem hr)
    obtain ⟨hx, hn⟩ := List.mem_filter.1 hx
    exact h x hx (of_decide_eq_true hn)

/-- A row has been inserted: it is the last of its name, with an id beyond all others and
beyond the compact revision. -/
structure Db.Inserted (db db' : Db) (x : Row) : Prop where
  sound : db'.Sound
  last : db'.kine.last x.name = some x
  new : db.kine.seq < x.id
  compact_lt : db'.kine.compactRev.getD 0 < x.id

namespace Codec

/-! ## The metadata of a row -/

/-- The owners that statements add. -/
theorem mem_executeAll_owners (stmts : List Stmt) : ∀ {db db' : Db}, executeAll db stmts = .ok db' →
    ∀ ko ∈ db'.owners, ko ∈ db.owners ∨ .insertOwner ko ∈ stmts := by
  induction stmts with
  | nil =>
    intro db db' h ko hko
    obtain rfl : db = db' := Except.ok.inj h
    exact .inl hko
  | cons s rest ih =>
    intro db db' h ko hko
    obtain ⟨d, he, htail⟩ := executeAll_cons h
    rcases ih htail ko hko with hko | hko
    · rcases Stmt.execute_cases he with ⟨r, rfl, rfl⟩ | ⟨x, id, rfl, hi⟩
      · rcases List.mem_append.1 hko with hko | hko
        · exact .inl hko
        · rw [List.mem_singleton.1 hko]
          exact .inr List.mem_cons_self
      · rw [(Db.insertRow_eq_ok hi).2] at hko
        exact .inl hko
    · exact .inr (List.mem_cons_of_mem _ hko)

/-- The last row of a name stays the last if no statement has a row to follow it. -/
theorem executeAll_last {key : Bytes} {y : Row} (stmts : List Stmt) : ∀ {db db' : Db}, db.OK →
    (∀ s ∈ stmts, s.OK db.kine) → db.kine.last key = some y →
    (∀ x, .insertRow x ∈ stmts → x.prevRevision ≠ y.id) → executeAll db stmts = .ok db' →
    db'.kine.last key = some y := by
  induction stmts with
  | nil =>
    intro db db' _ _ hlast _ h
    obtain rfl : db = db' := Except.ok.inj h
    exact hlast
  | cons s rest ih =>
    intro db db' hdb hs hlast hne h
    obtain ⟨d, he, htail⟩ := executeAll_cons h
    obtain ⟨hd, hg⟩ := Stmt.execute_ok hdb (hs s List.mem_cons_self) he
    refine ih hd (fun s' hs' => (hs s' (List.mem_cons_of_mem _ hs')).grows hg) ?_
      (fun x hx => hne x (List.mem_cons_of_mem _ hx)) htail
    rcases Stmt.execute_cases he with ⟨r, rfl, rfl⟩ | ⟨x, id, rfl, hi⟩
    · exact hlast
    · obtain ⟨hn, hf, hplace⟩ := hs _ List.mem_cons_self
      have hins := (Db.insertRow_eq_ok hi).1
      -- a row of the name would have to follow `y`
      have hname : x.name ≠ key := by
        rintro rfl
        have hprev := prev_eq_last hdb.chain ⟨hn, hf, .inr hplace⟩ hins
        rw [hlast] at hprev
        exact hne x List.mem_cons_self hprev
      rw [last_insert_ne hins hname]
      exact hlast

/-- **What an insert leaves of a sound database**: a sound one, with the row that it has
inserted as the last of its name. -/
theorem insert_sound (c : Codec) {db db' : Db} (hdb : db.Sound) {now id : ℤ} {key : Bytes} {create delete : Bool}
    {createRevision previousRevision ttl : ℤ} {value prevValue : Bytes}
    (hf : ∀ m, db.kine.Follows (insertedRow m key create delete createRevision previousRevision ttl value))
    (h : c.insert db now key create delete createRevision previousRevision ttl value prevValue = .ok (id, db')) :
    ∃ m old, c.decodeObject key value = some m ∧
      db.Inserted db' { insertedRow m key create delete createRevision previousRevision ttl value with
        id := id, oldValue := old } := by
  obtain ⟨m, d, hm, hrow, hmeta⟩ := c.insert_cases h
  obtain ⟨hins, ho⟩ := Db.insertRow_eq_ok hrow
  have hid : id = db.kine.seq + 1 := (insert_eq_some hins).2.1
  have hseq := insert_seq hins
  obtain ⟨old, hlast⟩ := last_insert_self hins
  obtain ⟨hmem, -⟩ := last_eq_some hlast
  have hd : d.OK := hdb.ok.grows (.single ⟨_, _, _, hf m, hins⟩) ho
  -- growth adds no row of `compact_rev_key` and keeps those that are there
  have hinserted : ∀ {db₂ : Db}, db₂.OK → Grows d.kine db₂.kine →
      (∀ ko ∈ db₂.owners, ko.kineId ≤ db₂.kine.seq) →
      db₂.kine.last key = some { insertedRow m key create delete createRevision previousRevision ttl value with
        id := id, oldValue := old } →
      db.Inserted db₂ { insertedRow m key create delete createRevision previousRevision ttl value with
        id := id, oldValue := old } := by
    intro db₂ hok hg howners hlast₂
    have hgrows : Grows db.kine db₂.kine := .head ⟨_, _, _, hf m, hins⟩ hg
    have hcompact : ∀ y ∈ db₂.kine.rows, y.name = compactRevKey → y.prevRevision ≤ db.kine.seq :=
      fun y hy hyn => hdb.compact_le y (hgrows.compactKey hy hyn) hyn
    obtain ⟨x, hx, hn⟩ := hdb.row
    refine ⟨⟨hok, ⟨x, hgrows.mem hx, hn⟩, fun y hy hyn => ?_, howners⟩, hlast₂, ?_, ?_⟩
    · exact (hcompact y hy hyn).trans (Grows.seq_le hgrows)
    · show db.kine.seq < id
      omega
    · have := compactRev_le db.kine.seq_nonneg hcompact
      show db₂.kine.compactRev.getD 0 < id
      omega
  rcases hmeta with ⟨-, hmeta⟩ | ⟨-, rfl⟩
  · have hnew : ∃ y ∈ d.kine.rows, y.id = id ∧ y.name ≠ compactRevKey := ⟨_, hmem, rfl, (hf m).1⟩
    obtain ⟨stmts, hs, hex⟩ := c.insertMetadata_executes
      (Q := fun s => s.OK d.kine ∧ (∀ ko, s = .insertOwner ko → ko.kineId = id) ∧
        ∀ x, s = .insertRow x → x.prevRevision ≠ id)
      (fun o _ => ⟨hnew, fun ko hko => by rw [← Stmt.insertOwner.inj hko], fun x hx => by simp at hx⟩)
      (fun _ p hp _ v => by
        refine ⟨dependentRow_ok hd hp v, fun ko hko => by simp at hko, ?_⟩
        rintro x hx
        rw [← Stmt.insertRow.inj hx]
        -- a dependent has been there before the row
        obtain ⟨-, -, ko, hko, hkid⟩ := mem_getOwned hp
        rw [ho] at hko
        have := hdb.owners_le ko hko
        show p.1.id ≠ id
        omega) hmeta
    obtain ⟨hok, hg⟩ := executeAll_ok stmts hd (fun s hs' => (hs s hs').1) hex
    refine ⟨m, old, hm, hinserted hok hg (fun ko hko => ?_) ?_⟩
    · have hle := Grows.seq_le hg
      rcases mem_executeAll_owners stmts hex ko hko with hko | hko
      · rw [ho] at hko
        have := hdb.owners_le ko hko
        omega
      · have := (hs _ hko).2.1 ko rfl
        omega
    · exact executeAll_last stmts hd (fun s hs' => (hs s hs').1) hlast (fun x hx => (hs _ hx).2.2 x rfl) hex
  · refine ⟨m, old, hm, hinserted hd .refl (fun ko hko => ?_) hlast⟩
    rw [ho] at hko
    have := hdb.owners_le ko hko
    omega

end Codec

namespace LogStructured

variable {s : SqlLog} {c : Codec} {now : ℤ} {call : Call} {e : Event}

/-- The row of an event, as the decoder has it. -/
def rowOf (e : Event) (m : Meta) : Row :=
  Codec.insertedRow m e.kv.key e.create e.delete e.kv.createRevision (prevRev e) e.kv.lease e.kv.value

/-- The row of a call that has read the last row of its key follows that row. -/
theorem Current.follows {t : Kine} (hcur : Current t call (prevRev e)) (hkey : e.kv.key = call.key)
    (hplain : call.key ≠ compactRevKey ∧ isFill call.key = false) (m : Meta) : t.Follows (rowOf e m) := by
  obtain ⟨-, hprev⟩ := hcur
  refine ⟨by rw [← hkey] at hplain; exact hplain.1, by rw [← hkey] at hplain; exact hplain.2, ?_⟩
  show (prevRev e = 0 ∧ ∀ y ∈ t.rows, y.name ≠ e.kv.key) ∨ ∃ y ∈ t.rows, y.name = e.kv.key ∧ y.id = prevRev e
  rw [hkey]
  cases hl : t.last call.key with
  | none =>
    rw [hl] at hprev
    exact .inl ⟨hprev, last_eq_none.1 hl⟩
  | some y =>
    rw [hl] at hprev
    obtain ⟨hy, hyn, -⟩ := last_eq_some hl
    exact .inr ⟨y, hy, hyn, hprev.symm⟩

/-- **An append to a sound database**: it fails and changes nothing, or its row becomes
the last of its name and has a new id. -/
theorem append_last_row (c : Codec) (now : ℤ) (hs : s.db.Sound) (hkey : e.kv.key = call.key)
    (hplain : call.key ≠ compactRevKey ∧ isFill call.key = false) (hcur : Current s.db.kine call (prevRev e)) :
    (∃ err, s.append c now e = ((0, some err), s)) ∨
    ∃ rev db m old, s.append c now e = ((rev, none), ⟨db, rev⟩) ∧
      c.decodeObject e.kv.key e.kv.value = some m ∧
      s.db.Inserted db { rowOf e m with id := rev, oldValue := old } := by
  have hprev : (e.prevKV.getD ⟨[], [], 0, 0, 0, 0⟩).modRevision = prevRev e := by
    unfold prevRev
    cases e.prevKV <;> rfl
  unfold SqlLog.append
  simp only [hprev]
  split
  · rename_i err _
    exact .inl ⟨err, rfl⟩
  · rename_i rev db hins
    obtain ⟨m, old, hm, hinserted⟩ := c.insert_sound hs (hcur.follows hkey hplain) hins
    exact .inr ⟨rev, db, m, old, rfl, hm, hinserted⟩

/-- A call keeps the database sound. -/
theorem serial_sound (call : Call) (hs : s.db.Sound) (hplain : call.key ≠ compactRevKey ∧ isFill call.key = false)
    (env : SqlEnv) :
    (call.serial env s).db.Sound := by
  rw [serial_db]
  cases hread : (call.read s).1 with
  | none => exact hs
  | some e =>
    obtain ⟨hkey, hcur⟩ := read_current hread
    have hdb := read_db s call
    rw [← hdb] at hs hcur
    simp only
    rcases append_last_row env.codec env.now hs hkey hplain hcur with
      ⟨err, happ⟩ | ⟨rev, db, m, old, happ, -, hinserted⟩
    · rw [happ]
      exact hs
    · rw [happ]
      exact hinserted.sound

/-- A compaction is up to an id that there has been. -/
def Bounded (s : SqlLog) : SqlOp → Prop
  | .compact target => target ≤ s.db.kine.seq
  | _ => True

theorem fill_sound (hs : s.db.Sound) (r : ℤ) : (withTable s (s.db.kine.fill r)).db.Sound := by
  have hok := fill_ok hs.ok r
  unfold withTable at hok ⊢
  split at hok
  · rename_i t' ht
    have hseq : s.db.kine.seq ≤ t'.seq := fill_seq_le ht
    have hrows := (fill_eq_some ht).2
    obtain ⟨x, hx, hn⟩ := hs.row
    refine ⟨hok, ⟨x, (hrows x).2 (.inl hx), hn⟩, fun y hy hyn => ?_, fun ko hko => ?_⟩
    · rcases (hrows y).1 hy with hy | rfl
      · exact (hs.compact_le y hy hyn).trans hseq
      · have hgap := isFill_fillRow r
        rw [hyn, isFill_compactRevKey] at hgap
        exact absurd hgap Bool.false_ne_true
    · exact (hs.owners_le ko hko).trans hseq
  · exact hs

theorem compact_sound (hs : s.db.Sound) {target : ℤ} (hle : target ≤ s.db.kine.seq) :
    (withTable s ((s.db.kine.compact target).setCompactRevision target)).db.Sound := by
  have hok := compact_ok hs.ok target
  unfold withTable at hok ⊢
  split at hok
  · rename_i t' ht
    have hrows := setCompactRevision_eq_some ht
    have hseq : t'.seq = s.db.kine.seq := (setCompactRevision_seq ht).trans rfl
    obtain ⟨x, hx, hn⟩ := hs.row
    refine ⟨hok, ⟨setCompact target x, ?_, (setCompact_name _ _).trans hn⟩, fun y hy hyn => ?_, fun ko hko => ?_⟩
    · rw [hrows]
      exact List.mem_map_of_mem (hs.ok.chain.compactKey_kept hx hn)
    · rw [hrows] at hy
      obtain ⟨z, -, rfl⟩ := List.mem_map.1 hy
      rw [setCompact_name] at hyn
      show (setCompact target z).prevRevision ≤ t'.seq
      unfold setCompact
      rw [if_pos hyn, hseq]
      exact hle
    · show ko.kineId ≤ t'.seq
      rw [hseq]
      exact hs.owners_le ko hko
  · exact hs

/-- **Every step keeps the database sound.** -/
theorem step_sound (hs : s.db.Sound) {op : SqlOp} (hop : op.plain = true) (hb : Bounded s op) :
    (step c s op).db.Sound := by
  cases op with
  | create now key value lease =>
    simp only [SqlOp.plain, Bool.and_eq_true, decide_eq_true_eq, Bool.not_eq_true'] at hop
    exact serial_sound (.create key value lease) hs hop ⟨c, now⟩
  | update now key value revision lease =>
    simp only [SqlOp.plain, Bool.and_eq_true, decide_eq_true_eq, Bool.not_eq_true'] at hop
    exact serial_sound (.update key value revision lease) hs hop ⟨c, now⟩
  | delete now key revision =>
    simp only [SqlOp.plain, Bool.and_eq_true, decide_eq_true_eq, Bool.not_eq_true'] at hop
    exact serial_sound (.delete key revision) hs hop ⟨c, now⟩
  | fill r => exact fill_sound hs r
  | compact target => exact compact_sound hs hb

/-- A backend that has started. -/
theorem start_sound (hstart : (start ⟨c, now⟩ SqlLog.init).1 = none) :
    (start ⟨c, now⟩ SqlLog.init).2.db.Sound := by
  have hcompact : (SqlLog.init.compactStart c now).1 = none → (SqlLog.init.compactStart c now).2.db.Sound := by
    intro h
    rcases compactStart_init c now with ⟨herr, -⟩ | ⟨-, ho, x, hrows, hn, -, -, hprev⟩
    · exact absurd h herr
    · refine ⟨compactStart_ok, ⟨x, by rw [hrows]; exact List.mem_singleton.2 rfl, hn⟩, fun y hy _ => ?_, fun ko hko => ?_⟩
      · rw [hrows] at hy
        rw [List.mem_singleton.1 hy, hprev]
        exact (SqlLog.init.compactStart c now).2.db.kine.seq_nonneg
      · rw [ho] at hko
        exact absurd hko List.not_mem_nil
  unfold start at hstart ⊢
  simp only at hstart ⊢
  cases herr : (SqlLog.init.compactStart c now).1 with
  | some err => simp [herr] at hstart
  | none =>
    simp only
    exact serial_sound (.create healthKey healthVal 0) (hcompact herr) (by decide) ⟨c, now⟩

/-- **Every database that a started backend reaches is sound.** -/
theorem run_sound (c : Codec) (now : ℤ) (hstart : (start ⟨c, now⟩ SqlLog.init).1 = none) (ops : List SqlOp)
    (hops : ops.all SqlOp.plain = true)
    (hb : ∀ pre op post, ops = pre ++ op :: post → Bounded (run c now pre) op) : (run c now ops).db.Sound := by
  induction ops using List.reverseRecOn with
  | nil => exact start_sound hstart
  | append_singleton ops op ih =>
    rw [List.all_append, Bool.and_eq_true] at hops
    have hpre := ih hops.1 fun pre op' post h => hb pre op' (post ++ [op]) (by rw [h]; simp)
    have hrun : run c now (ops ++ [op]) = step c (run c now ops) op := by
      unfold run
      rw [List.foldl_append]
      rfl
    rw [hrun]
    exact step_sound hpre (by simpa using hops.2) (hb ops op [] rfl)

end LogStructured

end Harikube
