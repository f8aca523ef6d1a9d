import Harikube.Spec.CompactLoop
import Harikube.Proof.CompactStart
import Harikube.Proof.Linear

/-!
# Compaction on several nodes

What the loops of `compactIter` carry from one transaction to the next decides how far a transaction
goes, never whether it is safe: a transaction checks its compact revision and clamps its target by
itself. So the argument is about the transaction alone, in any table that calls reach.

* `Db.Anchored`: rows point back, and never at the row of `compact_rev_key`. Every step keeps it
  (`step_ok`), lost updates included, so that no compaction deletes the compact revision.
* `step_cases`: **what a step can do to the database**: nothing, append an event that a call has
  read, fill a gap, or run a compaction transaction.
* `compactions_safe_iff`: **the compact revision never decreases and respects the retention, and
  the largest id never decreases, if and only if no compaction reaches a last row that is a
  tombstone**; with a retention of at least 1 none does (`sparesLast_of_retain`).
-/

namespace Harikube

open Kine Lts LogStructured

variable {t t' : Kine} {db db' : Db} {c : Codec}

/-! ## The largest id -/

theorem Kine.currentRev_eq_some {m : ℤ} :
    t.currentRev = some m ↔ (∃ x ∈ t.rows, x.id = m) ∧ ∀ x ∈ t.rows, x.id ≤ m := by
  constructor
  · intro h
    refine ⟨?_, fun x hx => ?_⟩
    · unfold currentRev at h
      obtain ⟨y, hy, rfl⟩ := Option.map_eq_some_iff.1 h
      exact ⟨y, List.mem_of_getLast? hy, rfl⟩
    · have hle := id_le_currentRev hx
      rwa [h] at hle
  · rintro ⟨⟨x, hx, rfl⟩, hmax⟩
    cases hcur : t.currentRev with
    | none =>
      have hpos := currentRev_pos hx
      rw [hcur] at hpos
      exact absurd hpos (lt_irrefl 0)
    | some m' =>
      have hle := id_le_currentRev hx
      rw [hcur] at hle
      unfold currentRev at hcur
      obtain ⟨y, hy, rfl⟩ := Option.map_eq_some_iff.1 hcur
      exact congrArg some (le_antisymm (hmax y (List.mem_of_getLast? hy)) hle)

/-! ## Rows that point back -/

/-- A revision that has been given out, and not to a row of `compact_rev_key`. -/
def Kine.Given (t : Kine) (r : ℤ) : Prop := r ≤ t.seq ∧ ∀ y ∈ t.compactRows, y.id ≠ r

structure Kine.Anchored (t : Kine) : Prop where
  prev_lt : ∀ x ∈ t.rows, x.name ≠ compactRevKey → x.prevRevision < x.id
  points : ∀ x ∈ t.rows, x.name ≠ compactRevKey → ∀ y ∈ t.compactRows, y.id ≠ x.prevRevision
  live : ∀ y ∈ t.compactRows, y.deleted = false

structure Db.Anchored (db : Db) : Prop where
  kine : db.kine.Anchored
  owners : ∀ ko ∈ db.owners, ∀ y ∈ db.kine.compactRows, y.id ≠ ko.kineId

/-- The rows of `compact_rev_key` are among those of before, and ids are given out in order. -/
def Kine.Later (t t' : Kine) : Prop :=
  t.seq ≤ t'.seq ∧ ∀ y ∈ t'.compactRows, ∃ z ∈ t.compactRows, z.id = y.id

/-- Rows of other names have been added. -/
structure Kine.Widens (t t' : Kine) : Prop where
  seq_le : t.seq ≤ t'.seq
  rows : ∀ x ∈ t.rows, x ∈ t'.rows
  compactRows : ∀ y, y ∈ t'.compactRows ↔ y ∈ t.compactRows

theorem Kine.Widens.refl (t : Kine) : Widens t t := ⟨le_rfl, fun _ hx => hx, fun _ => Iff.rfl⟩

theorem Kine.Widens.trans {t'' : Kine} (h : Widens t t') (h' : Widens t' t'') : Widens t t'' :=
  ⟨h.seq_le.trans h'.seq_le, fun x hx => h'.rows x (h.rows x hx), fun y => (h'.compactRows y).trans (h.compactRows y)⟩

theorem Kine.Widens.later (h : Widens t t') : Later t t' :=
  ⟨h.seq_le, fun y hy => ⟨y, (h.compactRows y).1 hy, rfl⟩⟩

theorem Kine.Given.later {r : ℤ} (h : t.Given r) (hl : Later t t') : t'.Given r := by
  refine ⟨h.1.trans hl.1, fun y hy hyr => ?_⟩
  obtain ⟨z, hz, hzy⟩ := hl.2 y hy
  exact h.2 z hz (hzy.trans hyr)

/-- A row of another name is not of `compact_rev_key`. -/
theorem Kine.given_row {x : Row} (hx : x ∈ t.rows) (hn : x.name ≠ compactRevKey) : t.Given x.id := by
  refine ⟨(t.bounded x hx).2, fun y hy hyx => hn ?_⟩
  obtain ⟨hyt, hyn⟩ := List.mem_filter.1 hy
  rw [← eq_of_id hyt hx hyx]
  exact of_decide_eq_true hyn

theorem Kine.compactRows_insert {x : Row} {oldId id : ℤ} (hn : x.name ≠ compactRevKey)
    (h : t.insert x oldId = some (id, t')) : t'.compactRows = t.compactRows := by
  obtain ⟨-, -, old, hrows⟩ := insert_eq_some h
  unfold compactRows
  rw [hrows, List.filter_append]
  simp [hn]

theorem Kine.widens_insert {x : Row} {oldId id : ℤ} (hn : x.name ≠ compactRevKey)
    (h : t.insert x oldId = some (id, t')) : Widens t t' := by
  have hseq := insert_seq h
  obtain ⟨-, -, old, hrows⟩ := insert_eq_some h
  refine ⟨by omega, fun y hy => ?_, fun y => by rw [compactRows_insert hn h]⟩
  rw [hrows]
  exact List.mem_append_left _ hy

/-- A row that points at a revision given out. -/
theorem Kine.Anchored.insert (ha : t.Anchored) {x : Row} {oldId id : ℤ} (hn : x.name ≠ compactRevKey)
    (hx : t.Given x.prevRevision) (h : t.insert x oldId = some (id, t')) : t'.Anchored := by
  have hrows' := compactRows_insert hn h
  obtain ⟨-, -, old, hrows⟩ := insert_eq_some h
  refine ⟨fun y hy hyn => ?_, fun y hy hyn => ?_, by rw [hrows']; exact ha.live⟩
  · rw [hrows] at hy
    rcases List.mem_append.1 hy with hy | hy
    · exact ha.prev_lt y hy hyn
    · rw [List.mem_singleton.1 hy]
      show x.prevRevision < t.seq + 1
      have := hx.1
      omega
  · rw [hrows]  at hy
    rw [hrows']
    rcases List.mem_append.1 hy with hy | hy
    · exact ha.points y hy hyn
    · rw [List.mem_singleton.1 hy]
      exact hx.2

theorem Kine.compactRows_fill {r : ℤ} (h : t.fill r = some t') (y : Row) : y ∈ t'.compactRows ↔ y ∈ t.compactRows := by
  obtain ⟨-, hmem⟩ := fill_eq_some h
  have hname : (fillRow r).name ≠ compactRevKey := by
    intro he
    have hgap := isFill_fillRow r
    rw [he, isFill_compactRevKey] at hgap
    exact absurd hgap Bool.false_ne_true
  unfold compactRows
  rw [List.mem_filter, List.mem_filter, hmem y]
  constructor
  · rintro ⟨hy | rfl, hn⟩
    · exact ⟨hy, hn⟩
    · exact absurd (of_decide_eq_true hn) hname
  · rintro ⟨hy, hn⟩
    exact ⟨.inl hy, hn⟩

theorem Kine.Anchored.fill (ha : t.Anchored) {r : ℤ} (h : t.fill r = some t') : t'.Anchored ∧ Widens t t' := by
  have hcompact := compactRows_fill h
  obtain ⟨-, hmem⟩ := fill_eq_some h
  refine ⟨⟨fun x hx hn => ?_, fun x hx hn y hy => ?_, fun y hy => ha.live y ((hcompact y).1 hy)⟩,
    fill_seq_le h, fun x hx => (hmem x).2 (.inl hx), hcompact⟩
  · rcases (hmem x).1 hx with hx' | rfl
    · exact ha.prev_lt x hx' hn
    · exact (t'.bounded _ hx).1
  · have hpos := (t'.bounded y (List.mem_of_mem_filter hy)).1
    rcases (hmem x).1 hx with hx | rfl
    · exact ha.points x hx hn y ((hcompact y).1 hy)
    · exact ne_of_gt hpos

/-! ## A compaction transaction -/

/-- **No compaction deletes the compact revision.** -/
theorem Kine.Anchored.compactRows_compact (ha : t.Anchored) (target : ℤ) :
    (t.compact target).compactRows = t.compactRows := by
  unfold compactRows compact keep
  simp only
  rw [List.filter_filter]
  apply List.filter_congr
  intro y hy
  by_cases hn : y.name = compactRevKey
  · have hyc : y ∈ t.compactRows := List.mem_filter.2 ⟨hy, decide_eq_true hn⟩
    have hkept : y.id ∉ t.compactIds target := by
      intro hi
      rcases mem_compactIds.1 hi with ⟨x, hx, hxn, -, -, hxp⟩ | ⟨x, hx, hxd, -, hxy⟩
      · exact ha.points x hx hxn y hyc hxp.symm
      · rw [eq_of_id hx hy hxy, ha.live y hyc] at hxd
        exact absurd hxd Bool.false_ne_true
    simp [hkept]
  · simp [hn]

theorem Kine.compactRows_setCompactRevision {r : ℤ} (h : t.setCompactRevision r = some t') :
    t'.compactRows = t.compactRows.map (setCompact r) := by
  unfold compactRows
  rw [setCompactRevision_eq_some h, List.filter_map]
  simp only [Function.comp_def, setCompact_name]

/-- What a compaction that commits leaves. -/
theorem Kine.Anchored.compact (ha : t.Anchored) {target : ℤ}
    (h : (t.compact target).setCompactRevision target = some t') : t'.Anchored ∧ Later t t' := by
  have hcompact : t'.compactRows = t.compactRows.map (setCompact target) := by
    rw [compactRows_setCompactRevision h, ha.compactRows_compact]
  have hrow : ∀ x ∈ t'.rows, ∃ x₀ ∈ t.rows, setCompact target x₀ = x := by
    intro x hx
    rw [setCompactRevision_eq_some h] at hx
    obtain ⟨x₀, hx₀, rfl⟩ := List.mem_map.1 hx
    exact ⟨x₀, (mem_compact.1 hx₀).1, rfl⟩
  have hcompactRow : ∀ y ∈ t'.compactRows, ∃ y₀ ∈ t.compactRows, setCompact target y₀ = y := by
    intro y hy
    rw [hcompact] at hy
    exact List.mem_map.1 hy
  refine ⟨⟨fun x hx hn => ?_, fun x hx hn y hy => ?_, fun y hy => ?_⟩, ?_, fun y hy => ?_⟩
  · obtain ⟨x, hx₀, rfl⟩ := hrow x hx
    rw [setCompact_name] at hn
    rw [setCompact_of_ne hn]
    exact ha.prev_lt x hx₀ hn
  · obtain ⟨x, hx₀, rfl⟩ := hrow x hx
    obtain ⟨y, hy₀, rfl⟩ := hcompactRow y hy
    rw [setCompact_name] at hn
    rw [setCompact_of_ne hn, setCompact_id]
    exact ha.points x hx₀ hn y hy₀
  · obtain ⟨y, hy₀, rfl⟩ := hcompactRow y hy
    rw [setCompact_deleted]
    exact ha.live y hy₀
  · exact le_of_eq ((setCompactRevision_seq h).trans rfl).symm
  · obtain ⟨y, hy₀, rfl⟩ := hcompactRow y hy
    exact ⟨y, hy₀, (setCompact_id target y).symm⟩

/-- The compact revision after a compaction. -/
theorem Kine.Anchored.compactRev_compact (ha : t.Anchored) {target : ℤ} (hrow : t.compactRows ≠ [])
    (h : (t.compact target).setCompactRevision target = some t') : t'.compactRev = some target := by
  rw [SqlLog.compactRev_eq_some, compactRows_setCompactRevision h, ha.compactRows_compact]
  have hprev : ∀ y ∈ t.compactRows, (setCompact target y).prevRevision = target := by
    intro y hy
    unfold setCompact
    rw [if_pos (of_decide_eq_true (List.mem_filter.1 hy).2)]
  obtain ⟨y, hy⟩ := List.exists_mem_of_ne_nil _ hrow
  refine ⟨⟨_, List.mem_map_of_mem hy, hprev y hy⟩, fun x hx => ?_⟩
  obtain ⟨z, hz, rfl⟩ := List.mem_map.1 hx
  exact (hprev z hz).le

/-- **The largest id decreases exactly if the compaction reaches the last row and that is a
tombstone.** -/
theorem Kine.Anchored.currentRev_compact (ha : t.Anchored) {m target : ℤ}
    (hm : t.currentRev = some m) (hle : target ≤ m) (h : (t.compact target).setCompactRevision target = some t') :
    (∃ m', t'.currentRev = some m' ∧ m ≤ m') ↔ (target = m → ∀ y ∈ t.rows, y.id = m → y.deleted = false) := by
  obtain ⟨⟨x, hx, rfl⟩, hmax⟩ := currentRev_eq_some.1 hm
  have hids : ∀ i : ℤ, (∃ y ∈ t'.rows, y.id = i) ↔ ∃ y ∈ t.rows, y.id = i ∧ i ∉ t.compactIds target := by
    intro i
    rw [setCompactRevision_eq_some h]
    constructor
    · rintro ⟨y, hy, rfl⟩
      obtain ⟨y, hy₀, rfl⟩ := List.mem_map.1 hy
      obtain ⟨hyt, hkept⟩ := mem_compact.1 hy₀
      rw [setCompact_id]
      exact ⟨y, hyt, rfl, hkept⟩
    · rintro ⟨y, hy, rfl, hkept⟩
      exact ⟨_, List.mem_map_of_mem (mem_compact.2 ⟨hy, hkept⟩), setCompact_id _ _⟩
  have hmax' : ∀ y ∈ t'.rows, y.id ≤ x.id := by
    intro y hy
    obtain ⟨z, hz, hzy, -⟩ := (hids y.id).1 ⟨y, hy, rfl⟩
    rw [← hzy]
    exact hmax z hz
  constructor
  · -- the last row is still there, so it is not one of the tombstones that are deleted
    rintro ⟨m', hm', hlem⟩ htarget y hy hyx
    obtain ⟨⟨w, hw, rfl⟩, -⟩ := currentRev_eq_some.1 hm'
    obtain ⟨z, hz, hzw, hkept⟩ := (hids w.id).1 ⟨w, hw, rfl⟩
    have hwx : w.id = x.id := le_antisymm (hmax' w hw) hlem
    by_contra hd
    rw [Bool.not_eq_false] at hd
    exact hkept (mem_compactIds.2 (.inr ⟨y, hy, hd, by omega, by omega⟩))
  · intro hlive
    have hkept : x.id ∉ t.compactIds target := by
      intro hi
      rcases mem_compactIds.1 hi with ⟨y, hy, hyn, -, hyt, hyp⟩ | ⟨y, hy, hyd, hyt, hyx⟩
      · have := ha.prev_lt y hy hyn
        omega
      · rw [hlive (by omega) y hy hyx] at hyd
        exact absurd hyd Bool.false_ne_true
    exact ⟨x.id, currentRev_eq_some.2 ⟨(hids x.id).2 ⟨x, hx, rfl, hkept⟩, hmax'⟩, le_rfl⟩

/-- **What a compaction transaction does**: nothing, or it commits a revision beyond the compact
revision that leaves `minRetain` revisions. -/
theorem SqlLog.compact_cases (minRetain compactRev target : ℤ) (s : SqlLog) :
    (s.db.kine.commits minRetain compactRev target = none ∧ (s.compact minRetain compactRev target).2 = s) ∨
    ∃ m r t', s.db.kine.currentRev = some m ∧ s.db.kine.compactRev = some compactRev ∧ compactRev < r ∧
      r = safeCompactRev target m minRetain ∧ (s.db.kine.compact r).setCompactRevision r = some t' ∧
      s.db.kine.commits minRetain compactRev target = some r ∧
      (s.compact minRetain compactRev target).2 = { s with db := { s.db with kine := t' } } := by
  unfold Kine.commits SqlLog.compact
  simp only
  cases hm : s.db.kine.currentRev with
  | none => exact .inl ⟨rfl, rfl⟩
  | some m =>
    cases hcompact : s.db.kine.compactRev with
    | none => exact .inl ⟨rfl, rfl⟩
    | some dbCompactRev =>
      simp only
      by_cases hrev : compactRev = dbCompactRev
      · subst hrev
        by_cases htarget : safeCompactRev target m minRetain ≤ compactRev
        · refine .inl ⟨?_, ?_⟩
          · rw [if_neg fun h => absurd h.2.1 (not_lt.2 htarget)]
          · simp [htarget]
        · cases hset : (s.db.kine.compact (safeCompactRev target m minRetain)).setCompactRevision
              (safeCompactRev target m minRetain) with
          | none => exact .inl ⟨by simp, by simp [htarget]⟩
          | some t' =>
            refine .inr ⟨m, _, t', rfl, rfl, not_le.1 htarget, rfl, hset, ?_, ?_⟩
            · rw [if_pos ⟨rfl, not_le.1 htarget, rfl⟩]
            · simp [htarget]
      · exact .inl ⟨by simp [hrev], by simp [hrev]⟩

/-! ## Inserts -/

/-- A statement whose row points at a revision given out, or whose owner is no dependent of
`compact_rev_key`. -/
def Stmt.Anchored (t : Kine) : Stmt → Prop
  | .insertOwner ko => t.Given ko.kineId
  | .insertRow x => x.name ≠ compactRevKey ∧ t.Given x.prevRevision

theorem Stmt.Anchored.later {s : Stmt} (hs : s.Anchored t) (hl : Later t t') : s.Anchored t' := by
  cases s with
  | insertOwner ko => exact Given.later hs hl
  | insertRow x => exact ⟨hs.1, Given.later hs.2 hl⟩

theorem Db.Anchored.insertRow (hdb : db.Anchored) {x : Row} {oldId id : ℤ} (hn : x.name ≠ compactRevKey)
    (hx : db.kine.Given x.prevRevision) (h : db.insertRow x oldId = .ok (id, db')) :
    db'.Anchored ∧ Widens db.kine db'.kine := by
  obtain ⟨hins, ho⟩ := Db.insertRow_eq_ok h
  refine ⟨⟨hdb.kine.insert hn hx hins, fun ko hko => ?_⟩, widens_insert hn hins⟩
  rw [ho] at hko
  rw [compactRows_insert hn hins]
  exact hdb.owners ko hko

theorem Stmt.execute_anchored {s : Stmt} (hdb : db.Anchored) (hs : s.Anchored db.kine) (h : s.execute db = .ok db') :
    db'.Anchored ∧ Widens db.kine db'.kine := by
  rcases Stmt.execute_cases h with ⟨r, rfl, rfl⟩ | ⟨x, id, rfl, hi⟩
  · refine ⟨⟨hdb.kine, fun ko hko => ?_⟩, .refl _⟩
    rcases List.mem_append.1 hko with hko | hko
    · exact hdb.owners ko hko
    · rw [List.mem_singleton.1 hko]
      exact hs.2
  · exact hdb.insertRow hs.1 hs.2 hi

theorem Codec.executeAll_anchored (stmts : List Stmt) {db db' : Db} (hdb : db.Anchored)
    (hs : ∀ s ∈ stmts, s.Anchored db.kine) (h : executeAll db stmts = .ok db') :
    db'.Anchored ∧ Widens db.kine db'.kine := by
  refine executeAll_keeps (I := fun d => d.Anchored ∧ Widens db.kine d.kine) (Q := fun d s => s.Anchored d.kine) ?_
    stmts ⟨hdb, .refl _⟩ hs h
  rintro d d' s ⟨hd, hl⟩ hsd he
  obtain ⟨hd', hl'⟩ := Stmt.execute_anchored hd hsd he
  exact ⟨⟨hd', hl.trans hl'⟩, fun _ hs' => hs'.later hl'.later⟩

/-- A dependent is not of `compact_rev_key`, and points at the version that it replaces. -/
theorem Db.Anchored.dependent (hdb : db.Anchored) {uid : Bytes} {p : Row × Bool} (hp : p ∈ db.getOwned uid)
    (value : Bytes) : Stmt.Anchored db.kine (.insertRow (Codec.dependentRow p.1 value)) := by
  obtain ⟨hrow, -, ko, hko, hid⟩ := Codec.mem_getOwned hp
  have hname : p.1.name ≠ compactRevKey := by
    intro hn
    exact hdb.owners ko hko p.1 (List.mem_filter.2 ⟨hrow, decide_eq_true hn⟩) hid.symm
  exact ⟨hname, given_row hrow hname⟩

/-- **An insert of a row that points at a revision given out.** -/
theorem Codec.insert_anchored (c : Codec) (hdb : db.Anchored) {now id : ℤ} {key : Bytes} {create delete : Bool}
    {createRevision previousRevision ttl : ℤ} {value prevValue : Bytes} (hkey : key ≠ compactRevKey)
    (hprev : db.kine.Given previousRevision)
    (h : c.insert db now key create delete createRevision previousRevision ttl value prevValue = .ok (id, db')) :
    db'.Anchored ∧ Widens db.kine db'.kine := by
  obtain ⟨m, d, -, hrow, hmeta⟩ := c.insert_cases h
  obtain ⟨hd, hl⟩ := hdb.insertRow hkey hprev hrow
  rcases hmeta with ⟨-, hmeta⟩ | ⟨-, rfl⟩
  · -- the row itself has been given its id, and is not of `compact_rev_key`
    obtain ⟨old, hnew⟩ := mem_of_insert (Db.insertRow_eq_ok hrow).1
    have hid : d.kine.Given id := given_row hnew hkey
    obtain ⟨stmts, hs, hex⟩ := c.insertMetadata_executes (Q := Stmt.Anchored d.kine) (fun _ _ => hid)
      (fun _ p hp _ v => hd.dependent hp v) hmeta
    obtain ⟨hd', hl'⟩ := executeAll_anchored stmts hd hs hex
    exact ⟨hd', hl.trans hl'⟩
  · exact ⟨hd, hl⟩

/-- An event that a call has read may be appended. -/
def Appendable (t : Kine) (e : Event) : Prop := e.kv.key ≠ compactRevKey ∧ t.Given (prevRev e)

theorem append_anchored {s : SqlLog} (hs : s.db.Anchored) (now : ℤ) {e : Event} (he : Appendable s.db.kine e) :
    (s.append c now e).2.db.Anchored ∧ Widens s.db.kine (s.append c now e).2.db.kine := by
  have hprev : (e.prevKV.getD ⟨[], [], 0, 0, 0, 0⟩).modRevision = prevRev e := by
    unfold prevRev
    cases e.prevKV <;> rfl
  unfold SqlLog.append
  simp only [hprev]
  split
  · exact ⟨hs, .refl _⟩
  · rename_i rev db hins
    exact c.insert_anchored hs he.1 he.2 hins

/-- **What a call has read may be appended**, however long it takes to. -/
theorem read_appendable {s : SqlLog} {call : Call} {e : Event} (hkey : call.key ≠ compactRevKey)
    (hread : (call.read s).1 = some e) : Appendable s.db.kine e := by
  obtain ⟨hk, -, hprev⟩ := read_current hread
  refine ⟨by rw [hk]; exact hkey, ?_⟩
  rw [hprev]
  cases hl : s.db.kine.last call.key with
  | none =>
    refine ⟨s.db.kine.seq_nonneg, fun y hy => ?_⟩
    exact ne_of_gt (s.db.kine.bounded y (List.mem_of_mem_filter hy)).1
  | some y =>
    obtain ⟨hy, hyn, -⟩ := last_eq_some hl
    exact given_row hy (by rw [hyn]; exact hkey)

/-! ## Steps of the cluster -/

namespace Cluster

variable {cfg : CompactConfig} {x : Cluster} {a : ClusterAct} {i : ℕ}

@[simp] theorem setNode_db (n : CompactNode) : (x.setNode i n).db = x.db := rfl

@[simp] theorem setNode_pending (n : CompactNode) : (x.setNode i n).pending = x.pending := rfl

@[simp] theorem setLog_db (s : SqlLog) : (x.setLog i s).db = s.db := rfl

@[simp] theorem setLog_pending (s : SqlLog) : (x.setLog i s).pending = x.pending := rfl

@[simp] theorem setCompactor_db (k : Compactor) : (x.setCompactor i k).db = x.db := rfl

@[simp] theorem setCompactor_pending (k : Compactor) : (x.setCompactor i k).pending = x.pending := rfl

@[simp] theorem setRequests_db (l : List CompactRequest) : (x.setRequests i l).db = x.db := rfl

@[simp] theorem setRequests_pending (l : List CompactRequest) : (x.setRequests i l).pending = x.pending := rfl

@[simp] theorem readCurrent_db (ok : Bool) : (x.readCurrent i ok).2.db = x.db := by
  unfold readCurrent SqlLog.currentRevision
  cases ok with
  | false => rfl
  | true =>
    simp only [if_true, setLog_db]
    split
    · rfl
    · split <;> rfl

@[simp] theorem readCurrent_pending (ok : Bool) : (x.readCurrent i ok).2.pending = x.pending := by
  unfold readCurrent
  cases ok <;> rfl

/-- A turn of `compactIter` runs its transaction, if the loop goes on and the database answers. -/
theorem turn_db (cfg : CompactConfig) (x : Cluster) (i : ℕ) (l : CompactIter) (ok : Bool) : (x.turn cfg i l ok).2.db =
    match if ok then l.args cfg else none with
    | some (compactRev, target) => ((x.log i).compact cfg.minRetain compactRev target).2.db
    | none => x.db := by
  unfold turn
  cases l.args cfg with
  | none => cases ok <;> rfl
  | some p => cases ok <;> rfl

@[simp] theorem turn_pending (cfg : CompactConfig) (x : Cluster) (i : ℕ) (l : CompactIter) (ok : Bool) : (x.turn cfg i l ok).2.pending = x.pending := by
  unfold turn
  cases l.args cfg <;> rfl

theorem stepCompactor_db (cfg : CompactConfig) (x : Cluster) (i : ℕ) (ok : Bool) : (x.stepCompactor cfg i ok).db =
    match x.transaction cfg (.compactor i ok) with
    | some (compactRev, target) => ((x.log i).compact cfg.minRetain compactRev target).2.db
    | none => x.db := by
  unfold stepCompactor
  cases hk : (x.nodes i).compactor with
  | running l =>
    have hturn := turn_db cfg x i l ok
    have htrans : x.transaction cfg (.compactor i ok) = if ok then l.args cfg else none := by
      cases ok <;> simp [transaction, hk]
    rw [htrans, ← hturn]
    simp only
    split <;> rename_i h <;> rw [h] <;> rfl
  | off =>
    have htrans : x.transaction cfg (.compactor i ok) = none := by
      cases ok <;> simp [transaction, hk]
    rw [htrans]
    simp only
    split <;> rfl
  | started r =>
    have htrans : x.transaction cfg (.compactor i ok) = none := by
      cases ok <;> simp [transaction, hk]
    rw [htrans]
    simp
  | waiting r r' =>
    have htrans : x.transaction cfg (.compactor i ok) = none := by
      cases ok <;> simp [transaction, hk]
    rw [htrans]
    rfl

theorem stepRequest_db (cfg : CompactConfig) (x : Cluster) (i k : ℕ) (ok : Bool) : (x.stepRequest cfg i k ok).db =
    match x.transaction cfg (.request i k ok) with
    | some (compactRev, target) => ((x.log i).compact cfg.minRetain compactRev target).2.db
    | none => x.db := by
  unfold stepRequest
  simp only
  cases hk : (x.nodes i).requests[k]? with
  | none =>
    have htrans : x.transaction cfg (.request i k ok) = none := by
      cases ok <;> simp [transaction, hk]
    rw [htrans]
  | some req =>
    cases req with
    | checked target =>
      have htrans : x.transaction cfg (.request i k ok) = none := by
        cases ok <;> simp [transaction, hk]
      rw [htrans]
      simp only
      split <;> rfl
    | running l =>
      have hturn := turn_db cfg x i l ok
      have htrans : x.transaction cfg (.request i k ok) = if ok then l.args cfg else none := by
        cases ok <;> simp [transaction, hk]
      rw [htrans, ← hturn]
      simp only
      split <;> rename_i h <;> rw [h] <;> simp

/-- **What a step can do to the database**: run the transaction that it has, and else nothing,
append an event that a call has read, or fill a gap. -/
theorem step_cases (c : Codec) (cfg : CompactConfig) (x : Cluster) (a : ClusterAct) :
    (∃ i compactRev target, x.transaction cfg a = some (compactRev, target) ∧
      (x.step c cfg a).db = ((x.log i).compact cfg.minRetain compactRev target).2.db) ∨
    (x.transaction cfg a = none ∧
      ((x.step c cfg a).db = x.db ∨
        (∃ now, ∃ p ∈ x.pending, (x.step c cfg a).db = ((x.log p.1).append c now p.2).2.db) ∨
        ∃ r t', x.db.kine.fill r = some t' ∧ (x.step c cfg a).db = { x.db with kine := t' })) := by
  cases a with
  | read i call =>
    refine .inr ⟨rfl, .inl ?_⟩
    have hdb := read_db (x.log i) call
    unfold step
    simp only
    split <;> rename_i h <;> rw [h] at hdb <;> exact hdb
  | insert k now =>
    refine .inr ⟨rfl, ?_⟩
    unfold step
    simp only
    cases hk : x.pending[k]? with
    | none => exact .inl rfl
    | some p => exact .inr (.inl ⟨now, p, List.mem_of_getElem? hk, rfl⟩)
  | fill r =>
    refine .inr ⟨rfl, ?_⟩
    unfold step
    simp only
    cases hf : x.db.kine.fill r with
    | none => exact .inl rfl
    | some t' => exact .inr (.inr ⟨r, t', hf, rfl⟩)
  | compactor i ok =>
    have hdb := stepCompactor_db cfg x i ok
    cases ht : x.transaction cfg (.compactor i ok) with
    | none => exact .inr ⟨rfl, .inl (by rw [ht] at hdb; exact hdb)⟩
    | some p => exact .inl ⟨i, p.1, p.2, rfl, by rw [ht] at hdb; exact hdb⟩
  | compact i target ok =>
    refine .inr ⟨rfl, .inl ?_⟩
    unfold step
    simp only
    split <;> simp
  | request i k ok =>
    have hdb := stepRequest_db cfg x i k ok
    cases ht : x.transaction cfg (.request i k ok) with
    | none => exact .inr ⟨rfl, .inl (by rw [ht] at hdb; exact hdb)⟩
    | some p => exact .inl ⟨i, p.1, p.2, rfl, by rw [ht] at hdb; exact hdb⟩

/-- The events that calls are going to append: those of before, and the one that is read. -/
theorem mem_pending {p : ℕ × Event} (hp : p ∈ (x.step c cfg a).pending) :
    p ∈ x.pending ∨ ∃ i call, a = .read i call ∧ (call.read (x.log i)).1 = some p.2 := by
  cases a with
  | read i call =>
    unfold step at hp
    simp only at hp
    split at hp
    · rename_i e log h
      rcases List.mem_append.1 hp with hp | hp
      · exact .inl hp
      · refine .inr ⟨i, call, rfl, ?_⟩
        rw [h, List.mem_singleton.1 hp]
    · exact .inl hp
  | insert k now =>
    unfold step at hp
    cases hk : x.pending[k]? with
    | none =>
      simp only [hk] at hp
      exact .inl hp
    | some q =>
      simp only [hk] at hp
      exact .inl (List.mem_of_mem_eraseIdx hp)
  | fill r => exact .inl hp
  | compactor i ok =>
    left
    have hpending : (x.stepCompactor cfg i ok).pending = x.pending := by
      unfold stepCompactor
      split
      · split <;> rfl
      · simp
      · rfl
      · rename_i l _
        have hturn := turn_pending cfg x i l ok
        split <;> rename_i h <;> rw [h] at hturn <;> exact hturn
    exact hpending ▸ hp
  | compact i target ok =>
    left
    unfold step at hp
    simp only at hp
    split at hp <;> simpa using hp
  | request i k ok =>
    left
    have hpending : (x.stepRequest cfg i k ok).pending = x.pending := by
      unfold stepRequest
      simp only
      split
      · rfl
      · split <;> rfl
      · rename_i l _
        have hturn := turn_pending cfg x i l ok
        split <;> rename_i h <;> rw [h] at hturn <;> simpa using hturn
    exact hpending ▸ hp

/-! ## Safety -/

/-- The compact revision does not decrease, a new one leaves `minRetain` revisions, and the largest
id does not decrease. -/
structure Safe (minRetain : ℤ) (t t' : Kine) : Prop where
  compact : ∃ r r', t.compactRev = some r ∧ t'.compactRev = some r' ∧ r ≤ r' ∧
    (r < r' → ∃ m, t.currentRev = some m ∧ r' ≤ m - minRetain)
  current : ∃ m m', t.currentRev = some m ∧ t'.currentRev = some m' ∧ m ≤ m'

/-- The invariant of a run. -/
structure OK (x : Cluster) : Prop where
  db : x.db.Anchored
  rev : ∃ r, x.db.kine.compactRev = some r ∧ 0 ≤ r
  pending : ∀ p ∈ x.pending, Appendable x.db.kine p.2

theorem compactRows_ne_nil {r : ℤ} (h : t.compactRev = some r) : t.compactRows ≠ [] := by
  obtain ⟨⟨y, hy, -⟩, -⟩ := SqlLog.compactRev_eq_some.1 h
  exact List.ne_nil_of_mem hy

theorem compactRev_widens (h : Widens t t') : t'.compactRev = t.compactRev := by
  have hiff : ∀ r, t'.compactRev = some r ↔ t.compactRev = some r := by
    intro r
    simp only [SqlLog.compactRev_eq_some, h.compactRows]
  cases hr : t'.compactRev with
  | some r => exact ((hiff r).1 hr).symm
  | none =>
    cases hr' : t.compactRev with
    | none => rfl
    | some r => exact absurd ((hiff r).2 hr') (by rw [hr]; simp)

/-- The table has a largest id. -/
theorem exists_currentRev {y : Row} (hy : y ∈ t.rows) : ∃ m, t.currentRev = some m := by
  cases hm : t.currentRev with
  | some m => exact ⟨m, rfl⟩
  | none =>
    have hpos := currentRev_pos hy
    rw [hm] at hpos
    exact absurd hpos (lt_irrefl 0)

/-- Rows that are added are safe. -/
theorem safe_widens {minRetain r : ℤ} (hr : t.compactRev = some r) (h : Widens t t') : Safe minRetain t t' := by
  obtain ⟨⟨y, hy, -⟩, -⟩ := SqlLog.compactRev_eq_some.1 hr
  obtain ⟨m, hm⟩ := exists_currentRev (List.mem_of_mem_filter hy)
  obtain ⟨⟨x, hx, rfl⟩, -⟩ := currentRev_eq_some.1 hm
  obtain ⟨m', hm'⟩ := exists_currentRev (h.rows x hx)
  refine ⟨⟨r, r, hr, (compactRev_widens h).trans hr, le_rfl, fun hlt => absurd hlt (lt_irrefl r)⟩,
    x.id, m', hm, hm', ?_⟩
  exact (currentRev_eq_some.1 hm').2 x (h.rows x hx)

/-- No compaction reaches a last row that is a tombstone. -/
def SparesLast (cfg : CompactConfig) (x : Cluster) (a : ClusterAct) : Prop :=
  ∀ compactRev target m, x.transaction cfg a = some (compactRev, target) → x.db.kine.currentRev = some m →
    x.db.kine.commits cfg.minRetain compactRev target = some m → ∀ y ∈ x.db.kine.rows, y.id = m → y.deleted = false

/-- What a transaction may commit to: `minRetain` revisions are left. -/
theorem safeCompactRev_le {target m minRetain r : ℤ} (hr : 0 ≤ r) (h : r < SqlLog.safeCompactRev target m minRetain) :
    SqlLog.safeCompactRev target m minRetain ≤ m - minRetain := by
  unfold SqlLog.safeCompactRev at h ⊢
  simp only at h ⊢
  omega

/-- **What a step does to the tables of a run**: it adds rows and commits no compaction, or it
commits one, to a revision beyond the compact revision that leaves `minRetain` revisions. -/
theorem OK.step_tables (hx : x.OK) (c : Codec) (cfg : CompactConfig) (a : ClusterAct) :
    ((x.step c cfg a).db.Anchored ∧ Widens x.db.kine (x.step c cfg a).db.kine ∧
      ∀ compactRev target, x.transaction cfg a = some (compactRev, target) →
        x.db.kine.commits cfg.minRetain compactRev target = none) ∨
    ∃ compactRev target m q t', x.transaction cfg a = some (compactRev, target) ∧
      x.db.kine.currentRev = some m ∧ x.db.kine.compactRev = some compactRev ∧ compactRev < q ∧
      q ≤ m - cfg.minRetain ∧ x.db.kine.commits cfg.minRetain compactRev target = some q ∧
      (x.db.kine.compact q).setCompactRevision q = some t' ∧ (x.step c cfg a).db = { x.db with kine := t' } := by
  obtain ⟨r, hr, hr0⟩ := hx.rev
  rcases step_cases c cfg x a with
    ⟨i, compactRev, target, htrans, hdb⟩ | ⟨hnone, hdb | ⟨now, p, hp, hdb⟩ | ⟨q, t', hfill, hdb⟩⟩
  · rcases SqlLog.compact_cases cfg.minRetain compactRev target (x.log i) with
      ⟨hcommit, hsame⟩ | ⟨m, q, t', hm, hcompact, hlt, hq, hset, hcommit, hnew⟩
    · left
      rw [hsame] at hdb
      rw [hdb]
      refine ⟨hx.db, Widens.refl x.db.kine, fun compactRev' target' htrans' => ?_⟩
      obtain ⟨rfl, rfl⟩ := Prod.mk.inj (Option.some.inj (htrans.symm.trans htrans'))
      exact hcommit
    · right
      rw [hnew] at hdb
      obtain rfl : r = compactRev := Option.some.inj (hr.symm.trans hcompact)
      refine ⟨r, target, m, q, t', htrans, hm, hr, hlt, ?_, hcommit, hset, hdb⟩
      rw [hq] at hlt ⊢
      exact safeCompactRev_le hr0 hlt
  · exact .inl ⟨hdb ▸ hx.db, hdb ▸ Widens.refl _, fun _ _ h => absurd h (by simp [hnone])⟩
  · obtain ⟨ha, he⟩ := append_anchored (c := c) (s := x.log p.1) hx.db now (hx.pending p hp)
    exact .inl ⟨hdb ▸ ha, hdb ▸ he, fun _ _ h => absurd h (by simp [hnone])⟩
  · obtain ⟨ha, he⟩ := hx.db.kine.fill hfill
    rw [hdb]
    refine .inl ⟨⟨ha, fun ko hko y hy => ?_⟩, he, fun _ _ h => absurd h (by simp [hnone])⟩
    exact hx.db.owners ko hko y ((he.compactRows y).1 hy)

/-- The keys of calls are not `compact_rev_key`. -/
def Plain (_ : Cluster) (a : ClusterAct) : Prop := ∀ i call, a = .read i call → call.key ≠ compactRevKey

/-- Every step keeps the invariant. -/
theorem step_ok (hx : x.OK) (ha : x.Plain a) : (x.step c cfg a).OK := by
  obtain ⟨r, hr, hr0⟩ := hx.rev
  have hpending : Later x.db.kine (x.step c cfg a).db.kine →
      ∀ p ∈ (x.step c cfg a).pending, Appendable (x.step c cfg a).db.kine p.2 := by
    intro hl p hp
    have hold : Appendable x.db.kine p.2 := by
      rcases mem_pending hp with hp | ⟨i, call, hread, he⟩
      · exact hx.pending p hp
      · exact read_appendable (s := x.log i) (ha i call hread) he
    exact ⟨hold.1, hold.2.later hl⟩
  rcases hx.step_tables c cfg a with ⟨hd, he, -⟩ | ⟨compactRev, target, m, q, t', -, -, hcompact, hlt, -, -, hset, hdb⟩
  · exact ⟨hd, ⟨r, (compactRev_widens he).trans hr, hr0⟩, hpending he.later⟩
  · obtain ⟨hd, hlater⟩ := hx.db.kine.compact hset
    obtain rfl : r = compactRev := Option.some.inj (hr.symm.trans hcompact)
    have hrev : t'.compactRev = some q := hx.db.kine.compactRev_compact (compactRows_ne_nil hr) hset
    refine ⟨?_, ⟨q, by rw [hdb]; exact hrev, by omega⟩, hpending (by rw [hdb]; exact hlater)⟩
    rw [hdb]
    refine ⟨hd, fun ko hko y hy => ?_⟩
    obtain ⟨z, hz, hzy⟩ := hlater.2 y hy
    rw [← hzy]
    exact hx.db.owners ko hko z hz

/-- **One step is safe exactly if it spares a last row that is a tombstone.** -/
theorem step_safe_iff (hret : 0 ≤ cfg.minRetain) (hx : x.OK) :
    Safe cfg.minRetain x.db.kine (x.step c cfg a).db.kine ↔ SparesLast cfg x a := by
  obtain ⟨r, hr, hr0⟩ := hx.rev
  rcases hx.step_tables c cfg a with
    ⟨-, he, hnone⟩ | ⟨compactRev, target, m, q, t', htrans, hm, hcompact, hlt, hle, hcommit, hset, hdb⟩
  · refine iff_of_true (safe_widens hr he) fun compactRev target m htrans _ hcommit => ?_
    rw [hnone compactRev target htrans] at hcommit
    exact absurd hcommit (by simp)
  · have hrev : t'.compactRev = some q := hx.db.kine.compactRev_compact (compactRows_ne_nil hr) hset
    have hcur := hx.db.kine.currentRev_compact hm (by omega) hset
    rw [hdb]
    constructor
    · intro hsafe compactRev' target' m₁ htrans' hm₁ hcommit'
      obtain ⟨rfl, rfl⟩ := Prod.mk.inj (Option.some.inj (htrans.symm.trans htrans'))
      obtain rfl : m = m₁ := Option.some.inj (hm.symm.trans hm₁)
      obtain rfl : q = m := Option.some.inj (hcommit.symm.trans hcommit')
      obtain ⟨m₂, m₃, hm₂, hm₃, hle₂⟩ := hsafe.current
      obtain rfl : q = m₂ := Option.some.inj (hm.symm.trans hm₂)
      exact hcur.1 ⟨m₃, hm₃, hle₂⟩ rfl
    · intro hspare
      obtain ⟨m', hm', hle'⟩ := hcur.2 fun hqm => hspare compactRev target m htrans hm (by rw [← hqm]; exact hcommit)
      exact ⟨⟨compactRev, q, hcompact, hrev, hlt.le, fun _ => ⟨m, hm, hle⟩⟩, m, m', hm, hm', hle'⟩

/-- A transaction that commits leaves `minRetain` revisions. -/
theorem commits_le {minRetain compactRev target r m q : ℤ} (hr : t.compactRev = some r) (hr0 : 0 ≤ r)
    (hm : t.currentRev = some m) (h : t.commits minRetain compactRev target = some q) : q ≤ m - minRetain := by
  unfold commits at h
  simp only [hm, hr] at h
  split at h
  · rename_i hc
    obtain ⟨rfl, hlt, -⟩ := hc
    rw [← Option.some.inj h]
    exact safeCompactRev_le hr0 hlt
  · simp at h

/-- With a retention of at least one revision no compaction reaches the last row. -/
theorem sparesLast_of_retain (hret : 1 ≤ cfg.minRetain) (hx : x.OK) : SparesLast cfg x a := by
  obtain ⟨r, hr, hr0⟩ := hx.rev
  intro compactRev target m _ hm hcommit
  have hle := commits_le hr hr0 hm hcommit
  omega

/-- A started database. -/
theorem ok_init (c : Codec) (now : ℤ) (hstart : (start ⟨c, now⟩ SqlLog.init).1 = none) : (init c now).OK := by
  rcases compactStart_init c now with ⟨herr, -⟩ | ⟨hnone, ho, x, hrows, hn, -, hd, hprev⟩
  · unfold start at hstart
    cases h : (SqlLog.init.compactStart c now).1 with
    | none => exact absurd h herr
    | some err => simp [h] at hstart
  · have hcompact : (SqlLog.init.compactStart c now).2.db.kine.compactRows = [x] := by
      unfold compactRows
      rw [hrows]
      simp [hn]
    have ha : (SqlLog.init.compactStart c now).2.db.Anchored := by
      have hone : ∀ y ∈ (SqlLog.init.compactStart c now).2.db.kine.rows, y.name = compactRevKey := by
        intro y hy
        rw [hrows] at hy
        rw [List.mem_singleton.1 hy]
        exact hn
      refine ⟨⟨fun y hy hyn => absurd (hone y hy) hyn, fun y hy hyn => absurd (hone y hy) hyn, fun y hy => ?_⟩,
        fun ko hko => ?_⟩
      · rw [hcompact] at hy
        rw [List.mem_singleton.1 hy]
        exact hd
      · rw [ho] at hko
        exact absurd hko List.not_mem_nil
    have hrev : (SqlLog.init.compactStart c now).2.db.kine.compactRev = some 0 := by
      rw [SqlLog.compactRev_eq_some, hcompact]
      exact ⟨⟨x, List.mem_singleton.2 rfl, hprev⟩, fun y hy => by rw [List.mem_singleton.1 hy, hprev]⟩
    -- then the health check key is created
    have hinit : (init c now).db =
        ((Call.create healthKey healthVal 0).serial ⟨c, now⟩ (SqlLog.init.compactStart c now).2).db := by
      unfold init start
      simp only [hnone]
      rfl
    have hserial : (init c now).db.Anchored ∧
        Widens (SqlLog.init.compactStart c now).2.db.kine (init c now).db.kine := by
      rw [hinit, serial_db]
      cases hread : ((Call.create healthKey healthVal 0).read (SqlLog.init.compactStart c now).2).1 with
      | none => exact ⟨ha, .refl _⟩
      | some e =>
        have hdb := read_db (SqlLog.init.compactStart c now).2 (.create healthKey healthVal 0)
        have he := read_appendable (by decide) hread
        rw [← hdb] at ha he ⊢
        exact append_anchored ha now he
    exact ⟨hserial.1, ⟨0, (compactRev_widens hserial.2).trans hrev, le_rfl⟩, fun p hp => absurd hp List.not_mem_nil⟩

/-- **In a run of compactions on any number of nodes, with calls in between, every step is safe if
and only if no compaction reaches a last row that is a tombstone.** -/
theorem compactions_safe_iff (c : Codec) (cfg : CompactConfig) (hret : 0 ≤ cfg.minRetain) (now : ℤ)
    (hstart : (start ⟨c, now⟩ SqlLog.init).1 = none) (acts : List ClusterAct) (hplain : ∀ a ∈ acts, ∀ x, Plain x a) :
    Guarded (step c cfg) (fun x a => Safe cfg.minRetain x.db.kine (x.step c cfg a).db.kine) (init c now) acts ↔
      Guarded (step c cfg) (SparesLast cfg) (init c now) acts :=
  guarded_iff_guarded_of (A := Plain) (I := OK) (fun _ _ _ hx => step_safe_iff hret hx)
    (fun _ _ ha hx _ => step_ok hx ha) acts (init c now) (ok_init c now hstart) (guarded_of_mem acts hplain _)

/-- **With a retention of at least one revision every run spares the last row.** -/
theorem run_sparesLast (c : Codec) (cfg : CompactConfig) (hret : 1 ≤ cfg.minRetain) (now : ℤ)
    (hstart : (start ⟨c, now⟩ SqlLog.init).1 = none) (acts : List ClusterAct) (hplain : ∀ a ∈ acts, ∀ x, Plain x a) :
    Guarded (step c cfg) (SparesLast cfg) (init c now) acts :=
  Guarded.of_invariant (I := OK) (fun _ _ ha hx => step_ok hx ha) (fun _ _ _ hx => sparesLast_of_retain hret hx) acts
    (ok_init c now hstart) (guarded_of_mem acts hplain _)

/-- A key is created and deleted, and a client compacts to the revision of the tombstone. -/
def tombstoneRun : List ClusterAct :=
  let a := ascii "/a"
  [.read 0 (.create a (ascii "1") 0), .insert 0 0, .read 0 (.delete a 0), .insert 0 0, .compact 0 4 true,
    .request 0 0 true]

theorem plain_tombstoneRun : ∀ a ∈ tombstoneRun ++ [.request 0 0 true], ∀ x, Plain x a := by
  intro a ha x i call hread
  subst hread
  simp only [tombstoneRun, List.cons_append, List.nil_append, List.mem_cons, ClusterAct.read.injEq, reduceCtorEq,
    List.not_mem_nil, or_false, false_or] at ha
  rcases ha with ⟨-, rfl⟩ | ⟨-, rfl⟩ <;> decide

/-- With one revision retained the run is safe, and compacts to revision 3. -/
theorem compactions_safe_retained :
    let cfg : CompactConfig := ⟨1, 100, 0⟩
    let acts := tombstoneRun ++ [.request 0 0 true]
    Guarded (step plainCodec cfg) (fun x a => Safe cfg.minRetain x.db.kine (x.step plainCodec cfg a).db.kine)
      (init plainCodec 0) acts ∧ (exec (step plainCodec cfg) (init plainCodec 0) acts).db.kine.compactRev = some 3 := by
  intro cfg acts
  have hstart : (start ⟨plainCodec, 0⟩ SqlLog.init).1 = none := by decide +kernel
  refine ⟨(compactions_safe_iff plainCodec cfg (by decide) 0 hstart acts plain_tombstoneRun).2 ?_, by decide +kernel⟩
  exact run_sparesLast plainCodec cfg (by decide) 0 hstart acts plain_tombstoneRun

/-- **Without retention the largest id decreases**: the compaction to revision 4 deletes the
tombstone with that id, and the largest id is 2 then. -/
theorem compaction_lowers_currentRev :
    let cfg : CompactConfig := ⟨0, 100, 0⟩
    let x := exec (step plainCodec cfg) (init plainCodec 0) tombstoneRun
    let x' := x.step plainCodec cfg (.request 0 0 true)
    x.db.kine.currentRev = some 4 ∧ x'.db.kine.compactRev = some 4 ∧ x'.db.kine.currentRev = some 2 := by
  decide +kernel

end Cluster

end Harikube
