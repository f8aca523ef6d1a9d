import Harikube.Proof.Answers
import Harikube.Proof.Compaction
import Harikube.Spec.Backends

/-!
# Whether a call can tell that a compaction has run

A compaction leaves of each key the last row, or nothing if that row is a tombstone up to
the target. `Create` and `Update` treat a missing row and a tombstone alike; `Delete` does
not.

* `Compacted.last`: what is left of a key.
* `Compacted.get`, `Compacted.create`, `Compacted.update`, `Compacted.delete`: the two answers
  of a call.
* `compact_invisible_iff`: **a call that neither reads below the compaction nor looks at
  dependents returns the same with and without the compaction, if and only if it is not a
  delete of a key whose tombstone the compaction has removed.**
-/

namespace Harikube.LogStructured

open Kine Mvcc

/-! ## What a compaction leaves -/

/-- The table after a compaction to `r`, which is above the compact revision before it. -/
structure Compacted (t t' : Kine) (r : ℤ) : Prop where
  chain : Chain t
  set : (t.compact r).setCompactRevision r = some t'
  before : ∃ cr, t.compactRev = some cr ∧ cr < r

/-- A compaction transaction does nothing, or it compacts the table. -/
theorem compact_cases {s : SqlLog} (hs : s.db.OK) (minRetain compactRev target : ℤ) :
    (s.compact minRetain compactRev target).2 = s ∨
      ∃ t' r, Compacted s.db.kine t' r ∧
        (s.compact minRetain compactRev target).2 = { s with db := { s.db with kine := t' } } := by
  unfold SqlLog.compact
  simp only
  split
  · rename_i currentRev dbCompactRev _ hdb
    split
    · exact .inl rfl
    · rename_i heq
      split
      · exact .inl rfl
      · rename_i hlt
        split
        · exact .inl rfl
        · rename_i t' hset
          refine .inr ⟨t', _, ⟨hs.chain, hset, dbCompactRev, hdb, ?_⟩, rfl⟩
          omega
  · exact .inl rfl

section Compacted

variable {t t' : Kine} {r : ℤ} {key : Bytes}

/-- The last row of a key stays, or it is a tombstone and nothing of the key stays. -/
theorem last_compact_or (hc : Chain t) (hn : key ≠ compactRevKey) (r : ℤ) :
    (t.compact r).last key = t.last key ∨
      (t.compact r).last key = none ∧ ∃ x, t.last key = some x ∧ x.deleted = true ∧ x ∉ (t.compact r).rows := by
  cases hl : t.last key with
  | none =>
    left
    rw [← hl]
    exact last_compact fun x hx => by simp [hl] at hx
  | some z =>
    obtain ⟨hz, hzn, hmax⟩ := last_eq_some hl
    by_cases hkept : z ∈ (t.compact r).rows
    · left
      rw [← hl]
      refine last_compact fun x hx => ?_
      rw [hl] at hx
      exact Option.some.inj hx ▸ hkept
    · right
      have hremoved : z.id ∈ t.compactIds r := by
        by_contra hi
        exact hkept (mem_compact.2 ⟨hz, hi⟩)
      have hdel : z.deleted = true := by
        by_contra hd
        rw [Bool.not_eq_true] at hd
        obtain ⟨-, y, hy, hyn, hlt, -⟩ := hc.superseded_of_compactIds hz hd hremoved
        have := hmax y hy (hyn.trans hzn)
        omega
      refine ⟨?_, z, rfl, hdel, hkept⟩
      cases hl' : (t.compact r).last key with
      | none => rfl
      | some y =>
        -- the last row that is kept would have its successor kept
        obtain ⟨hy, hyn, hmax'⟩ := last_eq_some hl'
        obtain ⟨hyt, -⟩ := mem_compact.1 hy
        have hle := hmax y hyt hyn
        have hne : y.id ≠ z.id := fun heq => hkept (eq_of_id hyt hz heq ▸ hy)
        obtain ⟨w, hw, hwn, hwp, -⟩ := hc.successor_kept hy hz (hyn.trans hzn.symm) (hyn ▸ hn) (by omega)
        have hpos := (t.bounded y hyt).1
        have hlt := hc.prev_lt w (mem_compact.1 hw).1 (by rw [hwn, hyn]; exact hn) (by omega)
        have := hmax' w hw (hwn.trans hyn)
        omega

namespace Compacted

theorem chain' (h : Compacted t t' r) : Chain t' := (h.chain.compact r).setCompactRevision h.set

theorem seq (h : Compacted t t' r) : t'.seq = t.seq := (setCompactRevision_seq h.set).trans rfl

/-- The rows that are not `compact_rev_key`'s. -/
theorem mem (h : Compacted t t' r) {x : Row} (hn : x.name ≠ compactRevKey) :
    x ∈ t'.rows ↔ x ∈ (t.compact r).rows := by
  rw [setCompactRevision_eq_some h.set, List.mem_map]
  constructor
  · rintro ⟨y, hy, rfl⟩
    rw [setCompact_name] at hn
    rwa [setCompact_of_ne hn]
  · exact fun hx => ⟨x, hx, setCompact_of_ne hn⟩

/-- **What is left of a key.** -/
theorem last (h : Compacted t t' r) (hn : key ≠ compactRevKey) :
    t'.last key = t.last key ∨
      t'.last key = none ∧ ∃ x, t.last key = some x ∧ x.deleted = true ∧ x ∉ t'.rows := by
  rw [last_setCompactRevision h.set hn]
  rcases last_compact_or h.chain hn r with hkept | ⟨hnone, x, hx, hdel, hgone⟩
  · exact .inl hkept
  · have hxn := (last_eq_some hx).2.1
    exact .inr ⟨hnone, x, hx, hdel, fun hx' => hgone ((h.mem (hxn ▸ hn)).1 hx')⟩

/-- The live row of a key stays. -/
theorem live (h : Compacted t t' r) (hn : key ≠ compactRevKey) :
    ((t'.last key).filter fun x => !x.deleted) = (t.last key).filter fun x => !x.deleted := by
  rcases h.last hn with heq | ⟨hnone, x, hx, hdel, -⟩
  · rw [heq]
  · rw [hnone, hx]
    simp [Option.filter, hdel]

theorem row (h : Compacted t t' r) : ∃ x ∈ t.rows, x.name = compactRevKey := by
  obtain ⟨cr, hcr, -⟩ := h.before
  have hmem := List.max?_mem hcr
  obtain ⟨x, hx, -⟩ := List.mem_map.1 hmem
  obtain ⟨hx, hn⟩ := List.mem_filter.1 hx
  exact ⟨x, hx, of_decide_eq_true hn⟩

theorem row' (h : Compacted t t' r) : ∃ x ∈ t'.rows, x.name = compactRevKey := by
  obtain ⟨x, hx, hn⟩ := h.row
  refine ⟨setCompact r x, ?_, (setCompact_name r x).trans hn⟩
  rw [setCompactRevision_eq_some h.set]
  exact List.mem_map_of_mem (h.chain.compactKey_kept hx hn)

/-- The target is the compact revision afterwards. -/
theorem compactRev (h : Compacted t t' r) : t'.compactRev = some r := by
  obtain ⟨v, hv⟩ := compactRev_of_row h.row'
  have hmem := List.max?_mem hv
  obtain ⟨x, hx, hxv⟩ := List.mem_map.1 hmem
  obtain ⟨hx, hn⟩ := List.mem_filter.1 hx
  rw [setCompactRevision_eq_some h.set] at hx
  obtain ⟨y, -, rfl⟩ := List.mem_map.1 hx
  rw [setCompact_name] at hn
  have hyr : (setCompact r y).prevRevision = r := by
    unfold setCompact
    rw [if_pos (of_decide_eq_true hn)]
  rw [hv, ← hxv, hyr]

theorem currentRev_le (h : Compacted t t' r) : t'.currentRev.getD 0 ≤ t.currentRev.getD 0 := by
  unfold Kine.currentRev
  cases hl : t'.rows.getLast? with
  | none => exact SqlLog.currentRev_nonneg t
  | some x =>
    have hx := List.mem_of_getLast? hl
    rw [setCompactRevision_eq_some h.set] at hx
    obtain ⟨y, hy, rfl⟩ := List.mem_map.1 hx
    show (setCompact r y).id ≤ t.currentRev.getD 0
    rw [setCompact_id]
    exact id_le_currentRev (mem_compact.1 hy).1

end Compacted

end Compacted

/-! ## Writes -/

/-- The value is not decoded, or decodes to an object that has no dependents looked at. -/
def Quiet (c : Codec) (key value : Bytes) (create : Bool) : Prop :=
  ∀ m, c.decodeObject key value = some m → value = [] ∨ Codec.cascades m (Codec.deletes m create false) = false

/-- What decides whether an event can be appended besides its decoding. -/
structure AtEnd (t : Kine) (e : Event) : Prop where
  name : e.kv.key ≠ compactRevKey
  after : prevRev e = ((t.last e.kv.key).map Row.id).getD 0
  prevValue : (e.prevKV.getD ⟨[], [], 0, 0, 0, 0⟩).value = []

/-- **Whether an append succeeds is decided by the decoder** if the event comes after the
last row and has no dependents looked at. -/
theorem append_decides {s : SqlLog} {c : Codec} {e : Event} (hc : Chain s.db.kine) (he : AtEnd s.db.kine e)
    (hquiet : ∀ m, c.decodeObject e.kv.key e.kv.value = some m →
      e.kv.value = [] ∨ Codec.cascades m (Codec.deletes m e.create e.delete) = false) (now : ℤ) :
    c.decodeObject e.kv.key e.kv.value = none ∧ s.append c now e = ((0, some .decode), s) ∨
      (c.decodeObject e.kv.key e.kv.value).isSome = true ∧
        ∃ db, s.append c now e = ((s.db.kine.seq + 1, none), ⟨db, s.db.kine.seq + 1⟩) := by
  cases hm : c.decodeObject e.kv.key e.kv.value with
  | none =>
    refine .inl ⟨rfl, ?_⟩
    unfold SqlLog.append Codec.insert
    simp only [hm]
  | some m =>
    obtain ⟨db, happ, -, -⟩ := append_last hc he.name ⟨hm, hquiet m hm, he.after, he.prevValue⟩ now
    exact .inr ⟨rfl, db, happ⟩

section Calls

variable {s : SqlLog} {c : Codec} {t' : Kine} {r : ℤ} {key value : Bytes}

/-- The log with the compacted table. -/
def withKine (s : SqlLog) (t' : Kine) : SqlLog := { s with db := { s.db with kine := t' } }

theorem Compacted.ready (h : Compacted s.db.kine t' r) (hrev : 0 ≤ s.currentRev) : Ready s ∧ Ready (withKine s t') :=
  ⟨⟨h.row, hrev⟩, ⟨h.row', hrev⟩⟩

/-- A create fails as the decoder does, or succeeds. -/
theorem create_decides (hr : Ready s) (hc : Chain s.db.kine) (hn : key ≠ compactRevKey) (hquiet : Quiet c key value true)
    (hx : ((s.db.kine.last key).filter fun x => !x.deleted) = none) (now lease : ℤ) :
    (create ⟨c, now⟩ s key value lease).1.2 = if (c.decodeObject key value).isSome then none else some .decode := by
  obtain ⟨e, he⟩ : ∃ e, createEvent key value lease ((s.db.kine.last key).map (Row.toEvent false false)) = some e ∧
      e.kv = ⟨key, value, 0, 0, 0, lease⟩ ∧ e.create = true ∧ e.delete = false ∧ AtEnd s.db.kine e := by
    refine ⟨_, createEvent_absent hx value lease, rfl, rfl, rfl, hn, rfl, rfl⟩
  obtain ⟨he, hkv, hcreate, hdelete, hend⟩ := he
  rw [(create_append ⟨c, now⟩ hr he).1]
  have hq : ∀ m, c.decodeObject e.kv.key e.kv.value = some m →
      e.kv.value = [] ∨ Codec.cascades m (Codec.deletes m e.create e.delete) = false := by
    rw [hkv, hcreate, hdelete]
    exact hquiet
  rcases append_decides hc hend hq now with ⟨hm, happ⟩ | ⟨hm, db, happ⟩
  · rw [hkv] at hm
    rw [happ, hm]
    rfl
  · rw [hkv] at hm
    rw [happ, hm]
    rfl

theorem Compacted.create (h : Compacted s.db.kine t' r) (hrev : 0 ≤ s.currentRev) (hn : key ≠ compactRevKey)
    (hquiet : Quiet c key value true) (now lease : ℤ) :
    (create ⟨c, now⟩ (withKine s t') key value lease).1.2 = (create ⟨c, now⟩ s key value lease).1.2 := by
  obtain ⟨hr, hr'⟩ := h.ready hrev
  have hlive := h.live hn
  cases hx : (s.db.kine.last key).filter fun x => !x.deleted with
  | none =>
    rw [hx] at hlive
    rw [create_decides hr h.chain hn hquiet hx now lease,
      create_decides (s := withKine s t') hr' h.chain' hn hquiet hlive now lease]
  | some x =>
    rw [hx] at hlive
    rw [(create_taken ⟨c, now⟩ hr (createEvent_live hx value lease)).1,
      (create_taken ⟨c, now⟩ hr' (createEvent_live (t := t') hlive value lease)).1]

/-- An update of a live key at its revision writes, unless the value is not decoded. -/
theorem update_decides {x : Row} (hc : Chain s.db.kine) (hn : key ≠ compactRevKey) (hquiet : Quiet c key value false)
    (hx : ((s.db.kine.last key).filter fun x => !x.deleted) = some x) {revision : ℤ} (hid : x.id = revision)
    (now lease : ℤ) :
    (update ⟨c, now⟩ s key value revision lease).1.2 =
      if (c.decodeObject key value).isSome then
        (some { (updateEvent key value lease (x.toEvent true false)).kv with modRevision := s.db.kine.seq + 1 },
          true, none)
      else (some (x.toEvent true false).kv, false, none) := by
  have hend : AtEnd s.db.kine (updateEvent key value lease (x.toEvent true false)) := by
    refine ⟨hn, ?_, rfl⟩
    show x.id = ((s.db.kine.last key).map Row.id).getD 0
    rw [Option.eq_some_of_filter_eq_some hx]
    rfl
  rcases append_decides hc hend hquiet now with ⟨hm, happ⟩ | ⟨hm, db, happ⟩
  · change c.decodeObject key value = none at hm
    rw [update_failed ⟨c, now⟩ hx hid happ, hm]
    rfl
  · change (c.decodeObject key value).isSome = true at hm
    rw [(update_append ⟨c, now⟩ hx hid happ).1, if_pos hm]

theorem Compacted.update (h : Compacted s.db.kine t' r) (hrev : 0 ≤ s.currentRev) (hn : key ≠ compactRevKey)
    (hquiet : Quiet c key value false) (now revision lease : ℤ) :
    (update ⟨c, now⟩ (withKine s t') key value revision lease).1.2 =
      (update ⟨c, now⟩ s key value revision lease).1.2 := by
  obtain ⟨hr, hr'⟩ := h.ready hrev
  have hlive := h.live hn
  cases hx : (s.db.kine.last key).filter fun x => !x.deleted with
  | none =>
    rw [hx] at hlive
    rw [(update_missing ⟨c, now⟩ hr hx value revision lease).1,
      (update_missing ⟨c, now⟩ hr' hlive value revision lease).1]
  | some x =>
    rw [hx] at hlive
    by_cases hid : x.id = revision
    · -- AUTOINCREMENT hands out the same id
      have hseq : (withKine s t').db.kine.seq = s.db.kine.seq := h.seq
      rw [update_decides h.chain hn hquiet hx hid now lease,
        update_decides (s := withKine s t') h.chain' hn hquiet hlive hid now lease, hseq]
    · rw [(update_stale ⟨c, now⟩ hx hid value lease).1,
        (update_stale ⟨c, now⟩ (s := withKine s t') hlive hid value lease).1]

/-- A delete of a live key writes, unless the empty value is not decoded. -/
theorem delete_decides {x : Row} (hc : Chain s.db.kine) (hn : key ≠ compactRevKey)
    (hx : ((s.db.kine.last key).filter fun x => !x.deleted) = some x) {revision : ℤ}
    (hid : ¬ (revision ≠ 0 ∧ x.id ≠ revision)) (now : ℤ) :
    (delete ⟨c, now⟩ s key revision).1.2 =
      (some (x.toEvent true false).kv, (c.decodeObject key []).isSome, none) := by
  have hend : AtEnd s.db.kine (deleteEvent key (x.toEvent true false)) := by
    refine ⟨hn, ?_, rfl⟩
    show x.id = ((s.db.kine.last key).map Row.id).getD 0
    rw [Option.eq_some_of_filter_eq_some hx]
    rfl
  rcases append_decides hc hend (fun _ _ => .inl rfl) now with ⟨hm, happ⟩ | ⟨hm, db, happ⟩
  · change c.decodeObject key [] = none at hm
    rw [delete_failed ⟨c, now⟩ hx hid happ, hm]
    rfl
  · change (c.decodeObject key []).isSome = true at hm
    rw [(delete_append ⟨c, now⟩ hx hid happ).1, hm]

/-- **A delete can tell** if the tombstone of its key is gone. -/
theorem Compacted.delete (h : Compacted s.db.kine t' r) (hrev : 0 ≤ s.currentRev) (hn : key ≠ compactRevKey)
    (now revision : ℤ) :
    (delete ⟨c, now⟩ (withKine s t') key revision).1.2 = (delete ⟨c, now⟩ s key revision).1.2 ↔
      ∀ x, s.db.kine.last key = some x → x.deleted = true → x ∈ t'.rows := by
  obtain ⟨hr, hr'⟩ := h.ready hrev
  rcases h.last hn with hsame | ⟨hnone, x, hx, hdel, hgone⟩
  · have hkept : ∀ x, s.db.kine.last key = some x → x.deleted = true → x ∈ t'.rows := by
      intro x hx _
      rw [← hsame] at hx
      exact (last_eq_some hx).1
    refine ⟨fun _ => hkept, fun _ => ?_⟩
    cases hl : s.db.kine.last key with
    | none =>
      rw [hl] at hsame
      rw [(delete_never ⟨c, now⟩ hr hl revision).1,
        (delete_never ⟨c, now⟩ hr' hsame revision).1]
    | some y =>
      rw [hl] at hsame
      cases hd : y.deleted with
      | true =>
        rw [(delete_tombstone ⟨c, now⟩ hr hl hd revision).1,
          (delete_tombstone ⟨c, now⟩ hr' hsame hd revision).1]
      | false =>
        have hx : ((s.db.kine.last key).filter fun x => !x.deleted) = some y := by
          rw [hl]
          simp [Option.filter, hd]
        have hx' : (((withKine s t').db.kine.last key).filter fun x => !x.deleted) = some y := by
          show ((t'.last key).filter fun x => !x.deleted) = some y
          rw [hsame]
          simp [Option.filter, hd]
        by_cases hid : revision ≠ 0 ∧ y.id ≠ revision
        · rw [(delete_stale ⟨c, now⟩ hx hid).1, (delete_stale ⟨c, now⟩ hx' hid).1]
        · rw [delete_decides h.chain hn hx hid now, delete_decides h.chain' hn hx' hid now]
  · rw [(delete_tombstone ⟨c, now⟩ hr hx hdel revision).1,
      (delete_never ⟨c, now⟩ hr' hnone revision).1]
    refine ⟨fun heq => by simp at heq, fun hkept => absurd (hkept x hx hdel) hgone⟩

/-! ## Reads -/

/-- The previous revisions of `compact_rev_key` are in no list. -/
theorem list_setCompactRevision {t : Kine} (h : t.setCompactRevision r = some t') (sel : Bytes → Bool)
    (upTo : Option ℤ) (limit : ℤ) (includeDeleted : Bool) :
    t'.list sel upTo limit includeDeleted (fun _ => true) =
      (t.list sel upTo limit includeDeleted fun _ => true).map (setCompact r) := by
  have hlatest : t'.latest sel upTo = (t.latest sel upTo).map (setCompact r) := by
    unfold Kine.latest
    simp only [setCompactRevision_eq_some h, List.filter_map, List.all_map, Function.comp_def, setCompact_id,
      setCompact_name]
  unfold Kine.list
  rw [hlatest, ← firstN_map, List.map_insertionSort (fun x y : Row => x.name ≤ y.name) fun x y : Row => x.name ≤ y.name]
  · simp only [List.filter_map, Function.comp_def, setCompact_deleted, List.filter_true]
  · intro x _ y _
    rw [setCompact_name, setCompact_name]

/-- The rows of a read of one key. -/
theorem Compacted.listRows {t : Kine} (h : Compacted t t' r) {revision : ℤ} (hrev : revision ≤ 0 ∨ r ≤ revision)
    (key : Bytes) :
    SqlLog.listRows t' key [] 1 revision false (fun _ => true) =
      (SqlLog.listRows t key [] 1 revision false fun _ => true).map (setCompact r) := by
  unfold SqlLog.listRows
  simp only [eq_self, if_true]
  by_cases h0 : revision = 0
  · have hsame : t'.getSingle key false = (t.getSingle key false).map (setCompact r) := by
      have hsingle : (t.compact r).getSingle key false = t.getSingle key false := getSingle_compact h.chain key
      rw [← hsingle]
      unfold getSingle Kine.latest
      simp only [setCompactRevision_eq_some h.set, List.filter_map, List.all_map, Function.comp_def, setCompact_id,
        setCompact_name, setCompact_deleted]
    rw [if_pos h0, if_pos h0, hsame]
  · rw [if_neg h0, if_neg h0, list_setCompactRevision h.set]
    by_cases hr : r ≤ revision
    · rw [list_compact h.chain fun r' hr' => Option.some.inj hr' ▸ hr]
    · -- there is no row at or below a negative revision
      have hnone : ∀ u : Kine, u.list (· = key) (some revision) 1 false (fun _ => true) = [] := by
        intro u
        have hlatest : u.latest (· = key) (some revision) = [] := by
          rw [List.eq_nil_iff_forall_not_mem]
          intro x hx
          obtain ⟨hx, hle, -⟩ := mem_latest.1 hx
          have hpos := (u.bounded x hx).1
          simp only [Option.all_some, decide_eq_true_eq] at hle
          omega
        unfold Kine.list
        rw [hlatest]
        simp [firstN]
      rw [hnone, hnone]

/-- What a `Get` returns, from the rows that it finds and the revisions that come with them. -/
theorem get_rows (hr : Ready s) (key : Bytes) (revision : ℤ) (keysOnly : Bool) :
    (get s key revision keysOnly).1.2 =
      let rows := SqlLog.listRows s.db.kine key [] 1 revision false fun _ => true
      if revision > (if rows ≠ [] then s.db.kine.currentRev.getD 0 else s.cachedRev) then (none, some .futureRev)
      else if revision > 0 ∧ revision < s.db.kine.compactRev.getD 0 then (none, some .compacted)
      else (rows.head?.map fun x => (x.toEvent (!keysOnly) false).kv, none) := by
  obtain ⟨y, hy, -⟩ := hr.row
  obtain ⟨cr, hcr⟩ := compactRev_of_row hr.row
  unfold get get' SqlLog.list
  simp only [ne_eq, List.map_eq_nil_iff]
  by_cases hrows : SqlLog.listRows s.db.kine key [] 1 revision false (fun _ => true) = []
  · simp only [hrows, not_true_eq_false, if_false, currentRevision_of_mem hy, SqlLog.getCompactRevision, hcr,
      Option.getD_some]
    unfold SqlLog.listCheck
    split_ifs <;> simp_all
  · simp only [hrows, not_false_eq_true, if_true]
    unfold SqlLog.listCheck
    split_ifs <;> simp_all [Function.comp_def]

theorem Compacted.get (h : Compacted s.db.kine t' r) (hrev : 0 ≤ s.currentRev) {revision : ℤ}
    (hread : revision ≤ 0 ∨ r ≤ revision ∧ revision ≤ t'.currentRev.getD 0) (key : Bytes) (keysOnly : Bool) :
    (get (withKine s t') key revision keysOnly).1.2 = (get s key revision keysOnly).1.2 := by
  obtain ⟨hr, hr'⟩ := h.ready hrev
  obtain ⟨cr, hcr, hlt⟩ := h.before
  have hle := h.currentRev_le
  have hnonneg := SqlLog.currentRev_nonneg t'
  have hrows := h.listRows (hread.imp_right And.left) key
  have hkv : ∀ x : Row, ((setCompact r x).toEvent (!keysOnly) false).kv = (x.toEvent (!keysOnly) false).kv := by
    intro x
    unfold setCompact
    split <;> rfl
  rw [get_rows hr, get_rows hr']
  simp only [withKine, hrows, hcr, h.compactRev, Option.getD_some, ne_eq, List.map_eq_nil_iff, List.head?_map,
    Option.map_map, Function.comp_def, hkv]
  -- the read is not below the compact revision, before and after
  rw [if_neg (c := revision > 0 ∧ revision < r) (by omega), if_neg (c := revision > 0 ∧ revision < cr) (by omega)]
  by_cases hnil : SqlLog.listRows s.db.kine key [] 1 revision false (fun _ => true) = []
  · simp only [hnil, not_true_eq_false, if_false]
    unfold SqlLog.cachedRev
    by_cases h0 : s.currentRev ≠ 0
    · simp only [if_pos h0]
    · simp only [if_neg h0]
      rw [if_neg (by omega), if_neg (by omega)]
  · simp only [hnil, not_false_eq_true, if_true]
    rw [if_neg (by omega), if_neg (by omega)]

end Calls

/-! ## Reachable states -/

variable {c : Codec} {now : ℤ}

theorem withTable_rev (s : SqlLog) (t : Option Kine) : (withTable s t).currentRev = s.currentRev := by
  unfold withTable
  split <;> rfl

theorem step_rev {s : SqlLog} (h : 0 ≤ s.currentRev) (op : SqlOp) : 0 ≤ (step c s op).currentRev := by
  cases op with
  | create now key value lease => exact serial_rev h ⟨c, now⟩ (.create key value lease)
  | update now key value revision lease => exact serial_rev h ⟨c, now⟩ (.update key value revision lease)
  | delete now key revision => exact serial_rev h ⟨c, now⟩ (.delete key revision)
  | fill r =>
    show 0 ≤ (withTable s _).currentRev
    rw [withTable_rev]
    exact h
  | compact target =>
    show 0 ≤ (withTable s _).currentRev
    rw [withTable_rev]
    exact h

theorem start_rev (c : Codec) (now : ℤ) : 0 ≤ (start ⟨c, now⟩ SqlLog.init).2.currentRev := by
  have hcompact : 0 ≤ (SqlLog.init.compactStart c now).2.currentRev := append_rev le_rfl c now _
  unfold start
  simp only
  split
  · exact hcompact
  · exact serial_rev hcompact ⟨c, now⟩ (.create healthKey healthVal 0)

theorem run_rev (ops : List SqlOp) : 0 ≤ (run c now ops).currentRev := by
  unfold run
  have hstart := start_rev c now
  generalize (start ⟨c, now⟩ SqlLog.init).2 = s at hstart
  induction ops generalizing s with
  | nil => exact hstart
  | cons op rest ih => exact ih _ (step_rev hstart op)

/-- A read is of the current state, or not below the compact revision and not in the
future; a write is not of `compact_rev_key` and has no dependents looked at. -/
def Unaffected (c : Codec) (s' : SqlLog) : KeyOp → Prop
  | .get _ revision _ =>
    revision ≤ 0 ∨ s'.db.kine.compactRev.getD 0 ≤ revision ∧ revision ≤ s'.db.kine.currentRev.getD 0
  | .create _ key value _ => key ≠ compactRevKey ∧ Quiet c key value true
  | .update _ key value _ _ => key ≠ compactRevKey ∧ Quiet c key value false
  | .delete _ key _ => key ≠ compactRevKey

/-- The tombstone of a key that is deleted again is still there. -/
def Spared (s s' : SqlLog) : KeyOp → Prop
  | .delete _ key _ => ∀ x, s.db.kine.last key = some x → x.deleted = true → x ∈ s'.db.kine.rows
  | _ => True

end Harikube.LogStructured
