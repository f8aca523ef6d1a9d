import Harikube.Lts.Run
import Harikube.Proof.Calls
import Harikube.Spec.Writers

/-!
# When concurrent writers are linearizable

The unique index on `(name, prev_revision)` rejects the insert of a call whose read is
out of date, as long as the row that superseded the version it has read is in the
table. Compaction may delete that row.

* `Superseded`, `Current`: what the table says about a call in flight, the version it
  has read is superseded by a row that is there, or is still the last.
* `InFlight.grow`, `InFlight.compact`: an insert, and a compaction that spares the rows
  in question, keep one of the two.
* `writers_linearizable`: **in every run whose compactions spare those rows the writers
  are linearizable.**
-/

namespace Harikube.LogStructured

open Kine

/-! ## The last row of a key -/

section LastRow

variable {t t' : Kine} {key : Bytes} {x : Row} {oldId id : ℤ}

/-- An insert of another key. -/
theorem last_insert_ne (hi : t.insert x oldId = some (id, t')) (hk : x.name ≠ key) :
    t'.last key = t.last key := by
  obtain ⟨-, -, old, hrows⟩ := insert_eq_some hi
  unfold Kine.last
  rw [hrows, List.filter_append]
  simp [hk]

/-- The row an insert adds is the last of its name. -/
theorem last_insert_self (hi : t.insert x oldId = some (id, t')) :
    ∃ old, t'.last x.name = some { x with id := id, oldValue := old } := by
  obtain ⟨-, rfl, old, hrows⟩ := insert_eq_some hi
  refine ⟨old, ?_⟩
  unfold Kine.last
  rw [hrows, List.filter_append]
  simp

/-- **The unique index admits a row only after the last of its name.** -/
theorem prev_eq_last (hc : Chain t) (hx : t.Follows x) (hi : t.insert x oldId = some (id, t')) :
    x.prevRevision = ((t.last x.name).map Row.id).getD 0 := by
  obtain ⟨hclash, -⟩ := insert_eq_some hi
  obtain ⟨hn, -, ⟨h0, hnone⟩ | ⟨y, hy, hyn, hyid⟩⟩ := hx
  · rw [last_eq_none.2 hnone, h0]
    rfl
  · cases hl : t.last x.name with
    | none => exact absurd hyn (last_eq_none.1 hl y hy)
    | some z =>
      obtain ⟨hz, hzn, hmax⟩ := last_eq_some hl
      rcases lt_or_eq_of_le (hmax y hy hyn) with hlt | heq
      · -- a row after `y` has `y` for its predecessor, as the new row does
        obtain ⟨w, hw, hwn, hwp, -⟩ := hc.linked y hy z hz (hyn.trans hzn.symm) (hyn ▸ hn) hlt
        exact absurd ⟨hwn.trans hyn, hwp.trans hyid⟩ (hclash w hw)
      · exact hyid.symm.trans heq

theorem Grows.seq_le (hg : Grows t t') : t.seq ≤ t'.seq := by
  induction hg with
  | refl => exact le_rfl
  | tail _ hstep ih =>
    obtain ⟨x, oldId, id, -, hi⟩ := hstep
    have := insert_seq hi
    omega

/-- A row that growth adds has a new id. -/
theorem Grows.mem_or_lt (hg : Grows t t') {y : Row} (hy : y ∈ t'.rows) : y ∈ t.rows ∨ t.seq < y.id := by
  induction hg with
  | refl => exact Or.inl hy
  | tail hpre hstep ih =>
    obtain ⟨x, oldId, id, -, hi⟩ := hstep
    obtain ⟨-, -, old, hrows⟩ := insert_eq_some hi
    rw [hrows, List.mem_append, List.mem_singleton] at hy
    rcases hy with hy | rfl
    · exact ih hy
    · have := Grows.seq_le hpre
      right
      show t.seq < _ + 1
      omega

end LastRow

/-! ## Calls in flight -/

/-- The version a call has read is superseded by a row of the table. -/
def Superseded (t : Kine) (key : Bytes) (prev : ℤ) : Prop :=
  ∃ y ∈ t.rows, y.name = key ∧ y.prevRevision = prev

/-- The version a call has read is the last, and one it may supersede. -/
def Current (t : Kine) (call : Call) (prev : ℤ) : Prop :=
  call.suits (t.last call.key) = true ∧ prev = ((t.last call.key).map Row.id).getD 0

structure InFlight (t : Kine) (call : Call) (e : Event) : Prop where
  key : e.kv.key = call.key
  plain : call.key ≠ compactRevKey ∧ isFill call.key = false
  state : Superseded t call.key (prevRev e) ∨ Current t call (prevRev e)

variable {t t' : Kine} {call : Call} {e : Event} {target : ℤ}

theorem InFlight.grow (hf : InFlight t call e) (hc : Chain t) (hg : Grow t t') : InFlight t' call e := by
  refine ⟨hf.key, hf.plain, ?_⟩
  rcases hf.state with ⟨y, hy, hyp⟩ | ⟨hsuits, hprev⟩
  · exact Or.inl ⟨y, hg.mem hy, hyp⟩
  · obtain ⟨x, oldId, id, hx, hi⟩ := hg
    by_cases hk : x.name = call.key
    · -- the new row supersedes the last row of the key
      obtain ⟨old, hnew⟩ := mem_of_insert hi
      refine Or.inl ⟨_, hnew, hk, ?_⟩
      rw [hprev, ← hk]
      exact prev_eq_last hc hx hi
    · unfold Current
      rw [last_insert_ne hi hk]
      exact Or.inr ⟨hsuits, hprev⟩

theorem InFlight.grows (hf : InFlight t call e) (hc : Chain t) (hg : Grows t t') : InFlight t' call e := by
  induction hg with
  | refl => exact hf
  | tail hpre hstep ih => exact ih.grow (Kine.Grows.chain hpre hc) hstep

/-- The insert of a call in flight, if the index admits it, follows the last row. -/
theorem InFlight.follows (hf : InFlight t call e) {x : Row} {oldId id : ℤ} (hn : x.name = call.key)
    (hp : x.prevRevision = prevRev e) (hi : t.insert x oldId = some (id, t')) :
    t.Follows x ∧ Current t call (prevRev e) := by
  obtain ⟨hclash, -⟩ := insert_eq_some hi
  rcases hf.state with ⟨y, hy, hyn, hyp⟩ | hcur
  · exact absurd ⟨hyn.trans hn.symm, hyp.trans hp.symm⟩ (hclash y hy)
  · refine ⟨⟨hn ▸ hf.plain.1, hn ▸ hf.plain.2, ?_⟩, hcur⟩
    have hprev := hp.trans hcur.2
    cases hl : t.last call.key with
    | none =>
      rw [hl] at hprev
      exact Or.inl ⟨hprev, hn ▸ last_eq_none.1 hl⟩
    | some y =>
      obtain ⟨hy, hyn, -⟩ := last_eq_some hl
      rw [hl] at hprev
      exact Or.inr ⟨y, hy, hyn.trans hn.symm, hprev.symm⟩

/-- A compaction that keeps the last row of a key. -/
theorem last_compact {key : Bytes} (hkept : ∀ x, t.last key = some x → x ∈ (t.compact target).rows) :
    (t.compact target).last key = t.last key := by
  cases hl : t.last key with
  | none =>
    rw [last_eq_none] at hl ⊢
    exact fun y hy => hl y (mem_compact.1 hy).1
  | some x =>
    obtain ⟨-, hn, hmax⟩ := last_eq_some hl
    rw [← hn]
    refine last_eq_of_max (hkept x hl) fun y hy hyn => ?_
    exact hmax y (mem_compact.1 hy).1 (hyn.trans hn)

theorem InFlight.compact (hf : InFlight t call e) (hc : Chain t)
    (hspare : ∀ y ∈ t.rows, y.name = call.key →
      (y.prevRevision = prevRev e ∨ call.isCreate = true ∧ y.id = prevRev e) →
      y.id ∉ t.compactIds target) : InFlight (t.compact target) call e := by
  refine ⟨hf.key, hf.plain, ?_⟩
  rcases hf.state with ⟨y, hy, hyn, hyp⟩ | ⟨hsuits, hprev⟩
  · exact Or.inl ⟨y, mem_compact.2 ⟨hy, hspare y hy hyn (Or.inl hyp)⟩, hyn, hyp⟩
  · have hlast : (t.compact target).last call.key = t.last call.key := by
      refine last_compact fun x hl => ?_
      obtain ⟨hx, hn, hmax⟩ := last_eq_some hl
      refine mem_compact.2 ⟨hx, fun hi => ?_⟩
      rw [hl] at hsuits hprev
      cases hd : x.deleted with
      | true =>
        -- only a create goes on after a tombstone
        have hcreate : call.isCreate = true := by
          cases call with
          | create key value lease => rfl
          | update key value revision lease => simp [Call.suits, hd] at hsuits
          | delete key revision => simp [Call.suits, hd] at hsuits
        exact hspare x hx hn (Or.inr ⟨hcreate, hprev.symm⟩) hi
      | false =>
        obtain ⟨-, y, hy, hyn, hlt, -⟩ := hc.superseded_of_compactIds hx hd hi
        have := hmax y hy (hyn.trans hn)
        omega
    unfold Current
    rw [hlast]
    exact Or.inr ⟨hsuits, hprev⟩

theorem last_setCompactRevision {r : ℤ} (h : t.setCompactRevision r = some t') {key : Bytes}
    (hn : key ≠ compactRevKey) : t'.last key = t.last key := by
  unfold Kine.last
  rw [setCompactRevision_eq_some h, List.filter_map]
  have hsame : ((t.rows.filter ((fun x => decide (x.name = key)) ∘ setCompact r)).map (setCompact r)) =
      t.rows.filter fun x => decide (x.name = key) := by
    rw [List.filter_congr (q := fun x => decide (x.name = key)) (fun x _ => by simp)]
    refine (List.map_congr_left fun x hx => ?_).trans (List.map_id _)
    have hx' : x.name = key := of_decide_eq_true (List.mem_filter.1 hx).2
    exact setCompact_of_ne (hx' ▸ hn)
  rw [hsame]

theorem InFlight.setCompactRevision (hf : InFlight t call e) {r : ℤ} (h : t.setCompactRevision r = some t') :
    InFlight t' call e := by
  refine ⟨hf.key, hf.plain, ?_⟩
  rcases hf.state with ⟨y, hy, hyn, hyp⟩ | hcur
  · refine Or.inl ⟨y, ?_, hyn, hyp⟩
    rw [setCompactRevision_eq_some h]
    exact List.mem_map.2 ⟨y, hy, setCompact_of_ne (hyn ▸ hf.plain.1)⟩
  · unfold Current
    rw [last_setCompactRevision h hf.plain.1]
    exact Or.inr hcur

/-! ## Reads -/

/-- A call that goes on to its insert has read the last row of its key. -/
theorem read_current {s : SqlLog} (hread : (call.read s).1 = some e) :
    e.kv.key = call.key ∧ Current s.db.kine call (prevRev e) := by
  have hnone : ∀ {α : Type} {b : Bool} {o : Option α} {a : α}, (if b then none else o) = some a → o = some a := by
    intro α b o a h
    cases b <;> simp_all
  unfold Current
  cases call with
  | create key value lease =>
    replace hread := hnone hread
    rw [get'_event] at hread
    show e.kv.key = key ∧ (s.db.kine.last key).all Row.deleted = true ∧ _ = ((s.db.kine.last key).map Row.id).getD 0
    cases hl : s.db.kine.last key with
    | none =>
      rw [hl] at hread
      obtain rfl := Option.some.inj hread
      exact ⟨rfl, rfl, rfl⟩
    | some x =>
      rw [hl] at hread
      simp only [createEvent, Option.filter, Bool.or_true, if_true, Option.map_some] at hread
      split at hread
      · rename_i hd
        obtain rfl := Option.some.inj hread
        exact ⟨rfl, hd, rfl⟩
      · simp at hread
  | update key value revision lease =>
    replace hread := hnone hread
    rw [get'_event, Option.bind_eq_some_iff] at hread
    obtain ⟨event, hev, he⟩ := hread
    rw [Option.map_eq_some_iff] at hev
    obtain ⟨x, hx, rfl⟩ := hev
    rw [Option.filter_eq_some_iff] at hx
    split at he
    · simp at he
    · rename_i hrev
      obtain rfl := Option.some.inj he
      show key = key ∧ (s.db.kine.last key).any _ = true ∧ x.id = ((s.db.kine.last key).map Row.id).getD 0
      have hid : x.id = revision := not_not.1 hrev
      have hd : x.deleted = false := by simpa using hx.2
      rw [hx.1]
      simp [hd, hid]
  | delete key revision =>
    replace hread := hnone hread
    rw [get'_event, Option.bind_eq_some_iff] at hread
    obtain ⟨event, hev, he⟩ := hread
    rw [Option.map_eq_some_iff] at hev
    obtain ⟨x, hx, rfl⟩ := hev
    rw [Option.filter_eq_some_iff] at hx
    split at he
    · simp at he
    · rename_i hdel
      split at he
      · simp at he
      · rename_i hrev
        obtain rfl := Option.some.inj he
        show key = key ∧ (s.db.kine.last key).any _ = true ∧ x.id = ((s.db.kine.last key).map Row.id).getD 0
        have hd : x.deleted = false := by simpa [Row.toEvent] using hdel
        have hid : revision = 0 ∨ x.id = revision := by
          by_contra hne
          rw [not_or] at hne
          exact hrev hne
        rw [hx.1]
        simpa [hd] using hid

theorem read_inFlight {s : SqlLog} (hread : (call.read s).1 = some e)
    (hplain : call.key ≠ compactRevKey ∧ isFill call.key = false) : InFlight s.db.kine call e :=
  ⟨(read_current hread).1, hplain, Or.inr (read_current hread).2⟩

/-- **A call on its own is its read step and its insert step.** -/
theorem serial_db (env : SqlEnv) (s : SqlLog) (call : Call) :
    (call.serial env s).db =
      match (call.read s).1 with
      | none => s.db
      | some e => ((call.read s).2.append env.codec env.now e).2.db := by
  cases call with
  | create key value lease =>
    have hdb := get'_db s key 0 true true
    unfold Call.serial create Call.read
    simp only [adjustRevision_db]
    cases (get' s key 0 true true).1.2.2 with
    | some err => exact hdb
    | none =>
      cases createEvent key value lease (get' s key 0 true true).1.2.1 with
      | none => exact hdb
      | some e => rfl
  | update key value revision lease =>
    have hdb := get'_db s key 0 false false
    unfold Call.serial update Call.read
    simp only [adjustRevision_db]
    cases (get' s key 0 false false).1.2.2 with
    | some err => exact hdb
    | none =>
      cases (get' s key 0 false false).1.2.1 with
      | none => exact hdb
      | some event =>
        by_cases hrev : event.kv.modRevision = revision
        · simp only [hrev, ne_eq, not_true_eq_false, if_false, Option.isSome_none, Bool.false_eq_true,
            Option.bind_some]
          split
          · rfl
          · exact get'_db _ key 0 false false
        · simpa [hrev] using hdb
  | delete key revision =>
    have hdb := get'_db s key 0 true false
    unfold Call.serial delete Call.read
    simp only [adjustRevision_db]
    cases (get' s key 0 true false).1.2.2 with
    | some err => exact hdb
    | none =>
      cases (get' s key 0 true false).1.2.1 with
      | none => exact hdb
      | some event =>
        by_cases hdel : event.delete = true
        · simpa [hdel] using hdb
        · by_cases hrev : revision ≠ 0 ∧ event.kv.modRevision ≠ revision
          · simpa [hdel, hrev] using hdb
          · simp only [hdel, hrev, if_false, Option.isSome_none, Bool.false_eq_true, Option.bind_some]
            split
            · rfl
            · split
              · exact get'_db _ key 0 true false
              · exact get'_db _ key 0 true false

theorem read_db (s : SqlLog) (call : Call) : (call.read s).2.db = s.db := by
  cases call <;> exact get'_db s _ 0 _ _

/-! ## The invariant -/

/-- A version that an insert has superseded is superseded by a row of the table, or is
not in the table any more. -/
def Used (t : Kine) (d : Done) : Prop :=
  d.prev ≠ 0 → d.prev ≤ t.seq ∧
    (Superseded t d.call.key d.prev ∨ ∀ y ∈ t.rows, y.name = d.call.key → y.id ≠ d.prev)

theorem Used.grows {d : Done} (hu : Used t d) (hg : Grows t t') : Used t' d := by
  intro h0
  obtain ⟨hle, hor⟩ := hu h0
  refine ⟨hle.trans (Grows.seq_le hg), ?_⟩
  rcases hor with ⟨y, hy, hyp⟩ | hgone
  · exact Or.inl ⟨y, hg.mem hy, hyp⟩
  · refine Or.inr fun y hy hyn hid => ?_
    rcases Grows.mem_or_lt hg hy with hy | hlt
    · exact hgone y hy hyn hid
    · omega

/-- A row that supersedes a version is deleted only together with the version. -/
theorem Used.compact {d : Done} (hu : Used t d) (hc : Chain t) (hn : d.call.key ≠ compactRevKey) :
    Used (t.compact target) d := by
  intro h0
  obtain ⟨hle, hor⟩ := hu h0
  refine ⟨hle, ?_⟩
  rcases hor with ⟨y, hy, hyn, hyp⟩ | hgone
  · by_cases hi : y.id ∈ t.compactIds target
    · have hyt := hc.le_of_compactIds hi
      have hprev : d.prev ∈ t.compactIds target :=
        mem_compactIds.2 (Or.inl ⟨y, hy, hyn ▸ hn, hyp ▸ h0, hyt, hyp⟩)
      exact Or.inr fun z hz _ hid => (mem_compact.1 hz).2 (hid ▸ hprev)
    · exact Or.inl ⟨y, mem_compact.2 ⟨hy, hi⟩, hyn, hyp⟩
  · exact Or.inr fun y hy => hgone y (mem_compact.1 hy).1

theorem setCompactRevision_seq {r : ℤ} (h : t.setCompactRevision r = some t') : t'.seq = t.seq := by
  unfold setCompactRevision at h
  simp only at h
  split at h
  · rw [← Option.some.inj h]
  · simp at h

theorem Used.setCompactRevision {d : Done} (hu : Used t d) (hn : d.call.key ≠ compactRevKey) {r : ℤ}
    (h : t.setCompactRevision r = some t') : Used t' d := by
  intro h0
  obtain ⟨hle, hor⟩ := hu h0
  have hrows := setCompactRevision_eq_some h
  refine ⟨by rw [setCompactRevision_seq h]; exact hle, ?_⟩
  rcases hor with ⟨y, hy, hyn, hyp⟩ | hgone
  · refine Or.inl ⟨y, ?_, hyn, hyp⟩
    rw [hrows]
    exact List.mem_map.2 ⟨y, hy, setCompact_of_ne (hyn ▸ hn)⟩
  · refine Or.inr fun y hy hyn hid => ?_
    rw [hrows] at hy
    obtain ⟨z, hz, rfl⟩ := List.mem_map.1 hy
    rw [setCompact_name] at hyn
    rw [setCompact_id] at hid
    exact hgone z hz hyn hid

namespace Writers

structure OK (x : Writers) : Prop where
  db : x.log.db.OK
  pending : ∀ p ∈ x.pending, InFlight x.log.db.kine p.1 p.2
  key : ∀ d ∈ x.done, d.call.key ≠ compactRevKey
  used : ∀ d ∈ x.done, Used x.log.db.kine d
  linear : x.Linearizable

variable {x : Writers} {c : Codec} {minRetain : ℤ}

theorem OK.read (hx : x.OK) {call : Call} (hplain : call.key ≠ compactRevKey ∧ isFill call.key = false) :
    (x.step c minRetain (.read call)).OK := by
  have hdb := read_db x.log call
  unfold step
  simp only
  split
  · rename_i e log hread
    rw [hread] at hdb
    have hnew := read_inFlight (s := x.log) (by rw [hread]) hplain
    simp only at hdb
    refine ⟨hdb ▸ hx.db, fun p hp => ?_, hx.key, hdb ▸ hx.used, hx.linear⟩
    show InFlight log.db.kine p.1 p.2
    rw [hdb]
    rcases List.mem_append.1 hp with hp | hp
    · exact hx.pending p hp
    · rw [List.mem_singleton.1 hp]
      exact hnew
  · rename_i log hread
    rw [hread] at hdb
    simp only at hdb
    exact ⟨hdb ▸ hx.db, hdb ▸ hx.pending, hx.key, hdb ▸ hx.used, hx.linear⟩

/-- **An insert by a call in flight.** -/
theorem OK.insert (hx : x.OK) (i : ℕ) (now : ℤ) : (x.step c minRetain (.insert i now)).OK := by
  unfold step
  simp only
  split
  · exact hx
  · rename_i call e hpi
    have hmem : (call, e) ∈ x.pending := List.mem_of_getElem? hpi
    have hf := hx.pending _ hmem
    have hsub : ∀ p ∈ x.pending.eraseIdx i, p ∈ x.pending := fun p hp => List.mem_of_mem_eraseIdx hp
    rcases append_cases c now x.log e with ⟨err, happ⟩ | ⟨rev, db, uid, del, t, happ, hrow, hgrow⟩
    · rw [happ]
      exact ⟨hx.db, fun p hp => hx.pending p (hsub p hp), hx.key, hx.used, hx.linear⟩
    · rw [happ]
      simp only [Option.isSome_none, Bool.false_eq_true, if_false]
      obtain ⟨hfol, hsuits, hlast⟩ := hf.follows (x := eventRow e uid del) hf.key rfl hrow
      obtain ⟨hok, hg⟩ := hgrow hx.db hfol
      have hg' : Grows x.log.db.kine db.kine := (Relation.ReflTransGen.single ⟨_, _, _, hfol, hrow⟩).trans hg
      obtain ⟨old, hnew⟩ := mem_of_insert hrow
      obtain ⟨hclash, -⟩ := insert_eq_some hrow
      refine ⟨hok, fun p hp => (hx.pending p (hsub p hp)).grows hx.db.chain hg', ?_, ?_, ?_⟩
      · intro d hd
        rcases List.mem_append.1 hd with hd | hd
        · exact hx.key d hd
        · rw [List.mem_singleton.1 hd]
          exact hf.plain.1
      · intro d hd
        rcases List.mem_append.1 hd with hd | hd
        · exact (hx.used d hd).grows hg'
        · rw [List.mem_singleton.1 hd]
          intro h0
          refine ⟨?_, Or.inl ⟨_, hg.mem hnew, hf.key, rfl⟩⟩
          show prevRev e ≤ db.kine.seq
          rw [hlast]
          cases hl : x.log.db.kine.last call.key with
          | none => exact db.kine.seq_nonneg
          | some y => exact (db.kine.bounded y (hg'.mem (last_eq_some hl).1)).2
      · refine ⟨fun d hd => ?_, List.pairwise_append.2 ⟨hx.linear.2, List.pairwise_singleton _ _, ?_⟩⟩
        · rcases List.mem_append.1 hd with hd | hd
          · exact hx.linear.1 d hd
          · rw [List.mem_singleton.1 hd]
            exact hsuits
        · -- an earlier insert that superseded the same version left it superseded or gone
          intro d hd d' hd' hkey hsame
          rw [List.mem_singleton.1 hd'] at hkey hsame
          by_contra h0
          have hdp : d.prev = prevRev e := hsame
          have hdk : d.call.key = call.key := hkey
          obtain ⟨-, hor⟩ := hx.used d hd h0
          rcases hor with ⟨y, hy, hyn, hyp⟩ | hgone
          · exact hclash y hy ⟨hyn.trans (hdk.trans hf.key.symm), hyp.trans hdp⟩
          · cases hl : x.log.db.kine.last call.key with
            | none =>
              rw [hl] at hlast
              exact h0 (hdp.trans hlast)
            | some y =>
              obtain ⟨hy, hyn, -⟩ := last_eq_some hl
              rw [hl] at hlast
              exact hgone y hy (hyn.trans hdk.symm) (hdp.trans hlast).symm

theorem OK.compact (hx : x.OK) {target : ℤ} (hspare : x.Spares target) :
    (x.step c minRetain (.compact target)).OK := by
  have hc := hx.db.chain
  unfold step
  simp only
  split
  · have hdb := compact_ok hx.db target
    cases h : (x.log.db.kine.compact target).setCompactRevision target with
    | none => exact hx
    | some t' =>
      rw [h] at hdb
      refine ⟨hdb, fun p hp => ?_, hx.key, fun d hd => ?_, hx.linear⟩
      · refine ((hx.pending p hp).compact hc fun y hy hyn hor => ?_).setCompactRevision h
        exact hspare p hp y hy hyn hor
      · exact ((hx.used d hd).compact hc (hx.key d hd)).setCompactRevision (hx.key d hd) h
  · exact hx

/-- The condition on a step: calls are on keys of clients, and a compaction spares the
rows that calls in flight rely on. -/
def Careful (x : Writers) : WAct → Prop
  | .read call => call.key ≠ compactRevKey ∧ isFill call.key = false
  | .insert _ _ => True
  | .compact target => x.Spares target

theorem OK.step (hx : x.OK) {a : WAct} (ha : x.Careful a) : (x.step c minRetain a).OK := by
  cases a with
  | read call => exact hx.read ha
  | insert i now => exact hx.insert i now
  | compact target => exact hx.compact ha

/-- **Linearizable writers.** Whatever the values and the retention, if in every step of
a run the compaction spares the rows that the calls in flight rely on, then in every
state of the run each insert so far came after a row its call may supersede, and no
version of a key has been superseded twice. -/
theorem writers_linearizable (c : Codec) (minRetain now : ℤ) (acts : List WAct)
    (hcareful : Lts.Guarded (step c minRetain) Careful (init c now) acts) :
    Lts.Always (step c minRetain) Linearizable (init c now) acts := by
  have hinit : (init c now).OK :=
    ⟨start_ok c now, fun p hp => absurd hp List.not_mem_nil, fun d hd => absurd hd List.not_mem_nil,
      fun d hd => absurd hd List.not_mem_nil, fun d hd => absurd hd List.not_mem_nil, List.Pairwise.nil⟩
  have hok := Lts.invariant_of_guarded (I := OK) (G := Careful) (fun x a ha hx => OK.step hx ha) acts (init c now) hinit hcareful
  exact hok.mono fun x hx => hx.linear

/-- A lost update with one revision retained. A first update of revision 3 has read its
row; a second update supersedes that row and a third the second's; the compaction deletes
the second's row, and with it the pair of name and previous revision that would reject
the first update, which is now inserted over a version it has never seen. -/
theorem writers_lose_update :
    let a := ascii "/a"
    let acts : List WAct := [.read (.create a [] 0), .insert 0 0, .read (.update a (ascii "1") 3 0),
      .read (.update a (ascii "2") 3 0), .insert 1 0, .read (.update a (ascii "3") 4 0), .insert 1 0,
      .read (.create (ascii "/b") [] 0), .insert 1 0, .compact 5, .insert 0 0]
    let x := Lts.exec (step plainCodec 1) (init plainCodec 0) acts
    x.done.map Done.prev = [0, 3, 4, 0, 3] ∧ (x.done.map fun d => d.before.map Row.id) =
      [none, some 3, some 4, none, some 5] ∧ ¬ x.Linearizable := by
  decide +kernel

/-- The same calls are linearizable if the compaction goes only up to the version the
first update has read. -/
theorem writers_linearizable_spared :
    let a := ascii "/a"
    Lts.Always (step plainCodec 1) Linearizable (init plainCodec 0)
      [.read (.create a [] 0), .insert 0 0, .read (.update a (ascii "1") 3 0),
        .read (.update a (ascii "2") 3 0), .insert 1 0, .read (.update a (ascii "3") 4 0), .insert 1 0,
        .read (.create (ascii "/b") [] 0), .insert 1 0, .compact 3, .insert 0 0] :=
  writers_linearizable plainCodec 1 0 _ (by
    have hread : ∀ b : Bytes, b = ascii "/a" ∨ b = ascii "/b" → b ≠ compactRevKey ∧ isFill b = false := by
      rintro b (rfl | rfl) <;> decide
    refine ⟨hread _ (Or.inl rfl), trivial, hread _ (Or.inl rfl), hread _ (Or.inl rfl), trivial,
      hread _ (Or.inl rfl), trivial, hread _ (Or.inr rfl), trivial, ?_, trivial, trivial⟩
    show Spares _ 3
    decide +kernel)

end Writers

end Harikube.LogStructured
