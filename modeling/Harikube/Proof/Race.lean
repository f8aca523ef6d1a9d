import Harikube.Proof.Answers
import Harikube.Proof.Linear
import Harikube.Spec.Race

/-!
# Whether a failed compare is one

An update or a delete whose insert fails reads the key again and reports that the compare has
failed, whatever the error was.

* `failed_compare_iff`: **a failed compare is a genuine one if and only if a call whose insert
  fails finds its revision superseded when it reads again.**
* `Passed.others`: a revision that has been superseded is never live again.
* `conflict_genuine`: **an insert that the unique index refuses is a genuine conflict, whatever
  other clients do.**
-/

namespace Harikube.LogStructured

open Kine

variable {s : SqlLog} {key : Bytes} {revision : ℤ} {env : SqlEnv} {race : Race} {x : Row}

/-! ## Without others -/

/-- With nobody else and no error of the database the calls are those of the backend. -/
theorem updateRacing_alone (value : Bytes) (lease : ℤ) :
    updateRacing env ⟨[], none, [], none⟩ s key value revision lease = update env s key value revision lease := rfl

theorem deleteRacing_alone : deleteRacing env ⟨[], none, [], none⟩ s key revision = delete env s key revision := rfl

/-! ## The second read -/

theorem rereadRacing_db (includeDeletes : Bool) : (rereadRacing race s key includeDeletes).2.db = s.db := by
  unfold rereadRacing
  split
  · rfl
  · exact get'_db s key 0 includeDeletes false

theorem rereadRacing_error (hread : race.readErr ≠ none) (includeDeletes : Bool) :
    (rereadRacing race s key includeDeletes).1.2.2 ≠ none := by
  obtain ⟨err, hread⟩ := Option.ne_none_iff_exists'.1 hread
  unfold rereadRacing
  rw [hread]
  exact Option.some_ne_none err

theorem rereadRacing_live (hread : race.readErr = none) (hx : liveRow s.db.kine key = some x) :
    (rereadRacing race s key false).1.2 = (some (x.toEvent true false), none) := by
  unfold rereadRacing
  rw [hread]
  simp only [get'_found (live_or hx false), Bool.not_false]

/-- The second read of an update finds the live row, unless it fails. -/
theorem rereadRacing_event (hread : race.readErr = none) :
    (rereadRacing race s key false).1.2.1 = (liveRow s.db.kine key).map (Row.toEvent true false) := by
  have hev := get'_event s key false false
  simp only [Bool.or_false] at hev
  unfold rereadRacing
  rw [hread]
  exact hev

/-! ## Updates -/

/-- What an update answers that goes on to its insert. -/
theorem updateRacing_live (env : SqlEnv) (race : Race) (value : Bytes) (lease : ℤ)
    (hx : liveRow s.db.kine key = some x) (hid : x.id = revision) :
    let w := appendRacing env race (others env s race.before) (updateEvent key value lease (x.toEvent true false))
    let l := rereadRacing race (others env w.2 race.after) key false
    (w.1.2 = none → (updateRacing env race s key value revision lease).1.2.2 = (true, none)) ∧
    (w.1.2 ≠ none → (updateRacing env race s key value revision lease).1.2 =
      (l.1.2.1.map Event.kv, false, l.1.2.2)) := by
  have hrev : ¬ (x.toEvent true false).kv.modRevision ≠ revision := not_not.2 hid
  unfold updateRacing
  simp only [get'_found (live_or hx false), Bool.not_false, if_neg hrev]
  constructor
  · intro hw
    rw [hw]
  · intro hw
    obtain ⟨err, hw⟩ := Option.ne_none_iff_exists'.1 hw
    rw [hw]

/-- An update at a revision that is not live returns before its insert. -/
theorem updateRacing_stale (env : SqlEnv) (race : Race) (value : Bytes) (lease : ℤ)
    (hne : ∀ x ∈ liveRow s.db.kine key, x.id ≠ revision) :
    ∀ kv ∈ (updateRacing env race s key value revision lease).1.2.1, kv.modRevision ≠ revision := by
  intro kv hkv
  cases hx : liveRow s.db.kine key with
  | some x =>
    have hrev : (x.toEvent true false).kv.modRevision ≠ revision := hne x hx
    unfold updateRacing at hkv
    simp only [get'_found (live_or hx false), Bool.not_false, if_pos hrev] at hkv
    exact Option.mem_some.1 hkv ▸ hrev
  | none =>
    have hev := get'_event s key false false
    simp only [Bool.or_false] at hev
    rw [show ((s.db.kine.last key).filter fun x => !x.deleted) = none from hx, Option.map_none] at hev
    unfold updateRacing at hkv
    simp only [hev] at hkv
    -- nothing is returned, with an error of the read or without
    cases herr : (get' s key 0 false false).1.2.2 <;> simp [herr] at hkv

theorem update_genuine_iff (value : Bytes) (lease : ℤ) :
    UpdateGenuine env race s key value revision lease ↔
      race.readErr ≠ none ∨ Lost env race s key revision (updateEvent key value lease) := by
  by_cases hlive : ∃ x ∈ liveRow s.db.kine key, x.id = revision
  · obtain ⟨x, hx, hid⟩ := hlive
    obtain ⟨hok, hfailed⟩ := updateRacing_live env race value lease hx hid
    constructor
    · intro h
      by_cases hread : race.readErr = none
      · refine .inr fun x' hx' _ hw y hy hyid => ?_
        obtain rfl : x' = x := Option.mem_unique hx' hx
        have hres := hfailed hw
        rw [rereadRacing_live hread hy] at hres
        -- the row that is still live is what the call returns
        exact h (congrArg Prod.snd hres) _ (by rw [hres]; rfl) hyid
      · exact .inl hread
    · intro h hres kv hkv
      by_cases hw : (appendRacing env race (others env s race.before)
          (updateEvent key value lease (x.toEvent true false))).1.2 = none
      · rw [hok hw] at hres
        cases hres
      · rw [hfailed hw] at hres hkv
        rcases h with hread | hlost
        · exact absurd (congrArg Prod.snd hres) (rereadRacing_error hread false)
        · by_cases hread : race.readErr = none
          · rw [rereadRacing_event hread, Option.map_map, Option.mem_map] at hkv
            obtain ⟨y, hy, rfl⟩ := hkv
            exact hlost x hx hid hw y hy
          · exact absurd (congrArg Prod.snd hres) (rereadRacing_error hread false)
  · have hne : ∀ x ∈ liveRow s.db.kine key, x.id ≠ revision := fun x hx hid => hlive ⟨x, hx, hid⟩
    exact ⟨fun _ => .inr fun x hx hid => absurd hid (hne x hx),
      fun _ _ => updateRacing_stale env race value lease hne⟩

/-! ## Deletes -/

/-- What a delete answers that goes on to its insert, and the table it leaves. -/
theorem deleteRacing_live (env : SqlEnv) (race : Race) (hx : liveRow s.db.kine key = some x) (hid : x.id = revision) :
    let w := appendRacing env race (others env s race.before) (deleteEvent key (x.toEvent true false))
    (w.1.2 = none → (deleteRacing env race s key revision).1.2.2 = (true, none)) ∧
    (w.1.2 ≠ none → (deleteRacing env race s key revision).1.2.2 = (false, none) ∧
      (deleteRacing env race s key revision).2.db = (others env w.2 race.after).db) := by
  have hlive : (x.toEvent true false).delete = false := live_deleted hx
  have hrev : ¬ (revision ≠ 0 ∧ (x.toEvent true false).kv.modRevision ≠ revision) := fun h => h.2 hid
  unfold deleteRacing
  simp only [get'_found (live_or hx true), Bool.not_false, hlive, Bool.false_eq_true, if_false, if_neg hrev,
    adjustRevision_db]
  constructor
  · intro hw
    rw [hw]
  · intro hw
    obtain ⟨err, hw⟩ := Option.ne_none_iff_exists'.1 hw
    simp only [hw]
    -- whichever event it returns, the table is that of the second read
    split <;> exact ⟨rfl, rereadRacing_db true⟩

/-- A delete at a revision that is not live returns before its insert. -/
theorem deleteRacing_stale (env : SqlEnv) (race : Race) (h0 : revision ≠ 0)
    (hne : ∀ x ∈ liveRow s.db.kine key, x.id ≠ revision) :
    (deleteRacing env race s key revision).2.db = s.db := by
  have hev := get'_event s key true false
  rw [last_filter_true] at hev
  unfold deleteRacing
  simp only [adjustRevision_db]
  split
  · exact get'_db s key 0 true false
  · split
    · exact get'_db s key 0 true false
    · rename_i event hevent
      rw [hev] at hevent
      obtain ⟨x, hx, rfl⟩ := Option.map_eq_some_iff.1 hevent
      by_cases hdel : x.deleted = true
      · rw [if_pos (show (x.toEvent (!false) false).delete = true from hdel)]
        exact get'_db s key 0 true false
      · have hlive : liveRow s.db.kine key = some x :=
          Option.filter_eq_some_iff.2 ⟨hx, by simpa using hdel⟩
        rw [if_neg (show ¬ (x.toEvent (!false) false).delete = true from hdel),
          if_pos (show revision ≠ 0 ∧ (x.toEvent (!false) false).kv.modRevision ≠ revision from ⟨h0, hne x hlive⟩)]
        exact get'_db s key 0 true false

theorem delete_genuine_iff :
    DeleteGenuine env race s key revision ↔ (revision ≠ 0 → Lost env race s key revision (deleteEvent key)) := by
  by_cases hlive : ∃ x ∈ liveRow s.db.kine key, x.id = revision
  · obtain ⟨x, hx, hid⟩ := hlive
    obtain ⟨hok, hfailed⟩ := deleteRacing_live env race hx hid
    constructor
    · refine fun h h0 x' hx' _ hw => ?_
      obtain rfl : x' = x := Option.mem_unique hx' hx
      obtain ⟨hres, hdb⟩ := hfailed hw
      have hgone := h h0 hres
      rw [hdb] at hgone
      exact hgone
    · intro hlost h0 hres
      by_cases hw : (appendRacing env race (others env s race.before)
          (deleteEvent key (x.toEvent true false))).1.2 = none
      · rw [hok hw] at hres
        cases hres
      · rw [(hfailed hw).2]
        exact hlost h0 x hx hid hw
  · have hne : ∀ x ∈ liveRow s.db.kine key, x.id ≠ revision := fun x hx hid => hlive ⟨x, hx, hid⟩
    refine ⟨fun _ _ x hx hid => absurd hid (hne x hx), fun _ h0 _ => ?_⟩
    rw [deleteRacing_stale env race h0 hne]
    exact hne

/-- The database refuses the insert, as one that is locked does. -/
def lockedRace : Race := ⟨[], some (.database, false), [], none⟩

/-- A value that is not JSON, and a decoder that refuses it. -/
def brokenValue : Bytes := ascii "\x7b"

def strictCodec : Codec := ⟨fun _ v => if v = brokenValue then none else some {}, fun _ => none, fun _ => none⟩

/-! ## Revisions that are superseded -/

/-- The revision is superseded by a row, or not in the table any more. -/
def Passed (t : Kine) (key : Bytes) (revision : ℤ) : Prop := Used t ⟨.delete key revision, revision, none⟩

theorem Superseded.passed {t : Kine} (h : Superseded t key revision) (hc : Chain t) (hn : key ≠ compactRevKey) :
    Passed t key revision := by
  intro h0
  refine ⟨?_, .inl h⟩
  obtain ⟨y, hy, rfl, rfl⟩ := h
  exact (hc.prev_lt y hy hn h0).le.trans (t.bounded y hy).2

/-- A revision that is passed is not live. -/
theorem Passed.live_ne {t : Kine} (h : Passed t key revision) (hc : Chain t) (hn : key ≠ compactRevKey)
    (h0 : revision ≠ 0) : ∀ x ∈ liveRow t key, x.id ≠ revision := by
  rintro x hx rfl
  obtain ⟨hlast, -⟩ := Option.filter_eq_some_iff.1 hx
  obtain ⟨hmem, hname, hmax⟩ := last_eq_some hlast
  rcases (h h0).2 with ⟨y, hy, hyn, hyp⟩ | hgone
  · -- the row that supersedes it is a later one of the key
    have hlt := hc.prev_lt y hy (hyn ▸ hn) (hyp ▸ h0)
    have hle := hmax y hy hyn
    rw [hyp] at hlt
    exact absurd hlt (not_lt.2 hle)
  · exact hgone x hmem hname rfl

/-- A call of others adds rows to the table. -/
theorem serial_grows (hs : s.db.OK) (call : Call) (hplain : call.key ≠ compactRevKey ∧ isFill call.key = false) :
    Grows s.db.kine (call.serial env s).db.kine := by
  rw [serial_db]
  cases hread : (call.read s).1 with
  | none => exact .refl
  | some e =>
    have hdb := read_db s call
    have hf := read_inFlight hread hplain
    rw [← hdb] at hs hf ⊢
    simp only
    rcases append_cases env.codec env.now (call.read s).2 e with ⟨err, happ⟩ | ⟨rev, db, uid, del, t, happ, hrow, hgrow⟩
    · rw [happ]
      exact .refl
    · obtain ⟨hfol, -⟩ := hf.follows (x := eventRow e uid del) hf.key rfl hrow
      obtain ⟨-, hg⟩ := hgrow hs hfol
      rw [happ]
      exact .head ⟨_, _, _, hfol, hrow⟩ hg

/-- The row of a filled gap is of no client's key. -/
theorem Passed.fill {t t' : Kine} (h : Passed t key revision) (hk : isFill key = false) {r : ℤ}
    (hfill : t.fill r = some t') : Passed t' key revision := by
  intro h0
  obtain ⟨hle, hor⟩ := h h0
  have hmem := (fill_eq_some hfill).2
  refine ⟨hle.trans (fill_seq_le hfill), ?_⟩
  rcases hor with ⟨y, hy, hyp⟩ | hgone
  · exact .inl ⟨y, (hmem y).2 (.inl hy), hyp⟩
  · refine .inr fun y hy hyn => ?_
    rcases (hmem y).1 hy with hy | rfl
    · exact hgone y hy hyn
    · rw [← show (fillRow r).name = key from hyn, isFill_fillRow] at hk
      exact absurd hk.symm Bool.false_ne_true

theorem Passed.step (c : Codec) (h : Passed s.db.kine key revision) (hs : s.db.OK)
    (hk : key ≠ compactRevKey ∧ isFill key = false) {op : SqlOp} (hop : op.plain = true) :
    Passed (step c s op).db.kine key revision := by
  have hcall : ∀ (now : ℤ) (call : Call), (call.key ≠ compactRevKey && !isFill call.key) = true →
      Passed (call.serial ⟨c, now⟩ s).db.kine key revision := by
    intro now call hplain
    simp only [Bool.and_eq_true, decide_eq_true_eq, Bool.not_eq_true'] at hplain
    exact Used.grows h (serial_grows hs call hplain)
  cases op with
  | create now key' value lease => exact hcall now (.create key' value lease) hop
  | update now key' value revision' lease => exact hcall now (.update key' value revision' lease) hop
  | delete now key' revision' => exact hcall now (.delete key' revision') hop
  | fill r =>
    show Passed (withTable s (s.db.kine.fill r)).db.kine key revision
    unfold withTable
    split
    · rename_i t' hfill
      exact h.fill hk.2 hfill
    · exact h
  | compact target =>
    show Passed (withTable s ((s.db.kine.compact target).setCompactRevision target)).db.kine key revision
    unfold withTable
    split
    · rename_i t' hset
      exact (Used.compact h hs.chain hk.1).setCompactRevision hk.1 hset
    · exact h

theorem others_ok (env : SqlEnv) (hs : s.db.OK) {ops : List SqlOp} (hops : ops.all SqlOp.plain = true) :
    (others env s ops).db.OK := by
  induction ops generalizing s with
  | nil => exact hs
  | cons op ops ih =>
    rw [List.all_cons, Bool.and_eq_true] at hops
    exact ih (step_ok hs hops.1) hops.2

/-- **A revision that has been superseded is never live again.** -/
theorem Passed.others (h : Passed s.db.kine key revision) (hs : s.db.OK)
    (hk : key ≠ compactRevKey ∧ isFill key = false) {ops : List SqlOp} (hops : ops.all SqlOp.plain = true) :
    Passed (others env s ops).db.kine key revision := by
  induction ops generalizing s with
  | nil => exact h
  | cons op ops ih =>
    rw [List.all_cons, Bool.and_eq_true] at hops
    exact ih (h.step env.codec hs hk hops.1) (step_ok hs hops.1) hops.2

/-- The unique index refuses an insert after a revision that is superseded. -/
theorem append_superseded (c : Codec) (now : ℤ) {e : Event} (h : Superseded s.db.kine e.kv.key (prevRev e)) :
    ∃ err, s.append c now e = ((0, some err), s) := by
  rcases append_cases c now s e with hfail | ⟨rev, db, uid, del, t, -, hrow, -⟩
  · exact hfail
  · obtain ⟨y, hy, hyn, hyp⟩ := h
    obtain ⟨hclash, -⟩ := insert_eq_some hrow
    exact absurd ⟨hyn, hyp⟩ (hclash y hy)

theorem appendRacing_superseded {e : Event} (h : Superseded s.db.kine e.kv.key (prevRev e)) :
    (appendRacing env race s e).2.db = s.db := by
  obtain ⟨err, happ⟩ := append_superseded env.codec env.now h
  unfold appendRacing
  split
  · rw [happ]
    split <;> rfl
  · rw [happ]

/-- Once another call has superseded the revision, the compare is lost, whatever else happens
before the second read. -/
theorem lost_of_superseded (hs : s.db.OK) (hrace : race.plain = true)
    (hk : key ≠ compactRevKey ∧ isFill key = false) (h0 : revision ≠ 0)
    (hconflict : Superseded (others env s race.before).db.kine key revision) {event : Event → Event}
    (hevent : ∀ e, (event e).kv.key = key ∧ prevRev (event e) = e.kv.modRevision) :
    Lost env race s key revision event := by
  refine fun x _ hid _ => ?_
  obtain ⟨hbefore, hafter⟩ := Bool.and_eq_true_iff.1 hrace
  obtain ⟨hkey, hprev⟩ := hevent (x.toEvent true false)
  have hok := others_ok env hs hbefore
  have hdb : (appendRacing env race (others env s race.before) (event (x.toEvent true false))).2.db =
      (others env s race.before).db := by
    refine appendRacing_superseded ?_
    rw [hkey, hprev]
    exact (show (x.toEvent true false).kv.modRevision = revision from hid) ▸ hconflict
  have hpassed := hconflict.passed hok.chain hk.1
  rw [← hdb] at hok hpassed
  exact (hpassed.others hok hk hafter).live_ne (others_ok env hok hafter).chain hk.1 h0

/-- **An insert that the unique index refuses is a genuine conflict**, in every reachable state
and with any calls of others around it. -/
theorem conflict_genuine (c : Codec) (now now' : ℤ) (ops : List SqlOp) (hops : ops.all SqlOp.plain = true)
    (hrace : race.plain = true) (hk : key ≠ compactRevKey ∧ isFill key = false) (h0 : revision ≠ 0)
    (hconflict : Superseded (others ⟨c, now'⟩ (run c now ops) race.before).db.kine key revision)
    (value : Bytes) (lease : ℤ) :
    UpdateGenuine ⟨c, now'⟩ race (run c now ops) key value revision lease ∧
      DeleteGenuine ⟨c, now'⟩ race (run c now ops) key revision := by
  have hs := run_ok c now ops hops
  exact ⟨(update_genuine_iff value lease).2 (.inr (lost_of_superseded hs hrace hk h0 hconflict fun _ => ⟨rfl, rfl⟩)),
    delete_genuine_iff.2 fun _ => lost_of_superseded hs hrace hk h0 hconflict fun _ => ⟨rfl, rfl⟩⟩

end Harikube.LogStructured
