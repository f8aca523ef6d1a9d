import Harikube.Lts.Run
import Harikube.Spec.CachedRev

/-!
# The cached revision and the revisions already known

The variable never goes back: every swap stores more than it expects to find. So what
`CurrentRevision` returns never decreases. That it covers the completed writes is another
matter: a swap that finds another value than it expects is lost, and nothing makes up for it.

* `Moves`: what a step can do, and `step_moves`.
* `revision_current`: what `CurrentRevision` returns never decreases, and in the runs where no
  swap is lost it covers what `Append` has returned and the poll loop has handed on.
* `append_uncovered`: two calls of `Append` load the same value, the swap of the second one is
  lost, and `CurrentRevision` returns less than that call has returned.
-/

namespace Harikube

/-- What an append knows lies within the table, and a row lies above what was cached before it. -/
def AppendCall.Within (last : ℤ) : AppendCall → Prop
  | .loaded currentRev => currentRev ≤ last
  | .inserted currentRev rev => currentRev < rev ∧ rev ≤ last
  | .returned _ | .failed => True

/-- The rows the poll loop has passed lie in the table, above its `pollRevision`. -/
def PollPhase.Within (last pollRevision : ℤ) : PollPhase → Prop
  | .passed rev => pollRevision < rev ∧ rev ≤ last
  | .idle | .stored _ => True

/-- A call that is still on its way has begun without a cached revision, so nothing it has to
cover is above zero. -/
def RevStage.Above (known : List ℤ) : RevStage → Prop
  | .querying | .queried _ | .reloading => ∀ r ∈ known, r ≤ 0
  | .returned rev => ∀ r ∈ known, r ≤ rev
  | .failed => True

def RevStage.Within (last : ℤ) : RevStage → Prop
  | .queried lastRev => 0 ≤ lastRev ∧ lastRev ≤ last
  | _ => True

/-- On its way. -/
def RevStage.Open : RevStage → Prop
  | .querying | .queried _ | .reloading => True
  | .returned _ | .failed => False

namespace CachedRev

variable {x y : CachedRev}

/-- The invariant of every run. -/
structure OK (x : CachedRev) : Prop where
  nonneg : 0 ≤ x.currentRev
  le_last : x.currentRev ≤ x.last
  ids : ∀ id ∈ x.ids, id ≤ x.last
  appends : ∀ c ∈ x.appends, c.Within x.last
  poll : ∀ p ∈ x.poll, p.2.Within x.last p.1
  within : ∀ c ∈ x.calls, c.stage.Within x.last
  returned : ∀ r ∈ x.returned, r ≤ x.currentRev
  earlier : ∀ c ∈ x.calls, c.stage.Above c.earlier

/-- What no lost swap adds to it. -/
structure Covered (x : CachedRev) : Prop where
  written : ∀ r ∈ x.written, r ≤ x.currentRev
  stored : ∀ pollRevision rev, x.poll = some (pollRevision, .stored rev) → rev ≤ x.currentRev
  calls : ∀ c ∈ x.calls, c.stage.Above c.written

theorem OK.last_nonneg (h : x.OK) : 0 ≤ x.last := h.nonneg.trans h.le_last

/-! ## What a step can do -/

/-- A call of `CurrentRevision` that a step has begun or taken further; `rev` and `last` are
the cached revision and the largest id after the step. Whatever it returns is `rev`. -/
inductive Advanced (x : CachedRev) (rev last : ℤ) : RevCall → Prop
  | hit : Advanced x rev last ⟨x.written, x.returned, .returned rev⟩
  | miss (h : x.currentRev = 0) : Advanced x rev last ⟨x.written, x.returned, .querying⟩
  | failed (c : RevCall) : Advanced x rev last { c with stage := .failed }
  | queried (c : RevCall) (hc : c ∈ x.calls) (ho : c.stage.Open) :
      Advanced x rev last { c with stage := .queried last }
  | reloading (c : RevCall) (hc : c ∈ x.calls) (ho : c.stage.Open) :
      Advanced x rev last { c with stage := .reloading }
  | returned (c : RevCall) (hc : c ∈ x.calls) (ho : c.stage.Open) :
      Advanced x rev last { c with stage := .returned rev }

/-- What a step can do to what was there. -/
structure Moves (x y : CachedRev) : Prop where
  rev : x.currentRev ≤ y.currentRev
  le_last : y.currentRev ≤ y.last
  last : x.last ≤ y.last
  ids : ∀ id ∈ y.ids, id ∈ x.ids ∨ id = y.last
  appends : ∀ c ∈ y.appends, c ∈ x.appends ∨ c.Within y.last
  poll : ∀ p ∈ y.poll, p ∈ x.poll ∨ p.2.Within y.last p.1
  calls : ∀ c ∈ y.calls, c ∈ x.calls ∨ Advanced x y.currentRev y.last c
  returned : ∀ r ∈ y.returned, r ∈ x.returned ∨ r = y.currentRev

theorem OK.stay (h : x.OK) : Moves x x where
  rev := le_rfl
  le_last := h.le_last
  last := le_rfl
  ids _ hid := .inl hid
  appends _ hc := .inl hc
  poll _ hp := .inl hp
  calls _ hc := .inl hc
  returned _ hr := .inl hr

theorem mem_setAppend {i : ℕ} {call c : AppendCall} (hc : c ∈ (x.setAppend i call).appends) :
    c ∈ x.appends ∨ c = call :=
  List.mem_or_eq_of_mem_set hc

theorem mem_setCall {i : ℕ} {c d : RevCall} {stage : RevStage} (hd : d ∈ (x.setCall i c stage).calls) :
    d ∈ x.calls ∨ d = { c with stage := stage } :=
  List.mem_or_eq_of_mem_set hd

theorem place_of_lt {id : ℤ} (hid : x.last < id) : x.place id = { x with ids := id :: x.ids } := by
  simp only [place, gt_iff_lt, hid, if_true]

theorem moves_place (h : x.OK) (id : ℤ) : Moves x (x.place id) := by
  by_cases hid : x.last < id
  · rw [place_of_lt hid]
    have hle := h.le_last
    exact {
      rev := le_rfl
      le_last := by show x.currentRev ≤ id; omega
      last := hid.le
      ids := fun _ hmem => (List.mem_cons.1 hmem).symm
      appends := fun _ hc => .inl hc
      poll := fun _ hp => .inl hp
      calls := fun _ hc => .inl hc
      returned := fun _ hr => .inl hr }
  · have hstay : x.place id = x := by simp only [place, gt_iff_lt, hid, if_false]
    rw [hstay]
    exact h.stay

theorem moves_append (h : x.OK) : Moves x (x.step .append) :=
  { h.stay with
    appends := fun c hc => by
      rcases List.mem_append.1 hc with hc | hc
      · exact .inl hc
      · rw [List.mem_singleton] at hc
        subst hc
        exact .inr h.le_last }

theorem moves_insert (h : x.OK) (i : ℕ) (id : ℤ) : Moves x (x.insert i id) := by
  unfold insert
  split
  · rename_i currentRev hi
    split
    · rename_i hid
      have hplace := moves_place h id
      have hlast : (x.place id).last = id := by rw [place_of_lt hid]; rfl
      have hload : currentRev ≤ x.last := h.appends _ (List.mem_of_getElem? hi)
      refine { hplace with appends := fun c hc => ?_ }
      rcases mem_setAppend hc with hc | rfl
      · exact hplace.appends c hc
      · -- the new id is above all that was in the table when the cache was loaded
        refine .inr ⟨by omega, ?_⟩
        show id ≤ (x.place id).last
        omega
    · exact h.stay
  · exact h.stay

theorem moves_insertFails (h : x.OK) (i : ℕ) : Moves x (x.insertFails i) := by
  unfold insertFails
  split
  · refine { h.stay with appends := fun c hc => ?_ }
    rcases mem_setAppend hc with hc | rfl
    · exact .inl hc
    · exact .inr trivial
  · exact h.stay

/-- A swap that expects less than it stores. -/
theorem moves_compareAndSwap (h : x.OK) {old new : ℤ} (hlt : old ≤ new) (hnew : new ≤ x.last) :
    Moves x (x.compareAndSwap old new) := by
  unfold compareAndSwap
  split
  · rename_i hold
    exact { h.stay with
      rev := by show x.currentRev ≤ new; omega
      le_last := hnew
      returned := fun _ hr => .inl hr
      calls := fun _ hc => .inl hc }
  · exact h.stay

theorem moves_swap (h : x.OK) (i : ℕ) : Moves x (x.swap i) := by
  unfold swap
  split
  · rename_i currentRev rev hi
    obtain ⟨hlt, hle⟩ : currentRev < rev ∧ rev ≤ x.last := h.appends _ (List.mem_of_getElem? hi)
    have hswap := moves_compareAndSwap h hlt.le hle
    refine { hswap with appends := fun c hc => ?_ }
    rcases mem_setAppend hc with hc | rfl
    · exact hswap.appends c hc
    · exact .inr trivial
  · exact h.stay

theorem moves_currentRevision (h : x.OK) : Moves x x.currentRevision := by
  unfold currentRevision
  split
  · refine { h.stay with calls := fun c hc => ?_, returned := fun r hr => ?_ }
    · rcases List.mem_append.1 hc with hc | hc
      · exact .inl hc
      · rw [List.mem_singleton] at hc
        subst hc
        exact .inr .hit
    · rcases List.mem_append.1 hr with hr | hr
      · exact .inl hr
      · exact .inr (List.mem_singleton.1 hr)
  · rename_i hrev
    refine { h.stay with calls := fun c hc => ?_ }
    rcases List.mem_append.1 hc with hc | hc
    · exact .inl hc
    · rw [List.mem_singleton] at hc
      subst hc
      exact .inr (.miss (not_not.1 hrev))

theorem moves_query (h : x.OK) (i : ℕ) (fails : Bool) : Moves x (x.query i fails) := by
  unfold query
  split
  · rename_i written earlier hi
    refine { h.stay with calls := fun d hd => ?_ }
    rcases mem_setCall hd with hd | rfl
    · exact .inl hd
    · right
      cases fails with
      | true => exact .failed _
      | false => exact .queried _ (List.mem_of_getElem? hi) trivial
  · exact h.stay

theorem moves_returns (h : x.OK) {i : ℕ} {c : RevCall} (hc : c ∈ x.calls) (ho : c.stage.Open) :
    Moves x (x.returns i c x.currentRev) := by
  refine { h.stay with calls := fun d hd => ?_, returned := fun r hr => ?_ }
  · rcases mem_setCall hd with hd | rfl
    · exact .inl hd
    · exact .inr (.returned c hc ho)
  · rcases List.mem_append.1 hr with hr | hr
    · exact .inl hr
    · exact .inr (List.mem_singleton.1 hr)

theorem moves_storeRev (h : x.OK) (i : ℕ) : Moves x (x.storeRev i) := by
  unfold storeRev
  split
  · rename_i written earlier lastRev hi
    obtain ⟨hpos, hle⟩ : 0 ≤ lastRev ∧ lastRev ≤ x.last := h.within _ (List.mem_of_getElem? hi)
    split
    · rename_i hzero
      have hswap := moves_compareAndSwap h hpos hle
      have hrev : (x.compareAndSwap 0 lastRev).currentRev = lastRev := by
        simp only [compareAndSwap, hzero, if_true]
      refine { hswap with calls := fun d hd => ?_, returned := fun r hr => ?_ }
      · rcases mem_setCall hd with hd | rfl
        · exact hswap.calls d hd
        · right
          show Advanced x (x.compareAndSwap 0 lastRev).currentRev _ _
          rw [hrev]
          exact .returned ⟨written, earlier, .queried lastRev⟩ (List.mem_of_getElem? hi) trivial
      · rcases List.mem_append.1 hr with hr | hr
        · exact hswap.returned r hr
        · exact .inr ((List.mem_singleton.1 hr).trans hrev.symm)
    · refine { h.stay with calls := fun d hd => ?_ }
      rcases mem_setCall hd with hd | rfl
      · exact .inl hd
      · exact .inr (.reloading _ (List.mem_of_getElem? hi) trivial)
  · exact h.stay

theorem moves_reload (h : x.OK) (i : ℕ) : Moves x (x.reload i) := by
  unfold reload
  split
  · rename_i written earlier hi
    exact moves_returns h (List.mem_of_getElem? hi) trivial
  · exact h.stay

theorem moves_start (h : x.OK) : Moves x x.start := by
  unfold start
  split
  · refine { h.stay with poll := ?_ }
    rintro _ ⟨⟩
    exact .inr trivial
  · exact h.stay

theorem moves_pass (h : x.OK) (rev : ℤ) : Moves x (x.pass rev) := by
  unfold pass
  split
  · split
    · rename_i hrev
      refine { h.stay with poll := ?_ }
      rintro _ ⟨⟩
      exact .inr ⟨hrev.2, h.ids rev hrev.1⟩
    · exact h.stay
  · exact h.stay

theorem moves_storePolled (h : x.OK) : Moves x x.storePolled := by
  unfold storePolled
  split
  · rename_i pollRevision rev hp
    obtain ⟨hlt, hle⟩ : pollRevision < rev ∧ rev ≤ x.last := h.poll _ hp
    refine { moves_compareAndSwap h hlt.le hle with poll := ?_ }
    rintro _ ⟨⟩
    exact .inr trivial
  · exact h.stay

theorem moves_hand (h : x.OK) : Moves x x.hand := by
  unfold hand
  split
  · refine { h.stay with poll := ?_ }
    rintro _ ⟨⟩
    exact .inr trivial
  · exact h.stay

theorem step_moves (h : x.OK) (a : Act) : Moves x (x.step a) := by
  cases a with
  | place id => exact moves_place h id
  | append => exact moves_append h
  | insert i id => exact moves_insert h i id
  | insertFails i => exact moves_insertFails h i
  | swap i => exact moves_swap h i
  | currentRevision => exact moves_currentRevision h
  | query i => exact moves_query h i false
  | queryFails i => exact moves_query h i true
  | storeRev i => exact moves_storeRev h i
  | reload i => exact moves_reload h i
  | start => exact moves_start h
  | pass rev => exact moves_pass h rev
  | storePolled => exact moves_storePolled h
  | hand => exact moves_hand h

/-! ## The invariants -/

/-- A call covers what it has to, if the cached revision covered it when the call began and no
call that is on its way has more than zero to cover. `known` reads either list of a call. -/
theorem Advanced.above {rev last : ℤ} {c : RevCall} (hadv : Advanced x rev last c) (known : RevCall → List ℤ)
    (hstage : ∀ (c : RevCall) stage, known { c with stage := stage } = known c)
    (hnew : ∀ stage, ∀ r ∈ known ⟨x.written, x.returned, stage⟩, r ≤ x.currentRev)
    (hcalls : ∀ c ∈ x.calls, c.stage.Above (known c)) (hrev : x.currentRev ≤ rev) (hpos : 0 ≤ rev) :
    c.stage.Above (known c) := by
  have hopen : ∀ c ∈ x.calls, c.stage.Open → ∀ r ∈ known c, r ≤ 0 := by
    intro c hc ho
    have habove := hcalls c hc
    cases hst : c.stage with
    | querying | queried | reloading => rw [hst] at habove; exact habove
    | returned | failed => rw [hst] at ho; exact ho.elim
  cases hadv with
  | hit => exact fun r hr => (hnew _ r hr).trans hrev
  | miss hzero => exact fun r hr => (hnew _ r hr).trans hzero.le
  | failed c => trivial
  | queried c hc ho | reloading c hc ho => rw [hstage]; exact hopen c hc ho
  | returned c hc ho => rw [hstage]; exact fun r hr => (hopen c hc ho r hr).trans hpos

theorem AppendCall.Within.mono {last last' : ℤ} (hle : last ≤ last') {c : AppendCall} (hc : c.Within last) :
    c.Within last' := by
  cases c with
  | loaded currentRev => exact le_trans hc hle
  | inserted currentRev rev => exact ⟨hc.1, hc.2.trans hle⟩
  | returned | failed => trivial

theorem PollPhase.Within.mono {last last' p : ℤ} (hle : last ≤ last') {phase : PollPhase}
    (hp : phase.Within last p) : phase.Within last' p := by
  cases phase with
  | passed rev => exact ⟨hp.1, hp.2.trans hle⟩
  | idle | stored => trivial

theorem RevStage.Within.mono {last last' : ℤ} (hle : last ≤ last') {stage : RevStage} (hs : stage.Within last) :
    stage.Within last' := by
  cases stage with
  | queried lastRev => exact ⟨hs.1, hs.2.trans hle⟩
  | querying | reloading | returned | failed => trivial

theorem Advanced.within {rev last : ℤ} {c : RevCall} (hadv : Advanced x rev last c) (hlast : 0 ≤ last) :
    c.stage.Within last := by
  cases hadv with
  | queried c hc ho => exact ⟨hlast, le_rfl⟩
  | hit | miss | failed | reloading | returned => trivial

theorem OK.moves (h : x.OK) (hm : Moves x y) : y.OK where
  nonneg := h.nonneg.trans hm.rev
  le_last := hm.le_last
  ids id hid := by
    rcases hm.ids id hid with hid | rfl
    · exact (h.ids id hid).trans hm.last
    · exact le_rfl
  appends c hc := by
    rcases hm.appends c hc with hc | hc
    · exact AppendCall.Within.mono hm.last (h.appends c hc)
    · exact hc
  poll p hp := by
    rcases hm.poll p hp with hp | hp
    · exact PollPhase.Within.mono hm.last (h.poll p hp)
    · exact hp
  within c hc := by
    rcases hm.calls c hc with hc | hc
    · exact RevStage.Within.mono hm.last (h.within c hc)
    · exact hc.within ((h.nonneg.trans hm.rev).trans hm.le_last)
  returned r hr := by
    rcases hm.returned r hr with hr | rfl
    · exact (h.returned r hr).trans hm.rev
    · exact le_rfl
  earlier c hc := by
    rcases hm.calls c hc with hc | hc
    · exact h.earlier c hc
    · exact hc.above RevCall.earlier (fun _ _ => rfl) (fun _ => h.returned) h.earlier hm.rev
        (h.nonneg.trans hm.rev)

/-- What a step adds to the completed writes: what an append or the poll loop has swapped, or
the batch that the poll loop hands on. -/
structure Writes (x y : CachedRev) : Prop where
  written : ∀ r ∈ y.written, r ∈ x.written ∨ r ≤ y.currentRev
  stored : ∀ pollRevision rev, y.poll = some (pollRevision, .stored rev) →
    x.poll = some (pollRevision, .stored rev) ∨ rev ≤ y.currentRev

theorem Covered.moves (hc : x.Covered) (h : x.OK) (hm : Moves x y) (hw : Writes x y) : y.Covered where
  written r hr := by
    rcases hw.written r hr with hr | hr
    · exact (hc.written r hr).trans hm.rev
    · exact hr
  stored p rev hp := by
    rcases hw.stored p rev hp with hp | hp
    · exact (hc.stored p rev hp).trans hm.rev
    · exact hp
  calls c hcall := by
    rcases hm.calls c hcall with hcall | hcall
    · exact hc.calls c hcall
    · exact hcall.above RevCall.written (fun _ _ => rfl) (fun _ => hc.written) hc.calls hm.rev
        (h.nonneg.trans hm.rev)

theorem Writes.of_eq (hw : y.written = x.written) (hp : y.poll = x.poll) : Writes x y where
  written _ hr := .inl (hw ▸ hr)
  stored _ _ hst := .inl (hp ▸ hst)

/-- A swap that is not lost leaves at least the value it has to store. -/
theorem le_compareAndSwap {old new : ℤ} (h : x.currentRev = old ∨ new ≤ x.currentRev) :
    new ≤ (x.compareAndSwap old new).currentRev := by
  unfold compareAndSwap
  split
  · exact le_rfl
  · rename_i hne
    exact h.resolve_left hne

theorem compareAndSwap_written (old new : ℤ) : (x.compareAndSwap old new).written = x.written := by
  unfold compareAndSwap
  split <;> rfl

theorem compareAndSwap_poll (old new : ℤ) : (x.compareAndSwap old new).poll = x.poll := by
  unfold compareAndSwap
  split <;> rfl

theorem writes_swap {i : ℕ} (hs : x.Swaps (.swap i)) : Writes x (x.swap i) := by
  unfold swap
  split
  · rename_i currentRev rev hi
    refine ⟨fun r hr => ?_, fun p r hst => .inl (compareAndSwap_poll currentRev rev ▸ hst)⟩
    rcases List.mem_append.1 hr with hr | hr
    · exact .inl hr
    · rw [List.mem_singleton] at hr
      subst hr
      exact .inr (le_compareAndSwap (hs.1 i currentRev r rfl hi))
  · exact .of_eq rfl rfl

theorem writes_storePolled (hs : x.Swaps .storePolled) : Writes x x.storePolled := by
  unfold storePolled
  split
  · rename_i pollRevision rev hp
    refine ⟨fun r hr => .inl (compareAndSwap_written pollRevision rev ▸ hr), ?_⟩
    rintro _ _ ⟨⟩
    exact .inr (le_compareAndSwap (hs.2 pollRevision rev rfl hp))
  · exact .of_eq rfl rfl

theorem writes_hand (hc : x.Covered) : Writes x x.hand := by
  unfold hand
  split
  · rename_i pollRevision rev hp
    refine ⟨fun r hr => ?_, by rintro _ _ ⟨⟩⟩
    rcases List.mem_append.1 hr with hr | hr
    · exact .inl hr
    · rw [List.mem_singleton] at hr
      subst hr
      exact .inr (hc.stored pollRevision r hp)
  · exact .of_eq rfl rfl

theorem writes_start : Writes x x.start := by
  unfold start
  split
  · exact ⟨fun r hr => .inl hr, by rintro _ _ ⟨⟩⟩
  · exact .of_eq rfl rfl

theorem writes_pass (rev : ℤ) : Writes x (x.pass rev) := by
  unfold pass
  split
  · split
    · exact ⟨fun r hr => .inl hr, by rintro _ _ ⟨⟩⟩
    · exact .of_eq rfl rfl
  · exact .of_eq rfl rfl

theorem place_frame (id : ℤ) : (x.place id).written = x.written ∧ (x.place id).poll = x.poll := by
  unfold place
  split <;> exact ⟨rfl, rfl⟩

theorem step_writes (hc : x.Covered) (a : Act) (hs : x.Swaps a) : Writes x (x.step a) := by
  cases a with
  | swap i => exact writes_swap hs
  | storePolled => exact writes_storePolled hs
  | hand => exact writes_hand hc
  | start => exact writes_start
  | pass rev => exact writes_pass rev
  | append => exact .of_eq rfl rfl
  | place id => exact .of_eq (place_frame id).1 (place_frame id).2
  -- the other steps leave the poll loop and the completed writes alone
  | insert i id =>
    obtain ⟨hw, hp⟩ := place_frame (x := x) id
    show Writes x (x.insert i id)
    unfold insert
    split
    · split
      · exact .of_eq hw hp
      · exact .of_eq rfl rfl
    · exact .of_eq rfl rfl
  | insertFails i =>
    show Writes x (x.insertFails i)
    unfold insertFails
    split <;> exact .of_eq rfl rfl
  | currentRevision =>
    show Writes x x.currentRevision
    unfold currentRevision
    split <;> exact .of_eq rfl rfl
  | query i | queryFails i =>
    simp only [step, query]
    split <;> exact .of_eq rfl rfl
  | storeRev i =>
    show Writes x (x.storeRev i)
    unfold storeRev
    split
    · split
      · exact .of_eq (compareAndSwap_written _ _) (compareAndSwap_poll _ _)
      · exact .of_eq rfl rfl
    · exact .of_eq rfl rfl
  | reload i =>
    show Writes x (x.reload i)
    unfold reload
    split <;> exact .of_eq rfl rfl

/-! ## Runs -/

theorem init_ok : init.OK where
  nonneg := le_rfl
  le_last := le_rfl
  ids := by simp [init]
  appends := by simp [init]
  poll := by simp [init]
  within := by simp [init]
  returned := by simp [init]
  earlier := by simp [init]

theorem init_covered : init.Covered where
  written := by simp [init]
  stored := by simp [init]
  calls := by simp [init]

theorem OK.neverDecreases (h : x.OK) : x.NeverDecreases := by
  intro c hc rev hst
  have habove := h.earlier c hc
  rw [hst] at habove
  exact habove

theorem Covered.coversWrites (h : x.Covered) : x.CoversWrites := by
  intro c hc rev hst
  have habove := h.calls c hc
  rw [hst] at habove
  exact habove

/-- **What `CurrentRevision` returns never decreases**, and in a run in which no swap of
`Append` and of the poll loop is lost it is at least what the calls of `Append` have returned
and the poll loop has handed on before. -/
theorem revision_current (acts : List Act) :
    Lts.Always step NeverDecreases init acts ∧
      (Lts.Guarded step Swaps init acts → Lts.Always step (fun x => x.NeverDecreases ∧ x.CoversWrites) init acts) := by
  constructor
  · have hok : Lts.Always step OK init acts :=
      Lts.invariant (fun x a hx => hx.moves (step_moves hx a)) acts _ init_ok
    exact hok.mono fun x hx => hx.neverDecreases
  · intro hs
    have hok : Lts.Always step (fun x => x.OK ∧ x.Covered) init acts := Lts.invariant_of_guarded
      (fun x a ha hx => ⟨hx.1.moves (step_moves hx.1 a),
        hx.2.moves hx.1 (step_moves hx.1 a) (step_writes hx.2 a ha)⟩) acts _ ⟨init_ok, init_covered⟩ hs
    exact hok.mono fun x hx => ⟨hx.1.neverDecreases, hx.2.coversWrites⟩

/-- Two calls of `Append`, one after the other, a poll loop that starts in between and passes
the second row, and a call of `CurrentRevision`. -/
def sequentialRun : List Act :=
  [.append, .insert 0 1, .swap 0, .start, .append, .insert 1 2, .swap 1, .pass 2, .storePolled, .hand,
    .currentRevision]

theorem revision_current_sequential : Lts.Always step (fun x => x.NeverDecreases ∧ x.CoversWrites) init
    sequentialRun ∧ (Lts.exec step init sequentialRun).calls = [⟨[1, 2, 2], [], .returned 2⟩] := by
  refine ⟨(revision_current sequentialRun).2 ?_, by decide +kernel⟩
  refine ⟨⟨nofun, nofun⟩, ⟨nofun, nofun⟩, ⟨?_, nofun⟩, ⟨nofun, nofun⟩, ⟨nofun, nofun⟩, ⟨nofun, nofun⟩,
    ⟨?_, nofun⟩, ⟨nofun, nofun⟩, ⟨nofun, ?_⟩, ⟨nofun, nofun⟩, ⟨nofun, nofun⟩, trivial⟩
  · rintro _ _ _ ⟨⟩ ⟨⟩
    exact .inl rfl
  · rintro _ _ _ ⟨⟩ ⟨⟩
    exact .inl rfl
  · -- the append has already stored the revision that the poll loop stores
    rintro _ _ _ ⟨⟩
    exact .inr (by decide)

/-- The second call of `Append` loads the cached revision before the first one swaps it. -/
def overlappingRun : List Act :=
  [.append, .append, .insert 0 1, .insert 1 2, .swap 0, .swap 1, .currentRevision]

/-- **A lost swap**: the second `Append` has returned 2, and `CurrentRevision` returns 1. -/
theorem append_uncovered :
    (Lts.exec step init overlappingRun).calls = [⟨[1, 2], [], .returned 1⟩] ∧
      ¬ (Lts.exec step init overlappingRun).CoversWrites := by
  have hcalls : (Lts.exec step init overlappingRun).calls = [⟨[1, 2], [], .returned 1⟩] := by decide +kernel
  refine ⟨hcalls, fun hcovers => ?_⟩
  have hle : (2 : ℤ) ≤ 1 := hcovers ⟨[1, 2], [], .returned 1⟩ (by rw [hcalls]; simp) 1 rfl 2 (by simp)
  omega

end CachedRev

end Harikube
