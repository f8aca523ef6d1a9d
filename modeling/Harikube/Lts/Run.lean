import Mathlib

/-!
# Runs of a step function

A system is a step function on states and actions; a run is a list of actions.

* `Always`: a property of every state a run passes through.
* `Guarded`: a condition on every step of a run, read in the state before it.
* `invariant_of_guarded`: a property that the steps meeting the condition keep holds
  in every state of a run of such steps; `invariant`: one that every step keeps.
* `always_iff_guarded_of`, `always_iff_guarded`: if a step keeps the property exactly when
  it meets the condition, then the runs with the property are the runs of such steps.
* `guarded_iff_guarded_of`, `guarded_iff_guarded`: two conditions that agree on every step that
  such a run can get to.
* `Reaches`, `reaches_of_measure`: what can be reached by steps that meet the condition,
  as long as there is one that makes a measure smaller.
-/

namespace Harikube.Lts

variable {σ α : Type*} (step : σ → α → σ)

/-- The state after a run. -/
def exec (s : σ) (acts : List α) : σ := acts.foldl step s

/-- `P` holds in every state of the run, the first and the last included. -/
def Always (P : σ → Prop) : σ → List α → Prop
  | s, [] => P s
  | s, a :: acts => P s ∧ Always P (step s a) acts

/-- `G` holds of every step of the run. -/
def Guarded (G : σ → α → Prop) : σ → List α → Prop
  | _, [] => True
  | s, a :: acts => G s a ∧ Guarded G (step s a) acts

variable {step} {I P : σ → Prop} {G : σ → α → Prop}

@[simp] theorem exec_nil (s : σ) : exec step s [] = s := rfl

@[simp] theorem exec_cons (s : σ) (a : α) (acts : List α) :
    exec step s (a :: acts) = exec step (step s a) acts := rfl

theorem exec_append (s : σ) (pre post : List α) :
    exec step s (pre ++ post) = exec step (exec step s pre) post := List.foldl_append

theorem Always.mono {Q : σ → Prop} {acts : List α} :
    ∀ {s}, Always step P s acts → (∀ s, P s → Q s) → Always step Q s acts := by
  induction acts with
  | nil => intro s hs hPQ; exact hPQ s hs
  | cons a acts ih =>
    rintro s ⟨hs, hal⟩ hPQ
    exact ⟨hPQ s hs, ih hal hPQ⟩

theorem Always.last {acts : List α} : ∀ {s}, Always step P s acts → P (exec step s acts) := by
  induction acts with
  | nil => intro s hs; exact hs
  | cons a acts ih => rintro s ⟨-, hal⟩; exact ih hal

theorem invariant_of_guarded (hI : ∀ s a, G s a → I s → I (step s a)) (acts : List α) :
    ∀ s, I s → Guarded step G s acts → Always step I s acts := by
  induction acts with
  | nil => intro s hs _; exact hs
  | cons a acts ih =>
    rintro s hs ⟨ha, hg⟩
    exact ⟨hs, ih (step s a) (hI s a ha hs) hg⟩

/-- **The runs with a property are the runs of the steps that keep it**, among the runs
whose steps meet an assumption `A`. `I` holds in every state of such a run and may be used
for the one-step equivalence. -/
theorem always_iff_guarded_of {A : σ → α → Prop} (hI : ∀ s a, A s a → I s → I (step s a))
    (hP : ∀ s a, A s a → I s → P s → (P (step s a) ↔ G s a)) (acts : List α) :
    ∀ s, I s → P s → Guarded step A s acts → (Always step P s acts ↔ Guarded step G s acts) := by
  induction acts with
  | nil => intro s _ hs _; exact ⟨fun _ => trivial, fun _ => hs⟩
  | cons a acts ih =>
    rintro s hi hs ⟨ha, hacts⟩
    constructor
    · rintro ⟨-, hal⟩
      have hnext : P (step s a) := by
        cases acts with
        | nil => exact hal
        | cons b acts => exact hal.1
      exact ⟨(hP s a ha hi hs).1 hnext, (ih _ (hI s a ha hi) hnext hacts).1 hal⟩
    · rintro ⟨hg, hgs⟩
      have hnext := (hP s a ha hi hs).2 hg
      exact ⟨hs, (ih _ (hI s a ha hi) hnext hacts).2 hgs⟩

/-- Two conditions that agree on every step from a state with `I`, where a step that meets
them keeps `I`, select the same runs, among the runs whose steps meet an assumption `A`. -/
theorem guarded_iff_guarded_of {A H : σ → α → Prop} (hG : ∀ s a, A s a → I s → (G s a ↔ H s a))
    (hI : ∀ s a, A s a → I s → G s a → I (step s a)) (acts : List α) :
    ∀ s, I s → Guarded step A s acts → (Guarded step G s acts ↔ Guarded step H s acts) := by
  induction acts with
  | nil => intro s _ _; exact Iff.rfl
  | cons a acts ih =>
    rintro s hs ⟨hA, hAs⟩
    constructor
    · rintro ⟨ha, hacts⟩
      exact ⟨(hG s a hA hs).1 ha, (ih _ (hI s a hA hs ha) hAs).1 hacts⟩
    · rintro ⟨ha, hacts⟩
      have ha' := (hG s a hA hs).2 ha
      exact ⟨ha', (ih _ (hI s a hA hs ha') hAs).2 hacts⟩

theorem guarded_of_forall (hG : ∀ s a, G s a) (acts : List α) : ∀ s, Guarded step G s acts := by
  induction acts with
  | nil => intro s; trivial
  | cons a acts ih => intro s; exact ⟨hG s a, ih (step s a)⟩

theorem guarded_iff_guarded {H : σ → α → Prop} (hG : ∀ s a, I s → (G s a ↔ H s a))
    (hI : ∀ s a, I s → G s a → I (step s a)) (acts : List α) (s : σ) (hs : I s) :
    Guarded step G s acts ↔ Guarded step H s acts :=
  guarded_iff_guarded_of (A := fun _ _ => True) (fun s a _ => hG s a) (fun s a _ => hI s a) acts s hs
    (guarded_of_forall (fun _ _ => trivial) acts s)

/-- A condition that the actions of a run meet in any state. -/
theorem guarded_of_mem (acts : List α) (hG : ∀ a ∈ acts, ∀ s, G s a) : ∀ s, Guarded step G s acts := by
  induction acts with
  | nil => intro s; trivial
  | cons a acts ih =>
    intro s
    exact ⟨hG a List.mem_cons_self s, ih (fun b hb => hG b (List.mem_cons_of_mem _ hb)) (step s a)⟩

/-- **An invariant**: what every step keeps holds in every state of a run. -/
theorem invariant (hI : ∀ s a, I s → I (step s a)) (acts : List α) (s : σ) (hs : I s) : Always step I s acts :=
  invariant_of_guarded (G := fun _ _ => True) (fun s a _ => hI s a) acts s hs
    (guarded_of_forall (fun _ _ => trivial) acts s)

/-- What the steps that meet a condition do, in states with an invariant that they keep. -/
theorem Guarded.of_invariant {H : σ → α → Prop} (hI : ∀ s a, G s a → I s → I (step s a))
    (hH : ∀ s a, G s a → I s → H s a) (acts : List α) : ∀ {s}, I s → Guarded step G s acts → Guarded step H s acts := by
  induction acts with
  | nil => intro s _ _; trivial
  | cons a acts ih =>
    rintro s hs ⟨ha, hacts⟩
    exact ⟨hH s a ha hs, ih (hI s a ha hs) hacts⟩

theorem Guarded.and {G' : σ → α → Prop} (acts : List α) : ∀ {s}, Guarded step G s acts → Guarded step G' s acts →
    Guarded step (fun s a => G s a ∧ G' s a) s acts := by
  induction acts with
  | nil => intro s _ _; trivial
  | cons a acts ih =>
    rintro s ⟨ha, hacts⟩ ⟨ha', hacts'⟩
    exact ⟨⟨ha, ha'⟩, ih hacts hacts'⟩

theorem always_iff_guarded (hI : ∀ s a, I s → I (step s a))
    (hP : ∀ s a, I s → P s → (P (step s a) ↔ G s a)) (acts : List α) (s : σ) (hs : I s) (hPs : P s) :
    Always step P s acts ↔ Guarded step G s acts :=
  always_iff_guarded_of (A := fun _ _ => True) (fun s a _ => hI s a) (fun s a _ => hP s a) acts s hs hPs
    (guarded_of_forall (fun _ _ => trivial) acts s)

/-! ## Reachability -/

/-- Steps that meet the condition lead from one state to the other. -/
def Reaches (step : σ → α → σ) (G : σ → α → Prop) (s s' : σ) : Prop :=
  ∃ acts, Guarded step G s acts ∧ exec step s acts = s'

theorem Reaches.refl (s : σ) : Reaches step G s s := ⟨[], trivial, rfl⟩

theorem Reaches.single {s : σ} {a : α} (ha : G s a) : Reaches step G s (step s a) := ⟨[a], ⟨ha, trivial⟩, rfl⟩

theorem Guarded.append {post : List α} (pre : List α) :
    ∀ {s}, Guarded step G s pre → Guarded step G (exec step s pre) post → Guarded step G s (pre ++ post) := by
  induction pre with
  | nil => intro s _ h; exact h
  | cons a pre ih => rintro s ⟨ha, hpre⟩ hpost; exact ⟨ha, ih hpre hpost⟩

theorem Reaches.trans {s s' s'' : σ} (h : Reaches step G s s') (h' : Reaches step G s' s'') :
    Reaches step G s s'' := by
  obtain ⟨pre, hpre, rfl⟩ := h
  obtain ⟨post, hpost, rfl⟩ := h'
  exact ⟨pre ++ post, hpre.append pre hpost, exec_append s pre post⟩

/-- **A measure that can always be made smaller**, as long as the goal is not reached. -/
theorem reaches_of_measure {goal : σ → Prop} (μ : σ → ℕ)
    (hμ : ∀ s, I s → ¬ goal s → ∃ s', Reaches step G s s' ∧ I s' ∧ μ s' < μ s) {s : σ} (hs : I s) :
    ∃ s', Reaches step G s s' ∧ I s' ∧ goal s' := by
  by_cases hg : goal s
  · exact ⟨s, .refl s, hs, hg⟩
  · obtain ⟨t, ht, hI, hlt⟩ := hμ s hs hg
    obtain ⟨u, hu, hu'⟩ := reaches_of_measure μ hμ hI
    exact ⟨u, ht.trans hu, hu'⟩
termination_by μ s

end Harikube.Lts
