import Harikube.Lts.Run
import Harikube.Proof.ExpireHeap

/-!
# The loop of the expire watcher

* `wakes_for_top`: there is no lost wake-up. Whenever the loop can only wait and no caller is about
  to signal, a timer is running for the earliest expiry of the heap.
* `entries_accounted`: every added entry is in the heap, or was removed, or the callback was called
  with it, once and not before it was due.
-/

namespace Harikube.ExpireWatcher

open Lts

variable {x : ExpireWatcher}

/-- No value is in `wakeCh` and no caller is about to send one. -/
def Quiet (x : ExpireWatcher) : Prop := x.wakeCh = false ∧ x.signals = 0

/-- What the loop knows about the heap where it is, as long as nobody has signalled since. -/
def Watched (x : ExpireWatcher) : Prop :=
  match x.loop with
  | .peeked next => x.Quiet → ∀ e ∈ x.heap.entries, ∃ t ∈ next, t.expires ≤ e.expires
  | .waiting expires wait => expires ≤ x.now + wait ∧ (x.Quiet → ∀ e ∈ x.heap.entries, expires ≤ e.expires)
  | .select => x.Quiet → x.heap.entries = [] ∨ ∃ t, x.timer = some t ∧ t.state ≠ .received ∧
      t.expires ≤ t.deadline ∧ ∀ e ∈ x.heap.entries, t.expires ≤ e.expires
  | _ => True

/-- A step that does not move the loop: after it somebody has to signal, or the heap is the same and
the timer has not been received. -/
theorem Watched.stays (h : x.Watched) {x' : ExpireWatcher} (hloop : x'.loop = x.loop) (hnow : x.now ≤ x'.now)
    (hq : x'.Quiet → x.Quiet ∧ x'.heap = x.heap ∧ ∀ t ∈ x.timer, t.state ≠ .received →
      ∃ t' ∈ x'.timer, t'.state ≠ .received ∧ t'.expires = t.expires ∧ t'.deadline = t.deadline) : x'.Watched := by
  unfold Watched at h ⊢
  rw [hloop]
  cases hx : x.loop with
  | peeked next =>
    rw [hx] at h
    intro hquiet
    obtain ⟨hold, hheap, -⟩ := hq hquiet
    rw [hheap]
    exact h hold
  | waiting expires wait =>
    rw [hx] at h
    have hle := h.1
    refine ⟨by omega, fun hquiet => ?_⟩
    obtain ⟨hold, hheap, -⟩ := hq hquiet
    rw [hheap]
    exact h.2 hold
  | select =>
    rw [hx] at h
    intro hquiet
    obtain ⟨hold, hheap, htimer⟩ := hq hquiet
    rw [hheap]
    rcases h hold with hnil | ⟨t, ht, hstate, hdead, hall⟩
    · exact .inl hnil
    · obtain ⟨t', ht', hstate', hexp, hdead'⟩ := htimer t ht hstate
      exact .inr ⟨t', ht', hstate', by omega, fun e he => hexp ▸ hall e he⟩
  | _ => trivial

theorem Watched.fires (h : x.Watched) : x.fires.Watched := by
  unfold ExpireWatcher.fires
  split
  · rename_i t ht
    split
    · rename_i hrun
      refine h.stays rfl le_rfl fun hq => ⟨hq, rfl, fun t' ht' _ => ⟨_, rfl, TimerState.noConfusion, ?_⟩⟩
      have heq : t = t' := Option.some.inj (ht.symm.trans ht')
      exact ⟨by rw [heq], by rw [heq]⟩
    · exact h
  · exact h

theorem Watched.run (h : x.Watched) : x.run.Watched := by
  unfold ExpireWatcher.run
  split
  · -- `Peek` reads the top
    intro _ e he
    cases hp : x.heap.peek with
    | none =>
      rw [ExpireHeap.peek_eq_none_iff.1 hp] at he
      exact absurd he List.not_mem_nil
    | some t => exact ⟨t, rfl, ExpireHeap.peek_le hp e he⟩
  · rename_i hloop
    intro hq
    rw [Watched, hloop] at h
    refine .inl (List.eq_nil_iff_forall_not_mem.2 fun e he => ?_)
    obtain ⟨t, ht, -⟩ := h hq e he
    cases ht
  · rename_i t hloop
    rw [Watched, hloop] at h
    split
    · trivial
    · refine ⟨?_, fun hq e he => ?_⟩
      · show t.expires ≤ x.now + (t.expires - x.now)
        omega
      · obtain ⟨t', ht', hle⟩ := h hq e he
        cases ht'
        exact hle
  · rename_i expires wait hloop
    rw [Watched, hloop] at h
    exact fun hq => .inr ⟨⟨expires, x.now + wait, .running⟩, rfl, TimerState.noConfusion, h.1, h.2 hq⟩
  · trivial
  · split
    · trivial
    · split <;> trivial
  · trivial
  · exact h
  · exact h

theorem Watched.step (h : x.Watched) (a : Act) : (x.step a).Watched := by
  have hsame : ∀ t ∈ x.timer, t.state ≠ .received →
      ∃ t' ∈ x.timer, t'.state ≠ .received ∧ t'.expires = t.expires ∧ t'.deadline = t.deadline :=
    fun t ht hr => ⟨t, ht, hr, rfl, rfl⟩
  cases a with
  | passes d => exact h.stays rfl (by show x.now ≤ x.now + d; omega) fun hq => ⟨hq, rfl, hsame⟩
  | add entry => exact h.stays rfl le_rfl fun hq => absurd hq.2 (Nat.succ_ne_zero _)
  | removeKey key =>
    simp only [ExpireWatcher.step, ExpireWatcher.removeKey]
    split
    · exact h
    · exact h.stays rfl le_rfl fun hq => absurd hq.2 (Nat.succ_ne_zero _)
  | signal =>
    simp only [ExpireWatcher.step, ExpireWatcher.signal]
    split
    · exact h
    · exact h.stays rfl le_rfl fun hq => Bool.noConfusion hq.1
  | cancel => exact h.stays rfl le_rfl fun hq => ⟨hq, rfl, hsame⟩
  | fires => exact h.fires
  | run => exact h.run
  | receiveDone | receiveWake =>
    simp only [ExpireWatcher.step, ExpireWatcher.receiveDone, ExpireWatcher.receiveWake]
    split
    · trivial
    · exact h
  | receiveTimer =>
    simp only [ExpireWatcher.step, ExpireWatcher.receiveTimer]
    split
    · split
      · trivial
      · exact h
    · exact h

/-- **No lost wake-up**: in every run, when the loop can only wait, no caller is between its change
of the heap and its signal, and the heap is not empty, a timer is running that was set for an
expiry no later than that of any entry. -/
theorem wakes_for_top (now : ℤ) (acts : List Act) :
    Always step (fun x => x.Blocked → x.signals = 0 → x.heap.entries ≠ [] → x.ArmedForTop) (init now) acts := by
  refine (invariant (I := Watched) (fun x a h => h.step a) acts (init now) trivial).mono ?_
  rintro x hx ⟨hloop, hwake, -, hfired⟩ hsig hne
  rw [Watched, hloop] at hx
  obtain ⟨t, ht, hrec, hdead, hall⟩ := (hx ⟨hwake, hsig⟩).resolve_left hne
  have hstate : t.state = .running := by
    have hnot := hfired t ht
    cases hs : t.state with
    | running => rfl
    | fired => exact absurd hs hnot
    | received => exact absurd hs hrec
  exact ⟨t, ht, hstate, hdead, hall⟩

/-! ## The entries -/

/-- The entries that have been added. -/
def known (x : ExpireWatcher) : List ExpireEntry := x.heap.entries ++ x.removed ++ x.calls.map Prod.fst

/-- The time of the pass of `processExpired` that the loop is in. -/
def passTime : WatcherLoop → Option ℤ
  | .taking now => some now
  | .callback _ now => some now
  | _ => none

/-- The time of a pass is not ahead of the clock, and no call was made before its entry was due. -/
structure Timely (x : ExpireWatcher) : Prop where
  pass : ∀ now ∈ passTime x.loop, now ≤ x.now
  calls : ∀ c ∈ x.calls, c.1.expires ≤ c.2

/-- What every step but `run` does: it makes no call, stays in its pass or outside, and adds the
entries `es` to those that were not taken for a call. -/
structure Unmoved (x x' : ExpireWatcher) (es : List ExpireEntry) : Prop where
  calls : x'.calls = x.calls
  now : x.now ≤ x'.now
  pass : passTime x'.loop = passTime x.loop
  entries : (x'.heap.entries ++ x'.removed).Perm (es ++ (x.heap.entries ++ x.removed))

theorem Unmoved.same : Unmoved x x [] := ⟨rfl, le_rfl, rfl, .refl _⟩

theorem step_unmoved {a : Act} (ha : a ≠ .run) : Unmoved x (x.step a) (added [a]) := by
  cases a with
  | passes d => exact { Unmoved.same with now := by show x.now ≤ x.now + d; omega }
  | add e => exact { Unmoved.same with entries := (ExpireHeap.add_perm x.heap e).append_right x.removed }
  | removeKey key =>
    simp only [step, removeKey]
    split
    · exact .same
    · refine { Unmoved.same with entries := ?_ }
      rw [← List.append_assoc]
      refine List.perm_append_comm.trans ?_
      rw [← List.append_assoc]
      exact (ExpireHeap.removeByKey_perm x.heap key).append_right x.removed
  | signal => simp only [step, signal]; split <;> exact { Unmoved.same with }
  | cancel => exact { Unmoved.same with }
  | fires =>
    simp only [step, fires]
    split
    · split <;> exact { Unmoved.same with }
    · exact .same
  | run => exact absurd rfl ha
  | receiveDone | receiveWake =>
    simp only [step, receiveDone, receiveWake]
    split
    · rename_i h
      exact { Unmoved.same with pass := by rw [h.1]; rfl }
    · exact .same
  | receiveTimer =>
    simp only [step, receiveTimer]
    split
    · split
      · rename_i h
        exact { Unmoved.same with pass := by rw [h.1]; rfl }
      · exact .same
    · exact .same

/-- What `run` does: it makes no call, or takes a due entry of the heap and calls back with it. -/
theorem run_cases (x : ExpireWatcher) :
    (x.run.calls = x.calls ∧ x.run.heap = x.heap ∧ ∀ now ∈ passTime x.run.loop, now ≤ x.now ∨ now ∈ passTime x.loop) ∨
    ∃ e now, x.run.calls = x.calls ++ [(e, x.now)] ∧ (e :: x.run.heap.entries).Perm x.heap.entries ∧ e.expires ≤ now ∧
      now ∈ passTime x.loop ∧ passTime x.run.loop = some now := by
  unfold ExpireWatcher.run
  split
  case h_6 now hloop =>
    split
    · exact .inl ⟨rfl, rfl, fun _ h => (by cases h)⟩
    · rename_i e h hn
      obtain ⟨-, hdue, hperm⟩ := ExpireHeap.next_cases hn
      rw [if_neg (not_lt.2 hdue)]
      exact .inr ⟨e, now, rfl, hperm, hdue, by rw [hloop]; rfl, rfl⟩
  case h_5 => exact .inl ⟨rfl, rfl, fun now h => .inl (Option.some.inj h).ge⟩
  case h_3 => split <;> exact .inl ⟨rfl, rfl, fun _ h => (by cases h)⟩
  case h_7 e now hloop => exact .inl ⟨rfl, rfl, fun now' h => .inr (by rw [hloop]; exact h)⟩
  case h_8 | h_9 => exact .inl ⟨rfl, rfl, fun now h => .inr h⟩
  all_goals exact .inl ⟨rfl, rfl, fun _ h => (by cases h)⟩

theorem run_frame (x : ExpireWatcher) : x.run.now = x.now ∧ x.run.removed = x.removed := by
  unfold ExpireWatcher.run
  repeat' split
  all_goals exact ⟨rfl, rfl⟩

theorem known_step (a : Act) : (x.step a).known.Perm (added [a] ++ x.known) := by
  by_cases ha : a = .run
  · subst ha
    show x.run.known.Perm x.known
    rw [known, known, (run_frame x).2]
    rcases run_cases x with ⟨hcalls, hheap, -⟩ | ⟨e, now, hcalls, hperm, -⟩
    · rw [hcalls, hheap]
    · rw [hcalls, List.map_append, ← List.append_assoc]
      refine (List.perm_append_singleton e _).trans ?_
      exact (hperm.append_right x.removed).append_right _
  · have h := step_unmoved (x := x) ha
    rw [known, known, h.calls, ← List.append_assoc]
    exact h.entries.append_right _

theorem known_exec (acts : List Act) : ∀ x : ExpireWatcher, (exec step x acts).known.Perm (added acts ++ x.known) := by
  induction acts with
  | nil => intro x; exact .refl _
  | cons a acts ih =>
    intro x
    have hcons : added (a :: acts) = added [a] ++ added acts := by
      rw [← List.singleton_append, added, List.filterMap_append]
      rfl
    calc (exec step (x.step a) acts).known.Perm (added acts ++ (x.step a).known) := ih _
      _ |>.Perm (added acts ++ (added [a] ++ x.known)) := (known_step a).append_left _
      _ |>.Perm (added (a :: acts) ++ x.known) := by
          rw [hcons, ← List.append_assoc]
          exact List.perm_append_comm.append_right _

theorem Timely.step (h : x.Timely) (a : Act) : (x.step a).Timely := by
  by_cases ha : a = .run
  · subst ha
    show x.run.Timely
    have hnow := (run_frame x).1
    rcases run_cases x with ⟨hcalls, -, hpass⟩ | ⟨e, now, hcalls, -, hdue, hold, hpass⟩
    · refine ⟨fun now hmem => ?_, by rw [hcalls]; exact h.calls⟩
      rw [hnow]
      exact (hpass now hmem).elim id (h.pass now)
    · have hle := h.pass now hold
      constructor
      · intro now' hmem
        rw [hpass] at hmem
        rwa [hnow, ← Option.some.inj hmem]
      · intro c hc
        rw [hcalls] at hc
        rcases List.mem_append.1 hc with hc | hc
        · exact h.calls c hc
        · rw [List.mem_singleton.1 hc]
          exact hdue.trans hle
  · have hu := step_unmoved (x := x) ha
    exact ⟨fun now hmem => (h.pass now (hu.pass ▸ hmem)).trans hu.now, by rw [hu.calls]; exact h.calls⟩

/-- **Every added entry is in one place**: after any run the entries added are those in the heap,
those removed and those the callback was called with, once for each. No call is made before its
entry is due. -/
theorem entries_accounted (now : ℤ) (acts : List Act) :
    (added acts).Perm ((exec step (init now) acts).heap.entries ++ (exec step (init now) acts).removed ++
      (exec step (init now) acts).calls.map Prod.fst) ∧
    ∀ c ∈ (exec step (init now) acts).calls, c.1.expires ≤ c.2 := by
  have hknown := known_exec acts (init now)
  have hnone : (init now).known = [] := rfl
  rw [hnone, List.append_nil] at hknown
  have hinit : (init now).Timely := ⟨fun _ h => (by cases h), fun _ hc => absurd hc List.not_mem_nil⟩
  exact ⟨hknown.symm, (invariant (I := Timely) (fun x a h => h.step a) acts _ hinit).last.calls⟩

end Harikube.ExpireWatcher
