import Harikube.Lts.Run
import Harikube.Proof.Poll
import Harikube.Spec.Poller

/-!
# The poll loop, whatever the database answers

* `Poller.Tracks`: what an iteration leaves behind for the batches that have been sent, in
  terms of a relation for the batch of one query and one for all of them.
* `Poller.step_tracks`: a step keeps this, if every query is followed by a batch of this kind.
* `Poller.poll_ordered`: **events are sent once, in the order of revisions and without fill
  rows, and `polledRev` is behind what has been sent.**
-/

namespace Harikube

open Lts Kine

namespace Poller

variable {p : Poller}

/-! ## Steps -/

/-- The loop is in none of the stages that hold a batch. -/
structure Resting (stage : PollerStage) : Prop where
  send : ∀ r w, stage ≠ .sending r w
  fill : ∀ next r w, stage ≠ .filling next r w

theorem resting_top (w : Bool) : Resting (if w then .waiting else .storing) := by
  refine ⟨fun r w' => ?_, fun next r w' => ?_⟩
  · split <;> simp
  · split <;> simp

theorem resting_waiting : Resting .waiting := resting_top true

theorem resting_storing : Resting .storing := resting_top false

theorem resting_querying : Resting .querying := ⟨fun _ _ => by simp, fun _ _ _ => by simp⟩

/-- What a step can do: nothing, move on between the stages without a batch and store
`polledRev` there, run through the rows of a query, fill, or send. -/
theorem step_cases (p : Poller) (a : PollerAct) :
    p.step a = p ∨
    (∃ polledRev stage, Resting p.stage ∧ Resting stage ∧ (polledRev = p.polledRev ∨ polledRev = p.pollRevision) ∧
      p.step a = { p with polledRev := polledRev, stage := stage }) ∨
    (∃ rows elapsed, a = .after (some rows) elapsed ∧ p.stage = .querying ∧ p.step a = p.iterate rows elapsed) ∨
    (∃ ok next r w, a = .fill ok ∧ p.stage = .filling next r w ∧
      p.step a = { p with seen := if ok then p.seen ++ [next] else p.seen }.publish r w) ∨
    (∃ r w, a = .send ∧ p.stage = .sending r w ∧
      p.step a = { p with sent := p.sent ++ [r.batch], handed := r.rev }.top w) := by
  cases a with
  | notified check =>
    cases hs : p.stage with
    | waiting =>
      by_cases hc : check ≤ p.pollRevision
      · left
        simp only [step, hs, hc, if_true]
      · right; left
        refine ⟨p.polledRev, .storing, hs ▸ resting_waiting, resting_storing, .inl rfl, ?_⟩
        simp only [step, hs, hc, if_false]
    | _ => left; simp only [step, hs]
  | tick =>
    cases hs : p.stage with
    | waiting =>
      right; left
      refine ⟨p.polledRev, .storing, hs ▸ resting_waiting, resting_storing, .inl rfl, ?_⟩
      simp only [step, hs]
    | _ => left; simp only [step, hs]
  | store =>
    cases hs : p.stage with
    | storing =>
      right; left
      refine ⟨p.pollRevision, .querying, hs ▸ resting_storing, resting_querying, .inr rfl, ?_⟩
      simp only [step, hs]
    | _ => left; simp only [step, hs]
  | after rows elapsed =>
    cases hs : p.stage with
    | querying =>
      cases rows with
      | some rows =>
        right; right; left
        refine ⟨rows, elapsed, rfl, rfl, ?_⟩
        simp only [step, hs]
      | none =>
        right; left
        refine ⟨p.polledRev, .waiting, hs ▸ resting_querying, resting_waiting, .inl rfl, ?_⟩
        simp only [step, hs, top, if_true]
    | _ => left; cases rows <;> simp only [step, hs]
  | fill ok =>
    cases hs : p.stage with
    | filling next r w =>
      right; right; right; left
      refine ⟨ok, next, r, w, rfl, rfl, ?_⟩
      simp only [step, hs]
    | _ => left; simp only [step, hs]
  | send =>
    cases hs : p.stage with
    | sending r w =>
      right; right; right; right
      refine ⟨r, w, rfl, rfl, ?_⟩
      simp only [step, hs]
    | _ => left; simp only [step, hs]

/-! ## Batches -/

section Tracks

variable (R : List ℤ → ℤ → PollLoop → Prop) (E : List ℤ → ℤ → List Event → Prop)

/-- `E` is true of what has been sent, up to the revision handed over, and `R` of the batch
that is on its way, from there on. -/
structure Tracks (p : Poller) : Prop where
  polled : p.polledRev ≤ p.handed
  done : E p.seen p.handed p.events
  rests : (∀ r w, p.stage ≠ .sending r w) → p.handed = p.pollRevision
  filling : ∀ next r w, p.stage = .filling next r w → R p.seen p.pollRevision r
  sending : ∀ r w, p.stage = .sending r w → p.pollRevision = r.rev ∧ R p.seen p.handed r

variable {R E}

theorem Tracks.imp {R' : List ℤ → ℤ → PollLoop → Prop} {E' : List ℤ → ℤ → List Event → Prop}
    (hp : p.Tracks R E) (hR : ∀ a r, R p.seen a r → R' p.seen a r)
    (hE : ∀ a events, E p.seen a events → E' p.seen a events) : p.Tracks R' E' :=
  ⟨hp.polled, hE _ _ hp.done, hp.rests, fun next r w h => hR _ _ (hp.filling next r w h),
    fun r w h => ⟨(hp.sending r w h).1, hR _ _ (hp.sending r w h).2⟩⟩

theorem Tracks.publish {r : PollLoop} (w : Bool) (hpolled : p.polledRev ≤ p.handed)
    (hdone : E p.seen p.handed p.events) (hrests : p.handed = p.pollRevision)
    (hr : R p.seen p.pollRevision r) : (p.publish r w).Tracks R E := by
  unfold Poller.publish
  by_cases hsave : r.saveLast = true
  · rw [if_pos hsave]
    refine ⟨hpolled, hdone, fun h => absurd rfl (h r w), fun next r' w' h => ?_, fun r' w' h => ?_⟩
    · simp at h
    · obtain ⟨rfl, -⟩ := PollerStage.sending.inj h
      exact ⟨rfl, hrests ▸ hr⟩
  · rw [if_neg hsave]
    have htop := resting_top w
    exact ⟨hpolled, hdone, fun _ => hrests, fun next r' w' h => absurd h (htop.fill next r' w'),
      fun r' w' h => absurd h (htop.send r' w')⟩

/-- **A step keeps the two relations**, which only depend on what has been seen, if a query
is followed by a batch with `R`, and such a batch keeps `E`. -/
theorem step_tracks (hR : ∀ seen l a r, R seen a r → R (seen ++ l) a r)
    (hE : ∀ seen l a events, E seen a events → E (seen ++ l) a events)
    (hle : ∀ seen a r, R seen a r → a ≤ r.rev)
    (hsend : ∀ seen a r events, E seen a events → R seen a r → E seen r.rev (events ++ r.batch.reduceOption))
    (hp : p.Tracks R E) (a : PollerAct)
    (hquery : ∀ rows elapsed, a = .after (some rows) elapsed → p.stage = .querying →
      R (p.seen ++ rows.map Row.id) p.pollRevision (pollLoop p.skip elapsed p.pollRevision rows)) :
    (p.step a).Tracks R E := by
  obtain h | ⟨polledRev, stage, hrest, hrest', hrev, h⟩ | ⟨rows, elapsed, ha, hs, h⟩ |
    ⟨ok, next, r, w, -, hs, h⟩ | ⟨r, w, -, hs, h⟩ := p.step_cases a
  · rw [h]
    exact hp
  · rw [h]
    have heq := hp.rests hrest.send
    refine ⟨?_, hp.done, fun _ => heq, fun next r w hs => absurd hs (hrest'.fill next r w),
      fun r w hs => absurd hs (hrest'.send r w)⟩
    show polledRev ≤ p.handed
    rcases hrev with rfl | rfl
    · exact hp.polled
    · exact heq.ge
  · rw [h]
    have heq := hp.rests (hs ▸ resting_querying).send
    have hr := hquery rows elapsed ha hs
    have hdone := hE p.seen (rows.map Row.id) _ _ hp.done
    unfold iterate
    simp only
    split
    · exact .publish (p := { p with seen := p.seen ++ rows.map Row.id }) _ hp.polled hdone heq hr
    · rename_i next _
      exact .publish (p := { p with seen := p.seen ++ rows.map Row.id, skip := next }) _ hp.polled hdone heq hr
    · refine ⟨hp.polled, hdone, fun _ => heq, fun next r w hf => ?_, fun r w hf => ?_⟩
      · obtain ⟨-, rfl, -⟩ := PollerStage.filling.inj hf
        exact hr
      · simp at hf
  · rw [h]
    have heq := hp.rests (fun r' w' => by rw [hs]; simp)
    have hr := hp.filling next r w hs
    -- what has been seen is the same or has one more revision
    obtain ⟨l, hl⟩ : ∃ l, (if ok then p.seen ++ [next] else p.seen) = p.seen ++ l := by
      cases ok with
      | true => exact ⟨[next], rfl⟩
      | false => exact ⟨[], (List.append_nil _).symm⟩
    rw [hl]
    exact .publish (p := { p with seen := p.seen ++ l }) w hp.polled (hE _ _ _ _ hp.done) heq (hR _ _ _ _ hr)
  · rw [h]
    obtain ⟨hrev, hr⟩ := hp.sending r w hs
    have htop := resting_top w
    refine ⟨hp.polled.trans (hle _ _ _ hr), ?_, fun _ => hrev.symm, fun next r' w' hf => absurd hf (htop.fill next r' w'),
      fun r' w' hf => absurd hf (htop.send r' w')⟩
    have hevents : (p.sent ++ [r.batch]).flatten.reduceOption = p.events ++ r.batch.reduceOption := by
      rw [List.flatten_append, List.reduceOption_append]
      simp [events]
    show E p.seen r.rev (p.sent ++ [r.batch]).flatten.reduceOption
    rw [hevents]
    exact hsend _ _ _ _ hp.done hr

end Tracks

/-! ## The order of events -/

/-- Events above `a` up to `b`, in the order of revisions and none of a fill row. -/
structure InOrder (a b : ℤ) (events : List Event) : Prop where
  sorted : events.Pairwise fun e e' => e.kv.modRevision < e'.kv.modRevision
  above : ∀ e ∈ events, a < e.kv.modRevision
  upTo : ∀ e ∈ events, e.kv.modRevision ≤ b
  clean : ∀ e ∈ events, isFill e.kv.key = false

theorem InOrder.append {a b c : ℤ} {l l' : List Event} (hab : a ≤ b) (hbc : b ≤ c) (h : InOrder a b l)
    (h' : InOrder b c l') : InOrder a c (l ++ l') := by
  refine ⟨List.pairwise_append.2 ⟨h.sorted, h'.sorted, fun e he e' he' => ?_⟩, fun e he => ?_, fun e he => ?_,
    fun e he => ?_⟩
  · have := h.upTo e he
    have := h'.above e' he'
    omega
  · rcases List.mem_append.1 he with he | he
    · exact h.above e he
    · have := h'.above e he
      omega
  · rcases List.mem_append.1 he with he | he
    · have := h.upTo e he
      omega
    · exact h'.upTo e he
  · rcases List.mem_append.1 he with he | he
    · exact h.clean e he
    · exact h'.clean e he

theorem inOrder_nil (a b : ℤ) : InOrder a b [] :=
  ⟨.nil, fun _ h => absurd h List.not_mem_nil, fun _ h => absurd h List.not_mem_nil,
    fun _ h => absurd h List.not_mem_nil⟩

/-- The batch of a query, whether or not a revision is skipped. -/
theorem pollLoop_inOrder (skip : ℤ) (elapsed : Bool) {rows : List Row} {rev : ℤ}
    (hs : rows.Pairwise fun x y => x.id < y.id) (hrev : ∀ x ∈ rows, rev < x.id) :
    InOrder rev (pollLoop skip elapsed rev rows).rev (pollLoop skip elapsed rev rows).batch.reduceOption := by
  obtain ⟨-, -, -, hbatch, -⟩ := pollLoop_spec skip elapsed rows hs hrev
  rw [hbatch]
  have hmem : ∀ e ∈ ((rows.filter fun x => x.id ≤ (pollLoop skip elapsed rev rows).rev).filter
      fun x => !isFill x.name).map Row.event, ∃ x ∈ rows, e = x.event ∧
        x.id ≤ (pollLoop skip elapsed rev rows).rev ∧ isFill x.name = false := by
    intro e he
    obtain ⟨x, hx, rfl⟩ := List.mem_map.1 he
    obtain ⟨hx, hfill⟩ := List.mem_filter.1 hx
    obtain ⟨hx, hle⟩ := List.mem_filter.1 hx
    exact ⟨x, hx, rfl, of_decide_eq_true hle, by simpa using hfill⟩
  refine ⟨?_, fun e he => ?_, fun e he => ?_, fun e he => ?_⟩
  · rw [List.pairwise_map]
    exact (hs.filter _).filter _
  · obtain ⟨x, hx, rfl, -, -⟩ := hmem e he
    exact hrev x hx
  · obtain ⟨x, -, rfl, hle, -⟩ := hmem e he
    exact hle
  · obtain ⟨x, -, rfl, -, hfill⟩ := hmem e he
    exact hfill

/-- The rows that `After` returns have ids above the revision asked for, in increasing order. -/
def Answers (p : Poller) (a : PollerAct) : Prop :=
  ∀ rows elapsed, a = .after (some rows) elapsed → p.stage = .querying →
    (rows.Pairwise fun x y => x.id < y.id) ∧ ∀ x ∈ rows, p.pollRevision < x.id

/-- The events sent so far are in the order of revisions, none is repeated, none is that of
a fill row, and `polledRev` is at most the last revision handed over. -/
structure Ordered (p : Poller) : Prop where
  increasing : p.events.Pairwise fun e e' => e.kv.modRevision < e'.kv.modRevision
  once : p.events.Nodup
  clean : ∀ e ∈ p.events, isFill e.kv.key = false
  polled : p.polledRev ≤ p.handed

/-- What is sent in order of revisions has nothing twice. -/
theorem InOrder.nodup {a b : ℤ} {events : List Event} (h : InOrder a b events) : events.Nodup := by
  refine h.sorted.imp fun hlt heq => ?_
  rw [heq] at hlt
  exact lt_irrefl _ hlt

/-- The invariant: what has been sent and what is on its way are in order. -/
abbrev OK (pollStart : ℤ) (p : Poller) : Prop :=
  p.Tracks (fun _ a r => a ≤ r.rev ∧ InOrder a r.rev r.batch.reduceOption)
    (fun _ b events => pollStart ≤ b ∧ InOrder pollStart b events)

theorem step_ok {pollStart : ℤ} (hp : p.OK pollStart) (a : PollerAct) (ha : p.Answers a) :
    (p.step a).OK pollStart := by
  refine step_tracks (fun _ _ _ _ h => h) (fun _ _ _ _ h => h) (fun _ _ _ h => h.1) (fun _ b r events hE hR => ?_)
    hp a (fun rows elapsed hrows hs => ?_)
  · exact ⟨hE.1.trans hR.1, hE.2.append hE.1 hR.1 hR.2⟩
  · obtain ⟨hsorted, habove⟩ := ha rows elapsed hrows hs
    exact ⟨(pollLoop_spec p.skip elapsed rows hsorted habove).1, pollLoop_inOrder p.skip elapsed hsorted habove⟩

theorem ok_init {pollStart : ℤ} (h : 0 ≤ pollStart) : (init pollStart).OK pollStart :=
  ⟨h, ⟨le_rfl, inOrder_nil _ _⟩, fun _ => rfl, fun _ _ _ hs => absurd hs (resting_waiting.fill _ _ _),
    fun _ _ hs => absurd hs (resting_waiting.send _ _)⟩

theorem OK.ordered {pollStart : ℤ} (hp : p.OK pollStart) : p.Ordered :=
  ⟨hp.done.2.sorted, hp.done.2.nodup, hp.done.2.clean, hp.polled⟩

/-- **The poll loop sends events in the order of revisions**, each at most once and none of a
fill row, and `polledRev` never passes what has been handed to the result channel, whatever
`After` and `Fill` do and however long they take. -/
theorem poll_ordered (pollStart : ℤ) (hstart : 0 ≤ pollStart) (acts : List PollerAct)
    (hacts : Guarded step Answers (init pollStart) acts) : Always step Ordered (init pollStart) acts := by
  have hok : Always step (OK pollStart) (init pollStart) acts :=
    invariant_of_guarded (fun _ a ha hp => step_ok hp a ha) acts _ (ok_init hstart) hacts
  exact hok.mono fun _ hp => hp.ordered

/-- A gap that is retried, filled and passed after an error, with the fill row apart. -/
def gapRun : List PollerAct :=
  let x : Row := ⟨4, ascii "/a", [], true, false, 0, 0, 0, [], []⟩
  [.tick, .store, .after (some [x]) false, .notified 3, .store, .after (some [x]) false, .fill true, .notified 3,
    .store, .after none false, .tick, .store, .after (some [fillRow 3, x]) false, .send, .tick, .store]

theorem poll_ordered_gap : Guarded step Answers (init 2) gapRun ∧ Always step Ordered (init 2) gapRun ∧
    (exec step (init 2) gapRun).events.map (fun e => e.kv.modRevision) = [4] := by
  have hrun : Guarded step Answers (init 2) gapRun := by
    refine ⟨?_, ?_, ?_, ?_, ?_, ?_, ?_, ?_, ?_, ?_, ?_, ?_, ?_, ?_, ?_, ?_, trivial⟩ <;>
      rintro rows elapsed ⟨⟩ - <;> decide
  exact ⟨hrun, poll_ordered 2 (by decide) gapRun hrun, by decide⟩

end Poller

end Harikube
