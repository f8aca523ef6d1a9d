import Harikube.Spec.Producers
import Harikube.Proof.Poller

/-!
# What the producers are sent

`SendMessage` looks at every event of a batch, and a batch has a nil event for every fill row and
every row behind a gap (`hole_iff`). With a producer registered the first of them ends the process.

* `sendMessage_whole`: a batch without a nil event is sent as it is.
* `sendMessage_crashed_iff`: any other one is not, as soon as there is a producer.
* `producers_served_iff`: **each producer is sent one message for each row that is broadcast, in the
  order of revisions, if and only if no batch with a nil event is sent while there is a producer.**
-/

namespace Harikube

open Lts Kine

/-! ## Holes -/

/-- **A batch has a nil event exactly if the query has found a fill row or has met a gap.** -/
theorem hole_iff (skip : ℤ) (elapsed : Bool) (rows : List Row) : ∀ rev : ℤ,
    none ∈ (pollLoop skip elapsed rev rows).batch ↔
      (pollLoop skip elapsed rev rows).gap ≠ .atEnd ∨ ∃ x ∈ rows, isFill x.name = true := by
  induction rows with
  | nil =>
    intro rev
    simp [pollLoop]
  | cons x rest ih =>
    intro rev
    unfold pollLoop
    simp only
    split
    · -- the loop is left at `x`, with all that follows it nil
      refine iff_of_true (by simp) (.inl ?_)
      simp only
      split <;> simp
    · simp only [List.mem_cons, exists_eq_or_imp, ih x.id]
      cases isFill x.name <;> simp

namespace Streams

variable {producers : ℕ} {batch : Batch}

/-- **A batch without a nil event**: every producer is sent every event. -/
theorem sendMessage_whole (producers : ℕ) (batch : Batch) (h : none ∉ batch) :
    sendMessage producers batch =
      (batch.reduceOption.flatMap fun e => (List.range producers).map fun i => message i e, false) := by
  induction batch with
  | nil => rfl
  | cons x rest ih =>
    rw [List.mem_cons, not_or] at h
    cases x with
    | none => exact absurd rfl h.1
    | some e => simp [sendMessage, ih h.2]

theorem sendMessage_crashed_iff : (sendMessage producers batch).2 = true ↔ producers ≠ 0 ∧ none ∈ batch := by
  induction batch with
  | nil => simp [sendMessage]
  | cons x rest ih =>
    cases x with
    | none =>
      by_cases hp : producers = 0
      · subst hp
        simpa [sendMessage] using ih
      · simp [sendMessage, hp]
    | some e => simp [sendMessage, ih]

/-- What one producer is sent of the messages of some events. -/
theorem filter_messages {i : ℕ} (hi : i < producers) (events : List Event) :
    ((events.flatMap fun e => (List.range producers).map fun i => message i e).filter fun m => m.producer = i) =
      events.map (message i) := by
  have hone : ∀ e : Event, (((List.range producers).map fun j => message j e).filter fun m => m.producer = i) =
      [message i e] := by
    intro e
    rw [List.filter_map]
    have : (List.range producers).filter ((fun m : Message => decide (m.producer = i)) ∘ fun j => message j e) =
        (List.range producers).filter (· = i) := rfl
    rw [this, List.filter_eq, List.count_eq_one_of_mem List.nodup_range (List.mem_range.2 hi)]
    rfl
  rw [List.filter_flatMap]
  simp only [hone]
  exact List.map_eq_flatMap.symm

end Streams

namespace Streamed

variable {producers : ℕ} {x : Streamed} {a : PollerAct}

/-- The loop is where it would be without producers, unless the process has ended. -/
theorem step_poller (producers : ℕ) (x : Streamed) (a : PollerAct) (hx : x.crashed = false) :
    (x.step producers a).poller = x.poller.step a := by
  unfold step
  rw [hx]
  simp only [Bool.false_eq_true, if_false]
  split <;> rfl

/-- What a step that sends no batch leaves: nothing has been sent. -/
theorem step_quiet (hx : x.crashed = false) (ha : ∀ r w, a = .send → x.poller.stage ≠ .sending r w) :
    x.step producers a = { x with poller := x.poller.step a } := by
  unfold step
  rw [hx]
  -- `ha` rules the first branch of the match out
  simp only [Bool.false_eq_true, if_false]

theorem events_quiet {p : Poller} (ha : ∀ r w, a = .send → p.stage ≠ .sending r w) :
    (p.step a).events = p.events := by
  rcases p.step_cases a with h | ⟨_, _, -, -, -, h⟩ | ⟨rows, elapsed, -, -, h⟩ | ⟨ok, next, r, w, -, -, h⟩ |
    ⟨r, w, hsend, hstage, -⟩
  · rw [h]
  · rw [h]
    rfl
  · rw [h]
    unfold Poller.iterate Poller.publish Poller.top
    simp only
    split <;> (try split) <;> rfl
  · rw [h]
    unfold Poller.publish Poller.top
    split <;> rfl
  · exact absurd hstage (ha r w hsend)

/-- A batch that is sent. -/
theorem step_send (hx : x.crashed = false) {r : PollLoop} {w : Bool} (hstage : x.poller.stage = .sending r w) :
    x.step producers .send = ⟨x.poller.step .send, x.messages ++ (Streams.sendMessage producers r.batch).1,
      (Streams.sendMessage producers r.batch).2⟩ := by
  unfold step
  rw [hx, hstage]
  rfl

theorem events_send {p : Poller} {r : PollLoop} {w : Bool} (hstage : p.stage = .sending r w) :
    (p.step .send).events = p.events ++ r.batch.reduceOption := by
  simp only [Poller.step, hstage, Poller.top, Poller.events, List.flatten_append, List.reduceOption_append,
    List.flatten_singleton]

/-- The process runs, and each producer has been sent one message for each row that has been
broadcast, in the order of revisions. -/
structure Served (producers : ℕ) (x : Streamed) : Prop where
  alive : x.crashed = false
  each : ∀ i < producers, x.sentTo i = x.poller.events.map (Streams.message i)
  ordered : x.poller.Ordered

/-- No batch with a nil event is sent while there is a producer. -/
def Whole (producers : ℕ) (x : Streamed) (a : PollerAct) : Prop :=
  ∀ r w, a = .send → x.poller.stage = .sending r w → producers = 0 ∨ none ∉ r.batch

/-- **One step**: it serves the producers exactly if it sends them no nil event. -/
theorem step_served_iff {pollStart : ℤ} (hok : x.poller.OK pollStart) (ha : x.poller.Answers a)
    (hx : x.Served producers) : (x.step producers a).Served producers ↔ Whole producers x a := by
  have hnext : (x.step producers a).poller.Ordered := by
    rw [step_poller producers x a hx.alive]
    exact (Poller.step_ok hok a ha).ordered
  by_cases hquiet : ∀ r w, a = .send → x.poller.stage ≠ .sending r w
  · refine iff_of_true ⟨?_, ?_, hnext⟩ fun r w hsend hstage => absurd hstage (hquiet r w hsend)
    · rw [step_quiet hx.alive hquiet]
      exact hx.alive
    · intro i hi
      rw [step_quiet hx.alive hquiet]
      show x.sentTo i = (x.poller.step a).events.map (Streams.message i)
      rw [events_quiet hquiet]
      exact hx.each i hi
  · push Not at hquiet
    obtain ⟨r, w, rfl, hstage⟩ := hquiet
    have hwhole : Whole producers x .send ↔ producers = 0 ∨ none ∉ r.batch := by
      refine ⟨fun h => h r w rfl hstage, fun h r' w' _ hstage' => ?_⟩
      obtain ⟨rfl, -⟩ := PollerStage.sending.inj (hstage.symm.trans hstage')
      exact h
    rw [hwhole]
    constructor
    · intro hserved
      have halive := hserved.alive
      rw [step_send hx.alive hstage] at halive
      by_contra hhole
      push Not at hhole
      rw [Streams.sendMessage_crashed_iff.2 hhole] at halive
      exact absurd halive Bool.true_eq_false.mp
    · intro hwhole
      refine ⟨?_, fun i hi => ?_, hnext⟩
      · rw [step_send hx.alive hstage]
        show (Streams.sendMessage producers r.batch).2 = false
        rw [← Bool.not_eq_true, Streams.sendMessage_crashed_iff]
        tauto
      · -- with a producer the batch is whole, and all of it is sent
        have hnone : none ∉ r.batch := hwhole.resolve_left (by omega)
        rw [step_send hx.alive hstage, Streams.sendMessage_whole producers r.batch hnone]
        show (x.messages ++ _).filter _ = (x.poller.step .send).events.map (Streams.message i)
        rw [List.filter_append, Streams.filter_messages hi, events_send hstage, List.map_append]
        congr 1
        exact hx.each i hi

/-- A step of the stream is answered as one of the loop is. -/
def Answers (x : Streamed) (a : PollerAct) : Prop := x.poller.Answers a

theorem step_ok {pollStart : ℤ} (hok : x.poller.OK pollStart) (ha : x.Answers a) :
    (x.step producers a).poller.OK pollStart := by
  cases hx : x.crashed with
  | true =>
    unfold step
    rw [hx]
    exact hok
  | false =>
    rw [step_poller producers x a hx]
    exact Poller.step_ok hok a ha

/-- **In a run of the poll loop each producer is sent one message for each row that is broadcast,
in the order of revisions, and no nil event is dereferenced, if and only if no batch with a nil
event is sent while there is a producer.** -/
theorem producers_served_iff (producers : ℕ) (pollStart : ℤ) (hstart : 0 ≤ pollStart) (acts : List PollerAct)
    (hacts : Guarded (step producers) Answers (init pollStart) acts) :
    Always (step producers) (Served producers) (init pollStart) acts ↔
      Guarded (step producers) (Whole producers) (init pollStart) acts := by
  have hinit : (init pollStart).Served producers := ⟨rfl, fun _ _ => rfl, (Poller.ok_init hstart).ordered⟩
  exact always_iff_guarded_of (I := fun x => x.poller.OK pollStart) (fun x a ha hok => step_ok hok ha)
    (fun x a ha hok hx => step_served_iff hok ha hx) acts (init pollStart) (Poller.ok_init hstart) hinit hacts

/-- Two rows, of revisions 3 and 4, with nothing between them. -/
def pairRun (x y : Row) : List PollerAct := [.tick, .store, .after (some [x, y]) false, .send]

def rowA : Row := ⟨3, ascii "/a", [], true, false, 0, 0, 0, ascii "1", []⟩

/-- Two producers are sent both rows. -/
theorem producers_served_pair :
    let y : Row := ⟨4, ascii "/b", [], true, false, 0, 0, 0, ascii "2", []⟩
    Guarded (step 2) Answers (init 2) (pairRun rowA y) ∧ Always (step 2) (Served 2) (init 2) (pairRun rowA y) ∧
    (exec (step 2) (init 2) (pairRun rowA y)).messages =
      [⟨0, ascii "/a", ascii "1"⟩, ⟨1, ascii "/a", ascii "1"⟩, ⟨0, ascii "/b", ascii "2"⟩,
        ⟨1, ascii "/b", ascii "2"⟩] := by
  intro y
  have hacts : Guarded (step 2) Answers (init 2) (pairRun rowA y) := by
    refine ⟨?_, ?_, ?_, ?_, trivial⟩ <;> rintro rows elapsed ⟨⟩ -
    decide
  refine ⟨hacts, (producers_served_iff 2 2 (by decide) _ hacts).2 ?_, by decide⟩
  refine ⟨?_, ?_, ?_, ?_, trivial⟩ <;> rintro r w ⟨⟩ hstage
  obtain ⟨rfl, -⟩ := PollerStage.sending.inj hstage
  exact .inr (by decide)

/-- **A fill row or a gap ends the process**: one producer, and a row of revision 3 with the fill
row of revision 4 behind it, or with a row of revision 5. -/
theorem producer_dereferences_nil :
    let filled := exec (step 1) (init 2) (pairRun rowA (fillRow 4))
    let gap := exec (step 1) (init 2) (pairRun rowA ⟨5, ascii "/b", [], true, false, 0, 0, 0, ascii "2", []⟩)
    (filled.crashed = true ∧ filled.messages = [⟨0, ascii "/a", ascii "1"⟩]) ∧
    (gap.crashed = true ∧ gap.messages = [⟨0, ascii "/a", ascii "1"⟩]) := by
  decide +kernel

end Streamed

end Harikube
