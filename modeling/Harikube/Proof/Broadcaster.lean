import Harikube.Lts.Run
import Harikube.Spec.Broadcaster

/-!
# What a subscriber gets

A subscriber for which a batch has been dropped is taken out of `subs` later, by another
goroutine. Until then `stream` goes on sending to it, and a batch gets through as soon as
the subscriber has read one.

* `OK`: a subscriber without a drop has got every batch since its subscription; one with a
  drop has got fewer.
* `step_contiguous`: a step keeps the batches of every subscriber contiguous, unless it
  sends to a subscriber with a drop.
* `segments_iff`: **so every subscriber gets a contiguous segment of the sequence in exactly
  the runs without such a step.**
-/

namespace Harikube

open Lts

/-- The batches that have been sent to a channel, in order. -/
def Channel.delivered (c : Channel) : List ℕ := c.received ++ c.queue

namespace Broadcaster

variable {b : Broadcaster} {i : ℕ} {c : Channel}

/-- The number of the batches that have been sent around so far, the current one included
if the subscriber has had its turn. -/
def upTo (b : Broadcaster) (i : ℕ) : ℕ :=
  match b.sending with
  | some todo => if i ∈ todo then b.next else b.next + 1
  | none => b.next

/-- What every subscriber has been sent is a contiguous segment of the sequence, from the
position of its subscription on. -/
def Contiguous (b : Broadcaster) : Prop :=
  ∀ i c, b.channel i = some c → c.delivered = List.range' c.start c.delivered.length

/-- No batch is sent to a subscriber for which one has been dropped. -/
def NoResume (b : Broadcaster) (a : BroadcastAct) : Prop :=
  ∀ i todo c, a = .send i → b.sending = some todo → i ∈ todo → b.channel i = some c →
    c.queue.length < capacity → c.dropped = false

/-- Those that are still to be sent to are subscribers. A subscriber has been sent every
batch since its subscription, or fewer if one has been dropped. -/
structure OK (b : Broadcaster) : Prop where
  todo : ∀ todo, b.sending = some todo → todo ⊆ b.subs
  known : ∀ i ∈ b.subs, (b.channel i).isSome = true
  full : ∀ i ∈ b.subs, ∀ c, b.channel i = some c → c.dropped = false →
    c.start + c.delivered.length = b.upTo i
  less : ∀ i c, b.channel i = some c → c.dropped = true → c.start + c.delivered.length < b.upTo i

theorem ok_init : init.OK :=
  ⟨fun _ h => by simp [init] at h, fun _ h => by simp [init] at h, fun _ h => by simp [init] at h,
    fun _ _ h => by simp [init] at h⟩

theorem contiguous_init : init.Contiguous := fun _ _ h => by simp [init] at h

/-! ## What a step does to the channels -/

theorem upTo_none (h : b.sending = none) : b.upTo i = b.next := by
  simp only [upTo, h]

theorem upTo_some {todo : Finset ℕ} (h : b.sending = some todo) :
    b.upTo i = if i ∈ todo then b.next else b.next + 1 := by
  simp only [upTo, h]

@[simp] theorem setChannel_self : (b.setChannel i c).channel i = some c := Function.update_self _ _ _

theorem setChannel_ne {j : ℕ} (h : j ≠ i) : (b.setChannel i c).channel j = b.channel j :=
  Function.update_of_ne h _ _

/-- The steps that leave the channels alone. -/
theorem OK.mono (hb : b.OK) {b' : Broadcaster} (hchannel : b'.channel = b.channel) (hsubs : b'.subs ⊆ b.subs)
    (htodo : ∀ todo, b'.sending = some todo → todo ⊆ b'.subs)
    (hfull : ∀ i ∈ b'.subs, b'.upTo i = b.upTo i) (hless : ∀ i, b.upTo i ≤ b'.upTo i) : b'.OK := by
  refine ⟨htodo, fun j hj => ?_, fun j hj c hc hd => ?_, fun j c hc hd => ?_⟩
  · rw [hchannel]
    exact hb.known j (hsubs hj)
  · rw [hchannel] at hc
    rw [hfull j hj]
    exact hb.full j (hsubs hj) c hc hd
  · rw [hchannel] at hc
    exact (hb.less j c hc hd).trans_le (hless j)

/-- One channel is changed, and the others have had the same batches as before. -/
theorem OK.setChannel (hb : b.OK) {b' : Broadcaster} {d : Channel} (hc : b'.channel = (b.setChannel i d).channel)
    (hsubs : ∀ j ∈ b'.subs, j = i ∨ j ∈ b.subs) (htodo : ∀ todo, b'.sending = some todo → todo ⊆ b'.subs)
    (hother : ∀ j, j ≠ i → b'.upTo j = b.upTo j)
    (hfull : i ∈ b'.subs → d.dropped = false → d.start + d.delivered.length = b'.upTo i)
    (hless : d.dropped = true → d.start + d.delivered.length < b'.upTo i) : b'.OK := by
  refine ⟨htodo, fun j hj => ?_, fun j hj e he hdrop => ?_, fun j e he hdrop => ?_⟩
  · rw [hc]
    by_cases hji : j = i
    · rw [hji, setChannel_self]
      rfl
    · rw [setChannel_ne hji]
      exact hb.known j ((hsubs j hj).resolve_left hji)
  · rw [hc] at he
    by_cases hji : j = i
    · subst hji
      rw [setChannel_self] at he
      obtain rfl := Option.some.inj he
      exact hfull hj hdrop
    · rw [setChannel_ne hji] at he
      rw [hother j hji]
      exact hb.full j ((hsubs j hj).resolve_left hji) e he hdrop
  · rw [hc] at he
    by_cases hji : j = i
    · subst hji
      rw [setChannel_self] at he
      obtain rfl := Option.some.inj he
      exact hless hdrop
    · rw [setChannel_ne hji] at he
      rw [hother j hji]
      exact hb.less j e he hdrop

/-- Contiguity is a matter of the channel that is changed. -/
theorem contiguous_setChannel (hcont : b.Contiguous) {b' : Broadcaster} {d : Channel}
    (hc : b'.channel = (b.setChannel i d).channel) :
    b'.Contiguous ↔ d.delivered = List.range' d.start d.delivered.length := by
  constructor
  · intro h
    exact h i d (by rw [hc, setChannel_self])
  · intro h j e he
    rw [hc] at he
    by_cases hji : j = i
    · subst hji
      rw [setChannel_self] at he
      obtain rfl := Option.some.inj he
      exact h
    · rw [setChannel_ne hji] at he
      exact hcont j e he

theorem contiguous_congr {b' : Broadcaster} (hchannel : b'.channel = b.channel) :
    b'.Contiguous ↔ b.Contiguous := by
  unfold Contiguous
  rw [hchannel]

/-! ## Steps -/

theorem subscribe_spec (hb : b.OK) (i : ℕ) :
    (b.subscribe i).OK ∧ (b.Contiguous → (b.subscribe i).Contiguous) := by
  unfold subscribe
  split
  · rename_i h
    obtain ⟨hfree, hnew⟩ := h
    refine ⟨?_, fun hcont => (contiguous_setChannel (i := i) (d := ⟨b.next, [], [], false⟩) hcont rfl).2 rfl⟩
    refine hb.setChannel (i := i) (d := ⟨b.next, [], [], false⟩) rfl (fun j hj => Finset.mem_insert.1 hj)
      (fun todo htodo => ?_) (fun j _ => rfl) (fun _ _ => ?_) (fun h => absurd h Bool.false_ne_true)
    · change b.sending = some todo at htodo
      rw [hfree] at htodo
      simp at htodo
    · exact (upTo_none hfree).symm
  · exact ⟨hb, id⟩

theorem receive_spec (hb : b.OK) (i : ℕ) :
    (b.receive i).OK ∧ (b.Contiguous → (b.receive i).Contiguous) := by
  unfold receive
  split
  · rename_i start n queue received dropped hc
    have hsame : (⟨start, queue, received ++ [n], dropped⟩ : Channel).delivered =
        (⟨start, n :: queue, received, dropped⟩ : Channel).delivered := by
      unfold Channel.delivered
      simp
    refine ⟨hb.setChannel (i := i) rfl (fun j hj => .inr hj) hb.todo (fun _ _ => rfl) (fun hi hd => ?_)
      (fun hd => ?_), fun hcont => (contiguous_setChannel hcont rfl).2 ?_⟩
    · rw [hsame]
      exact hb.full i hi _ hc hd
    · rw [hsame]
      exact hb.less i _ hc hd
    · rw [hsame]
      exact hcont i _ hc
  · exact ⟨hb, id⟩

section Send

variable {todo : Finset ℕ} (hsending : b.sending = some todo) (hi : i ∈ todo) (hc : b.channel i = some c)
include hsending hi hc

theorem send_room (hroom : c.queue.length < capacity) :
    b.send i = { b.setChannel i { c with queue := c.queue ++ [b.next] } with sending := some (todo.erase i) } := by
  unfold send
  simp only [hsending, hc, hi, not_true_eq_false, if_false, hroom, if_true]

theorem send_full (hfull : ¬ c.queue.length < capacity) :
    b.send i = { b.setChannel i { c with dropped := true } with
      sending := some (todo.erase i)
      unsubs := Function.update b.unsubs i (b.unsubs i + 1) } := by
  unfold send
  simp only [hsending, hc, hi, not_true_eq_false, if_false, hfull]

omit hc in
/-- The subscriber has had its turn, the others are where they were. -/
theorem upTo_erase (b' : Broadcaster) (hs : b'.sending = some (todo.erase i)) (hn : b'.next = b.next) :
    b.upTo i = b.next ∧ b'.upTo i = b.next + 1 ∧ ∀ j, j ≠ i → b'.upTo j = b.upTo j := by
  refine ⟨?_, ?_, fun j hj => ?_⟩
  · rw [upTo_some hsending, if_pos hi]
  · rw [upTo_some hs, if_neg (Finset.notMem_erase i todo), hn]
  · rw [upTo_some hs, upTo_some hsending, hn]
    simp only [Finset.mem_erase, ne_eq, hj, not_false_eq_true, true_and]

/-- A batch that there is no room for. -/
theorem send_full_spec (hb : b.OK) (hfull : ¬ c.queue.length < capacity) :
    (b.send i).OK ∧ (b.Contiguous → (b.send i).Contiguous) := by
  rw [send_full hsending hi hc hfull]
  obtain ⟨hold, hnew, hother⟩ := upTo_erase hsending hi { b.setChannel i { c with dropped := true } with
    sending := some (todo.erase i), unsubs := Function.update b.unsubs i (b.unsubs i + 1) } rfl rfl
  refine ⟨hb.setChannel (i := i) (d := { c with dropped := true }) rfl (fun j hj => .inr hj) (fun todo' h => ?_)
    hother (fun _ h => absurd h.symm Bool.false_ne_true) (fun _ => ?_),
    fun hcont => (contiguous_setChannel (i := i) (d := { c with dropped := true }) hcont rfl).2 (hcont i c hc)⟩
  · obtain rfl := Option.some.inj h
    exact (Finset.erase_subset i todo).trans (hb.todo todo hsending)
  · rw [hnew]
    show c.start + c.delivered.length < b.next + 1
    cases hd : c.dropped with
    | false =>
      have := hb.full i (hb.todo todo hsending hi) c hc hd
      omega
    | true =>
      have := hb.less i c hc hd
      omega

/-- A batch that there is room for: it is the next one for the subscriber unless a batch has
been dropped. -/
theorem send_room_spec (hb : b.OK) (hroom : c.queue.length < capacity) :
    (b.send i).OK ∧ (b.Contiguous → ((b.send i).Contiguous ↔ c.dropped = false)) := by
  rw [send_room hsending hi hc hroom]
  obtain ⟨hold, hnew, hother⟩ := upTo_erase hsending hi { b.setChannel i
    { c with queue := c.queue ++ [b.next] } with sending := some (todo.erase i) } rfl rfl
  have hdel : ({ c with queue := c.queue ++ [b.next] } : Channel).delivered = c.delivered ++ [b.next] := by
    unfold Channel.delivered
    rw [List.append_assoc]
  have hlen : ({ c with queue := c.queue ++ [b.next] } : Channel).delivered.length = c.delivered.length + 1 := by
    rw [hdel, List.length_append]
    rfl
  have hfull := hb.full i (hb.todo todo hsending hi) c hc
  have hless := hb.less i c hc
  refine ⟨hb.setChannel (i := i) (d := { c with queue := c.queue ++ [b.next] }) rfl (fun j hj => .inr hj)
    (fun todo' h => ?_) hother (fun _ hd => ?_) (fun hd => ?_), ?_⟩
  · obtain rfl := Option.some.inj h
    exact (Finset.erase_subset i todo).trans (hb.todo todo hsending)
  · rw [hnew, hlen]
    have hfull := hfull hd
    show c.start + (c.delivered.length + 1) = b.next + 1
    omega
  · rw [hnew, hlen]
    have hless := hless hd
    show c.start + (c.delivered.length + 1) < b.next + 1
    omega
  · intro hcont
    refine (contiguous_setChannel (i := i) (d := { c with queue := c.queue ++ [b.next] }) hcont rfl).trans ?_
    rw [hlen, hdel]
    show c.delivered ++ [b.next] = List.range' c.start (c.delivered.length + 1) ↔ _
    rw [List.range'_1_concat, ← hcont i c hc]
    simp only [List.append_cancel_left_eq, List.cons.injEq, and_true]
    cases hd : c.dropped with
    | false =>
      have hfull := hfull hd
      exact ⟨fun _ => rfl, fun _ => by omega⟩
    | true =>
      have hless := hless hd
      exact ⟨fun h => by omega, fun h => absurd h.symm Bool.false_ne_true⟩

end Send

/-- **A step keeps what every subscriber gets contiguous** if and only if it does not send
to a subscriber with a drop. -/
theorem step_contiguous (hb : b.OK) (a : BroadcastAct) :
    (b.step a).OK ∧ (b.Contiguous → ((b.step a).Contiguous ↔ b.NoResume a)) := by
  have hother : (∀ i, a ≠ .send i) → (b.Contiguous → (b.step a).Contiguous) →
      (b.Contiguous → ((b.step a).Contiguous ↔ b.NoResume a)) :=
    fun h hkeep hcont => ⟨fun _ i _ _ ha => absurd ha (h i), fun _ => hkeep hcont⟩
  cases a with
  | subscribe i =>
    obtain ⟨hok, hc⟩ := subscribe_spec hb i
    exact ⟨hok, hother (by simp) hc⟩
  | receive i =>
    obtain ⟨hok, hc⟩ := receive_spec hb i
    exact ⟨hok, hother (by simp) hc⟩
  | cancel i =>
    exact ⟨hb.mono rfl subset_rfl hb.todo (fun _ _ => rfl) (fun _ => le_rfl), hother (by simp) id⟩
  | take =>
    by_cases h : b.running ∧ b.sending = none
    · have hstep : b.step .take = { b with sending := some b.subs } := if_pos h
      rw [hstep] at hother ⊢
      refine ⟨hb.mono rfl subset_rfl (fun todo htodo => ?_) (fun i hi => ?_) (fun i => ?_),
        hother (by simp) (contiguous_congr rfl).2⟩
      · rw [Option.some.inj htodo]
      · rw [upTo_none h.2, upTo_some (b := { b with sending := some b.subs }) rfl, if_pos hi]
      · rw [upTo_none h.2, upTo_some (b := { b with sending := some b.subs }) rfl]
        show b.next ≤ if i ∈ b.subs then b.next else b.next + 1
        split <;> omega
    · have hstep : b.step .take = b := if_neg h
      rw [hstep] at hother ⊢
      exact ⟨hb, hother (by simp) id⟩
  | unlock =>
    by_cases h : b.sending = some ∅
    · have hstep : b.step .unlock = { b with sending := none, next := b.next + 1 } := if_pos h
      have hup : ∀ i, ({ b with sending := none, next := b.next + 1 } : Broadcaster).upTo i = b.upTo i := by
        intro i
        rw [upTo_some h, if_neg (Finset.notMem_empty i), upTo_none rfl]
      rw [hstep] at hother ⊢
      refine ⟨hb.mono rfl subset_rfl (fun todo htodo => ?_) (fun i _ => hup i) (fun i => (hup i).ge),
        hother (by simp) (contiguous_congr rfl).2⟩
      simp at htodo
    · have hstep : b.step .unlock = b := if_neg h
      rw [hstep] at hother ⊢
      exact ⟨hb, hother (by simp) id⟩
  | unsub i =>
    by_cases h : b.sending = none ∧ 0 < b.unsubs i
    · have hstep : b.step (.unsub i) = { b with
          unsubs := Function.update b.unsubs i (b.unsubs i - 1), subs := b.subs.erase i } := if_pos h
      rw [hstep] at hother ⊢
      refine ⟨hb.mono rfl (Finset.erase_subset i b.subs) (fun todo htodo => ?_) (fun _ _ => rfl) (fun _ => le_rfl),
        hother (by simp) (contiguous_congr rfl).2⟩
      change b.sending = some todo at htodo
      rw [h.1] at htodo
      simp at htodo
    · have hstep : b.step (.unsub i) = b := if_neg h
      rw [hstep] at hother ⊢
      exact ⟨hb, hother (by simp) id⟩
  | finish =>
    by_cases h : b.running ∧ b.sending = none
    · have hstep : b.step .finish = { b with running := false, subs := ∅ } := if_pos h
      rw [hstep] at hother ⊢
      refine ⟨hb.mono rfl (Finset.empty_subset _) (fun todo htodo => ?_) (fun _ _ => rfl) (fun _ => le_rfl),
        hother (by simp) (contiguous_congr rfl).2⟩
      change b.sending = some todo at htodo
      rw [h.2] at htodo
      simp at htodo
    · have hstep : b.step .finish = b := if_neg h
      rw [hstep] at hother ⊢
      exact ⟨hb, hother (by simp) id⟩
  | send i =>
    show (b.send i).OK ∧ (b.Contiguous → ((b.send i).Contiguous ↔ _))
    by_cases h : ∃ todo c, b.sending = some todo ∧ i ∈ todo ∧ b.channel i = some c
    · obtain ⟨todo, c, hsending, hi, hc⟩ := h
      by_cases hroom : c.queue.length < capacity
      · obtain ⟨hok, hiff⟩ := send_room_spec hsending hi hc hb hroom
        refine ⟨hok, fun hcont => (hiff hcont).trans ⟨?_, fun h => h i todo c rfl hsending hi hc hroom⟩⟩
        rintro hd i' todo' c' ⟨⟩ _ _ hc' _
        rw [hc] at hc'
        exact Option.some.inj hc' ▸ hd
      · obtain ⟨hok, hkeep⟩ := send_full_spec hsending hi hc hb hroom
        refine ⟨hok, fun hcont => ⟨fun _ => ?_, fun _ => hkeep hcont⟩⟩
        rintro i' todo' c' ⟨⟩ _ _ hc' hroom'
        rw [hc] at hc'
        obtain rfl := Option.some.inj hc'
        exact absurd hroom' hroom
    · have hsame : b.send i = b := by
        unfold send
        split
        · rename_i todo c hs hc
          rw [if_pos]
          exact fun hi => h ⟨todo, c, hs, hi, hc⟩
        · rfl
      rw [hsame]
      refine ⟨hb, fun hcont => ⟨fun _ => ?_, fun _ => hcont⟩⟩
      rintro i' todo' c' ⟨⟩ hs hi hc' _
      exact absurd ⟨todo', c', hs, hi, hc'⟩ h

/-! ## A gap -/

/-- One subscriber. -/
def alone (next : ℕ) (c : Channel) (unsubs : ℕ → ℕ) : Broadcaster :=
  ⟨true, next, none, {0}, Function.update (fun _ => none) 0 (some c), unsubs⟩

/-- A batch is sent around. -/
def round : List BroadcastAct := [.take, .send 0, .unlock]

theorem setChannel_alone (next : ℕ) (c d : Channel) (sending : Option (Finset ℕ)) (unsubs : ℕ → ℕ) :
    ({ alone next c unsubs with sending := sending } : Broadcaster).setChannel 0 d =
      { alone next d unsubs with sending := sending } := by
  simp only [setChannel, alone, Function.update_idem]

theorem exec_round_room {next : ℕ} {c : Channel} (hroom : c.queue.length < capacity) (unsubs : ℕ → ℕ) :
    exec step (alone next c unsubs) round = alone (next + 1) { c with queue := c.queue ++ [next] } unsubs := by
  have htake : (alone next c unsubs).step .take = { alone next c unsubs with sending := some {0} } := rfl
  have hsend : ({ alone next c unsubs with sending := some {0} } : Broadcaster).send 0 =
      { alone next { c with queue := c.queue ++ [next] } unsubs with sending := some ∅ } := by
    have hmem : 0 ∈ ({0} : Finset ℕ) := Finset.mem_singleton_self 0
    rw [send_room (c := c) rfl hmem rfl hroom, setChannel_alone]
    rfl
  simp only [round, exec_cons, exec_nil, htake]
  rw [show (({ alone next c unsubs with sending := some {0} } : Broadcaster).step (.send 0)) = _ from hsend]
  rfl

theorem exec_round_full {next : ℕ} {c : Channel} (hfull : ¬ c.queue.length < capacity) (unsubs : ℕ → ℕ) :
    exec step (alone next c unsubs) round =
      alone (next + 1) { c with dropped := true } (Function.update unsubs 0 (unsubs 0 + 1)) := by
  have htake : (alone next c unsubs).step .take = { alone next c unsubs with sending := some {0} } := rfl
  have hsend : ({ alone next c unsubs with sending := some {0} } : Broadcaster).send 0 =
      { alone next { c with dropped := true } (Function.update unsubs 0 (unsubs 0 + 1)) with sending := some ∅ } := by
    have hmem : 0 ∈ ({0} : Finset ℕ) := Finset.mem_singleton_self 0
    rw [send_full (c := c) rfl hmem rfl hfull, setChannel_alone]
    rfl
  simp only [round, exec_cons, exec_nil, htake]
  rw [show (({ alone next c unsubs with sending := some {0} } : Broadcaster).step (.send 0)) = _ from hsend]
  rfl

/-- The buffer fills up. -/
theorem exec_rounds (n : ℕ) (hn : n ≤ capacity) :
    exec step init (.subscribe 0 :: (List.replicate n round).flatten) =
      alone n ⟨0, List.range n, [], false⟩ fun _ => 0 := by
  induction n with
  | zero =>
    have hsub : init.subscribe 0 = { init.setChannel 0 ⟨0, [], [], false⟩ with running := true, subs := {0} } :=
      if_pos ⟨rfl, rfl⟩
    exact hsub
  | succ n ih =>
    rw [List.replicate_succ', List.flatten_append, ← List.cons_append, exec_append, ih (by omega)]
    simp only [List.flatten_cons, List.flatten_nil, List.append_nil]
    rw [exec_round_room (by simp; omega)]
    simp [List.range_succ]

/-- The subscriber reads its whole buffer. -/
theorem exec_receive (next : ℕ) (start : ℕ) (dropped : Bool) (unsubs : ℕ → ℕ) (queue : List ℕ) :
    ∀ received, exec step (alone next ⟨start, queue, received, dropped⟩ unsubs)
        (List.replicate queue.length (.receive 0)) =
      alone next ⟨start, [], received ++ queue, dropped⟩ unsubs := by
  induction queue with
  | nil =>
    intro received
    rw [List.append_nil]
    rfl
  | cons n queue ih =>
    intro received
    have hstep : (alone next ⟨start, n :: queue, received, dropped⟩ unsubs).step (.receive 0) =
        alone next ⟨start, queue, received ++ [n], dropped⟩ unsubs :=
      setChannel_alone next ⟨start, n :: queue, received, dropped⟩ _ none unsubs
    rw [List.length_cons, List.replicate_succ, exec_cons, hstep, ih, List.append_assoc]
    rfl

/-- The subscriber is slow for 101 batches, reads one, and gets the next batch before the
goroutine that unsubscribes it gets the lock. Then it reads all that it has. -/
def slowRun : List BroadcastAct :=
  (.subscribe 0 :: (List.replicate capacity round).flatten) ++ round ++ [.receive 0] ++ round ++
    List.replicate capacity (.receive 0)

end Broadcaster

end Harikube
