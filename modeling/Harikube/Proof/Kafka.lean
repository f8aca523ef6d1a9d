import Harikube.Lts.Run
import Harikube.Spec.Kafka

/-!
# What a Kafka commit acknowledges, and in which order messages are applied

* `Moves`: what a step of the consumer can do, and `step_moves`.
* `commits_settled`: a commit acknowledges only messages that have taken effect or are in the
  dead letter queue, in the runs where every call of the backend is made and succeeds or returns
  an error, and no message is committed before an earlier one.
* `commits_lose_messages`: without that, messages are lost.
* `inOrder_iff`: the messages of one object are applied in the order of their offsets in every
  run exactly for the pools of size one, and `pods_swapped`: not with the default size.
-/

namespace Harikube

/-- The backend has not been called. -/
def KafkaStage.Pending : KafkaStage → Prop
  | .received | .validate _ _ | .apply _ _ => True
  | .deadLetter | .close | .commit => False

namespace Kafka

variable {cfg : KafkaConfig} {x y : Kafka} {i o : ℕ} {stage stage' : KafkaStage}

/-! ## What a step can do -/

/-- The changes a step can make, by its action. -/
inductive Moves (cfg : KafkaConfig) (x : Kafka) : Act → Kafka → Prop
  | stay (a : Act) : Moves cfg x a x
  | produced (key : Bytes) : Moves cfg x (.produce key) { x with keys := x.keys ++ [key] }
  | held (hl : x.loop = .fetching) (hm : cfg.async = true) :
      Moves cfg x .fetch { x with loop := .dispatch x.position, position := x.position + 1 }
  | begun (hl : x.loop = .fetching) (hm : cfg.async = false) :
      Moves cfg x .fetch { x with
        loop := .handling, position := x.position + 1, workers := x.workers ++ [⟨x.position, .received⟩] }
  | dispatched (o : ℕ) (hl : x.loop = .dispatch o) :
      Moves cfg x .dispatch { x with loop := .fetching, workers := x.workers ++ [⟨o, .received⟩] }
  | advanced (a : Act) (i o : ℕ) (stage stage' : KafkaStage) (hi : x.workers[i]? = some ⟨o, stage⟩)
      (hp : stage'.Pending → stage.Pending) (hc : stage' = .commit → cfg.dlq = false) :
      Moves cfg x a (x.setStage i o stage')
  | called (i o : ℕ) (object : Bytes) (op : KafkaOp) (outcome : KafkaOutcome) (stage : KafkaStage)
      (hi : x.workers[i]? = some ⟨o, .apply object op⟩) (hap : applied cfg op outcome = .calls stage) :
      Moves cfg x (.apply i outcome)
        { x.setStage i o stage with calls := x.calls ++ [⟨x.session, o, object, outcome⟩] }
  | returned (i o : ℕ) (object : Bytes) (op : KafkaOp) (outcome : KafkaOutcome)
      (hi : x.workers[i]? = some ⟨o, .apply object op⟩) (hap : applied cfg op outcome = .returns) :
      Moves cfg x (.apply i outcome) (x.finish cfg i false)
  | sent (i o : ℕ) (hi : x.workers[i]? = some ⟨o, .deadLetter⟩) :
      Moves cfg x (.deadLetter i true) { x.setStage i o .commit with dead := x.dead ++ [o] }
  | left (i o : ℕ) (hi : x.workers[i]? = some ⟨o, .deadLetter⟩) (hm : cfg.async = false) :
      Moves cfg x (.deadLetter i false) (x.finish cfg i true)
  | closed (i o : ℕ) (hi : x.workers[i]? = some ⟨o, .close⟩) :
      Moves cfg x (.close i) { x.finish cfg i true with closed := true }
  | committed (i o : ℕ) (ok : Bool) (hi : x.workers[i]? = some ⟨o, .commit⟩) (hc : x.closed = false) :
      Moves cfg x (.commit i true ok)
        { x.finish cfg i (!ok) with committed := o + 1, commits := x.commits ++ [o] }
  | uncommitted (i o : ℕ) (took ok leave : Bool) (hi : x.workers[i]? = some ⟨o, .commit⟩) :
      Moves cfg x (.commit i took ok) (x.finish cfg i leave)
  | restarted (a : Act) : Moves cfg x a x.restart

theorem failed_not_pending : ¬ (failed cfg).Pending := by
  unfold failed
  split <;> exact id

theorem failed_commit (h : failed cfg = .commit) : cfg.dlq = false := by
  unfold failed at h
  split at h
  · cases h
  · rename_i hd
    simpa using hd

theorem moves_fetch : Moves cfg x .fetch (x.fetch cfg) := by
  unfold fetch
  split
  · rename_i hl hc
    split
    · cases hm : cfg.async with
      | true => exact .held hl hm
      | false => exact .begun hl hm
    · exact .stay _
  · exact .stay _

theorem moves_dispatch : Moves cfg x .dispatch (x.dispatch cfg) := by
  unfold dispatch
  split
  · rename_i o hl
    split
    · exact .dispatched o hl
    · exact .stay _
  · exact .stay _

theorem moves_check (i : ℕ) : Moves cfg x (.check i) (x.check cfg i) := by
  unfold check
  split
  · rename_i o hi
    split
    · exact .advanced _ i o .received _ hi (fun _ => trivial) nofun
    · exact .advanced _ i o .received _ hi (fun _ => trivial) failed_commit
  · exact .stay _

theorem moves_validate (i : ℕ) (ok : Bool) : Moves cfg x (.validate i ok) (x.validate cfg i ok) := by
  unfold validate
  split
  · rename_i o object op hi
    refine .advanced _ i o _ _ hi (fun _ => trivial) ?_
    cases ok with
    | true => nofun
    | false => exact failed_commit
  · exact .stay _

theorem applied_fails {op : KafkaOp} {outcome : KafkaOutcome} (h : applied cfg op outcome = .fails stage) :
    stage = failed cfg := by
  unfold applied at h
  split at h <;> first | (cases h; done) | exact (Applied.fails.inj h).symm

theorem moves_apply (i : ℕ) (outcome : KafkaOutcome) : Moves cfg x (.apply i outcome) (x.apply cfg i outcome) := by
  unfold apply
  split
  · rename_i o object op hi
    cases hap : applied cfg op outcome with
    | returns => exact .returned i o object op outcome hi hap
    | calls stage => exact .called i o object op outcome stage hi hap
    | fails stage =>
      rw [applied_fails hap]
      exact .advanced _ i o _ _ hi (fun _ => trivial) failed_commit
    | impossible => exact .stay _
  · exact .stay _

theorem moves_deadLetter (i : ℕ) (ok : Bool) : Moves cfg x (.deadLetter i ok) (x.deadLetter cfg i ok) := by
  unfold deadLetter
  split
  · rename_i o hi
    cases ok with
    | true => exact .sent i o hi
    | false =>
      cases hm : cfg.async with
      | true => exact .advanced _ i o _ .close hi (fun h => h.elim) nofun
      | false => exact .left i o hi hm
  · exact .stay _

theorem moves_close (i : ℕ) : Moves cfg x (.close i) (x.close cfg i) := by
  unfold close
  split
  · rename_i o hi
    exact .closed i o hi
  · exact .stay _

theorem moves_commit (i : ℕ) (took ok : Bool) : Moves cfg x (.commit i took ok) (x.commit cfg i took ok) := by
  unfold commit
  split
  · rename_i o hi
    cases hc : x.closed with
    | true => exact .uncommitted i o took ok true hi
    | false =>
      cases took with
      | true => exact .committed i o ok hi hc
      | false => exact .uncommitted i o false ok (!ok) hi
  · exact .stay _

theorem moves_reopen : Moves cfg x .reopen x.reopen := by
  unfold reopen
  split
  · exact .restarted _
  · exact .stay _

theorem step_moves (a : Act) : Moves cfg x a (x.step cfg a) := by
  cases a with
  | produce key => exact .produced key
  | fetch => exact moves_fetch
  | dispatch => exact moves_dispatch
  | check i => exact moves_check i
  | validate i ok => exact moves_validate i ok
  | apply i outcome => exact moves_apply i outcome
  | deadLetter i ok => exact moves_deadLetter i ok
  | close i => exact moves_close i
  | commit i took ok => exact moves_commit i took ok
  | reopen => exact moves_reopen
  | crash => exact .restarted _

/-! ## The workers -/

theorem mem_setStage {w : KafkaWorker} (hw : w ∈ (x.setStage i o stage).workers) :
    w ∈ x.workers ∨ w = ⟨o, stage⟩ :=
  List.mem_or_eq_of_mem_set hw

theorem mem_finish {leave : Bool} {w : KafkaWorker} (hw : w ∈ (x.finish cfg i leave).workers) : w ∈ x.workers :=
  List.mem_of_mem_eraseIdx hw

/-- A worker keeps its message. -/
theorem setStage_offset (hi : x.workers[i]? = some ⟨o, stage⟩) {w : KafkaWorker} (hw : w ∈ x.workers) :
    ∃ w' ∈ (x.setStage i o stage').workers, w'.offset = w.offset := by
  obtain ⟨j, hj⟩ := List.mem_iff_getElem?.1 hw
  by_cases hij : i = j
  · subst hij
    obtain rfl : w = ⟨o, stage⟩ := Option.some.inj (hj.symm.trans hi)
    have hlt : i < x.workers.length := (List.getElem?_eq_some_iff.1 hi).1
    exact ⟨⟨o, stage'⟩, List.mem_iff_getElem?.2 ⟨i, List.getElem?_set_self hlt⟩, rfl⟩
  · exact ⟨w, List.mem_iff_getElem?.2 ⟨j, by rw [setStage, List.getElem?_set_ne hij]; exact hj⟩, rfl⟩

/-- The workers but the one that returns are still there. -/
theorem mem_finish_or {leave : Bool} (hi : x.workers[i]? = some ⟨o, stage⟩) {w : KafkaWorker}
    (hw : w ∈ x.workers) : w ∈ (x.finish cfg i leave).workers ∨ w.offset = o := by
  obtain ⟨j, hj⟩ := List.mem_iff_getElem?.1 hw
  by_cases hij : j = i
  · subst hij
    obtain rfl : w = ⟨o, stage⟩ := Option.some.inj (hj.symm.trans hi)
    exact .inr rfl
  · exact .inl (List.mem_eraseIdx_iff_getElem?.2 ⟨j, hij, hj⟩)

/-- What every run keeps: without a pool there is one worker while the loop handles a message
and none otherwise, and with a pool the loop is never left. The workers have messages before
the reader's position, and before the message that waits for a place. -/
structure OK (cfg : KafkaConfig) (x : Kafka) : Prop where
  inline : cfg.async = false → (x.loop = .handling ∧ ∃ w, x.workers = [w]) ∨ (x.loop ≠ .handling ∧ x.workers = [])
  pooled : cfg.async = true → x.loop ≠ .stopped
  bound : ∀ w ∈ x.workers, w.offset < x.position
  held : ∀ o, x.loop = .dispatch o → cfg.async = true ∧ o < x.position ∧ ∀ w ∈ x.workers, w.offset < o

/-- A loop that is left has no worker. -/
theorem OK.not_stopped (h : OK cfg x) {w : KafkaWorker} (hw : w ∈ x.workers) : x.loop ≠ .stopped := by
  cases hm : cfg.async with
  | true => exact h.pooled hm
  | false =>
    rcases h.inline hm with ⟨hl, -⟩ | ⟨-, hnil⟩
    · rw [hl]
      nofun
    · rw [hnil] at hw
      cases hw

theorem OK.congr (h : OK cfg x) (hl : y.loop = x.loop) (hw : y.workers = x.workers) (hp : y.position = x.position) :
    OK cfg y := by
  refine ⟨?_, ?_, ?_, ?_⟩
  · rw [hl, hw]; exact h.inline
  · rw [hl]; exact h.pooled
  · rw [hw, hp]; exact h.bound
  · rw [hl, hw, hp]; exact h.held

theorem OK.setStage (h : OK cfg x) (hi : x.workers[i]? = some ⟨o, stage⟩) : OK cfg (x.setStage i o stage') := by
  have hmem : ⟨o, stage⟩ ∈ x.workers := List.mem_of_getElem? hi
  refine ⟨fun hm => ?_, h.pooled, fun w hw => ?_, fun o' hl => ?_⟩
  · rcases h.inline hm with ⟨hl, w, hw⟩ | ⟨hl, hw⟩
    · obtain ⟨rfl, -⟩ : i = 0 ∧ w = ⟨o, stage⟩ := by
        rw [hw] at hi
        cases i with
        | zero => exact ⟨rfl, Option.some.inj hi⟩
        | succ i => simp at hi
      exact .inl ⟨hl, ⟨o, stage'⟩, by rw [Kafka.setStage, hw]; rfl⟩
    · rw [hw] at hmem
      cases hmem
  · rcases mem_setStage hw with hw | rfl
    · exact h.bound w hw
    · exact h.bound ⟨o, stage⟩ hmem
  · obtain ⟨hm, hlt, hbelow⟩ := h.held o' hl
    refine ⟨hm, hlt, fun w hw => ?_⟩
    rcases mem_setStage hw with hw | rfl
    · exact hbelow w hw
    · exact hbelow ⟨o, stage⟩ hmem

theorem finish_loop (cfg : KafkaConfig) (x : Kafka) (i : ℕ) (leave : Bool) :
    (cfg.async = true ∧ (x.finish cfg i leave).loop = x.loop) ∨
      (cfg.async = false ∧ (x.finish cfg i leave).loop = if leave then .stopped else .fetching) := by
  cases hm : cfg.async with
  | true => exact .inl ⟨rfl, by simp only [finish, hm, if_true]⟩
  | false => exact .inr ⟨rfl, by simp only [finish, hm]; rfl⟩

theorem OK.finish (h : OK cfg x) (hi : x.workers[i]? = some ⟨o, stage⟩) (leave : Bool) :
    OK cfg (x.finish cfg i leave) := by
  have hloop := finish_loop cfg x i leave
  refine ⟨fun hm => .inr ⟨?_, ?_⟩, fun hm => ?_, fun w hw => h.bound w (mem_finish hw), fun o' hl => ?_⟩
  · rcases hloop with ⟨hm', -⟩ | ⟨-, hl⟩
    · rw [hm] at hm'
      cases hm'
    · rw [hl]
      cases leave <;> nofun
  · -- the only worker returns
    rcases h.inline hm with ⟨-, w, hw⟩ | ⟨-, hw⟩
    · have hlen : i < x.workers.length := (List.getElem?_eq_some_iff.1 hi).1
      simp only [hw, List.length_singleton, Nat.lt_one_iff] at hlen
      subst hlen
      show x.workers.eraseIdx 0 = []
      rw [hw]
      rfl
    · rw [hw] at hi
      cases hi
  · rcases hloop with ⟨-, hl⟩ | ⟨hm', -⟩
    · rw [hl]
      exact h.pooled hm
    · rw [hm] at hm'
      cases hm'
  · rcases hloop with ⟨-, hl'⟩ | ⟨-, hl'⟩
    · rw [hl'] at hl
      obtain ⟨hm, hlt, hbelow⟩ := h.held o' hl
      exact ⟨hm, hlt, fun w hw => hbelow w (mem_finish hw)⟩
    · rw [hl'] at hl
      cases leave <;> cases hl

theorem OK.restart : OK cfg x.restart where
  inline _ := .inr ⟨nofun, rfl⟩
  pooled _ := nofun
  bound := nofun
  held := nofun

theorem OK.moves {a : Act} (h : OK cfg x) (hm : Moves cfg x a y) : OK cfg y := by
  cases hm with
  | stay => exact h
  | produced key => exact ⟨h.inline, h.pooled, h.bound, h.held⟩
  | held hl hm =>
    refine ⟨fun hm' => absurd (hm.symm.trans hm') nofun, fun _ => nofun, fun w hw => ?_, ?_⟩
    · exact Nat.lt_succ_of_lt (h.bound w hw)
    · rintro _ ⟨⟩
      exact ⟨hm, Nat.lt_succ_self _, h.bound⟩
  | begun hl hm =>
    have hnil : x.workers = [] := by
      rcases h.inline hm with ⟨hl', -⟩ | ⟨-, hw⟩
      · rw [hl] at hl'
        cases hl'
      · exact hw
    refine ⟨fun _ => .inl ⟨rfl, ⟨x.position, .received⟩, by rw [hnil]; rfl⟩, fun _ => nofun, fun w hw => ?_, nofun⟩
    rw [hnil] at hw
    obtain rfl := List.mem_singleton.1 hw
    exact Nat.lt_succ_self _
  | dispatched o hl =>
    obtain ⟨hm, hlt, hbelow⟩ := h.held o hl
    refine ⟨fun hm' => absurd (hm.symm.trans hm') nofun, fun _ => nofun, fun w hw => ?_, nofun⟩
    rcases List.mem_append.1 hw with hw | hw
    · exact h.bound w hw
    · obtain rfl := List.mem_singleton.1 hw
      exact hlt
  | advanced a i o stage stage' hi hp hc => exact h.setStage hi
  | called i o object op outcome stage hi hap => exact (h.setStage hi).congr rfl rfl rfl
  | returned i o object op outcome hi hap => exact h.finish hi false
  | sent i o hi => exact (h.setStage hi).congr rfl rfl rfl
  | left i o hi hm => exact h.finish hi true
  | closed i o hi => exact (h.finish hi true).congr rfl rfl rfl
  | committed i o ok hi hc => exact (h.finish hi (!ok)).congr rfl rfl rfl
  | uncommitted i o took ok leave hi => exact h.finish hi leave
  | restarted => exact .restart

theorem init_ok : OK cfg init where
  inline _ := .inr ⟨nofun, rfl⟩
  pooled _ := nofun
  bound := nofun
  held := nofun

/-! ## What a commit acknowledges -/

/-- A message the reader has passed is settled or in some hand, unless the reader can commit no
more. -/
structure Settles (x : Kafka) : Prop where
  commits : x.Acknowledged
  committed : ∀ o < x.committed, x.Settled o
  commit : ∀ w ∈ x.workers, w.stage = .commit → x.Settled w.offset
  passed : ∀ o < x.position, x.Settled o ∨ (∃ w ∈ x.workers, w.offset = o) ∨ x.loop = .dispatch o ∨
    x.closed = true ∨ x.loop = .stopped

theorem Settled.mono (hc : ∀ c ∈ x.calls, c ∈ y.calls) (hd : ∀ o ∈ x.dead, o ∈ y.dead) (h : x.Settled o) :
    y.Settled o := by
  rcases h with ⟨c, hmem, hc'⟩ | hmem
  · exact .inl ⟨c, hc c hmem, hc'⟩
  · exact .inr (hd o hmem)

/-- A worker's next stage, with what it records. A message about to be committed is settled. -/
theorem Settles.setStage (h : x.Settles) (hi : x.workers[i]? = some ⟨o, stage⟩) {calls : List KafkaCall}
    {dead : List ℕ} (hc : ∀ c ∈ x.calls, c ∈ calls) (hd : ∀ o ∈ x.dead, o ∈ dead)
    (hset : stage' = .commit → { x with calls := calls, dead := dead }.Settled o) :
    { x.setStage i o stage' with calls := calls, dead := dead }.Settles := by
  have hmono : ∀ o, x.Settled o → { x.setStage i o stage' with calls := calls, dead := dead }.Settled o :=
    fun o ho => ho.mono hc hd
  refine ⟨fun o' ho' r hr => hmono r (h.commits o' ho' r hr), fun o' ho' => hmono o' (h.committed o' ho'),
    fun w hw hst => ?_, fun o' ho' => ?_⟩
  · rcases mem_setStage hw with hw | rfl
    · exact hmono _ (h.commit w hw hst)
    · exact hset hst
  · rcases h.passed o' ho' with ho' | ⟨w, hw, rfl⟩ | hrest
    · exact .inl (hmono o' ho')
    · exact .inr (.inl (setStage_offset hi hw))
    · exact .inr (.inr hrest)

/-- A worker returns: its message is settled, or the loop is left. -/
theorem Settles.finish (h : x.Settles) (hok : OK cfg x) (hi : x.workers[i]? = some ⟨o, stage⟩) {leave : Bool}
    (hend : x.Settled o ∨ (cfg.async = false ∧ leave = true)) : (x.finish cfg i leave).Settles := by
  refine ⟨h.commits, h.committed, fun w hw => h.commit w (mem_finish hw), fun o' ho' => ?_⟩
  rcases h.passed o' ho' with hset | ⟨w, hw, rfl⟩ | hl | hcl | hl
  · exact .inl hset
  · rcases mem_finish_or hi hw with hw | hw
    · exact .inr (.inl ⟨w, hw, rfl⟩)
    · rcases hend with hend | ⟨hm, rfl⟩
      · exact .inl (hw ▸ hend)
      · refine .inr (.inr (.inr (.inr ?_)))
        simp only [Kafka.finish, hm]
        rfl
  · have hm := (hok.held o' hl).1
    refine .inr (.inr (.inl ?_))
    simp only [Kafka.finish, hm, if_true]
    exact hl
  · exact .inr (.inr (.inr (.inl hcl)))
  · exact absurd hl (hok.not_stopped (List.mem_of_getElem? hi))

theorem Settles.restart (h : x.Settles) : x.restart.Settles where
  commits := h.commits
  committed := h.committed
  commit := nofun
  passed o ho := .inl (h.committed o ho)

/-- The first message of those in flight: everything before it is settled. -/
theorem Settles.below (h : x.Settles) (hok : OK cfg x) (hi : x.workers[i]? = some ⟨o, .commit⟩)
    (hcl : x.closed = false) (hfirst : ∀ w ∈ x.workers, o ≤ w.offset) : ∀ r ≤ o, x.Settled r := by
  have hmem : ⟨o, .commit⟩ ∈ x.workers := List.mem_of_getElem? hi
  intro r hr
  rcases Nat.eq_or_lt_of_le hr with rfl | hlt
  · exact h.commit _ hmem rfl
  · have hpos : o < x.position := hok.bound _ hmem
    rcases h.passed r (hlt.trans hpos) with hset | ⟨w, hw, rfl⟩ | hl | hcl' | hl
    · exact hset
    · have := hfirst w hw
      omega
    · have : o < r := (hok.held r hl).2.2 _ hmem
      omega
    · rw [hcl] at hcl'
      cases hcl'
    · exact absurd hl (hok.not_stopped hmem)

theorem applied_commit {op : KafkaOp} {outcome : KafkaOutcome} (hdlq : cfg.dlq = true)
    (hap : applied cfg op outcome = .calls .commit) : outcome ≠ .error := by
  rintro rfl
  have hfailed : failed cfg = .deadLetter := by simp only [failed, hdlq, if_true]
  cases op <;> simp [applied, hfailed] at hap

theorem applied_returns {op : KafkaOp} {outcome : KafkaOutcome} (hap : applied cfg op outcome = .returns) :
    outcome ≠ .done ∧ outcome ≠ .error := by
  constructor <;> rintro rfl <;> cases op <;> cases hap

theorem Settles.moves {a : Act} (h : x.Settles) (hok : OK cfg x) (hdlq : cfg.dlq = true) (hs : x.Settling a)
    (hm : Moves cfg x a y) : y.Settles := by
  cases hm with
  | stay => exact h
  | produced key => exact ⟨h.commits, h.committed, h.commit, h.passed⟩
  | held hl hm =>
    refine ⟨h.commits, h.committed, h.commit, fun o ho => ?_⟩
    rcases Nat.lt_succ_iff_lt_or_eq.1 ho with ho | rfl
    · rcases h.passed o ho with hset | hw | hl' | hcl | hl'
      · exact .inl hset
      · exact .inr (.inl hw)
      · rw [hl] at hl'
        cases hl'
      · exact .inr (.inr (.inr (.inl hcl)))
      · rw [hl] at hl'
        cases hl'
    · exact .inr (.inr (.inl rfl))
  | begun hl hm =>
    refine ⟨h.commits, h.committed, fun w hw hst => ?_, fun o ho => ?_⟩
    · rcases List.mem_append.1 hw with hw | hw
      · exact h.commit w hw hst
      · obtain rfl := List.mem_singleton.1 hw
        cases hst
    · rcases Nat.lt_succ_iff_lt_or_eq.1 ho with ho | rfl
      · rcases h.passed o ho with hset | ⟨w, hw, hwo⟩ | hl' | hcl | hl'
        · exact .inl hset
        · exact .inr (.inl ⟨w, List.mem_append_left _ hw, hwo⟩)
        · rw [hl] at hl'
          cases hl'
        · exact .inr (.inr (.inr (.inl hcl)))
        · rw [hl] at hl'
          cases hl'
      · exact .inr (.inl ⟨⟨x.position, .received⟩, by simp, rfl⟩)
  | dispatched o hl =>
    refine ⟨h.commits, h.committed, fun w hw hst => ?_, fun o' ho' => ?_⟩
    · rcases List.mem_append.1 hw with hw | hw
      · exact h.commit w hw hst
      · obtain rfl := List.mem_singleton.1 hw
        cases hst
    · rcases h.passed o' ho' with hset | ⟨w, hw, hwo⟩ | hl' | hcl | hl'
      · exact .inl hset
      · exact .inr (.inl ⟨w, List.mem_append_left _ hw, hwo⟩)
      · obtain rfl : o = o' := KafkaLoop.dispatch.inj (hl.symm.trans hl')
        exact .inr (.inl ⟨⟨o, .received⟩, by simp, rfl⟩)
      · exact .inr (.inr (.inr (.inl hcl)))
      · rw [hl] at hl'
        cases hl'
  | advanced a i o stage stage' hi hp hc =>
    have hstage : stage' ≠ .commit := fun hst => absurd (hdlq.symm.trans (hc hst)) nofun
    exact h.setStage hi (fun _ hc => hc) (fun _ hd => hd) fun hst => absurd hst hstage
  | called i o object op outcome stage hi hap =>
    refine h.setStage hi (fun c hc => List.mem_append_left _ hc) (fun _ hd => hd) ?_
    rintro rfl
    -- a call that returns no error has to succeed
    obtain rfl : outcome = .done := (hs.1 i outcome rfl).resolve_right (applied_commit hdlq hap)
    exact .inl ⟨⟨x.session, o, object, .done⟩, by simp, rfl, rfl⟩
  | returned i o object op outcome hi hap =>
    obtain ⟨hdone, herror⟩ := applied_returns hap
    exact ((hs.1 i outcome rfl).elim hdone herror).elim
  | sent i o hi =>
    exact h.setStage hi (fun _ hc => hc) (fun d hd => List.mem_append_left _ hd) fun _ => .inr (by simp)
  | left i o hi hm => exact h.finish hok hi (.inr ⟨hm, rfl⟩)
  | closed i o hi =>
    exact ⟨h.commits, h.committed, fun w hw => h.commit w (List.mem_of_mem_eraseIdx hw),
      fun _ _ => .inr (.inr (.inr (.inl rfl)))⟩
  | committed i o ok hi hc =>
    have hbelow := h.below hok hi hc (hs.2 i true ok o rfl hi)
    have hfin : (x.finish cfg i (!ok)).Settles := h.finish hok hi (.inl (hbelow o le_rfl))
    refine ⟨fun o' ho' r hr => ?_, fun o' ho' => hbelow o' (Nat.lt_succ_iff.1 ho'), hfin.commit, hfin.passed⟩
    rcases List.mem_append.1 ho' with ho' | ho'
    · exact h.commits o' ho' r hr
    · obtain rfl := List.mem_singleton.1 ho'
      exact hbelow r hr
  | uncommitted i o took ok leave hi =>
    exact h.finish hok hi (.inl (h.commit _ (List.mem_of_getElem? hi) rfl))
  | restarted => exact h.restart

theorem init_settles : init.Settles where
  commits := nofun
  committed := nofun
  commit := nofun
  passed := nofun

/-- **A commit acknowledges only settled messages**, for any size of the pool, in the runs where
every message is handed to the backend, which succeeds or returns an error, and where no
message is committed while an earlier one is in flight. -/
theorem commits_settled (cfg : KafkaConfig) (hdlq : cfg.dlq = true) (acts : List Act)
    (hs : Lts.Guarded (step cfg) Settling init acts) : Lts.Always (step cfg) Acknowledged init acts := by
  have hinv : Lts.Always (step cfg) (fun x => OK cfg x ∧ x.Settles) init acts := Lts.invariant_of_guarded
    (fun x a ha hx => ⟨hx.1.moves (step_moves a), hx.2.moves hx.1 hdlq ha (step_moves a)⟩)
    acts _ ⟨init_ok, init_settles⟩ hs
  exact hinv.mono fun x hx => hx.2.commits

/-! ## The order of the calls -/

/-- Without a pool a reader has called the backend only for messages before the one it
handles. -/
structure Ordered (x : Kafka) : Prop where
  order : x.InOrder
  sessions : ∀ c ∈ x.calls, c.session ≤ x.session
  passed : ∀ c ∈ x.calls, c.session = x.session → c.offset < x.position
  pending : ∀ c ∈ x.calls, c.session = x.session → ∀ w ∈ x.workers, w.stage.Pending → c.offset < w.offset

theorem Ordered.setStage (h : x.Ordered) (hi : x.workers[i]? = some ⟨o, stage⟩)
    (hp : stage'.Pending → stage.Pending) : (x.setStage i o stage').Ordered := by
  refine ⟨h.order, h.sessions, h.passed, fun c hc hs w hw hw' => ?_⟩
  rcases mem_setStage hw with hw | rfl
  · exact h.pending c hc hs w hw hw'
  · exact h.pending c hc hs ⟨o, stage⟩ (List.mem_of_getElem? hi) (hp hw')

theorem Ordered.finish (h : x.Ordered) (cfg : KafkaConfig) (i : ℕ) (leave : Bool) : (x.finish cfg i leave).Ordered :=
  ⟨h.order, h.sessions, h.passed, fun c hc hs w hw => h.pending c hc hs w (mem_finish hw)⟩

theorem Ordered.congr (h : x.Ordered) (hc : y.calls = x.calls) (hs : y.session = x.session)
    (hp : y.position = x.position) (hw : y.workers = x.workers) : y.Ordered := by
  refine ⟨?_, ?_, ?_, ?_⟩
  · unfold InOrder
    rw [hc]
    exact h.order
  · rw [hc, hs]; exact h.sessions
  · rw [hc, hs, hp]; exact h.passed
  · rw [hc, hs, hw]; exact h.pending

theorem applied_calls {op : KafkaOp} {outcome : KafkaOutcome} (hap : applied cfg op outcome = .calls stage) :
    stage = .commit ∨ stage = failed cfg := by
  unfold applied at hap
  split at hap <;> first | (cases hap; done) | (cases hap; exact .inl rfl) | exact .inr (Applied.calls.inj hap).symm

theorem applied_not_pending {op : KafkaOp} {outcome : KafkaOutcome} (hap : applied cfg op outcome = .calls stage) :
    ¬ stage.Pending := by
  rcases applied_calls hap with rfl | rfl
  · exact id
  · exact failed_not_pending

/-- The call of the only worker comes after those the reader has made before. -/
theorem Ordered.called (h : x.Ordered) (hok : OK cfg x) (hm : cfg.async = false) {object : Bytes} {op : KafkaOp}
    {outcome : KafkaOutcome} (hi : x.workers[i]? = some ⟨o, .apply object op⟩) (hstage : ¬ stage.Pending) :
    Ordered { x.setStage i o stage with calls := x.calls ++ [⟨x.session, o, object, outcome⟩] } := by
  have hmem : ⟨o, .apply object op⟩ ∈ x.workers := List.mem_of_getElem? hi
  have hafter : ∀ c ∈ x.calls, c.session = x.session → c.offset < o :=
    fun c hc hs => h.pending c hc hs ⟨o, .apply object op⟩ hmem trivial
  refine ⟨?_, fun c hc => ?_, fun c hc hs => ?_, fun c hc hs w hw hw' => ?_⟩
  · refine List.pairwise_append.2 ⟨h.order, List.pairwise_singleton _ _, ?_⟩
    rintro c hc d hd hs -
    obtain rfl := List.mem_singleton.1 hd
    exact hafter c hc hs
  · rcases List.mem_append.1 hc with hc | hc
    · exact h.sessions c hc
    · obtain rfl := List.mem_singleton.1 hc
      exact le_rfl
  · rcases List.mem_append.1 hc with hc | hc
    · exact h.passed c hc hs
    · obtain rfl := List.mem_singleton.1 hc
      exact hok.bound ⟨o, .apply object op⟩ hmem
  · -- no worker is left whose message has not been applied
    exfalso
    obtain ⟨v, hv⟩ : ∃ v, (x.setStage i o stage).workers = [v] := by
      rcases hok.inline hm with ⟨-, v, hv⟩ | ⟨-, hv⟩
      · have hlen : (x.setStage i o stage).workers.length = 1 := by simp [Kafka.setStage, hv]
        exact List.length_eq_one_iff.1 hlen
      · rw [hv] at hmem
        cases hmem
    have hself : ⟨o, stage⟩ ∈ (x.setStage i o stage).workers :=
      List.mem_iff_getElem?.2 ⟨i, List.getElem?_set_self (List.getElem?_eq_some_iff.1 hi).1⟩
    have hw'' : w ∈ (x.setStage i o stage).workers := hw
    rw [hv, List.mem_singleton] at hself hw''
    obtain rfl : w = ⟨o, stage⟩ := hw''.trans hself.symm
    exact hstage hw'

theorem Ordered.moves {a : Act} (h : x.Ordered) (hok : OK cfg x) (hm : cfg.async = false)
    (hmove : Moves cfg x a y) : y.Ordered := by
  cases hmove with
  | stay => exact h
  | produced key => exact h.congr rfl rfl rfl rfl
  | held hl hm' => exact absurd (hm'.symm.trans hm) nofun
  | begun hl hm' =>
    refine ⟨h.order, h.sessions, fun c hc hs => Nat.lt_succ_of_lt (h.passed c hc hs), fun c hc hs w hw hw' => ?_⟩
    rcases List.mem_append.1 hw with hw | hw
    · exact h.pending c hc hs w hw hw'
    · obtain rfl := List.mem_singleton.1 hw
      exact h.passed c hc hs
  | dispatched o hl => exact absurd ((hok.held o hl).1.symm.trans hm) nofun
  | advanced a i o stage stage' hi hp hc => exact h.setStage hi hp
  | called i o object op outcome stage hi hap => exact h.called hok hm hi (applied_not_pending hap)
  | returned i o object op outcome hi hap => exact h.finish cfg i false
  | sent i o hi =>
    have hset : (x.setStage i o .commit).Ordered := h.setStage hi False.elim
    exact hset.congr rfl rfl rfl rfl
  | left i o hi hm' => exact h.finish cfg i true
  | closed i o hi => exact (h.finish cfg i true).congr rfl rfl rfl rfl
  | committed i o ok hi hc => exact (h.finish cfg i (!ok)).congr rfl rfl rfl rfl
  | uncommitted i o took ok leave hi => exact h.finish cfg i leave
  | restarted =>
    have hold : ∀ c ∈ x.calls, c.session ≠ x.session + 1 := fun c hc hs => by
      have := h.sessions c hc
      omega
    exact ⟨h.order, fun c hc => (h.sessions c hc).trans (Nat.le_succ _), fun c hc hs => absurd hs (hold c hc), nofun⟩

theorem init_ordered : init.Ordered := ⟨List.Pairwise.nil, nofun, nofun, nofun⟩

/-! ## Runs -/

/-- The keys of messages that create, update and delete a pod, and of one that updates a cluster
role. -/
def createPod : Bytes := ascii "/registry/pods/default/a#create"

def deletePod : Bytes := ascii "/registry/pods/default/a#delete"

def updatePod : Bytes := ascii "/registry/pods/default/a#update"

def updateRole : Bytes := ascii "/registry/clusterroles/view#update"

/-- A message is checked, passes the dry run, and is applied. -/
def handled (i : ℕ) (outcome : KafkaOutcome) : List Act := [.check i, .validate i true, .apply i outcome]

/-- Two messages, the second of which cannot be created and goes to the DLQ. -/
def settledRun : List Act :=
  [.produce createPod, .produce createPod, .fetch] ++ handled 0 .done ++ [.commit 0 true true, .fetch] ++
    handled 0 .error ++ [.deadLetter 0 true, .commit 0 true true]

theorem settling_apply {outcome : KafkaOutcome} (h : outcome = .done ∨ outcome = .error) :
    x.Settling (.apply i outcome) := by
  refine ⟨?_, nofun⟩
  rintro _ _ ⟨⟩
  exact h

/-- A worker that is alone commits the first message in flight. -/
theorem settling_commit {took ok : Bool} (h : x.workers.length = 1) : x.Settling (.commit i took ok) := by
  refine ⟨nofun, ?_⟩
  rintro _ _ _ o ⟨⟩ hi w hw
  obtain ⟨v, hv⟩ := List.length_eq_one_iff.1 h
  have hmem : ⟨o, .commit⟩ ∈ x.workers := List.mem_of_getElem? hi
  rw [hv, List.mem_singleton] at hmem hw
  obtain rfl : w = ⟨o, .commit⟩ := hw.trans hmem.symm
  exact le_rfl

theorem commits_settled_inline :
    Lts.Always (step ⟨1, true⟩) Acknowledged init settledRun ∧
      (Lts.exec (step ⟨1, true⟩) init settledRun).commits = [0, 1] := by
  refine ⟨commits_settled ⟨1, true⟩ rfl settledRun ?_, by decide +kernel⟩
  have hfree : ∀ a ∈ [Act.produce createPod, .fetch, .check 0, .validate 0 true, .deadLetter 0 true],
      ∀ x : Kafka, x.Settling a := by simp [Settling]
  refine ⟨hfree _ (by simp) _, hfree _ (by simp) _, hfree _ (by simp) _, hfree _ (by simp) _, hfree _ (by simp) _,
    settling_apply (.inl rfl), settling_commit (by decide +kernel), hfree _ (by simp) _, hfree _ (by simp) _,
    hfree _ (by simp) _, settling_apply (.inr rfl), hfree _ (by simp) _, settling_commit (by decide +kernel), trivial⟩

/-- The update of the cluster role ends without a commit, and the next message is committed. -/
def unparsedRun : List Act :=
  [.produce updateRole, .produce deletePod, .fetch] ++ handled 0 .unparsed ++ [.fetch] ++ handled 0 .done ++
    [.commit 0 true true]

/-- The backend refuses an update, since its resource version is not the latest. -/
def refusedRun : List Act :=
  [.produce updatePod, .fetch] ++ handled 0 .refused ++ [.commit 0 true true]

/-- The second message is committed before the first one, which then can neither be applied nor
written to the DLQ. -/
def overtakingRun : List Act :=
  [.produce createPod, .produce deletePod, .fetch, .dispatch, .fetch, .dispatch] ++ handled 1 .done ++
    [.commit 1 true true] ++ handled 0 .error ++ [.deadLetter 0 false, .close 0]

/-- **Messages are lost**: one whose resource version cannot be parsed and one that the backend
refuses, both without a pool, and one that another overtakes in the pool. -/
theorem commits_lose_messages :
    ¬ Acknowledged (Lts.exec (step ⟨1, true⟩) init unparsedRun) ∧
      ¬ Acknowledged (Lts.exec (step ⟨1, true⟩) init refusedRun) ∧
      ¬ Acknowledged (Lts.exec (step ⟨10, true⟩) init overtakingRun) := by
  decide +kernel

/-- Both messages of the pod are in flight, and the second one reaches the backend first. -/
def swappedRun : List Act :=
  [.produce createPod, .produce deletePod, .fetch, .dispatch, .fetch, .dispatch] ++ handled 1 .done ++ handled 0 .done

/-- A pool of any size above one has places for both messages. -/
theorem both_dispatched (hpool : 1 < cfg.pool) :
    Lts.exec (step cfg) init [.produce createPod, .produce deletePod, .fetch, .dispatch, .fetch, .dispatch] =
      ⟨[createPod, deletePod], 0, 0, 2, false, .fetching, [⟨0, .received⟩, ⟨1, .received⟩], [], [], []⟩ := by
  have hasync : cfg.async = true := by simpa only [KafkaConfig.async, decide_eq_true_eq] using hpool
  have hplace : (0 : ℤ) < cfg.pool := by omega
  simp only [Lts.exec, List.foldl, step, fetch, dispatch, init, hasync, hplace, hpool, List.length_nil,
    List.nil_append, List.cons_append, Nat.cast_zero, Nat.cast_one, Nat.zero_lt_succ, Nat.one_lt_two, if_true,
    zero_add, List.length_cons, Nat.reduceAdd]

/-- The pod is deleted before it is created. -/
theorem swapped_calls (hpool : 1 < cfg.pool) :
    (Lts.exec (step cfg) init swappedRun).calls =
      [⟨0, 1, ascii "/registry/pods/default/a", .done⟩, ⟨0, 0, ascii "/registry/pods/default/a", .done⟩] := by
  have hcreate : parseKey createPod = some (ascii "/registry/pods/default/a", .create) := by decide +kernel
  have hdelete : parseKey deletePod = some (ascii "/registry/pods/default/a", .delete) := by decide +kernel
  unfold swappedRun
  rw [List.append_assoc, Lts.exec_append, both_dispatched hpool]
  simp [Lts.exec, handled, step, check, validate, apply, applied, setStage, hcreate, hdelete]

/-- **The messages of one object are applied in the order of their offsets** in every run if and
only if the pool has no more than one place. -/
theorem inOrder_iff (cfg : KafkaConfig) :
    (∀ acts : List Act, Lts.Always (step cfg) InOrder init acts) ↔ cfg.pool ≤ 1 := by
  constructor
  · intro hall
    by_contra hpool
    have horder : InOrder (Lts.exec (step cfg) init swappedRun) := (hall swappedRun).last
    unfold InOrder at horder
    rw [swapped_calls (not_le.1 hpool)] at horder
    have hlt : 1 < 0 := List.rel_of_pairwise_cons horder List.mem_cons_self rfl rfl
    omega
  · intro hpool acts
    have hm : cfg.async = false := by simpa only [KafkaConfig.async, decide_eq_false_iff_not, not_lt] using hpool
    have hinv : Lts.Always (step cfg) (fun x => OK cfg x ∧ x.Ordered) init acts := Lts.invariant
      (fun x a hx => ⟨hx.1.moves (step_moves a), hx.2.moves hx.1 hm (step_moves a)⟩) acts _ ⟨init_ok, init_ordered⟩
    exact hinv.mono fun x hx => hx.2.order

/-- With the pool's default size. -/
theorem pods_swapped : ¬ InOrder (Lts.exec (step ⟨10, true⟩) init swappedRun) := by
  intro horder
  unfold InOrder at horder
  rw [swapped_calls (by decide)] at horder
  have hlt : 1 < 0 := List.rel_of_pairwise_cons horder List.mem_cons_self rfl rfl
  omega

end Kafka

end Harikube
