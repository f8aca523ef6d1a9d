import Harikube.Lts.Run
import Harikube.Proof.NatsCreate
import Harikube.Spec.NatsLease

/-!
# Whether leases are enforced

A version with a lease is deleted when it expires only if the heap has an entry for it. Entries are
added by the calls of this process, and taken out before the delete is known to succeed.

* `write_stream`, `step_stream`: what a step of a call adds to the bucket.
* `step_held`: a step that meets the condition `Sound` keeps every live version with a lease held.
* `leases_enforced`: **in every run of such steps the leases are enforced.**
* `lease_lost`: a restart, a callback that fails and a write of another process each leave a live
  version without an entry.
-/

namespace Harikube

namespace NatsCalls

variable {hist : ℕ} {x : NatsCalls} {i : ℕ}

/-- The tombstones that calls are about to write are tombstones. -/
def Deletes (x : NatsCalls) : Prop := ∀ key data last, NatsCall.tombstone key data last ∈ x.calls → data.delete = true

theorem Deletes.set (h : x.Deletes) (i : ℕ) {c : NatsCall} (hc : ∀ key data last, c ≠ .tombstone key data last)
    (store : NatsStore) : Deletes ⟨store, x.calls.set i c⟩ := by
  intro key data last hmem
  rcases List.mem_or_eq_of_mem_set hmem with hmem | heq
  · exact h key data last hmem
  · exact absurd heq.symm (hc key data last)

theorem Deletes.addCall (h : x.Deletes) {c : NatsCall}
    (hc : ∀ key data last, c = .tombstone key data last → data.delete = true) : (x.addCall c).Deletes := by
  intro key data last hmem
  rcases List.mem_append.1 hmem with hmem | hmem
  · exact h key data last hmem
  · exact hc key data last (List.mem_singleton.1 hmem).symm

theorem Deletes.takes (h : x.Deletes) (result : Except Err (List NatsMsg)) {next : NatsCall}
    (hn : ∀ key data last, next ≠ .tombstone key data last) : (x.takes i result next).Deletes := by
  unfold NatsCalls.takes
  split
  · exact h.set i hn _
  · exact h.set i (c := .ended) (fun _ _ _ => NatsCall.noConfusion) _

theorem Deletes.write (h : x.Deletes) (ok : Bool) : (x.write i ok).Deletes := by
  unfold NatsCalls.write
  split
  · exact h.takes _ fun _ _ _ => NatsCall.noConfusion
  · refine h.takes _ fun key data last => ?_
    split <;> exact NatsCall.noConfusion
  · exact h.takes _ fun _ _ _ => NatsCall.noConfusion
  · exact h

theorem Deletes.delete (h : x.Deletes) (key : Bytes) (revision : ℤ) : (x.delete hist key revision).Deletes := by
  unfold NatsCalls.delete
  split
  · rename_i data last hplan
    refine h.addCall fun key' data' last' heq => ?_
    obtain ⟨-, rfl, -⟩ := NatsCall.tombstone.inj heq
    unfold NatsStore.deletePlan at hplan
    split at hplan
    · split_ifs at hplan
      rw [← (Prod.mk.inj (Option.some.inj hplan)).1]
    · cases hplan
  · exact h

theorem Deletes.step (h : x.Deletes) (a : Act) : (x.step hist a).Deletes := by
  cases a with
  | observe => exact h
  | create key value lease =>
    show (x.create hist key value lease).Deletes
    unfold NatsCalls.create
    split
    · exact h.addCall fun _ _ _ => NatsCall.noConfusion
    · exact h
  | update key value revision lease =>
    show (x.update hist key value revision lease).Deletes
    unfold NatsCalls.update
    split
    · exact h.addCall fun _ _ _ => NatsCall.noConfusion
    · exact h
  | delete key revision => exact h.delete key revision
  | write i ok => exact h.write ok
  | fail i => exact h.set i (c := .ended) (fun _ _ _ => NatsCall.noConfusion) _
  | crash => exact fun _ _ _ hmem => absurd hmem List.not_mem_nil

/-- **What a write adds to the bucket**: nothing, the put of the call, or something that is not live. -/
theorem write_stream (h : x.Deletes) (ok : Bool) :
    (x.write i ok).store.stream = x.store.stream ∨
    ∃ m, (x.write i ok).store.stream = x.store.stream ++ [m] ∧
      (m.live = true → ∃ key data last, m = .put key data ∧ x.calls[i]? = some (.put key data last) ∧
        NatsStore.bucketPut x.store.stream key data last = .ok (x.store.stream ++ [m])) := by
  unfold NatsCalls.write
  split
  · rename_i key data last hi
    unfold NatsCalls.takes
    split
    · rename_i stream hput
      obtain rfl := bucketPut_ok hput
      exact .inr ⟨_, rfl, fun _ => ⟨key, data, last, rfl, hi, hput⟩⟩
    · exact .inl rfl
  · rename_i key data last hi
    have hdel := h key data last (List.mem_of_getElem? hi)
    unfold NatsCalls.takes
    split
    · rename_i stream hupdate
      refine .inr ⟨_, bucketUpdate_ok hupdate, fun hlive => ?_⟩
      rw [NatsMsg.live, hdel] at hlive
      cases hlive
    · exact .inl rfl
  · unfold NatsCalls.takes
    split
    · rename_i stream hdelete
      refine .inr ⟨_, bucketDelete_ok hdelete, fun hlive => ?_⟩
      cases hlive
    · exact .inl rfl
  · exact .inl rfl

/-- Only writes change the bucket. -/
theorem step_stream (hist : ℕ) (x : NatsCalls) (a : Act) (ha : ∀ i ok, a ≠ .write i ok) :
    (x.step hist a).store.stream = x.store.stream := by
  cases a with
  | observe =>
    show (x.store.observe hist).stream = x.store.stream
    unfold NatsStore.observe
    split
    · rfl
    · split
      · rfl
      · split <;> rfl
  | create key value lease =>
    show (x.create hist key value lease).store.stream = _
    unfold NatsCalls.create
    split <;> rfl
  | update key value revision lease =>
    show (x.update hist key value revision lease).store.stream = _
    unfold NatsCalls.update
    split <;> rfl
  | delete key revision =>
    show (x.delete hist key revision).store.stream = _
    unfold NatsCalls.delete
    split <;> rfl
  | write i ok => exact absurd rfl (ha i ok)
  | fail i => rfl
  | crash => rfl

end NatsCalls

namespace NatsLease

variable {hist : ℕ} {x : NatsLease}

/-! ## One message more -/

/-- The live versions with a lease after another message are those before, and the message. -/
theorem leased_append {stream : List NatsMsg} {m m' : NatsMsg} {seq : ℕ} (h : Leased (stream ++ [m]) m' seq) :
    Leased stream m' seq ∨ m' = m ∧ seq = stream.length + 1 := by
  obtain ⟨hlast, hlive, hlease⟩ := h
  rw [lastMsg_append] at hlast
  split at hlast
  · obtain ⟨rfl, rfl⟩ := Prod.mk.inj (Option.some.inj hlast)
    exact .inr ⟨rfl, rfl⟩
  · exact .inl ⟨hlast, hlive, hlease⟩

/-! ## The steps -/

/-- Every live version with a lease is held. -/
def AllHeld (x : NatsLease) : Prop := ∀ m seq, Leased x.stream m seq → x.Held m.key seq

theorem Held.inHeap {key : Bytes} {seq : ℕ} (h : x.Held key seq) (hadds : x.adds = []) (hexp : x.expiring = none) :
    x.InHeap key seq := by
  rcases h with h | ⟨p, hp, -⟩ | ⟨p, hp, -⟩
  · exact h
  · rw [hadds] at hp
    exact absurd hp List.not_mem_nil
  · rw [hexp] at hp
    cases hp

/-- More entries, more adds, and the same callback. -/
theorem Held.mono {x' : NatsLease} {key : Bytes} {seq : ℕ} (h : x.Held key seq) (hheap : x'.heap = x.heap)
    (hadds : ∀ p ∈ x.adds, p ∈ x'.adds) (hexp : x'.expiring = x.expiring) : x'.Held key seq := by
  rcases h with ⟨e, he, hes⟩ | ⟨p, hp, hps⟩ | ⟨p, hp, hps⟩
  · exact .inl ⟨e, hheap ▸ he, hes⟩
  · exact .inr (.inl ⟨p, hadds p hp, hps⟩)
  · exact .inr (.inr ⟨p, hexp ▸ hp, hps⟩)

/-- A write of a call. -/
theorem AllHeld.write (h : x.AllHeld) (hd : x.backend.Deletes) (i : ℕ) (ok : Bool)
    (hs : Sound hist x (.call (.write i ok))) : (x.call hist (.write i ok)).AllHeld := by
  have hold : ∀ {key seq}, x.Held key seq → (x.call hist (.write i ok)).Held key seq := fun hh =>
    hh.mono rfl (fun p hp => List.mem_append_left _ hp) rfl
  intro m seq hleased
  rcases NatsCalls.write_stream (i := i) hd ok with hsame | ⟨m', happ, hput⟩
  · have hstream : (x.call hist (.write i ok)).stream = x.stream := hsame
    rw [hstream] at hleased
    exact hold (h m seq hleased)
  · have hleased' : Leased (x.stream ++ [m']) m seq := happ ▸ hleased
    rcases leased_append hleased' with hbefore | ⟨rfl, rfl⟩
    · exact hold (h m seq hbefore)
    · obtain ⟨key, data, last, rfl, hi, hok⟩ := hput hleased'.2.1
      have hlease : 0 < data.kv.lease := hleased'.2.2
      cases ok with
      | false => exact absurd (hs.write i key data last _ rfl hi hok) (not_le.2 hlease)
      | true =>
        -- the call has been told, and is about to add the entry
        refine .inr (.inl ⟨(key, x.stream.length + 1, data.kv.lease), List.mem_append_right _ ?_, rfl, rfl⟩)
        have hok' : NatsStore.bucketPut x.stream key data last = .ok (x.stream ++ [.put key data]) := hok
        simp only [reported, hi, hok', if_pos hlease, List.mem_singleton]

theorem call_other (x : NatsLease) {a : NatsCalls.Act} (ha : a ≠ .crash) :
    x.call hist a = { x with backend := x.backend.step hist a, adds := x.adds ++ x.reported a } := by
  cases a with
  | crash => exact absurd rfl ha
  | _ => rfl

theorem AllHeld.call (h : x.AllHeld) (hd : x.backend.Deletes) {a : NatsCalls.Act} (hs : Sound hist x (.call a)) :
    (x.call hist a).AllHeld := by
  by_cases hw : ∃ i ok, a = .write i ok
  · obtain ⟨i, ok, rfl⟩ := hw
    exact h.write hd i ok hs
  · by_cases hc : a = .crash
    · subst hc
      exact fun m seq hleased => absurd hleased (hs.crash rfl m seq)
    · have hstream := NatsCalls.step_stream hist x.backend a fun i ok ha => hw ⟨i, ok, ha⟩
      intro m seq hleased
      rw [call_other x hc] at hleased ⊢
      unfold stream at hleased
      rw [hstream] at hleased
      exact (h m seq hleased).mono rfl (fun p hp => List.mem_append_left _ hp) rfl

theorem eq_or_mem_eraseIdx {α : Type*} {l : List α} {i : ℕ} {a b : α} (ha : l[i]? = some a) (hb : b ∈ l) :
    b = a ∨ b ∈ l.eraseIdx i := by
  obtain ⟨j, hj⟩ := List.mem_iff_getElem?.1 hb
  by_cases hij : j = i
  · subst hij
    exact .inl (Option.some.inj (hj.symm.trans ha))
  · exact .inr (List.mem_eraseIdx_iff_getElem?.2 ⟨j, hij, hj⟩)

theorem AllHeld.add (h : x.AllHeld) (i : ℕ) (now : ℤ) : (x.add i now).AllHeld := by
  unfold NatsLease.add
  split
  · exact h
  · rename_i key seq lease hi
    intro m seq' hleased
    rcases h m seq' hleased with ⟨e, he, hes⟩ | ⟨p, hp, hps⟩ | hexp
    · exact .inl ⟨e, List.mem_append_left _ he, hes⟩
    · rcases eq_or_mem_eraseIdx hi hp with rfl | hp
      · exact .inl ⟨_, List.mem_append_right _ (List.mem_singleton.2 rfl), hps⟩
      · exact .inr (.inl ⟨p, hp, hps⟩)
    · exact .inr (.inr hexp)

theorem AllHeld.expire (h : x.AllHeld) (i : ℕ) (now : ℤ) : (x.expire i now).AllHeld := by
  unfold NatsLease.expire
  split
  · rename_i e heap hidle hnext
    unfold expireNext at hnext
    split at hnext
    · cases hnext
    · rename_i e' hi
      split at hnext
      · obtain ⟨rfl, rfl⟩ := Prod.mk.inj (Option.some.inj hnext)
        intro m seq hleased
        rcases h m seq hleased with ⟨e, he, hes⟩ | hadds | ⟨p, hp, -⟩
        · rcases eq_or_mem_eraseIdx hi he with rfl | he
          · exact .inr (.inr ⟨_, rfl, hes⟩)
          · exact .inl ⟨e, he, hes⟩
        · exact .inr (.inl hadds)
        · rw [hidle] at hp
          cases hp
      · cases hnext
  · exact h

/-- The callback goes on for its entry, or returns. -/
theorem AllHeld.expiring (h : x.AllHeld) {x' : NatsLease} (hstream : x'.stream = x.stream) (hheap : x'.heap = x.heap)
    (hadds : x'.adds = x.adds) (hexp : ∀ p, x.expiring = some p → x'.expiring = none ∨ ∃ p' ∈ x'.expiring, p'.1 = p.1)
    (hret : ∀ p, x.expiring = some p → x'.expiring = none → ∀ m, m.key = p.1.key → ¬ Leased x.stream m p.1.seq) :
    x'.AllHeld := by
  intro m seq hleased
  rw [hstream] at hleased
  rcases h m seq hleased with ⟨e, he, hes⟩ | ⟨p, hp, hps⟩ | ⟨p, hp, hkey, hseq⟩
  · exact .inl ⟨e, hheap ▸ he, hes⟩
  · exact .inr (.inl ⟨p, hadds ▸ hp, hps⟩)
  · rcases hexp p hp with hnone | ⟨p', hp', heq⟩
    · exact absurd (hseq ▸ hleased) (hret p hp hnone m hkey.symm)
    · exact .inr (.inr ⟨p', hp', heq ▸ ⟨hkey, hseq⟩⟩)

theorem AllHeld.callback (h : x.AllHeld) (hs : Sound hist x .callback) : (x.callback hist).AllHeld := by
  have hret := hs.returns
  change ∀ p, x.expiring = some p → (x.callback hist).expiring = none → _ at hret
  unfold NatsLease.callback at hret ⊢
  split
  · rename_i e hexp
    rw [hexp] at hret
    refine h.expiring ?_ rfl rfl (fun p hp => ?_) (fun p hp hnone => hret p (hexp ▸ hp) hnone)
    · exact NatsCalls.step_stream hist x.backend (.delete e.key e.seq) fun _ _ => NatsCalls.Act.noConfusion
    · rw [hexp] at hp
      obtain rfl := Option.some.inj hp
      simp only
      split
      · exact .inr ⟨_, rfl, rfl⟩
      · exact .inl rfl
  · exact h

theorem AllHeld.callbackFails (h : x.AllHeld) (hs : Sound hist x .callbackFails) : x.callbackFails.AllHeld := by
  have hret := hs.returns
  change ∀ p, x.expiring = some p → x.callbackFails.expiring = none → _ at hret
  unfold NatsLease.callbackFails at hret ⊢
  split
  · rename_i e hexp
    rw [hexp] at hret
    exact h.expiring rfl rfl rfl (fun _ _ => .inl rfl) fun p hp hnone => hret p (hexp ▸ hp) hnone
  · exact h

theorem AllHeld.returns (h : x.AllHeld) (hs : Sound hist x .returns) : x.returns.AllHeld := by
  have hret := hs.returns
  change ∀ p, x.expiring = some p → x.returns.expiring = none → _ at hret
  unfold NatsLease.returns at hret ⊢
  split
  · rename_i e i hexp
    rw [hexp] at hret
    split
    · rename_i hended
      simp only [if_pos hended] at hret
      exact h.expiring rfl rfl rfl (fun _ _ => .inl rfl) fun p hp _ => hret p (hexp ▸ hp) trivial
    · exact h
  · exact h

theorem AllHeld.peer (h : x.AllHeld) {m : NatsMsg} (hs : Sound hist x (.peer m)) : (x.peer m).AllHeld := by
  unfold NatsLease.peer
  split
  · intro m' seq hleased
    rcases leased_append hleased with hbefore | ⟨rfl, -⟩
    · exact h m' seq hbefore
    · exact absurd (hs.peer m' rfl hleased.2.1) (not_le.2 hleased.2.2)
  · exact h

/-- **A step that meets the condition keeps every live version with a lease held.** -/
theorem step_held (h : x.AllHeld) (hd : x.backend.Deletes) {a : Act} (hs : Sound hist x a) :
    (x.step hist a).AllHeld := by
  cases a with
  | call a => exact h.call hd hs
  | add i now => exact h.add i now
  | expire i now => exact h.expire i now
  | callback => exact h.callback hs
  | callbackFails => exact h.callbackFails hs
  | returns => exact h.returns hs
  | peer m => exact h.peer hs

theorem step_deletes (hd : x.backend.Deletes) (a : Act) : (x.step hist a).backend.Deletes := by
  cases a with
  | call a =>
    show (x.call hist a).backend.Deletes
    by_cases hc : a = .crash
    · subst hc
      exact fun _ _ _ hmem => absurd hmem List.not_mem_nil
    · rw [call_other x hc]
      exact hd.step a
  | add i now =>
    show (x.add i now).backend.Deletes
    unfold NatsLease.add
    split <;> exact hd
  | expire i now =>
    show (x.expire i now).backend.Deletes
    unfold NatsLease.expire
    split <;> exact hd
  | callback =>
    show (x.callback hist).backend.Deletes
    unfold NatsLease.callback
    split
    · exact hd.delete _ _
    · exact hd
  | callbackFails =>
    show x.callbackFails.backend.Deletes
    unfold NatsLease.callbackFails
    split <;> exact hd
  | returns =>
    show x.returns.backend.Deletes
    unfold NatsLease.returns
    split
    · split <;> exact hd
    · exact hd
  | peer m =>
    show (x.peer m).backend.Deletes
    unfold NatsLease.peer
    split <;> exact hd

theorem init_held : init.AllHeld := by
  rintro m seq ⟨hlast, -⟩
  cases hlast

/-- **In every run whose steps meet the condition the leases are enforced**: every live version with
a lease has its entry in the heap, or the call that wrote it is about to add the entry, or its
callback is running. -/
theorem leases_enforced (hist : ℕ) (acts : List Act) (hs : Lts.Guarded (step hist) (Sound hist) init acts) :
    Lts.Always (step hist) Enforced init acts := by
  have hinv : Lts.Always (step hist) (fun x => x.AllHeld ∧ x.backend.Deletes) init acts :=
    Lts.invariant_of_guarded (fun x a ha hx => ⟨step_held hx.1 hx.2 ha, step_deletes hx.2 a⟩) acts _
      ⟨init_held, fun _ _ _ hmem => absurd hmem List.not_mem_nil⟩ hs
  exact hinv.mono fun x hx m seq hleased => ⟨hx.1 m seq hleased, (hx.1 m seq hleased).inHeap⟩

/-- A key is created with a lease of five seconds. -/
def leasedRun : List Act :=
  [.call (.create (ascii "/a") [] 5), .call (.write 0 true), .call .observe, .add 0 0]

/-- It expires and is deleted. -/
def expiredRun : List Act :=
  leasedRun ++ [.expire 0 5, .callback, .call (.write 1 true), .call (.write 1 true), .returns]

/-- No step of a restart, of another process, or whose report is lost. -/
def Act.reliable : Act → Bool
  | .call .crash => false
  | .call (.write _ ok) => ok
  | .peer _ => false
  | _ => true

theorem sound_of_reliable {a : Act} (ha : a.reliable = true)
    (hret : ∀ p, x.expiring = some p → (x.step hist a).expiring = none → ∀ m, m.key = p.1.key →
      ¬ Leased x.stream m p.1.seq) : Sound hist x a := by
  refine ⟨?_, ?_, ?_, hret⟩
  · rintro rfl
    cases ha
  · rintro m rfl
    cases ha
  · rintro i key data last stream rfl
    cases ha

theorem leases_enforced_expired :
    (Lts.exec (step 10) init leasedRun).heap = [⟨ascii "/a", 1, 5⟩] ∧
      (Lts.exec (step 10) init expiredRun).stream.length = 3 ∧ Lts.Always (step 10) Enforced init expiredRun := by
  have hstill : ∀ {x : NatsLease} {a : Act}, a.reliable = true →
      (x.expiring = none ∨ (x.step 10 a).expiring ≠ none) → Sound 10 x a := by
    intro x a ha hexp
    refine sound_of_reliable ha fun p hp hnone => ?_
    rcases hexp with hexp | hexp
    · rw [hexp] at hp
      cases hp
    · exact absurd hnone hexp
  refine ⟨by decide +kernel, by decide +kernel, leases_enforced 10 expiredRun ?_⟩
  refine ⟨hstill rfl (by decide +kernel), hstill rfl (by decide +kernel), hstill rfl (by decide +kernel),
    hstill rfl (by decide +kernel), hstill rfl (by decide +kernel), hstill rfl (by decide +kernel),
    hstill rfl (by decide +kernel), hstill rfl (by decide +kernel), sound_of_reliable rfl ?_, trivial⟩
  -- when the callback returns, the last message of the key is the marker of its delete
  rintro p hp - m hkey ⟨hlast, -⟩
  obtain rfl : p = (⟨ascii "/a", 1, 5⟩, some 1) := Option.some.inj (hp.symm.trans (by decide +kernel))
  have hmarker : lastMsg (Lts.exec (step 10) init (leasedRun ++
      [.expire 0 5, .callback, .call (.write 1 true), .call (.write 1 true)])).stream (ascii "/a") =
      some (.marker (ascii "/a") false, 3) := by decide +kernel
  rw [hkey] at hlast
  have heq := congrArg (Option.map Prod.snd) (hmarker.symm.trans hlast)
  simp at heq

/-- With no call on its way and no callback running, the key is live with its lease and the heap is
empty. -/
def Forgotten (x : NatsLease) : Prop :=
  x.adds = [] ∧ x.expiring = none ∧ (∀ c ∈ x.backend.calls, c = .ended) ∧
    Leased x.stream (.put (ascii "/a") (NatsStore.createData (ascii "/a") [] 5 0)) 1 ∧ x.heap = []

/-- **Leases that are not enforced**: after a restart, after a callback whose write fails, and after a
write of another process. -/
theorem lease_lost :
    Forgotten (Lts.exec (step 10) init (leasedRun ++ [.call .crash, .call .observe])) ∧
    Forgotten (Lts.exec (step 10) init
      (leasedRun ++ [.expire 0 5, .callback, .call (.fail 1), .returns])) ∧
    Forgotten (Lts.exec (step 10) init
      [.peer (.put (ascii "/a") (NatsStore.createData (ascii "/a") [] 5 0)), .call .observe]) := by
  unfold Forgotten Leased
  decide +kernel

end NatsLease

end Harikube
