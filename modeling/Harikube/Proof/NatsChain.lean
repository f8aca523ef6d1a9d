import Harikube.Proof.NatsCreate
import Harikube.Spec.NatsChain

/-!
# The messages of a key on NATS

A call reads a version of its key, and the bucket takes its write only if that version is still the
last message of the subject. So what a call knows about the messages up to the version it has read
is all it needs: the prefix of the stream up to there never changes.

* `CallFits`: the write of a call may come after the version that the call has read.
* `messages_chained`: in every run, of any number of processes and with writes that fail or are cut
  off, the messages of every subject are creates, updates, tombstones and markers in their order.
* `updates_succeed`: no update or tombstone replaces a version that its writer has not read, and
  create revisions are right.
-/

namespace Harikube

open Sorted

variable {stream : List NatsMsg} {key : Bytes} {m : NatsMsg} {n : ℕ}

/-! ## The last message of a subject -/

theorem mem_subjectMsgs {p : NatsMsg × ℕ} :
    p ∈ subjectMsgs stream key ↔ (0 < p.2 ∧ stream[p.2 - 1]? = some p.1) ∧ encodeKey p.1.key = encodeKey key := by
  rw [subjectMsgs, List.mem_filter, ← mem_numbered]
  simp

theorem le_lastMsg {p : NatsMsg × ℕ} (hp : p ∈ subjectMsgs stream key) :
    ∃ m n, lastMsg stream key = some (m, n) ∧ p.2 ≤ n := by
  induction stream using List.reverseRecOn with
  | nil => cases hp
  | append_singleton stream m' ih =>
    obtain ⟨⟨hpos, hget⟩, hsub⟩ := mem_subjectMsgs.1 hp
    have hlt := (List.getElem?_eq_some_iff.1 hget).1
    rw [List.length_append, List.length_singleton] at hlt
    rw [lastMsg_append]
    split
    · exact ⟨m', _, rfl, by omega⟩
    · rename_i hne
      -- the message is not the last one, which is on another subject
      rcases Nat.lt_or_ge (p.2 - 1) stream.length with hold | hnew
      · rw [List.getElem?_append_left hold] at hget
        exact ih (mem_subjectMsgs.2 ⟨⟨hpos, hget⟩, hsub⟩)
      · rw [List.getElem?_append_right hnew, show p.2 - 1 - stream.length = 0 by omega] at hget
        exact absurd hsub (Option.some.inj hget ▸ hne)

/-- A message is the last one of its subject in the prefix up to it. -/
theorem lastMsg_take (hp : (m, n) ∈ subjectMsgs stream key) : lastMsg (stream.take n) key = some (m, n) := by
  obtain ⟨⟨hpos, hget⟩, hsub⟩ := mem_subjectMsgs.1 hp
  obtain ⟨k, rfl⟩ : ∃ k, n = k + 1 := ⟨n - 1, (Nat.sub_add_cancel hpos).symm⟩
  have hat : stream[k]? = some m := hget
  have hlt := (List.getElem?_eq_some_iff.1 hat).1
  rw [List.take_add_one, hat, Option.toList_some, lastMsg_append, if_pos hsub, List.length_take, min_eq_left hlt.le]

theorem SubjectPut.last {d : NatsData} {seq : ℕ} (h : SubjectPut stream key d seq) :
    0 < seq ∧ seq ≤ stream.length ∧ ∃ k, lastMsg (stream.take seq) key = some (.put k d, seq) := by
  obtain ⟨k, ⟨hpos, hget⟩, hsub⟩ := h
  have hlt := (List.getElem?_eq_some_iff.1 hget).1
  exact ⟨hpos, by omega, k, lastMsg_take (mem_subjectMsgs.2 ⟨⟨hpos, hget⟩, hsub⟩)⟩

/-! ## What a call knows -/

/-- The message follows the version `last` of the key, up to which the stream does not change. -/
def FollowsAt (stream : List NatsMsg) (key : Bytes) (last : ℕ) (m : NatsMsg) : Prop :=
  last ≤ stream.length ∧ ∃ m', lastMsg (stream.take last) key = some (m', last) ∧ Follows (some (m', last)) m

/-- The write of a call may come after what the call has read. -/
def CallFits (stream : List NatsMsg) : NatsCall → Prop
  | .put _ data none => data.Creates 0
  | .put key data (some last) => FollowsAt stream key last (.put key data)
  | .tombstone key data last => FollowsAt stream key last (.put key data) ∧ data.delete = true
  | .mark key drev => FollowsAt stream key drev (.marker key false)
  | .ended => True

theorem FollowsAt.append {last : ℕ} (h : FollowsAt stream key last m) (t : List NatsMsg) :
    FollowsAt (stream ++ t) key last m := by
  refine ⟨h.1.trans (by simp), ?_⟩
  rw [List.take_append_of_le_length h.1]
  exact h.2

theorem CallFits.append {c : NatsCall} (h : CallFits stream c) (t : List NatsMsg) : CallFits (stream ++ t) c := by
  cases c with
  | put key data last =>
    cases last with
    | none => exact h
    | some last => exact FollowsAt.append h t
  | tombstone key data last => exact ⟨h.1.append t, h.2⟩
  | mark key drev => exact FollowsAt.append h t
  | ended => trivial

theorem Chained.append (h : Chained stream) (hm : Follows (lastMsg stream m.key) m) : Chained (stream ++ [m]) := by
  intro n m' hget
  rcases Nat.lt_or_ge n stream.length with hlt | hge
  · rw [List.getElem?_append_left hlt] at hget
    rw [List.take_append_of_le_length hlt.le]
    exact h n m' hget
  · have hn := (List.getElem?_eq_some_iff.1 hget).1
    rw [List.length_append, List.length_singleton] at hn
    obtain rfl : n = stream.length := by omega
    rw [List.getElem?_concat_length] at hget
    rw [List.take_left', ← Option.some.inj hget]
    · exact hm
    · rfl

/-- The bucket takes a write only after the version that the writer has read. -/
theorem FollowsAt.last {last : ℕ} (h : FollowsAt stream key last m) (hlast : lastSubjectSeq stream key = last) :
    Follows (lastMsg stream key) m := by
  obtain ⟨-, m', hread, hfol⟩ := h
  cases hmsg : lastMsg stream key with
  | none =>
    rw [lastSubjectSeq, hmsg] at hlast
    rw [← hlast] at hread
    cases hread
  | some p =>
    obtain ⟨m'', n⟩ := p
    obtain rfl : n = last := by
      rw [← hlast, lastSubjectSeq, hmsg]
      rfl
    rw [← hread, lastMsg_take (mem_subjectMsgs.2 (lastMsg_mem hmsg))] at hfol
    exact hfol

/-! ## What a read says about the prefix -/

theorem createdAt_ne_zero (d : NatsData) {seq : ℕ} (hpos : 0 < seq) : d.createdAt seq ≠ 0 := by
  unfold NatsData.createdAt NatsData.decode
  split
  · omega
  · dsimp only
    split
    · omega
    · assumption

/-- The data that `get` returns. -/
theorem NatsStore.get_data {hist : ℕ} {s : NatsStore} {revision rev : ℤ} {allow check : Bool} {nd : NatsData}
    (h : s.get hist key revision allow check = (rev, .ok (some nd))) :
    ∃ d seq, SubjectPut s.stream key d seq ∧ rev = seq ∧ nd.kv.modRevision = seq ∧ nd.delete = d.delete ∧
      nd.kv.createRevision = d.createdAt seq ∧ (allow = false → d.delete = false) := by
  unfold NatsStore.get at h
  cases hrev : s.getRevision hist key revision check with
  | error e => rw [hrev] at h; cases h
  | ok r =>
    obtain ⟨seq, d⟩ := r
    have hmsg : ∃ revision', natsGetRevision hist s.stream key revision' = .ok (seq, d) := by
      unfold NatsStore.getRevision at hrev
      simp only at hrev
      split at hrev
      · cases hrev
      · split at hrev
        · cases hrev
        · exact ⟨_, hrev⟩
    obtain ⟨revision', hmsg⟩ := hmsg
    rw [hrev] at h
    simp only at h
    generalize hnd : (if (d.decode seq).create = true then _ else _ : NatsData) = nd' at h
    have hfields : nd'.kv.modRevision = seq ∧ nd'.delete = d.delete ∧ nd'.kv.createRevision = d.createdAt seq := by
      rw [← hnd, NatsData.createdAt]
      have hcreate : (d.decode seq).create = d.create := rfl
      rw [hcreate]
      split <;> exact ⟨rfl, rfl, rfl⟩
    split at h
    · cases h
    · rename_i hallow
      obtain ⟨hr, hn⟩ := Prod.mk.inj h
      rw [← Option.some.inj (Except.ok.inj hn)]
      refine ⟨d, seq, natsGetRevision_msg hmsg, hr.symm, hfields.1, hfields.2.1, hfields.2.2, fun ha => ?_⟩
      rw [ha, hfields.2.1] at hallow
      simpa using hallow

theorem createPlan_fits {hist : ℕ} {s : NatsStore} {value : Bytes} {lease : ℤ} {data : NatsData} {last : Option ℕ}
    (h : s.createPlan hist key value lease = .ok (data, last)) : CallFits s.stream (.put key data last) := by
  unfold NatsStore.createPlan at h
  split at h
  · split at h
    · obtain ⟨rfl, rfl⟩ := Prod.mk.inj (Except.ok.inj h)
      exact ⟨rfl, rfl, rfl⟩
    · cases h
  · obtain ⟨rfl, rfl⟩ := Prod.mk.inj (Except.ok.inj h)
    exact ⟨rfl, rfl, rfl⟩
  · rename_i rev pnd hget
    split at h
    · cases h
    · rename_i hdel
      obtain ⟨rfl, rfl⟩ := Prod.mk.inj (Except.ok.inj h)
      obtain ⟨d, seq, hput, rfl, hmod, hdelete, -, -⟩ := NatsStore.get_data hget
      obtain ⟨-, hle, k, hlast⟩ := hput.last
      have hd : d.delete = true := by simpa [hdelete] using hdel
      rw [CallFits, Int.toNat_natCast]
      exact ⟨hle, _, hlast, .afterTombstone hd ⟨rfl, rfl, hmod⟩⟩

theorem updatePlan_fits {hist : ℕ} {s : NatsStore} {value : Bytes} {revision lease : ℤ} {data : NatsData} {last : ℕ}
    (h : s.updatePlan hist key value revision lease = some (data, last)) :
    CallFits s.stream (.put key data (some last)) := by
  unfold NatsStore.updatePlan at h
  split at h
  · rename_i rev pnd hget
    split at h
    · cases h
    · rename_i hrev
      obtain ⟨rfl, rfl⟩ := Prod.mk.inj (Option.some.inj h)
      obtain ⟨d, seq, hput, rfl, hmod, -, hcreated, hallow⟩ := NatsStore.get_data hget
      obtain ⟨hpos, hle, k, hlast⟩ := hput.last
      obtain rfl : revision = seq := by
        rw [← hmod]
        exact (not_not.1 hrev).symm
      rw [CallFits, Int.toNat_natCast]
      refine ⟨hle, _, hlast, .replace (hallow rfl) rfl hmod ?_⟩
      show (if pnd.kv.createRevision = 0 then _ else pnd.kv.createRevision) = _
      rw [hcreated, if_neg (createdAt_ne_zero d hpos)]
  · cases h

theorem deletePlan_fits {hist : ℕ} {s : NatsStore} {revision : ℤ} {data : NatsData} {last : ℕ}
    (h : s.deletePlan hist key revision = some (data, last)) : CallFits s.stream (.tombstone key data last) := by
  unfold NatsStore.deletePlan at h
  split at h
  · rename_i rev pnd hget
    split at h
    · cases h
    · split at h
      · cases h
      · obtain ⟨rfl, rfl⟩ := Prod.mk.inj (Option.some.inj h)
        obtain ⟨d, seq, hput, rfl, -, -, hcreated, hallow⟩ := NatsStore.get_data hget
        obtain ⟨-, hle, k, hlast⟩ := hput.last
        rw [CallFits, Int.toNat_natCast]
        exact ⟨⟨hle, _, hlast, .replace (hallow rfl) rfl rfl hcreated⟩, rfl⟩
  · cases h

/-! ## The writes -/

theorem lastSubjectSeq_of_bucketUpdate {stream' : List NatsMsg} {data : NatsData} {last : ℕ}
    (h : bucketUpdate stream key data last = .ok stream') : lastSubjectSeq stream key = last := by
  unfold bucketUpdate at h
  split at h
  · cases h
  · split at h
    · assumption
    · cases h

theorem lastSubjectSeq_of_bucketDelete {stream' : List NatsMsg} {last : ℕ}
    (h : bucketDelete stream key last = .ok stream') : lastSubjectSeq stream key = last := by
  unfold bucketDelete at h
  split at h
  · cases h
  · split at h
    · assumption
    · cases h

theorem follows_bucketPut {stream' : List NatsMsg} {data : NatsData} {last : Option ℕ}
    (hc : CallFits stream (.put key data last)) (h : NatsStore.bucketPut stream key data last = .ok stream') :
    Follows (lastMsg stream key) (.put key data) := by
  cases last with
  | none =>
    have hcreates : data.Creates 0 := hc
    simp only [NatsStore.bucketPut, bucketCreate] at h
    split at h
    · cases h
    · cases hlast : lastMsg stream key with
      | none => exact .create hcreates
      | some p =>
        obtain ⟨m, n⟩ := p
        cases m with
        | put k d => rw [hlast] at h; cases h
        | marker k purge => exact .afterMarker hcreates
  | some last =>
    exact FollowsAt.last hc (lastSubjectSeq_of_bucketUpdate h)

/-- The marker of a delete follows its tombstone. -/
theorem followsAt_marker {data : NatsData} (hd : data.delete = true) :
    FollowsAt (stream ++ [.put key data]) key (stream.length + 1) (.marker key false) := by
  have hput : SubjectPut (stream ++ [.put key data]) key data (stream.length + 1) :=
    ⟨key, ⟨Nat.succ_pos _, by simp⟩, rfl⟩
  obtain ⟨-, hle, k, hlast⟩ := hput.last
  exact ⟨hle, _, hlast, .mark hd⟩

/-- The messages are in their order, and every write may come after what its call has read. -/
structure Fit (stream : List NatsMsg) (calls : List NatsCall) : Prop where
  chained : Chained stream
  calls : ∀ c ∈ calls, CallFits stream c

theorem Fit.nil (h : Chained stream) : Fit stream [] := ⟨h, fun _ hc => absurd hc List.not_mem_nil⟩

namespace NatsCalls

variable {hist : ℕ} {x : NatsCalls} {i : ℕ}

/-- What a step keeps: the messages only become more, and everything fits. -/
def Keeps (x x' : NatsCalls) : Prop :=
  Fit x'.store.stream x'.calls ∧ ∃ t, x'.store.stream = x.store.stream ++ t

theorem keeps_calls (h : Fit x.store.stream x.calls) {calls : List NatsCall}
    (hcalls : ∀ c ∈ calls, c ∈ x.calls ∨ CallFits x.store.stream c) : Keeps x { x with calls := calls } :=
  ⟨⟨h.chained, fun c hc => (hcalls c hc).elim (h.calls c) id⟩, [], (List.append_nil _).symm⟩

theorem keeps_same (h : Fit x.store.stream x.calls) : Keeps x x := keeps_calls h fun _ => .inl

/-- A call moves on without a message. -/
theorem keeps_set (h : Fit x.store.stream x.calls) (i : ℕ) {c : NatsCall} (hc : CallFits x.store.stream c) :
    Keeps x { x with calls := x.calls.set i c } := by
  refine keeps_calls h fun d hd => (List.mem_or_eq_of_mem_set hd).imp_right ?_
  rintro rfl
  exact hc

theorem keeps_addCall (h : Fit x.store.stream x.calls) {c : NatsCall} (hc : CallFits x.store.stream c) :
    Keeps x { x with calls := x.calls ++ [c] } := by
  refine keeps_calls h fun d hd => (List.mem_append.1 hd).imp_right fun hd => ?_
  rw [List.mem_singleton.1 hd]
  exact hc

/-- The bucket takes a message, and the call goes on; or it refuses it, and the call ends. -/
theorem keeps_takes (h : Fit x.store.stream x.calls) {result : Except Err (List NatsMsg)} {m : NatsMsg} {next : NatsCall}
    (hok : ∀ stream, result = .ok stream → stream = x.store.stream ++ [m] ∧ Follows (lastMsg x.store.stream m.key) m)
    (hnext : CallFits (x.store.stream ++ [m]) next) : Keeps x (x.takes i result next) := by
  unfold takes
  split
  · rename_i stream
    obtain ⟨rfl, hfol⟩ := hok stream rfl
    refine ⟨⟨h.chained.append hfol, fun d hd => ?_⟩, [m], rfl⟩
    rcases List.mem_or_eq_of_mem_set hd with hd | rfl
    · exact (h.calls d hd).append _
    · exact hnext
  · exact keeps_set h i trivial

theorem keeps_write (h : Fit x.store.stream x.calls) (ok : Bool) : Keeps x (x.write i ok) := by
  unfold NatsCalls.write
  split
  · rename_i key data last hi
    have hc := h.calls _ (List.mem_of_getElem? hi)
    exact keeps_takes h (fun _ hput => ⟨bucketPut_ok hput, follows_bucketPut hc hput⟩) trivial
  · rename_i key data last hi
    obtain ⟨hfol, hdel⟩ : CallFits x.store.stream (.tombstone key data last) := h.calls _ (List.mem_of_getElem? hi)
    refine keeps_takes h (m := .put key data)
      (fun _ hput => ⟨bucketUpdate_ok hput, hfol.last (lastSubjectSeq_of_bucketUpdate hput)⟩) ?_
    cases ok with
    | true => exact followsAt_marker hdel
    | false => trivial
  · rename_i key drev hi
    have hfol : FollowsAt x.store.stream key drev (.marker key false) := h.calls _ (List.mem_of_getElem? hi)
    exact keeps_takes h (m := .marker key false)
      (fun _ hput => ⟨bucketDelete_ok hput, hfol.last (lastSubjectSeq_of_bucketDelete hput)⟩) trivial
  · exact keeps_same h

theorem keeps_step (h : Fit x.store.stream x.calls) (a : Act) : Keeps x (x.step hist a) := by
  cases a with
  | observe =>
    have hstream : (x.store.observe hist).stream = x.store.stream := NatsList.observe_stream hist x.store
    simp only [Keeps, step, hstream]
    exact keeps_same h
  | create key value lease =>
    simp only [step, create]
    split
    · rename_i data last hplan
      exact keeps_addCall h (createPlan_fits hplan)
    · exact keeps_same h
  | update key value revision lease =>
    simp only [step, update]
    split
    · rename_i data last hplan
      exact keeps_addCall h (updatePlan_fits hplan)
    · exact keeps_same h
  | delete key revision =>
    simp only [step, delete]
    split
    · rename_i data last hplan
      exact keeps_addCall h (deletePlan_fits hplan)
    · exact keeps_same h
  | write i ok => exact keeps_write h ok
  | fail i => exact keeps_set h i trivial
  | crash => exact keeps_calls h fun _ hc => absurd hc List.not_mem_nil

end NatsCalls

/-! ## Updates and tombstones -/

/-- The version that an update or a tombstone replaces. -/
theorem Chained.replaced {stream : List NatsMsg} (h : Chained stream) {key k : Bytes} {d : NatsData} {n : ℕ}
    (hmem : (NatsMsg.put k d, n) ∈ subjectMsgs stream key) (hd : d.create = false) :
    ∃ k' d' r, (NatsMsg.put k' d', r) ∈ subjectMsgs stream key ∧ r < n ∧ d'.delete = false ∧ d.prevRevision = r ∧
      d.kv.createRevision = d'.createdAt r ∧ ∀ m ∈ subjectMsgs stream key, m.2 < n → m.2 ≤ r := by
  obtain ⟨⟨hpos, hget⟩, hsub⟩ := mem_subjectMsgs.1 hmem
  have hkey : lastMsg (stream.take (n - 1)) k = lastMsg (stream.take (n - 1)) key := by
    unfold lastMsg
    rw [show encodeKey k = encodeKey key from hsub]
  have hfol := h (n - 1) _ hget
  rw [show (NatsMsg.put k d).key = k from rfl, hkey] at hfol
  have hnot : ∀ {t}, ¬ d.Creates t := fun hc => absurd hc.1 (by rw [hd]; exact Bool.false_ne_true)
  generalize hlast : lastMsg (stream.take (n - 1)) key = last at hfol
  cases hfol with
  | create hc => exact absurd hc hnot
  | afterMarker hc => exact absurd hc hnot
  | afterTombstone _ hc => exact absurd hc hnot
  | replace hdel hcreate hprev hcreated =>
    rename_i k' d' r
    obtain ⟨⟨hr, hat⟩, hsub'⟩ := lastMsg_mem hlast
    have hlt := (List.getElem?_eq_some_iff.1 hat).1
    rw [List.length_take] at hlt
    rw [List.getElem?_take_of_lt (by omega)] at hat
    refine ⟨k', d', r, mem_subjectMsgs.2 ⟨⟨hr, hat⟩, hsub'⟩, by omega, hdel, hprev, hcreated, fun m hm hmn => ?_⟩
    obtain ⟨⟨hm0, hmget⟩, hmsub⟩ := mem_subjectMsgs.1 hm
    rw [← List.getElem?_take_of_lt (show m.2 - 1 < n - 1 by omega)] at hmget
    obtain ⟨m', n', hlast', hle⟩ := le_lastMsg (mem_subjectMsgs.2 ⟨⟨hm0, hmget⟩, hmsub⟩)
    rw [hlast] at hlast'
    rwa [← (Prod.mk.inj (Option.some.inj hlast')).2] at hle

/-- A live version has its create revision from the create since which it was only updated. -/
theorem Chained.created {stream : List NatsMsg} (h : Chained stream) {key : Bytes} (n : ℕ) :
    ∀ {k : Bytes} {d : NatsData}, (NatsMsg.put k d, n) ∈ subjectMsgs stream key → d.delete = false →
      ∃ c k₀ d₀, (NatsMsg.put k₀ d₀, c) ∈ subjectMsgs stream key ∧ d₀.create = true ∧ c ≤ n ∧ d.createdAt n = c ∧
        ∀ m ∈ subjectMsgs stream key, c < m.2 → m.2 ≤ n →
          ∃ k' d', m.1 = .put k' d' ∧ d'.create = false ∧ d'.delete = false := by
  induction n using Nat.strongRecOn with
  | ind n ih =>
    intro k d hmem hdel
    cases hc : d.create with
    | true =>
      refine ⟨n, k, d, hmem, hc, le_rfl, by rw [NatsData.createdAt, if_pos hc], fun m _ hlt hle => ?_⟩
      omega
    | false =>
      obtain ⟨k', d', r, hmem', hlt, hdel', -, hcreated, hnewest⟩ := h.replaced hmem hc
      obtain ⟨c, k₀, d₀, hmem₀, hcreate, hle, hat, hbetween⟩ := ih r hlt hmem' hdel'
      have hne : d.kv.createRevision ≠ 0 := hcreated ▸ createdAt_ne_zero d' (mem_subjectMsgs.1 hmem').1.1
      refine ⟨c, k₀, d₀, hmem₀, hcreate, by omega, ?_, fun m hm hcm hmn => ?_⟩
      · simp only [NatsData.createdAt, hc, NatsData.decode, hne, if_false, Bool.false_eq_true]
        rw [hcreated, hat]
      · rcases Nat.lt_or_eq_of_le hmn with hmn | hmn
        · exact hbetween m hm hcm (hnewest m hm hmn)
        · have hm1 := (mem_subjectMsgs.1 hm).1.2
          rw [hmn, (mem_subjectMsgs.1 hmem).1.2] at hm1
          exact ⟨k, d, (Option.some.inj hm1).symm, hc, hdel⟩

/-! ## Runs of several processes -/

namespace NatsCluster

variable {hist : ℕ} {x : NatsCluster}

def AllFit (x : NatsCluster) : Prop := Chained x.stream ∧ ∀ p ∈ x.processes, Fit x.stream p.calls

theorem AllFit.call (h : x.AllFit) (i : ℕ) (a : NatsCalls.Act) : (x.call hist i a).AllFit := by
  unfold NatsCluster.call
  split
  · exact h
  · rename_i p hp
    have hp : Fit (x.view p).store.stream (x.view p).calls := h.2 p (List.mem_of_getElem? hp)
    obtain ⟨hnext, t, ht⟩ : NatsCalls.Keeps (x.view p) ((x.view p).step hist a) := NatsCalls.keeps_step hp a
    refine ⟨hnext.chained, fun q hq => ?_⟩
    rcases List.mem_or_eq_of_mem_set hq with hq | rfl
    · -- another process: the prefix it has read is still there
      refine ⟨hnext.chained, fun c hc => ?_⟩
      show CallFits ((x.view p).step hist a).store.stream c
      rw [ht]
      exact ((h.2 q hq).calls c hc).append t
    · exact hnext

theorem AllFit.step (h : x.AllFit) (a : Act) : (x.step hist a).AllFit := by
  cases a with
  | start =>
    refine ⟨h.1, fun p hp => ?_⟩
    rcases List.mem_append.1 hp with hp | hp
    · exact h.2 p hp
    · rw [List.mem_singleton.1 hp]
      exact .nil h.1
  | call i a => exact h.call i a
  | compacted i rev =>
    simp only [NatsCluster.step, NatsCluster.compacted]
    split
    · exact h
    · rename_i p hp
      refine ⟨h.1, fun q hq => ?_⟩
      rcases List.mem_or_eq_of_mem_set hq with hq | rfl
      · exact h.2 q hq
      · exact h.2 p (List.mem_of_getElem? hp)

theorem always_fit (hist : ℕ) (acts : List Act) : Lts.Always (step hist) AllFit init acts :=
  Lts.invariant (fun _ a h => h.step a) acts _
    ⟨fun _ _ hget => (by cases hget), fun _ hp => absurd hp List.not_mem_nil⟩

/-- **The messages of every subject are in their order**, in every run: a create where there is
nothing, or in place of the tombstone it names; updates and tombstones that name the version just
before them and keep its create revision; a marker after a tombstone. -/
theorem messages_chained (hist : ℕ) (acts : List Act) :
    Lts.Always (step hist) (fun x => Chained x.stream) init acts :=
  (always_fit hist acts).mono fun _ h => h.1

/-- **No update or tombstone replaces a version that its writer has not read**: in every run the
previous revision of an update or tombstone is the newest message of its subject before it, and its
create revision is the number of the create since which the key has only been updated. -/
theorem updates_succeed (hist : ℕ) (acts : List Act) :
    Lts.Always (step hist) (fun x => ∀ key k d n, (NatsMsg.put k d, n) ∈ subjectMsgs x.stream key →
      d.create = false → Succeeds x.stream key d n) init acts := by
  refine (always_fit hist acts).mono fun x h key k d n hmem hd => ?_
  obtain ⟨k', d', r, hmem', hlt, hdel, hprev, hcreated, hnewest⟩ := h.1.replaced hmem hd
  obtain ⟨c, k₀, d₀, hmem₀, hcreate, hle, hat, hbetween⟩ := h.1.created r hmem' hdel
  exact ⟨⟨k', d', r, hmem', hlt, hdel, hprev, hnewest⟩, c, k₀, d₀, hmem₀, hcreate, by omega, hcreated.trans hat,
    fun m hm hcm hmn => hbetween m hm hcm (hnewest m hm hmn)⟩

end NatsCluster

end Harikube
