import Harikube.Proof.NatsList
import Harikube.Spec.NatsCalls

/-!
# Creating a key that the NATS backend reports absent

`Delete` writes a tombstone and then a marker. The btree takes both for a delete, but the bucket
lets a key be created again only after the marker, so a key with a tombstone as its last message
can be neither read nor created nor deleted.

* `creates_iff`: with a btree that has caught up, an absent key can be created if and only if its
  last message is no tombstone.
* `Marked`: a tombstone that is the last message of its key has a call that will write the marker,
  as long as no delete is cut off between its writes.
* `absent_creatable`: the two together, over every run.
* `stuck_after_tombstone`: a process that stops between the two writes leaves such a key.
-/

namespace Harikube

open Sorted Mvcc

/-! ## The last message of a key -/

theorem RoundTrips.encode_ne {k : Bytes} (h : RoundTrips k) : encodeKey k ≠ none := by
  intro hnone
  unfold RoundTrips at h
  rw [hnone] at h
  cases h

/-- Keys that round trip have their subjects for themselves. -/
theorem RoundTrips.inj {k k' : Bytes} (h : RoundTrips k) (h' : RoundTrips k') (he : encodeKey k = encodeKey k') :
    k = k' := by
  unfold RoundTrips at h h'
  rw [he] at h
  exact Option.some.inj (h.symm.trans h')

theorem lastMsg_append (stream : List NatsMsg) (m : NatsMsg) (key : Bytes) :
    lastMsg (stream ++ [m]) key =
      if encodeKey m.key = encodeKey key then some (m, stream.length + 1) else lastMsg stream key := by
  unfold lastMsg
  rw [numbered_append, List.reverse_append, List.reverse_singleton, List.singleton_append, List.find?_cons]
  split
  · rename_i heq
    rw [if_pos (of_decide_eq_true heq)]
  · rename_i heq
    rw [if_neg (of_decide_eq_false heq)]

theorem lastMsg_mem {stream : List NatsMsg} {key : Bytes} {m : NatsMsg} {seq : ℕ}
    (h : lastMsg stream key = some (m, seq)) :
    (0 < seq ∧ stream[seq - 1]? = some m) ∧ encodeKey m.key = encodeKey key := by
  unfold lastMsg at h
  have hmem : (m, seq) ∈ numbered stream := List.mem_reverse.1 (List.mem_of_find?_eq_some h)
  have hkey := List.find?_some h
  exact ⟨mem_numbered.1 hmem, of_decide_eq_true hkey⟩

/-- With keys that round trip, the last message of the subject is the last one of the key. -/
theorem lastMsg_eq {stream : List NatsMsg} (hr : ∀ m ∈ stream, RoundTrips m.key) {key : Bytes}
    (hk : RoundTrips key) : lastMsg stream key = (msgsOf stream key).getLast? := by
  unfold lastMsg msgsOf
  rw [← List.head?_filter, List.filter_reverse, List.head?_reverse]
  congr 1
  apply List.filter_congr
  rintro ⟨m, seq⟩ hmem
  have hm : m ∈ stream := List.mem_of_getElem? (mem_numbered.1 hmem).2
  exact decide_eq_decide.2 ⟨fun he => (hr m hm).inj hk he, fun he => congrArg encodeKey he⟩

/-- The bucket never forgets the last message of a subject. -/
theorem retained_last {hist : ℕ} (hpos : 0 < hist) : ∀ {stream : List NatsMsg} {key : Bytes} {m : NatsMsg} {seq : ℕ},
    lastMsg stream key = some (m, seq) → retained hist stream key seq = true := by
  intro stream
  induction stream using List.reverseRecOn with
  | nil => intro key m seq h; cases h
  | append_singleton stream m' ih =>
    intro key m seq h
    unfold retained
    rw [lastMsg_append] at h
    split at h
    · obtain ⟨-, rfl⟩ := Prod.mk.inj (Option.some.inj h)
      rw [List.drop_of_length_le (by simp)]
      exact decide_eq_true hpos
    · rename_i hne
      have hle : seq ≤ stream.length := by
        obtain ⟨⟨hseq, hget⟩, -⟩ := lastMsg_mem h
        have := (List.getElem?_eq_some_iff.1 hget).1
        omega
      have hold := ih h
      unfold retained at hold
      rw [List.drop_append_of_le_length hle, List.filter_append, List.filter_cons_of_neg (by simpa using hne),
        List.filter_nil, List.append_nil]
      exact hold

/-! ## What a read returns -/

/-- The message with the number `seq` is a put of `d` on the subject of `key`. -/
def SubjectPut (stream : List NatsMsg) (key : Bytes) (d : NatsData) (seq : ℕ) : Prop :=
  ∃ k, (0 < seq ∧ stream[seq - 1]? = some (.put k d)) ∧ encodeKey k = encodeKey key

theorem natsGetRevision_msg {hist : ℕ} {stream : List NatsMsg} {key : Bytes} {revision : ℤ} {seq : ℕ} {d : NatsData}
    (h : natsGetRevision hist stream key revision = .ok (seq, d)) : SubjectPut stream key d seq := by
  unfold natsGetRevision at h
  split at h
  · cases h
  · split at h
    · split at h
      · rename_i k data seq' hlast
        obtain ⟨rfl, rfl⟩ := Prod.mk.inj (Except.ok.inj h)
        exact ⟨k, lastMsg_mem hlast⟩
      · cases h
    · split at h
      · rename_i k data seq' hget
        split at h
        · rename_i hk
          obtain ⟨rfl, rfl⟩ := Prod.mk.inj (Except.ok.inj h)
          exact ⟨k, mem_numbered.1 (List.mem_of_getElem? hget), hk.1⟩
        · cases h
      · cases h

/-- **`get` returns a put of the subject**, under its own sequence number. -/
theorem NatsStore.get_msg {hist : ℕ} {s : NatsStore} {key : Bytes} {revision rev : ℤ} {allow check : Bool}
    {nd : NatsData} (h : s.get hist key revision allow check = (rev, .ok (some nd))) :
    ∃ d seq, SubjectPut s.stream key d seq ∧ nd.kv.key = d.kv.key ∧ nd.kv.value = d.kv.value ∧
      nd.kv.modRevision = seq ∧ nd.delete = d.delete := by
  unfold NatsStore.get at h
  cases hrev : s.getRevision hist key revision check with
  | error e => rw [hrev] at h; cases h
  | ok r =>
    obtain ⟨seq, d⟩ := r
    have hmsg : ∃ revision', natsGetRevision hist s.stream key revision' = .ok (seq, d) := by
      unfold NatsStore.getRevision at hrev
      simp only at hrev
      split at hrev
      · cases hrev
      · split at hrev
        · cases hrev
        · exact ⟨_, hrev⟩
    obtain ⟨revision', hmsg⟩ := hmsg
    rw [hrev] at h
    simp only at h
    generalize hnd : (if (d.decode seq).create = true then _ else _ : NatsData) = nd' at h
    have hfields : nd'.kv.key = d.kv.key ∧ nd'.kv.value = d.kv.value ∧ nd'.kv.modRevision = seq ∧
        nd'.delete = d.delete := by
      rw [← hnd]
      split <;> exact ⟨rfl, rfl, rfl, rfl⟩
    split at h
    · cases h
    · rw [← Option.some.inj (Except.ok.inj (Prod.mk.inj h).2)]
      exact ⟨d, seq, natsGetRevision_msg hmsg, hfields⟩

/-! ## An absent key -/

namespace NatsStore

variable {hist : ℕ} {s : NatsStore} {key value : Bytes} {lease : ℤ}

/-- What the btree shows of a key once it has caught up. -/
theorem getRevisionOp_eq (hpos : 0 < hist) (h : OK hist s) (hc : s.pos = s.stream.length) (hk : RoundTrips key) :
    s.kv.getRevisionOp key 0 false =
      ((lastMsg s.stream key).filter fun m => m.1.live).map fun m => ⟨m.2, .put⟩ := by
  unfold NatsKV.getRevisionOp
  rw [h.bt, hc, List.take_length, getSeqOp_replayed hpos, lastMsg_eq h.roundTrips hk]

/-- A key that is reported absent has no put as its last message. -/
theorem not_live_of_absent (hpos : 0 < hist) (h : OK hist s) (hc : s.pos = s.stream.length) (hk : RoundTrips key)
    (habs : s.getCurrent hist key = .ok none) {m : NatsMsg} {seq : ℕ} (hlast : lastMsg s.stream key = some (m, seq)) :
    m.live = false := by
  by_contra hlive
  rw [Bool.not_eq_false] at hlive
  -- the scan selects the message, and the bucket still has it
  have hop := getRevisionOp_eq hpos h hc hk
  rw [hlast, Option.filter_some_pos (by simpa using hlive), Option.map_some] at hop
  obtain ⟨val, hfind, hseq⟩ := Option.bind_eq_some_iff.1 hop
  have hin : inList key [] key = true := by simp [inList]
  have hsel : (key, seq) ∈ s.kv.selected key [] 0 := NatsKV.mem_selected.2 ⟨hin, val, _, hfind, hseq, rfl⟩
  have hone : ∀ p ∈ s.kv.selected key [] 0, p = (key, seq) := by
    rintro ⟨k, n⟩ hp
    obtain ⟨hin', val', op', hfind', hseq', rfl⟩ := NatsKV.mem_selected.1 hp
    obtain rfl : k = key := by simpa [inList] using hin'
    obtain rfl : val' = val := Option.some.inj (hfind'.symm.trans hfind)
    rw [hseq] at hseq'
    obtain rfl := Option.some.inj hseq'
    rfl
  obtain ⟨rest, hmatch⟩ : ∃ rest, s.kv.matchesOf key [] 1 0 = (key, seq) :: rest := by
    rw [NatsKV.matchesOf_eq]
    cases hl : s.kv.selected key [] 0 with
    | nil => rw [hl] at hsel; cases hsel
    | cons p rest =>
      obtain rfl : p = (key, seq) := hone p (by rw [hl]; exact List.mem_cons_self)
      exact ⟨[], by simp [atMost]⟩
  have hput : PutAt s.stream key seq := by
    obtain ⟨⟨hseqpos, hget⟩, hsub⟩ := lastMsg_mem hlast
    cases m with
    | put k data =>
      obtain rfl : k = key := (h.roundTrips _ (List.mem_of_getElem? hget)).inj hk hsub
      exact ⟨hseqpos, data, hget⟩
    | marker k purge => cases hlive
  obtain ⟨data, hdata, -⟩ := NatsList.getRevision_of_putAt hput hk.encode_ne (retained_last hpos hlast)
  unfold getCurrent at habs
  rw [hmatch] at habs
  simp only [fetchAll, hdata] at habs
  cases hrest : fetchAll hist s.stream rest with
  | error e => rw [hrest] at habs; cases habs
  | ok kvs => rw [hrest] at habs; cases habs

/-- `Create` finds no entry, and so it uses `KeyValue.Create`. -/
theorem createPlan_absent (hpos : 0 < hist) (h : OK hist s) (hc : s.pos = s.stream.length) (hk : RoundTrips key)
    (hdead : ∀ m seq, lastMsg s.stream key = some (m, seq) → m.live = false) :
    s.createPlan hist key value lease = .ok (createData key value lease 0, none) := by
  have hop : s.kv.getRevisionOp key 0 false = none := by
    rw [getRevisionOp_eq hpos h hc hk]
    cases hlast : lastMsg s.stream key with
    | none => rfl
    | some m =>
      obtain ⟨m, seq⟩ := m
      rw [Option.filter_some_neg (by simpa using hdead m seq hlast)]
      rfl
  have hget : s.getRevision hist key 0 true = .error .keyNotFound := by
    unfold getRevision
    simp only [lt_irrefl, if_false, if_true, hop]
    cases hcheck : s.kv.checkRevision key 0 with
    | none => rfl
    | some e =>
      unfold NatsKV.checkRevision at hcheck
      split at hcheck
      · rw [← Option.some.inj hcheck]
      · rw [if_neg (by simp)] at hcheck
        cases hcheck
  unfold createPlan get
  rw [hget]
  simp

/-- **An absent key can be created if and only if its last message is no tombstone.** -/
theorem creates_iff (hpos : 0 < hist) (h : OK hist s) (hc : s.pos = s.stream.length) (hk : RoundTrips key)
    (habs : s.getCurrent hist key = .ok none) :
    s.creates hist key value lease = true ↔
      ¬ ∃ m seq, lastMsg s.stream key = some (m, seq) ∧ m.tombstone = true := by
  have hdead : ∀ m seq, lastMsg s.stream key = some (m, seq) → m.live = false :=
    fun m seq hlast => not_live_of_absent hpos h hc hk habs hlast
  unfold creates
  rw [createPlan_absent hpos h hc hk hdead]
  simp only [bucketPut, bucketCreate, if_neg hk.encode_ne]
  cases hlast : lastMsg s.stream key with
  | none => simp
  | some m =>
    obtain ⟨m, seq⟩ := m
    have hlive := hdead m seq hlast
    cases m with
    | put k data =>
      have hdel : data.delete = true := by simpa [NatsMsg.live] using hlive
      simp [NatsMsg.tombstone, hdel]
    | marker k purge => simp [NatsMsg.tombstone]

end NatsStore

/-! ## The bucket's writes -/

theorem bucketCreate_ok {stream stream' : List NatsMsg} {key : Bytes} {data : NatsData}
    (h : bucketCreate stream key data = .ok stream') : stream' = stream ++ [.put key data] := by
  unfold bucketCreate at h
  split at h
  · cases h
  · split at h
    · cases h
    · exact (Except.ok.inj h).symm

theorem bucketUpdate_ok {stream stream' : List NatsMsg} {key : Bytes} {data : NatsData} {last : ℕ}
    (h : bucketUpdate stream key data last = .ok stream') : stream' = stream ++ [.put key data] := by
  unfold bucketUpdate at h
  split at h
  · cases h
  · split at h
    · exact (Except.ok.inj h).symm
    · cases h

theorem bucketPut_ok {stream stream' : List NatsMsg} {key : Bytes} {data : NatsData} {last : Option ℕ}
    (h : NatsStore.bucketPut stream key data last = .ok stream') : stream' = stream ++ [.put key data] := by
  cases last with
  | none => exact bucketCreate_ok h
  | some last => exact bucketUpdate_ok h

theorem bucketDelete_ok {stream stream' : List NatsMsg} {key : Bytes} {last : ℕ}
    (h : bucketDelete stream key last = .ok stream') : stream' = stream ++ [.marker key false] := by
  unfold bucketDelete at h
  split at h
  · cases h
  · split at h
    · exact (Except.ok.inj h).symm
    · cases h

/-- A marker is refused only if the key has another last message. -/
theorem bucketDelete_error {stream : List NatsMsg} {key : Bytes} {last : ℕ} {e : Err} (hk : RoundTrips key)
    (h : bucketDelete stream key last = .error e) : lastSubjectSeq stream key ≠ last := by
  unfold bucketDelete at h
  rw [if_neg hk.encode_ne] at h
  split at h
  · cases h
  · assumption

/-! ## Calls -/

namespace NatsCalls

variable {hist : ℕ} {x : NatsCalls} {i : ℕ}

/-- A call writes its own key, and only a delete writes a tombstone. -/
def CallOK : NatsCall → Prop
  | .put key data _ => RoundTrips key ∧ data.kv.key = key ∧ data.delete = false
  | .tombstone key data _ => RoundTrips key ∧ data.kv.key = key
  | .mark key _ => RoundTrips key
  | .ended => True

structure OK (hist : ℕ) (x : NatsCalls) : Prop where
  store : x.store.OK hist
  compactRev : x.store.kv.compactRev = 0
  calls : ∀ c ∈ x.calls, CallOK c

/-- A tombstone that is the last message of its key has a call that has to write the marker. -/
def Marked (x : NatsCalls) : Prop :=
  ∀ key m seq, lastMsg x.store.stream key = some (m, seq) → m.tombstone = true → .mark m.key seq ∈ x.calls

theorem OK.set (h : OK hist x) (i : ℕ) {c : NatsCall} (hc : CallOK c) :
    OK hist { x with calls := x.calls.set i c } := by
  refine ⟨h.store, h.compactRev, fun d hd => ?_⟩
  rcases List.mem_or_eq_of_mem_set hd with hd | rfl
  · exact h.calls d hd
  · exact hc

theorem OK.addCall (h : OK hist x) {c : NatsCall} (hc : CallOK c) : OK hist (x.addCall c) := by
  refine ⟨h.store, h.compactRev, fun d hd => ?_⟩
  rcases List.mem_append.1 hd with hd | hd
  · exact h.calls d hd
  · obtain rfl := List.mem_singleton.1 hd
    exact hc

theorem OK.append (h : OK hist x) {m : NatsMsg} (hm : m.writable = true) (hk : RoundTrips m.key) {c : NatsCall}
    (hc : CallOK c) :
    OK hist { store := { x.store with stream := x.store.stream ++ [m] }, calls := x.calls.set i c } :=
  ⟨h.store.write hm hk, h.compactRev, (h.set i hc).calls⟩

theorem put_writable {key : Bytes} {data : NatsData} (hk : RoundTrips key) (hd : data.kv.key = key) :
    (NatsMsg.put key data).writable = true := by
  simp [NatsMsg.writable, hk.encode_ne, hd]

/-- What `write` does: nothing, the end of the call, or a message and the call's next stage. -/
theorem OK.write (h : OK hist x) (ok : Bool) : OK hist (x.write i ok) := by
  unfold NatsCalls.write
  split
  · rename_i key data last hi
    obtain ⟨hk, hd, -⟩ : CallOK (.put key data last) := h.calls _ (List.mem_of_getElem? hi)
    unfold takes
    split
    · rename_i stream hput
      rw [bucketPut_ok hput]
      exact h.append (put_writable hk hd) hk trivial
    · exact h.set i trivial
  · rename_i key data last hi
    obtain ⟨hk, hd⟩ : CallOK (.tombstone key data last) := h.calls _ (List.mem_of_getElem? hi)
    unfold takes
    split
    · rename_i stream hput
      rw [bucketUpdate_ok hput]
      refine h.append (put_writable hk hd) hk ?_
      cases ok with
      | true => exact hk
      | false => trivial
    · exact h.set i trivial
  · rename_i key drev hi
    have hk : RoundTrips key := h.calls _ (List.mem_of_getElem? hi)
    unfold takes
    split
    · rename_i stream hput
      have hw : (NatsMsg.marker key false).writable = true := decide_eq_true hk.encode_ne
      rw [bucketDelete_ok hput]
      exact h.append hw hk trivial
    · exact h.set i trivial
  · exact h

/-- What `get` returns for a key carries that key. -/
theorem get_key (h : OK hist x) {key : Bytes} (hk : RoundTrips key) {rev : ℤ} {nd : NatsData} {allow : Bool}
    (hget : x.store.get hist key 0 allow true = (rev, .ok (some nd))) : nd.kv.key = key := by
  obtain ⟨d, seq, ⟨k, ⟨-, hmem⟩, hsub⟩, hkey, -⟩ := NatsStore.get_msg hget
  have hm := List.mem_of_getElem? hmem
  obtain rfl : k = key := (h.store.roundTrips _ hm).inj hk hsub
  rw [hkey]
  exact NatsMsg.write_key (h.store.writable _ hm) seq

theorem OK.create (h : OK hist x) {key : Bytes} (hk : RoundTrips key) (value : Bytes) (lease : ℤ) :
    OK hist (x.create hist key value lease) := by
  unfold NatsCalls.create
  split
  · rename_i data last hplan
    refine h.addCall ⟨hk, ?_⟩
    unfold NatsStore.createPlan at hplan
    split at hplan
    · split at hplan
      · obtain ⟨rfl, -⟩ := Prod.mk.inj (Except.ok.inj hplan)
        exact ⟨rfl, rfl⟩
      · cases hplan
    · obtain ⟨rfl, -⟩ := Prod.mk.inj (Except.ok.inj hplan)
      exact ⟨rfl, rfl⟩
    · split at hplan
      · cases hplan
      · obtain ⟨rfl, -⟩ := Prod.mk.inj (Except.ok.inj hplan)
        exact ⟨rfl, rfl⟩
  · exact h

theorem OK.update (h : OK hist x) {key : Bytes} (hk : RoundTrips key) (value : Bytes) (revision lease : ℤ) :
    OK hist (x.update hist key value revision lease) := by
  unfold NatsCalls.update
  split
  · rename_i data last hplan
    refine h.addCall ⟨hk, ?_⟩
    unfold NatsStore.updatePlan at hplan
    split at hplan
    · split at hplan
      · cases hplan
      · obtain ⟨rfl, -⟩ := Prod.mk.inj (Option.some.inj hplan)
        exact ⟨rfl, rfl⟩
    · cases hplan
  · exact h

theorem OK.delete (h : OK hist x) {key : Bytes} (hk : RoundTrips key) (revision : ℤ) :
    OK hist (x.delete hist key revision) := by
  unfold NatsCalls.delete
  split
  · rename_i data last hplan
    refine h.addCall ⟨hk, ?_⟩
    unfold NatsStore.deletePlan at hplan
    split at hplan
    · rename_i rev pnd hget
      split at hplan
      · cases hplan
      · split at hplan
        · cases hplan
        · obtain ⟨rfl, -⟩ := Prod.mk.inj (Option.some.inj hplan)
          have hkey : pnd.kv.key = key := get_key h hk hget
          exact hkey
    · cases hplan
  · exact h

theorem observe_compactRev (s : NatsStore) : (s.observe hist).kv.compactRev = s.kv.compactRev := by
  unfold NatsStore.observe
  split
  · rfl
  · split
    · rfl
    · split <;> rfl

theorem step_ok (h : OK hist x) (a : Act) (hk : x.Keyed a) : OK hist (x.step hist a) := by
  cases a with
  | observe =>
    refine ⟨h.store.observe fun m _ => ?_, (observe_compactRev x.store).trans h.compactRev, h.calls⟩
    rw [h.compactRev]
    omega
  | create key value lease => exact h.create hk value lease
  | update key value revision lease => exact h.update hk value revision lease
  | delete key revision => exact h.delete hk revision
  | write i ok => exact h.write ok
  | fail i => exact h.set i trivial
  | crash => exact ⟨⟨Nat.zero_le _, h.store.roundTrips, h.store.writable, rfl, rfl⟩, rfl, fun _ hc => absurd hc List.not_mem_nil⟩

/-! ## Tombstones and markers -/

theorem mem_set_of_ne {l : List NatsCall} {c d : NatsCall} (hc : c ∈ l) (hi : l[i]? ≠ some c) : c ∈ l.set i d := by
  obtain ⟨j, hj⟩ := List.mem_iff_getElem?.1 hc
  have hij : i ≠ j := fun hij => hi (hij ▸ hj)
  exact List.mem_iff_getElem?.2 ⟨j, by rw [List.getElem?_set_ne hij]; exact hj⟩

/-- The calls may change as long as those that owe a marker for a last message stay. -/
theorem Marked.calls (h : x.Marked) {calls : List NatsCall}
    (hc : ∀ key m seq, lastMsg x.store.stream key = some (m, seq) → NatsCall.mark m.key seq ∈ x.calls →
      .mark m.key seq ∈ calls) : Marked { x with calls := calls } :=
  fun key m seq hlast ht => hc key m seq hlast (h key m seq hlast ht)

/-- A message that is no tombstone. -/
theorem Marked.append (h : x.Marked) {m : NatsMsg} (hm : m.tombstone = false) {calls : List NatsCall}
    (hc : ∀ key m' seq, lastMsg x.store.stream key = some (m', seq) → encodeKey m.key ≠ encodeKey key →
      NatsCall.mark m'.key seq ∈ x.calls → .mark m'.key seq ∈ calls) :
    Marked { store := { x.store with stream := x.store.stream ++ [m] }, calls := calls } := by
  intro key m' seq hlast ht
  rw [lastMsg_append] at hlast
  split at hlast
  · obtain ⟨rfl, -⟩ := Prod.mk.inj (Option.some.inj hlast)
    rw [hm] at ht
    cases ht
  · rename_i hne
    exact hc key m' seq hlast hne (h key m' seq hlast ht)

theorem Marked.put (h : x.Marked) (hok : OK hist x) {key : Bytes} {data : NatsData} {last : Option ℕ}
    (hi : x.calls[i]? = some (.put key data last)) :
    (x.takes i (NatsStore.bucketPut x.store.stream key data last) .ended).Marked := by
  have hkeep : ∀ k drev, NatsCall.mark k drev ∈ x.calls → NatsCall.mark k drev ∈ x.calls.set i .ended :=
    fun k drev hmem => mem_set_of_ne hmem (by rw [hi]; nofun)
  obtain ⟨-, -, hd⟩ : CallOK (.put key data last) := hok.calls _ (List.mem_of_getElem? hi)
  unfold takes
  split
  · rename_i stream hput
    rw [bucketPut_ok hput]
    have hm : (NatsMsg.put key data).tombstone = false := hd
    exact h.append hm fun k m seq _ _ hmem => hkeep m.key seq hmem
  · exact h.calls fun k m seq _ hmem => hkeep m.key seq hmem

/-- A delete that has written its tombstone goes on to the marker. -/
theorem Marked.tombstone (h : x.Marked) {key : Bytes} {data : NatsData} {last : ℕ}
    (hi : x.calls[i]? = some (.tombstone key data last)) :
    (x.takes i (bucketUpdate x.store.stream key data last) (.mark key (x.store.stream.length + 1))).Marked := by
  have hkeep : ∀ c k drev, NatsCall.mark k drev ∈ x.calls → NatsCall.mark k drev ∈ x.calls.set i c :=
    fun c k drev hmem => mem_set_of_ne hmem (by rw [hi]; nofun)
  unfold takes
  split
  · rename_i stream hput
    rw [bucketUpdate_ok hput]
    intro k m seq hlast ht
    rw [lastMsg_append] at hlast
    split at hlast
    · obtain ⟨rfl, rfl⟩ := Prod.mk.inj (Option.some.inj hlast)
      exact List.mem_iff_getElem?.2 ⟨i, List.getElem?_set_self (List.getElem?_eq_some_iff.1 hi).1⟩
    · exact hkeep _ m.key seq (h k m seq hlast ht)
  · exact h.calls fun k m seq _ hmem => hkeep _ m.key seq hmem

/-- A marker takes the place of its tombstone, or another message has done so before. -/
theorem Marked.mark (h : x.Marked) (hok : OK hist x) {key : Bytes} {drev : ℕ}
    (hi : x.calls[i]? = some (.mark key drev)) :
    (x.takes i (bucketDelete x.store.stream key drev) .ended).Marked := by
  have hk : RoundTrips key := hok.calls _ (List.mem_of_getElem? hi)
  unfold takes
  split
  · rename_i stream hput
    rw [bucketDelete_ok hput]
    have hm : (NatsMsg.marker key false).tombstone = false := rfl
    refine h.append hm fun k m seq hlast hne hmem => mem_set_of_ne hmem fun heq => ?_
    rw [hi] at heq
    obtain ⟨rfl, -⟩ := NatsCall.mark.inj (Option.some.inj heq)
    exact hne (lastMsg_mem hlast).2
  · rename_i e hput
    refine h.calls fun k m seq hlast hmem => mem_set_of_ne hmem fun heq => ?_
    rw [hi] at heq
    obtain ⟨rfl, rfl⟩ := NatsCall.mark.inj (Option.some.inj heq)
    have hsub : encodeKey m.key = encodeKey k := (lastMsg_mem hlast).2
    apply bucketDelete_error hk hput
    unfold lastSubjectSeq lastMsg at *
    rw [hsub, hlast]
    rfl

theorem Marked.addCall (h : x.Marked) (c : NatsCall) : (x.addCall c).Marked :=
  h.calls fun _ _ _ _ hmem => List.mem_append_left _ hmem

theorem step_marked (h : x.Marked) (hok : OK hist x) (a : Act) (hw : x.Whole a) : (x.step hist a).Marked := by
  cases a with
  | observe =>
    intro key m seq hlast ht
    have hstream : (x.store.observe hist).stream = x.store.stream := NatsList.observe_stream hist x.store
    exact h key m seq (hstream ▸ hlast) ht
  | create key value lease =>
    simp only [step, create]
    split
    · exact h.addCall _
    · exact h
  | update key value revision lease =>
    simp only [step, update]
    split
    · exact h.addCall _
    · exact h
  | delete key revision =>
    simp only [step, delete]
    split
    · exact h.addCall _
    · exact h
  | write i ok =>
    simp only [step, write]
    split
    · rename_i key data last hi
      exact h.put hok hi
    · rename_i key data last hi
      cases ok with
      | true => exact h.tombstone hi
      | false => exact absurd hi (hw.1 i key data last rfl)
    · rename_i key drev hi
      exact h.mark hok hi
    · exact h
  | fail i => exact h.calls fun key m seq _ hmem => mem_set_of_ne hmem (hw.2.1 i m.key seq rfl)
  | crash => exact fun key m seq hlast ht => absurd (h key m seq hlast ht) (hw.2.2 m.key seq rfl)

/-! ## Runs -/

theorem init_ok (hist : ℕ) : OK hist init :=
  ⟨NatsStore.init_ok hist, rfl, fun _ hc => absurd hc List.not_mem_nil⟩

theorem init_marked : init.Marked := nofun

/-- **A key that is reported absent can be created if and only if its last message is no
tombstone**, in every state of every run; and with no call on its way it can always be created, in
the runs where a delete that has written its tombstone also makes its second write. -/
theorem absent_creatable (hist : ℕ) (hpos : 0 < hist) (acts : List Act)
    (hk : Lts.Guarded (step hist) Keyed init acts) :
    Lts.Always (step hist) (CreatableIff hist) init acts ∧
      (Lts.Guarded (step hist) Whole init acts → Lts.Always (step hist) (Creatable hist) init acts) := by
  have hiff : ∀ x : NatsCalls, OK hist x → x.CreatableIff hist := fun x hx key value lease hround habs =>
    NatsStore.creates_iff hpos hx.store habs.1 hround habs.2
  constructor
  · have hok : Lts.Always (step hist) (OK hist) init acts :=
      Lts.invariant_of_guarded (fun x a ha hx => step_ok hx a ha) acts _ (init_ok hist) hk
    exact hok.mono hiff
  · intro hw
    have hok : Lts.Always (step hist) (fun x => OK hist x ∧ x.Marked) init acts :=
      Lts.invariant_of_guarded (fun x a ha hx => ⟨step_ok hx.1 a ha.1, step_marked hx.2 hx.1 a ha.2⟩) acts _
        ⟨init_ok hist, init_marked⟩ (hk.and acts hw)
    refine hok.mono fun x hx hidle key value lease hround habs => (hiff x hx.1 key value lease hround habs).2 ?_
    rintro ⟨m, seq, hlast, ht⟩
    cases hidle _ (hx.2 key m seq hlast ht)

/-- A key is created and deleted, with both writes of the delete. -/
def deletedRun : List Act :=
  [.create (ascii "/a") [] 0, .write 0 true, .observe, .delete (ascii "/a") 0, .write 1 true, .write 1 true, .observe,
    .observe]

theorem absent_creatable_deleted :
    Absent 10 (Lts.exec (step 10) init deletedRun) (ascii "/a") ∧
      Lts.Always (step 10) (Creatable 10) init deletedRun := by
  refine ⟨⟨by decide +kernel, by decide +kernel⟩, (absent_creatable 10 (by decide) deletedRun ?_).2 ?_⟩
  · have hround : RoundTrips (ascii "/a") := by decide +kernel
    exact ⟨hround, trivial, trivial, hround, trivial, trivial, trivial, trivial, trivial⟩
  · have hwhole : ∀ a ∈ deletedRun, ∀ x : NatsCalls, x.Whole a := by simp [deletedRun, Whole]
    exact Lts.guarded_of_mem deletedRun hwhole init

/-- The process stops between the two writes of the delete. -/
def stoppedRun : List Act :=
  [.create (ascii "/a") [] 0, .write 0 true, .observe, .delete (ascii "/a") 0, .write 1 true, .crash, .observe, .observe]

/-- **A key that is stuck**: it is reported absent, it cannot be created, and a delete of it writes
nothing. -/
theorem stuck_after_tombstone :
    Absent 10 (Lts.exec (step 10) init stoppedRun) (ascii "/a") ∧
      (Lts.exec (step 10) init stoppedRun).store.creates 10 (ascii "/a") [] 0 = false ∧
      (Lts.exec (step 10) init stoppedRun).store.deletePlan 10 (ascii "/a") 0 = none ∧
      ¬ Creatable 10 (Lts.exec (step 10) init stoppedRun) := by
  have habs : Absent 10 (Lts.exec (step 10) init stoppedRun) (ascii "/a") := ⟨by decide +kernel, by decide +kernel⟩
  have hcreates : (Lts.exec (step 10) init stoppedRun).store.creates 10 (ascii "/a") [] 0 = false := by decide +kernel
  refine ⟨habs, hcreates, by decide +kernel, fun h => ?_⟩
  have htrue := h (by decide +kernel) (ascii "/a") [] 0 (by decide +kernel) habs
  rw [hcreates] at htrue
  cases htrue

end NatsCalls

end Harikube
