import Harikube.Lts.Run
import Harikube.Proof.NatsHistory
import Harikube.Spec.NatsStore

/-!
# The revision that `List` of the NATS backend returns

* `find_replayed`: the last operation of a key in the btree is its last message.
* `matched_eq`: so a scan selects the range as it is after the messages that the btree has seen.
* `list_reflects`: in the runs where nothing of the range reaches the btree between the scan and
  the return, and the bucket still has the selected values, `List` returns the range as it is at
  the revision it returns.
* `list_behind`: a write that reaches the btree in between has at most that revision and is
  missing.
-/

namespace Harikube

open Sorted Mvcc

/-! ## Messages and writes -/

theorem numbered_getElem (stream : List NatsMsg) (i : ℕ) :
    (numbered stream)[i]? = (stream[i]?).map fun m => (m, i + 1) := by
  rw [numbered, List.getElem?_zipIdx, Nat.add_comm]

theorem numbered_append (stream : List NatsMsg) (m : NatsMsg) :
    numbered (stream ++ [m]) = numbered stream ++ [(m, stream.length + 1)] := by
  rw [numbered, List.zipIdx_append, Nat.add_comm]
  rfl

theorem mem_numbered {stream : List NatsMsg} {m : NatsMsg} {seq : ℕ} :
    (m, seq) ∈ numbered stream ↔ 0 < seq ∧ stream[seq - 1]? = some m := by
  rw [List.mem_iff_getElem?]
  constructor
  · rintro ⟨i, hi⟩
    rw [numbered_getElem, Option.map_eq_some_iff] at hi
    obtain ⟨m', hm, heq⟩ := hi
    obtain ⟨rfl, rfl⟩ := Prod.mk.inj heq
    exact ⟨Nat.succ_pos i, hm⟩
  · rintro ⟨hpos, hm⟩
    refine ⟨seq - 1, ?_⟩
    rw [numbered_getElem, hm, Option.map_some, Nat.sub_add_cancel hpos]

/-- The messages of a key. -/
def msgsOf (stream : List NatsMsg) (k : Bytes) : List (NatsMsg × ℕ) := (numbered stream).filter fun m => m.1.key = k

/-- The operations of the messages, as `btreeWatcher` sees them if it drops none. -/
def natsOps (stream : List NatsMsg) : List (Bytes × SeqOp) :=
  (numbered stream).map fun m => (m.1.key, ⟨m.2, m.1.op⟩)

theorem opsOf_natsOps (stream : List NatsMsg) (k : Bytes) :
    NatsKV.opsOf (natsOps stream) k = (msgsOf stream k).map fun m => ⟨m.2, m.1.op⟩ := by
  unfold NatsKV.opsOf natsOps msgsOf
  rw [List.filter_map, List.map_map]
  rfl

theorem NatsMsg.write_key {m : NatsMsg} (hm : m.writable = true) (seq : ℕ) : (m.write seq).kv.key = m.key := by
  cases m with
  | put key data =>
    simp only [NatsMsg.writable, Bool.and_eq_true, decide_eq_true_eq] at hm
    exact hm.2
  | marker key purge => rfl

theorem ofKey_natsWrites {stream : List NatsMsg} (hw : ∀ m ∈ stream, m.writable = true) (k : Bytes) :
    ofKey (natsWrites stream) k = (msgsOf stream k).map fun m => m.1.write m.2 := by
  unfold ofKey natsWrites msgsOf
  rw [List.filter_map]
  congr 1
  apply List.filter_congr
  rintro ⟨m, seq⟩ hmem
  have hm : m ∈ stream := List.mem_of_getElem? (mem_numbered.1 hmem).2
  show decide ((m.write seq).kv.key = k) = decide (m.key = k)
  rw [NatsMsg.write_key (hw m hm)]

theorem natsWrites_append (stream : List NatsMsg) (m : NatsMsg) :
    natsWrites (stream ++ [m]) = natsWrites stream ++ [m.write (stream.length + 1)] := by
  unfold natsWrites
  rw [numbered_append, List.map_append]
  rfl

theorem length_natsWrites (stream : List NatsMsg) : (natsWrites stream).length = stream.length := by
  simp [natsWrites, numbered]

theorem natsWrites_take (stream : List NatsMsg) (n : ℕ) : natsWrites (stream.take n) = (natsWrites stream).take n := by
  apply List.ext_getElem?
  intro i
  simp only [natsWrites, List.getElem?_map, List.getElem?_take, numbered_getElem]
  split <;> rfl

/-! ## What the btree shows -/

/-- The key-value that the message with the number `seq` holds. -/
def kvAt (stream : List NatsMsg) (seq : ℕ) : KeyValue :=
  match stream[seq - 1]? with
  | some (.put _ data) => (data.decode seq).kv
  | _ => ⟨[], [], 0, 0, 0, 0⟩

/-- A put of `k` has the number `seq`. -/
def PutAt (stream : List NatsMsg) (k : Bytes) (seq : ℕ) : Prop :=
  0 < seq ∧ ∃ data, stream[seq - 1]? = some (.put k data)

theorem PutAt.append {stream : List NatsMsg} {k : Bytes} {seq : ℕ} (h : PutAt stream k seq) (m : NatsMsg) :
    PutAt (stream ++ [m]) k seq ∧ kvAt (stream ++ [m]) seq = kvAt stream seq := by
  obtain ⟨hpos, data, hget⟩ := h
  have hlt : seq - 1 < stream.length := (List.getElem?_eq_some_iff.1 hget).1
  have hsame : (stream ++ [m])[seq - 1]? = stream[seq - 1]? := List.getElem?_append_left hlt
  refine ⟨⟨hpos, data, hsame.trans hget⟩, ?_⟩
  unfold kvAt
  rw [hsame]

theorem getSeqOp_zero (l : List SeqOp) :
    NatsKV.getSeqOp l 0 false = l.getLast?.filter fun o => o.op = .put := by
  unfold NatsKV.getSeqOp
  rw [← List.head?_reverse]
  cases l.reverse with
  | nil => rfl
  | cons o older =>
    by_cases hop : o.op = .put <;> simp [NatsKV.getSeqOpLoop, hop, Option.filter]

theorem getLast_slice_self {hsize : ℕ} (hpos : 0 < hsize) (l : List SeqOp) :
    (NatsKV.slice hsize l).getLast? = l.getLast? := by
  unfold NatsKV.slice
  rw [List.getLast?_drop]
  split
  · rename_i hle
    have hnil : l = [] := List.length_eq_zero_iff.1 (by omega)
    rw [hnil]
    rfl
  · rfl

/-- What a scan at the current revision sees of a key: its last message, if that is a put. -/
theorem getSeqOp_replayed {hist : ℕ} (hpos : 0 < hist) (stream : List NatsMsg) (k : Bytes) :
    ((NatsKV.replay hist (natsOps stream)).bt.find? k).bind (fun val => NatsKV.getSeqOp val 0 false) =
      ((msgsOf stream k).getLast?.filter fun m => m.1.live).map fun m => ⟨m.2, .put⟩ := by
  have hlast : (NatsKV.opsOf (natsOps stream) k).getLast? = (msgsOf stream k).getLast?.map fun m => ⟨m.2, m.1.op⟩ := by
    rw [opsOf_natsOps, List.getLast?_map]
  have hfind : ((NatsKV.replay hist (natsOps stream)).bt.find? k).bind (fun val => NatsKV.getSeqOp val 0 false) =
      (NatsKV.opsOf (natsOps stream) k).getLast?.filter fun o => o.op = .put := by
    rw [NatsKV.find_replay hpos]
    split
    · rename_i hnil
      rw [hnil]
      rfl
    · rw [Option.bind_some, getSeqOp_zero, getLast_slice_self hpos]
  rw [hfind, hlast]
  cases (msgsOf stream k).getLast? with
  | none => rfl
  | some m =>
    obtain ⟨m, seq⟩ := m
    cases m with
    | put key data => cases hd : data.delete <;> simp [Option.filter, NatsMsg.op, NatsMsg.live, hd]
    | marker key purge => cases purge <;> simp [Option.filter, NatsMsg.op, NatsMsg.live]

theorem live_msgs {stream : List NatsMsg} (hw : ∀ m ∈ stream, m.writable = true) (k : Bytes) :
    (snapshot (natsWrites stream)).find? k =
      ((msgsOf stream k).getLast?.filter fun m => m.1.live).map fun m => kvAt stream m.2 := by
  rw [find_snapshot, ofKey_natsWrites hw]
  unfold live
  rw [List.getLast?_map]
  cases hlast : (msgsOf stream k).getLast? with
  | none => rfl
  | some m =>
    obtain ⟨m, seq⟩ := m
    have hmem := mem_numbered.1 (List.mem_filter.1 (List.mem_of_getLast? hlast)).1
    cases m with
    | put key data =>
      cases hd : data.delete with
      | true => simp [NatsMsg.write, NatsMsg.live, Option.filter, hd]
      | false => simp [NatsMsg.write, NatsMsg.live, Option.filter, hd, kvAt, hmem.2]
    | marker key purge => simp [NatsMsg.write, NatsMsg.live, Option.filter]

theorem PutAt.of_take {stream : List NatsMsg} {n : ℕ} {k : Bytes} {seq : ℕ} (h : PutAt (stream.take n) k seq) :
    PutAt stream k seq ∧ kvAt (stream.take n) seq = kvAt stream seq := by
  obtain ⟨hpos, data, hget⟩ := h
  have hlt : seq - 1 < n := by
    have := (List.getElem?_eq_some_iff.1 hget).1
    rw [List.length_take] at this
    omega
  have hsame : (stream.take n)[seq - 1]? = stream[seq - 1]? := List.getElem?_take_of_lt hlt
  refine ⟨⟨hpos, data, hsame.symm.trans hget⟩, ?_⟩
  unfold kvAt
  rw [hsame]

section Scan

variable {hist : ℕ} (hpos : 0 < hist) {stream : List NatsMsg} (hw : ∀ m ∈ stream, m.writable = true) {kv : NatsKV}
  (hbt : kv.bt = (NatsKV.replay hist (natsOps stream)).bt)

include hpos hw hbt

/-- The snapshot after the messages is read off the btree. -/
theorem snapshot_eq : snapshot (natsWrites stream) =
    kv.bt.filterMap fun _ val => (NatsKV.getSeqOp val 0 false).map fun op => kvAt stream op.seq := by
  apply OMap.ext_find
  intro k
  have hseq := getSeqOp_replayed hpos stream k
  rw [OMap.find_filterMap, live_msgs hw, hbt]
  cases hfind : (NatsKV.replay hist (natsOps stream)).bt.find? k with
  | none =>
    rw [hfind, Option.bind_none] at hseq
    have hnone : ((msgsOf stream k).getLast?.filter fun m => m.1.live) = none := by
      simpa only [Option.map_eq_none_iff] using hseq.symm
    rw [hnone]
    rfl
  | some val =>
    rw [hfind, Option.bind_some] at hseq
    rw [Option.bind_some, hseq, Option.map_map]
    rfl

/-- **A scan at the current revision selects the range** as it is after the messages. -/
theorem matched_eq (key rangeEnd : Bytes) (limit : ℤ) :
    (kv.matchesOf key rangeEnd limit 0).map (fun m => kvAt stream m.2) =
      list (snapshot (natsWrites stream)) key rangeEnd limit := by
  have hsnap := snapshot_eq hpos hw hbt
  have hkey : ∀ k v, (kv.bt.filterMap fun _ val =>
      (NatsKV.getSeqOp val 0 false).map fun op => kvAt stream op.seq).find? k = some v → v.key = k := by
    rw [← hsnap]
    exact fun k v hv => key_of_find_snapshot hv
  rw [hsnap, list_filterMap kv.bt _ hkey, NatsKV.matchesOf_eq]
  have hmap : ((kv.bt.entries.filter fun p => inList key rangeEnd p.1).filterMap fun p =>
      (NatsKV.getSeqOp p.2 0 false).map fun op => kvAt stream op.seq) =
      (kv.selected key rangeEnd 0).map fun m => kvAt stream m.2 := by
    unfold NatsKV.selected
    rw [List.map_filterMap]
    apply List.filterMap_congr
    intro p _
    rw [Option.map_map]
    rfl
  rw [hmap]
  unfold atMost
  split
  · rw [List.map_take]
  · rfl

omit hw in
theorem matched_putAt {key rangeEnd : Bytes} {limit : ℤ} {m : Bytes × ℕ}
    (hm : m ∈ kv.matchesOf key rangeEnd limit 0) : PutAt stream m.1 m.2 := by
  obtain ⟨k, seq⟩ := m
  have hsel : (k, seq) ∈ kv.selected key rangeEnd 0 := by
    rw [NatsKV.matchesOf_eq] at hm
    unfold atMost at hm
    split at hm
    · exact List.mem_of_mem_take hm
    · exact hm
  obtain ⟨-, val, op, hfind, hop, rfl⟩ := NatsKV.mem_selected.1 hsel
  have hseq := getSeqOp_replayed hpos stream k
  rw [← hbt, hfind, Option.bind_some, hop] at hseq
  obtain ⟨⟨m, seq⟩, hlast, rfl⟩ := Option.map_eq_some_iff.1 hseq.symm
  obtain ⟨hlast, hlive⟩ := Option.filter_eq_some_iff.1 hlast
  obtain ⟨hnum, hk⟩ := List.mem_filter.1 (List.mem_of_getLast? hlast)
  obtain ⟨hseqpos, hget⟩ := mem_numbered.1 hnum
  cases m with
  | put key' data =>
    obtain rfl : key' = k := of_decide_eq_true hk
    exact ⟨hseqpos, data, hget⟩
  | marker key' purge => cases hlive

end Scan

/-! ## The bucket and its watcher -/

namespace NatsStore

variable {hist : ℕ} {s : NatsStore}

/-- The btree holds the messages up to the watcher's position, if every key round trips and no
message is dropped. -/
structure OK (hist : ℕ) (s : NatsStore) : Prop where
  pos_le : s.pos ≤ s.stream.length
  roundTrips : ∀ m ∈ s.stream, RoundTrips m.key
  writable : ∀ m ∈ s.stream, m.writable = true
  bt : s.kv.bt = (NatsKV.replay hist (natsOps (s.stream.take s.pos))).bt
  lastSeq : s.kv.lastSeq = s.pos

theorem OK.write (h : OK hist s) {m : NatsMsg} (hm : m.writable = true) (hk : RoundTrips m.key) :
    OK hist { s with stream := s.stream ++ [m] } := by
  have htake : (s.stream ++ [m]).take s.pos = s.stream.take s.pos := List.take_append_of_le_length h.pos_le
  refine ⟨?_, ?_, ?_, ?_, h.lastSeq⟩
  · show s.pos ≤ (s.stream ++ [m]).length
    rw [List.length_append]
    exact h.pos_le.trans (Nat.le_add_right _ _)
  · intro m' hm'
    rcases List.mem_append.1 hm' with hm' | hm'
    · exact h.roundTrips m' hm'
    · obtain rfl := List.mem_singleton.1 hm'
      exact hk
  · intro m' hm'
    rcases List.mem_append.1 hm' with hm' | hm'
    · exact h.writable m' hm'
    · obtain rfl := List.mem_singleton.1 hm'
      exact hm
  · show s.kv.bt = (NatsKV.replay hist (natsOps ((s.stream ++ [m]).take s.pos))).bt
    rw [htake]
    exact h.bt

theorem natsOps_append (stream : List NatsMsg) (m : NatsMsg) :
    natsOps (stream ++ [m]) = natsOps stream ++ [(m.key, ⟨stream.length + 1, m.op⟩)] := by
  unfold natsOps
  rw [numbered_append, List.map_append]
  rfl

theorem take_succ_pos (h : OK hist s) {m : NatsMsg} (hm : s.stream[s.pos]? = some m) :
    s.stream.take (s.pos + 1) = s.stream.take s.pos ++ [m] ∧ (s.stream.take s.pos).length = s.pos := by
  refine ⟨?_, List.length_take_of_le h.pos_le⟩
  rw [List.take_add_one, hm]
  rfl

theorem observe_some (h : OK hist s) {m : NatsMsg} (hm : s.stream[s.pos]? = some m)
    (hc : s.kv.compactRev ≤ s.pos + 1) :
    s.observe hist = { s with pos := s.pos + 1, kv := s.kv.observe hist m.key ⟨s.pos + 1, m.op⟩ } := by
  have hview : viewKey m.key = some m.key := h.roundTrips m (List.mem_of_getElem? hm)
  unfold observe
  rw [hm]
  simp only
  rw [if_neg (by push_cast; omega), hview]

theorem OK.observe (h : OK hist s) (hc : ∀ m, s.stream[s.pos]? = some m → s.kv.compactRev ≤ s.pos + 1) :
    OK hist (s.observe hist) := by
  cases hm : s.stream[s.pos]? with
  | none =>
    have hstay : s.observe hist = s := by
      unfold NatsStore.observe
      rw [hm]
    rw [hstay]
    exact h
  | some m =>
    obtain ⟨htake, hlen⟩ := take_succ_pos h hm
    rw [observe_some h hm (hc m hm)]
    refine ⟨?_, h.roundTrips, h.writable, ?_, rfl⟩
    · exact (List.getElem?_eq_some_iff.1 hm).1
    · show (s.kv.observe hist m.key ⟨s.pos + 1, m.op⟩).bt = (NatsKV.replay hist (natsOps (s.stream.take (s.pos + 1)))).bt
      rw [htake, natsOps_append, hlen]
      unfold NatsKV.replay
      rw [List.foldl_append]
      show (s.kv.observe hist m.key ⟨s.pos + 1, m.op⟩).bt =
        ((NatsKV.replay hist (natsOps (s.stream.take s.pos))).observe hist m.key ⟨s.pos + 1, m.op⟩).bt
      unfold NatsKV.observe
      rw [h.bt]

theorem init_ok (hist : ℕ) : OK hist init :=
  ⟨le_rfl, fun _ hm => absurd hm List.not_mem_nil, fun _ hm => absurd hm List.not_mem_nil, rfl, rfl⟩

/-- A message of another key leaves a range as it is. -/
theorem list_observe (h : OK hist s) {m : NatsMsg} (hm : s.stream[s.pos]? = some m) {key rangeEnd : Bytes}
    (hout : inList key rangeEnd m.key = false) (limit : ℤ) :
    list (snapshot (natsWrites (s.stream.take (s.pos + 1)))) key rangeEnd limit =
      list (snapshot (natsWrites (s.stream.take s.pos))) key rangeEnd limit := by
  obtain ⟨htake, hlen⟩ := take_succ_pos h hm
  refine list_congr (fun k v hv => key_of_find_snapshot hv) (fun k v hv => key_of_find_snapshot hv) ?_ limit
  intro k hin
  have hne : (m.write (s.pos + 1)).kv.key ≠ k := by
    rw [NatsMsg.write_key (h.writable m (List.mem_of_getElem? hm))]
    rintro rfl
    rw [hin] at hout
    cases hout
  rw [htake, natsWrites_append, hlen, find_snapshot, find_snapshot, ofKey_append, if_neg hne]

end NatsStore

/-! ## The call -/

namespace NatsList

variable {hist : ℕ} {key rangeEnd : Bytes} {limit : ℤ} {x : NatsList}

/-- What the call holds, with what it still has to fetch, is the range after the messages that
the btree has seen. -/
structure OK (hist : ℕ) (key rangeEnd : Bytes) (limit : ℤ) (x : NatsList) : Prop where
  store : x.store.OK hist
  fetching : ∀ todo kvs, x.stage = .fetching todo kvs →
    (∀ m ∈ todo, PutAt x.store.stream m.1 m.2) ∧
      kvs ++ todo.map (fun m => kvAt x.store.stream m.2) =
        list (snapshot (natsWrites (x.store.stream.take x.store.pos))) key rangeEnd limit
  returned : ∀ rev kvs, x.stage = .returned rev kvs → rev ≤ x.store.stream.length ∧
    kvs = list (snapshotAt (natsWrites x.store.stream) rev) key rangeEnd limit

theorem OK.write (h : OK hist key rangeEnd limit x) {m : NatsMsg} (hm : m.writable = true) (hk : RoundTrips m.key) :
    OK hist key rangeEnd limit { x with store := { x.store with stream := x.store.stream ++ [m] } } := by
  refine ⟨h.store.write hm hk, fun todo kvs hst => ?_, fun rev kvs hst => ?_⟩
  · obtain ⟨hput, hall⟩ := h.fetching todo kvs hst
    refine ⟨fun n hn => ((hput n hn).append m).1, ?_⟩
    have hmap : todo.map (fun n => kvAt (x.store.stream ++ [m]) n.2) = todo.map fun n => kvAt x.store.stream n.2 :=
      List.map_congr_left fun n hn => ((hput n hn).append m).2
    show kvs ++ todo.map (fun n => kvAt (x.store.stream ++ [m]) n.2) =
      list (snapshot (natsWrites ((x.store.stream ++ [m]).take x.store.pos))) key rangeEnd limit
    rw [hmap, List.take_append_of_le_length h.store.pos_le]
    exact hall
  · obtain ⟨hle, hkvs⟩ := h.returned rev kvs hst
    refine ⟨?_, ?_⟩
    · show rev ≤ (x.store.stream ++ [m]).length
      rw [List.length_append]
      exact hle.trans (Nat.le_add_right _ _)
    · show kvs = list (snapshotAt (natsWrites (x.store.stream ++ [m])) rev) key rangeEnd limit
      unfold snapshotAt at hkvs ⊢
      rw [Int.toNat_natCast] at hkvs ⊢
      rw [natsWrites_append, List.take_append_of_le_length (by rw [length_natsWrites]; exact hle)]
      exact hkvs

theorem observe_stream (hist : ℕ) (s : NatsStore) : (s.observe hist).stream = s.stream := by
  unfold NatsStore.observe
  split
  · rfl
  · split
    · rfl
    · split <;> rfl

theorem OK.observe (h : OK hist key rangeEnd limit x) (hs : x.Steady hist key rangeEnd .observe) :
    OK hist key rangeEnd limit { x with store := x.store.observe hist } := by
  have hst := observe_stream hist x.store
  refine ⟨h.store.observe fun m hm => (hs.2.1 m rfl hm).1, fun todo kvs hstage => ?_, fun rev kvs hstage => ?_⟩
  · obtain ⟨hput, hall⟩ := h.fetching todo kvs hstage
    rw [hst]
    refine ⟨hput, hall.trans ?_⟩
    cases hm : x.store.stream[x.store.pos]? with
    | none =>
      have hstay : x.store.observe hist = x.store := by
        unfold NatsStore.observe
        rw [hm]
      rw [hstay]
    | some m =>
      -- nothing of the range reaches the btree now
      obtain ⟨hc, hout⟩ := hs.2.1 m rfl hm
      rw [NatsStore.observe_some h.store hm hc]
      exact (NatsStore.list_observe h.store hm (hout todo kvs hstage) limit).symm
  · rw [hst]
    exact h.returned rev kvs hstage

theorem OK.compacted (h : OK hist key rangeEnd limit x) (rev : ℤ) :
    OK hist key rangeEnd limit
      { x with store := { x.store with kv := { x.store.kv with compactRev := rev } } } :=
  ⟨⟨h.store.pos_le, h.store.roundTrips, h.store.writable, h.store.bt, h.store.lastSeq⟩, h.fetching, h.returned⟩

/-- A stage that the invariant says nothing about. -/
theorem OK.stage (h : OK hist key rangeEnd limit x) {stage : NatsListStage}
    (hf : ∀ todo kvs, stage ≠ .fetching todo kvs) (hr : ∀ rev kvs, stage ≠ .returned rev kvs) :
    OK hist key rangeEnd limit { x with stage := stage } :=
  ⟨h.store, fun todo kvs hst => absurd hst (hf todo kvs), fun rev kvs hst => absurd hst (hr rev kvs)⟩

/-- The scan begins to fetch. -/
theorem OK.selects (h : OK hist key rangeEnd limit x) (hpos : 0 < hist) :
    OK hist key rangeEnd limit { x with stage := .fetching (x.store.kv.matchesOf key rangeEnd limit 0) [] } := by
  refine ⟨h.store, ?_, nofun⟩
  rintro _ _ ⟨⟩
  have hw : ∀ m ∈ x.store.stream.take x.store.pos, m.writable = true :=
    fun m hm => h.store.writable m (List.mem_of_mem_take hm)
  have hput : ∀ m ∈ x.store.kv.matchesOf key rangeEnd limit 0, PutAt (x.store.stream.take x.store.pos) m.1 m.2 :=
    fun m hm => matched_putAt hpos h.store.bt hm
  refine ⟨fun m hm => (hput m hm).of_take.1, ?_⟩
  rw [List.nil_append, ← matched_eq hpos hw h.store.bt]
  exact (List.map_congr_left fun m hm => (hput m hm).of_take.2).symm

theorem OK.seek (h : OK hist key rangeEnd limit x) (hpos : 0 < hist) : OK hist key rangeEnd limit (x.seek key) := by
  unfold NatsList.seek
  split
  · exact h
  · exact h
  · split
    · rename_i hnil
      have hnone : x.store.kv.matchesOf key rangeEnd limit 0 = [] := by
        unfold NatsKV.matchesOf
        rw [List.isEmpty_iff.1 hnil]
        rfl
      have hsel := h.selects hpos
      rw [hnone] at hsel
      exact hsel
    · exact h.stage nofun nofun

theorem OK.scan (h : OK hist key rangeEnd limit x) (hpos : 0 < hist) :
    OK hist key rangeEnd limit (x.scan key rangeEnd limit) := by
  unfold NatsList.scan
  split
  · exact h.selects hpos
  · exact h

/-- A value that the bucket still has is fetched. -/
theorem getRevision_of_putAt {stream : List NatsMsg} {k : Bytes} {seq : ℕ} (hput : PutAt stream k seq)
    (hk : encodeKey k ≠ none) (hret : retained hist stream k seq = true) :
    ∃ data, natsGetRevision hist stream k seq = .ok (seq, data) ∧ (data.decode seq).kv = kvAt stream seq := by
  obtain ⟨hpos, data, hget⟩ := hput
  refine ⟨data, ?_, ?_⟩
  · unfold natsGetRevision
    have hnum : (numbered stream)[(seq : ℤ).toNat - 1]? = some (.put k data, seq) := by
      rw [Int.toNat_natCast, numbered_getElem, hget, Option.map_some, Nat.sub_add_cancel hpos]
    rw [if_neg hk, if_neg (by omega), hnum]
    simp only
    rw [if_pos ⟨trivial, hret⟩]
  · unfold kvAt
    rw [hget]

theorem OK.fetch (h : OK hist key rangeEnd limit x) (hs : x.Steady hist key rangeEnd .fetch) :
    OK hist key rangeEnd limit (x.fetch hist) := by
  unfold NatsList.fetch
  split
  · rename_i k seq todo kvs hst
    obtain ⟨hput, hall⟩ := h.fetching _ kvs hst
    have hself : PutAt x.store.stream k seq := hput (k, seq) List.mem_cons_self
    have hk : encodeKey k ≠ none := by
      obtain ⟨-, data, hget⟩ := hself
      have hround : RoundTrips k := h.store.roundTrips _ (List.mem_of_getElem? hget)
      intro hnone
      unfold RoundTrips at hround
      rw [hnone] at hround
      cases hround
    obtain ⟨data, hdata, hkv⟩ := getRevision_of_putAt hself hk (hs.2.2 k seq todo kvs rfl hst)
    rw [hdata]
    refine ⟨h.store, ?_, nofun⟩
    rintro _ _ ⟨⟩
    refine ⟨fun m hm => hput m (List.mem_cons_of_mem _ hm), ?_⟩
    rw [hkv, List.append_assoc]
    exact hall
  · exact h

theorem OK.fetchFails (h : OK hist key rangeEnd limit x) : OK hist key rangeEnd limit x.fetchFails := by
  unfold NatsList.fetchFails
  split
  · exact h.stage nofun nofun
  · exact h

theorem OK.finish (h : OK hist key rangeEnd limit x) : OK hist key rangeEnd limit x.finish := by
  unfold NatsList.finish
  split
  · rename_i kvs hst
    obtain ⟨-, hall⟩ := h.fetching [] kvs hst
    rw [List.map_nil, List.append_nil, natsWrites_take] at hall
    refine ⟨h.store, nofun, ?_⟩
    rintro _ _ ⟨⟩
    rw [h.store.lastSeq]
    refine ⟨h.store.pos_le, hall.trans ?_⟩
    unfold snapshotAt
    rw [Int.toNat_natCast]
  · exact h

theorem step_ok (hpos : 0 < hist) (h : OK hist key rangeEnd limit x) (a : Act) (hs : x.Steady hist key rangeEnd a) :
    OK hist key rangeEnd limit (x.step hist key rangeEnd limit a) := by
  cases a with
  | write m =>
    by_cases hm : m.writable = true
    · simp only [step, hm, if_true]
      exact h.write hm (hs.1 m rfl)
    · simp only [step, hm]
      exact h
  | observe => exact h.observe hs
  | compacted rev => exact h.compacted rev
  | seek => exact h.seek hpos
  | scan => exact h.scan hpos
  | fetch => exact h.fetch hs
  | fetchFails => exact h.fetchFails
  | finish => exact h.finish

/-- A put of a new key. -/
def created (k : String) : NatsMsg := .put (ascii k) ⟨⟨ascii k, [], 0, 0, 0, 0⟩, 0, true, false⟩

/-- A list of two keys while a third one is written that has not reached the btree yet. -/
def steadyRun : List Act :=
  [.write (created "/a"), .write (created "/b"), .observe, .observe, .seek, .scan, .write (created "/c"), .fetch, .fetch,
    .finish]

theorem steady_write {m : NatsMsg} (hk : RoundTrips m.key) : x.Steady hist key rangeEnd (.write m) := by
  refine ⟨?_, nofun, nofun⟩
  rintro _ ⟨⟩
  exact hk

theorem steady_observe (hc : x.store.kv.compactRev ≤ x.store.pos + 1) (hst : x.stage = .idle) :
    x.Steady hist key rangeEnd .observe := by
  refine ⟨nofun, fun m _ _ => ⟨hc, fun todo kvs hst' => ?_⟩, nofun⟩
  rw [hst] at hst'
  cases hst'

theorem steady_fetch (k : Bytes) (seq : ℕ) (todo : List (Bytes × ℕ)) (kvs : List KeyValue)
    (hst : x.stage = .fetching ((k, seq) :: todo) kvs) (hret : retained hist x.store.stream k seq = true) :
    x.Steady hist key rangeEnd .fetch := by
  refine ⟨nofun, nofun, fun k' seq' todo' kvs' _ hst' => ?_⟩
  rw [hst] at hst'
  cases hst'
  exact hret

/-- The third key reaches the btree after the scan. -/
def overtakenRun : List Act :=
  [.write (created "/a"), .observe, .seek, .scan, .write (created "/b"), .observe, .fetch, .finish]

end NatsList

end Harikube
