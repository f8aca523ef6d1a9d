import Harikube.Proof.NatsCreate
import Harikube.Proof.Version
import Harikube.Spec.NatsCompact

/-!
# The compact revision of the NATS backend

`Compact` takes its target from the caller and bounds it by nothing, and `compactor` calls it with
the current revision, whatever is to be retained. The watcher applies what it is shown, also what
others have written without a leading slash. With modest targets and harmless writes:

* `Flow`: the compact revisions in the bucket grow along the stream, and the last one is the stored
  one, which is not above the current revision.
* `CallOK`: a call that is about to write has a target above the stored value it replaces.
* `compaction_sound`: the compact revision does not pass the current one and never goes back.
* `compaction_unsound`: without the conditions each part fails.
-/

namespace Harikube

open Sorted

/-! ## Compact values -/

/-- **A stored target is read back**, or the largest `int64` for one above it. -/
theorem decode_encodeCompactValue (vers : ℤ) {target : ℤ} (ht : 0 ≤ target) :
    (decodeCompactValue (encodeCompactValue vers target)).2 = min target (2 ^ 63 - 1) := by
  unfold decodeCompactValue encodeCompactValue
  rw [decodeVersion_snd, parseInt_toString_nonneg ht]

/-- **Versions and compact values are read back as they were written**, whatever the bytes of
the value are. -/
theorem versions_read_back (version : ℤ) (hlo : -2 ^ 63 ≤ version) (hhi : version < 2 ^ 63) :
    (∀ value : Bytes, decodeVersion (encodeVersion version value) = (version, value)) ∧
      ∀ rev : ℤ, -2 ^ 63 ≤ rev → rev < 2 ^ 63 →
        decodeCompactValue (encodeCompactValue version rev) = (version, rev) := by
  refine ⟨decodeVersion_encodeVersion hlo hhi, fun rev hlo' hhi' => ?_⟩
  unfold decodeCompactValue encodeCompactValue
  rw [decodeVersion_encodeVersion hlo hhi, parseInt_toString hlo' hhi']

/-- The lowest version, a value that contains the separator and a byte that is no UTF-8, and the
highest revision. -/
theorem versions_read_back_lowest :
    decodeVersion (encodeVersion (-2 ^ 63) (ascii "1|2" ++ [255])) = (-2 ^ 63, ascii "1|2" ++ [255]) ∧
      decodeCompactValue (encodeCompactValue (-2 ^ 63) (2 ^ 63 - 1)) = (-2 ^ 63, 2 ^ 63 - 1) :=
  ⟨(versions_read_back (-2 ^ 63) (by norm_num) (by norm_num)).1 _,
    (versions_read_back (-2 ^ 63) (by norm_num) (by norm_num)).2 _ (by norm_num) (by norm_num)⟩

theorem compactTarget_nonneg (minRetain revision currRev : ℤ) : 0 ≤ compactTarget minRetain revision currRev := by
  unfold compactTarget
  simp only
  split_ifs <;> omega

theorem compactTarget_explicit {minRetain revision currRev : ℤ} (hr : 1 < revision) :
    compactTarget minRetain revision currRev = revision := by
  unfold compactTarget
  simp only
  rw [if_pos hr, if_neg (by omega)]

/-- The compact revision in some data. -/
def NatsData.rev (d : NatsData) : ℤ := (decodeCompactValue d.kv.value).2

theorem NatsData.rev_lt (d : NatsData) : d.rev < 2 ^ 63 := parseInt_lt _

theorem compactRev_put {k : Bytes} {d : NatsData} {r : ℤ} (h : (NatsMsg.put k d).compactRev = some r) : r = d.rev := by
  unfold NatsMsg.compactRev at h
  split at h
  · simp only at h
    split at h
    · exact (Option.some.inj h).symm
    · cases h
  · cases h

theorem compactRev_marker (k : Bytes) (purge : Bool) : (NatsMsg.marker k purge).compactRev = none := by
  unfold NatsMsg.compactRev
  split <;> rfl

/-! ## The stored revision -/

theorem storedRev_append_other {stream : List NatsMsg} {m : NatsMsg} (hm : encodeKey m.key ≠ encodeKey compactRevAPI) :
    storedRev (stream ++ [m]) = storedRev stream := by
  unfold storedRev
  rw [lastMsg_append, if_neg hm]

theorem storedRev_append_put {stream : List NatsMsg} {k : Bytes} {d : NatsData}
    (hk : encodeKey k = encodeKey compactRevAPI) : storedRev (stream ++ [.put k d]) = d.rev := by
  have hkey : encodeKey (NatsMsg.put k d).key = encodeKey compactRevAPI := hk
  unfold storedRev
  rw [lastMsg_append, if_pos hkey]
  rfl

/-- The stored revision is that of the message that an `Update` replaces. -/
theorem storedRev_of_last {stream : List NatsMsg} {d : NatsData} {seq : ℕ}
    (hput : SubjectPut stream compactRevAPI d seq) (hlast : lastSubjectSeq stream compactRevAPI = seq) :
    storedRev stream = d.rev := by
  obtain ⟨k, ⟨hpos, hget⟩, -⟩ := hput
  unfold lastSubjectSeq at hlast
  unfold storedRev
  cases hmsg : lastMsg stream compactRevAPI with
  | none =>
    rw [hmsg] at hlast
    simp only [Option.map_none, Option.getD_none] at hlast
    omega
  | some p =>
    obtain ⟨m, seq'⟩ := p
    rw [hmsg] at hlast
    obtain rfl : seq' = seq := hlast
    obtain ⟨⟨-, hm⟩, -⟩ := lastMsg_mem hmsg
    rw [hget] at hm
    obtain rfl : NatsMsg.put k d = m := Option.some.inj hm
    rfl

theorem SubjectPut.append {stream : List NatsMsg} {key : Bytes} {d : NatsData} {seq : ℕ}
    (h : SubjectPut stream key d seq) (m : NatsMsg) : SubjectPut (stream ++ [m]) key d seq := by
  obtain ⟨k, ⟨hpos, hget⟩, hk⟩ := h
  refine ⟨k, ⟨hpos, ?_⟩, hk⟩
  rw [List.getElem?_append_left (List.getElem?_eq_some_iff.1 hget).1]
  exact hget

/-! ## The stream and the watcher -/

/-- The compact revisions that the watcher may take from some messages. -/
def compactRevs (stream : List NatsMsg) : List ℤ := stream.filterMap NatsMsg.compactRev

namespace NatsCompact

variable {hist : ℕ} {minRetain : ℤ} {x : NatsCompact}

/-- The stored revision is within the current one, the compact revisions of the stream grow up to
it, and the compact revision in use is not above those that the watcher has still to pass. -/
structure Flow (s : NatsStore) (watched : ℕ) : Prop where
  last_le : s.kv.lastSeq ≤ s.pos
  own : ∀ k d, NatsMsg.put k d ∈ s.stream → encodeKey k = encodeKey compactRevAPI → 0 ≤ d.rev ∧ d.delete = false
  stored_nonneg : 0 ≤ storedRev s.stream
  stored_le : storedRev s.stream ≤ s.kv.lastSeq
  sorted : (compactRevs s.stream).Pairwise (· ≤ ·)
  top : ∀ r ∈ compactRevs s.stream, r ≤ storedRev s.stream
  bound : s.kv.compactRev ≤ storedRev s.stream
  ahead : ∀ r ∈ compactRevs (s.stream.drop watched), s.kv.compactRev ≤ r

/-- What a harmless message adds: a compact revision, if any, is the stored one from then on. -/
theorem Harmless.compactRev_eq {s : NatsStore} {m : NatsMsg} (h : Harmless s m) {r : ℤ} (hr : m.compactRev = some r) :
    r = storedRev (s.stream ++ [m]) := by
  unfold Harmless at h
  split at h
  · rename_i hk
    cases m with
    | put k d =>
      exact (compactRev_put hr).trans (storedRev_append_put hk).symm
    | marker k purge =>
      rw [compactRev_marker] at hr
      cases hr
  · rw [h] at hr
    cases hr

theorem Harmless.stored {s : NatsStore} {m : NatsMsg} (h : Harmless s m) (hle : storedRev s.stream ≤ s.kv.lastSeq) :
    storedRev s.stream ≤ storedRev (s.stream ++ [m]) ∧ storedRev (s.stream ++ [m]) ≤ s.kv.lastSeq := by
  unfold Harmless at h
  split at h
  · exact h.2
  · rename_i hk
    rw [storedRev_append_other hk]
    exact ⟨le_rfl, hle⟩

theorem mem_compactRevs_append {stream : List NatsMsg} {m : NatsMsg} {r : ℤ} :
    r ∈ compactRevs (stream ++ [m]) ↔ r ∈ compactRevs stream ∨ m.compactRev = some r := by
  unfold compactRevs
  rw [List.filterMap_append, List.mem_append]
  refine or_congr_right ?_
  rw [List.mem_filterMap]
  simp only [List.mem_singleton, exists_eq_left]

/-- **A harmless message keeps the stream in order.** -/
theorem Flow.append {s : NatsStore} {watched : ℕ} (h : Flow s watched) {m : NatsMsg} (hm : Harmless s m) :
    Flow { s with stream := s.stream ++ [m] } watched := by
  obtain ⟨hup, hcur⟩ := hm.stored h.stored_le
  have hnew : ∀ r, m.compactRev = some r → storedRev s.stream ≤ r := fun r hr => by
    rw [hm.compactRev_eq hr]
    exact hup
  refine ⟨h.last_le, ?_, h.stored_nonneg.trans hup, hcur, ?_, ?_, h.bound.trans hup, ?_⟩
  · intro k d hmem hk
    rcases List.mem_append.1 hmem with hmem | hmem
    · exact h.own k d hmem hk
    · obtain rfl : NatsMsg.put k d = m := List.mem_singleton.1 hmem
      have hkey : encodeKey (NatsMsg.put k d).key = encodeKey compactRevAPI := hk
      unfold Harmless at hm
      rw [if_pos hkey] at hm
      rw [storedRev_append_put hk] at hup
      exact ⟨h.stored_nonneg.trans hup, hm.1⟩
  · show (compactRevs (s.stream ++ [m])).Pairwise (· ≤ ·)
    unfold compactRevs
    rw [List.filterMap_append, List.pairwise_append]
    refine ⟨h.sorted, ?_, ?_⟩
    · cases hr : m.compactRev with
      | none => simp [hr]
      | some r => simp [hr]
    · intro r hr r' hr'
      obtain ⟨m', hm', hsome⟩ := List.mem_filterMap.1 hr'
      rw [List.mem_singleton.1 hm'] at hsome
      exact (h.top r hr).trans (hnew r' hsome)
  · intro r hr
    rcases mem_compactRevs_append.1 hr with hr | hr
    · exact (h.top r hr).trans hup
    · exact (hm.compactRev_eq hr).le
  · intro r hr
    have hmem : r ∈ compactRevs (s.stream.drop watched) ∨ m.compactRev = some r := by
      rw [List.drop_append] at hr
      obtain ⟨m', hm', hsome⟩ := List.mem_filterMap.1 hr
      rcases List.mem_append.1 hm' with hm' | hm'
      · exact .inl (List.mem_filterMap.2 ⟨m', hm', hsome⟩)
      · rw [List.mem_singleton.1 (List.mem_of_mem_drop hm')] at hsome
        exact .inr hsome
    rcases hmem with hmem | hmem
    · exact h.ahead r hmem
    · exact h.bound.trans (hnew r hmem)

/-! ## The two watchers -/

theorem observe_lastSeq {s : NatsStore} (h : s.kv.lastSeq ≤ s.pos) :
    s.kv.lastSeq ≤ (s.observe hist).kv.lastSeq ∧ (s.observe hist).kv.lastSeq ≤ (s.observe hist).pos := by
  unfold NatsStore.observe
  split
  · exact ⟨le_rfl, h⟩
  · split
    · exact ⟨le_rfl, h.trans (Nat.le_succ _)⟩
    · split
      · exact ⟨le_rfl, h.trans (Nat.le_succ _)⟩
      · exact ⟨h.trans (Nat.le_succ _), le_rfl⟩

theorem Flow.observe {s : NatsStore} {watched : ℕ} (h : Flow s watched) : Flow (s.observe hist) watched := by
  obtain ⟨hgrow, hpos⟩ : s.kv.lastSeq ≤ (s.observe hist).kv.lastSeq ∧
      (s.observe hist).kv.lastSeq ≤ (s.observe hist).pos := observe_lastSeq h.last_le
  have hstream : (s.observe hist).stream = s.stream := NatsList.observe_stream hist s
  have hrev : (s.observe hist).kv.compactRev = s.kv.compactRev := NatsCalls.observe_compactRev s
  constructor
  all_goals try rw [hstream]
  all_goals try rw [hrev]
  · exact hpos
  · exact h.own
  · exact h.stored_nonneg
  · exact h.stored_le.trans (by exact_mod_cast hgrow)
  · exact h.sorted
  · exact h.top
  · exact h.bound
  · exact h.ahead

theorem compactRevs_drop {stream : List NatsMsg} {n : ℕ} {m : NatsMsg} (hm : stream[n]? = some m) {r : ℤ} :
    r ∈ compactRevs (stream.drop n) ↔ m.compactRev = some r ∨ r ∈ compactRevs (stream.drop (n + 1)) := by
  obtain ⟨hlt, hget⟩ := List.getElem?_eq_some_iff.1 hm
  unfold compactRevs
  rw [List.drop_eq_getElem_cons hlt, hget, List.mem_filterMap, List.mem_filterMap]
  simp only [List.mem_cons, exists_eq_or_imp]

/-- A message that the watcher passes without taking anything. -/
theorem Flow.pass {s : NatsStore} {watched : ℕ} (h : Flow s watched) {m : NatsMsg}
    (hm : s.stream[watched]? = some m) : Flow s (watched + 1) :=
  { h with ahead := fun r hr => h.ahead r ((compactRevs_drop hm).2 (.inr hr)) }

/-- **The watcher takes a compact revision**: it is not below the old one, and the ones that follow
are not below it. -/
theorem Flow.take {s : NatsStore} {watched : ℕ} (h : Flow s watched) {m : NatsMsg}
    (hm : s.stream[watched]? = some m) {rev : ℤ} (hrev : m.compactRev = some rev) :
    s.kv.compactRev ≤ rev ∧ Flow { s with kv := { s.kv with compactRev := rev } } (watched + 1) := by
  have hmem : rev ∈ compactRevs (s.stream.drop watched) := (compactRevs_drop hm).2 (.inl hrev)
  have hdrop : (compactRevs (s.stream.drop watched)).Sublist (compactRevs s.stream) :=
    (List.drop_sublist watched s.stream).filterMap _
  refine ⟨h.ahead rev hmem, { h with bound := h.top rev (hdrop.subset hmem), ahead := ?_ }⟩
  intro r hr
  have hsorted : (compactRevs (s.stream.drop watched)).Pairwise (· ≤ ·) := h.sorted.sublist hdrop
  obtain ⟨hlt, hget⟩ := List.getElem?_eq_some_iff.1 hm
  unfold compactRevs at hsorted
  rw [List.drop_eq_getElem_cons hlt, hget, List.filterMap_cons_some hrev, List.pairwise_cons] at hsorted
  exact hsorted.1 r hr

/-! ## Calls -/

/-- The target of a call, with the current revision that the call has read. -/
structure Fits (minRetain : ℤ) (s : NatsStore) (auto : Bool) (revision : ℤ) (currRev : ℕ) (target : ℤ) : Prop where
  current : currRev ≤ s.kv.lastSeq
  target_le : target ≤ currRev
  explicit : auto = false → revision ≤ currRev
  retains : auto = true → target ≤ currRev - minRetain

/-- A compact revision on its way: it is above that of the message it replaces, and within the
target. -/
def Replaces (stream : List NatsMsg) (rev target : ℤ) (seq : ℕ) : Prop :=
  ∃ d, SubjectPut stream compactRevAPI d seq ∧ d.rev ≤ rev ∧ rev ≤ target

/-- What is known of a call, stage by stage. -/
def CallOK (minRetain : ℤ) (s : NatsStore) (c : CompactCall) : Prop :=
  match c.stage with
  | .called => True
  | .missing currRev => currRev ≤ s.kv.lastSeq
  | .creating currRev data last => currRev ≤ s.kv.lastSeq ∧ last = none ∧ data.rev = 0 ∧ data.delete = false
  | .created currRev => currRev ≤ s.kv.lastSeq
  | .located currRev _ => currRev ≤ s.kv.lastSeq
  | .updating currRev target value revision => Fits minRetain s c.auto c.revision currRev target ∧
      ∃ seq : ℕ, revision = seq ∧ Replaces s.stream (decodeCompactValue value).2 target seq
  | .planned currRev target data last => Fits minRetain s c.auto c.revision currRev target ∧
      Replaces s.stream data.rev target last ∧ data.delete = false
  | .stored currRev target => Fits minRetain s c.auto c.revision currRev target
  | .ended => True

/-- What a later state knows of a call that has not moved. -/
theorem CallOK.mono {s s' : NatsStore} {c : CompactCall} (h : CallOK minRetain s c)
    (hlast : s.kv.lastSeq ≤ s'.kv.lastSeq)
    (hput : ∀ d seq, SubjectPut s.stream compactRevAPI d seq → SubjectPut s'.stream compactRevAPI d seq) :
    CallOK minRetain s' c := by
  have hfits : ∀ currRev target, Fits minRetain s c.auto c.revision currRev target →
      Fits minRetain s' c.auto c.revision currRev target := fun _ _ hf => { hf with current := hf.current.trans hlast }
  have hrep : ∀ rev target seq, Replaces s.stream rev target seq → Replaces s'.stream rev target seq :=
    fun _ _ _ ⟨d, hd, hle⟩ => ⟨d, hput _ _ hd, hle⟩
  unfold CallOK at h ⊢
  split at h
  · trivial
  · exact h.trans hlast
  · exact ⟨h.1.trans hlast, h.2⟩
  · exact h.trans hlast
  · exact h.trans hlast
  · obtain ⟨hf, seq, hseq, hr⟩ := h
    exact ⟨hfits _ _ hf, seq, hseq, hrep _ _ _ hr⟩
  · exact ⟨hfits _ _ h.1, hrep _ _ _ h.2.1, h.2.2⟩
  · exact hfits _ _ h
  · trivial

section Stages

variable {s : NatsStore} {watched : ℕ} {c : CompactCall}

theorem lookup_ok {currRev : ℕ} {miss : CompactStage} (hcur : currRev ≤ s.kv.lastSeq)
    (hmiss : CallOK minRetain s { c with stage := miss }) :
    CallOK minRetain s { c with stage := CompactStage.lookup hist s currRev miss } := by
  unfold CompactStage.lookup
  split
  · exact hcur
  · exact hmiss
  · trivial

/-- The key is created with revision 0, and never over a tombstone: there is none. -/
theorem plansCreate_ok (hf : Flow s watched) {currRev : ℕ} (hcur : currRev ≤ s.kv.lastSeq) :
    CallOK minRetain s { c with stage := CompactStage.plansCreate hist s currRev } := by
  have hzero : ∀ prev, (NatsStore.createData compactRevAPI (encodeCompactValue 1 0) 0 prev).rev = 0 := fun prev =>
    (decode_encodeCompactValue 1 le_rfl).trans (by norm_num)
  unfold CompactStage.plansCreate
  split
  · rename_i data last hplan
    unfold NatsStore.createPlan at hplan
    split at hplan
    · split at hplan
      · obtain ⟨rfl, rfl⟩ := Prod.mk.inj (Except.ok.inj hplan)
        exact ⟨hcur, rfl, hzero 0, rfl⟩
      · cases hplan
    · obtain ⟨rfl, rfl⟩ := Prod.mk.inj (Except.ok.inj hplan)
      exact ⟨hcur, rfl, hzero 0, rfl⟩
    · rename_i rev pnd hget
      obtain ⟨d, seq, ⟨k, ⟨-, hmem⟩, hk⟩, -, -, -, hdel⟩ := NatsStore.get_msg hget
      have hlive : pnd.delete = false := hdel.trans (hf.own k d (List.mem_of_getElem? hmem) hk).2
      rw [hlive] at hplan
      cases hplan
  · trivial

/-- **A call that is about to store its target** replaces a lower value. -/
theorem compares_ok (hf : Flow s watched) {currRev seq : ℕ} (hcur : currRev ≤ s.kv.lastSeq)
    (hmod : CompactStage.compares hist minRetain s c.revision currRev seq = .ended ∨
      (compactTarget minRetain c.revision currRev ≤ currRev ∧
        (c.auto = true → compactTarget minRetain c.revision currRev ≤ currRev - minRetain))) :
    CallOK minRetain s { c with stage := CompactStage.compares hist minRetain s c.revision currRev seq } := by
  rcases hmod with hend | ⟨hle, hret⟩
  · rw [hend]
    trivial
  unfold CompactStage.compares
  split
  · rename_i nd hget
    obtain ⟨d, seq', hput, -, hval, hmodRev, -⟩ := NatsStore.get_msg (Prod.ext rfl hget)
    have hnonneg : 0 ≤ d.rev := by
      obtain ⟨k, ⟨-, hmem⟩, hk⟩ := hput
      exact (hf.own k d (List.mem_of_getElem? hmem) hk).1
    have hrev : (decodeCompactValue nd.kv.value).2 = d.rev := by
      rw [hval]
      rfl
    simp only
    rw [hrev]
    split
    · rename_i hgt
      have htarget := decode_encodeCompactValue (wrap64 ((decodeCompactValue nd.kv.value).1 + 1))
        (compactTarget_nonneg minRetain c.revision currRev)
      refine ⟨⟨hcur, hle, fun _ => ?_, hret⟩, seq', hmodRev, d, hput, ?_, ?_⟩
      · show c.revision ≤ currRev
        by_cases hr : 1 < c.revision
        · rw [compactTarget_explicit hr] at hle
          exact hle
        · omega
      · rw [htarget]
        have := d.rev_lt
        omega
      · rw [htarget]
        exact min_le_left _ _
    · trivial
  · trivial

theorem plansUpdate_ok {currRev : ℕ} {target : ℤ} {value : Bytes} {seq : ℕ}
    (hfits : Fits minRetain s c.auto c.revision currRev target) (hrep : Replaces s.stream (decodeCompactValue value).2 target seq) :
    CallOK minRetain s { c with stage := CompactStage.plansUpdate hist s currRev target value seq } := by
  unfold CompactStage.plansUpdate
  split
  · rename_i data last hplan
    unfold NatsStore.updatePlan at hplan
    split at hplan
    · split at hplan
      · cases hplan
      · obtain ⟨rfl, rfl⟩ := Prod.mk.inj (Option.some.inj hplan)
        exact ⟨hfits, hrep, rfl⟩
    · cases hplan
  · trivial

/-- A put of a call is harmless if it does not lower the stored revision and stays within the
current one. -/
theorem harmless_put {data : NatsData} (hdel : data.delete = false) (hup : storedRev s.stream ≤ data.rev)
    (hcur : data.rev ≤ s.kv.lastSeq) : Harmless s (.put compactRevAPI data) := by
  have hown : encodeKey (NatsMsg.put compactRevAPI data).key = encodeKey compactRevAPI := rfl
  unfold Harmless
  rw [if_pos hown, storedRev_append_put rfl]
  exact ⟨hdel, hup, hcur⟩

/-- The bucket creates the key only if nothing is stored. -/
theorem creating_harmless {data : NatsData} {stream : List NatsMsg} (hrev : data.rev = 0) (hdel : data.delete = false)
    (h : bucketCreate s.stream compactRevAPI data = .ok stream) : Harmless s (.put compactRevAPI data) := by
  have hnone : storedRev s.stream = 0 := by
    unfold bucketCreate at h
    unfold storedRev
    cases hlast : lastMsg s.stream compactRevAPI with
    | none => rfl
    | some p =>
      obtain ⟨m, seq⟩ := p
      cases m with
      | marker k purge => rfl
      | put k d =>
        rw [hlast] at h
        split at h <;> cases h
  refine harmless_put hdel ?_ ?_
  · rw [hnone, hrev]
  · rw [hrev]
    exact Int.natCast_nonneg _

/-- The bucket updates the key only if the stored value is still the one that is replaced. -/
theorem planned_harmless {data : NatsData} {stream : List NatsMsg} {currRev last : ℕ} {target : ℤ}
    (hfits : Fits minRetain s c.auto c.revision currRev target) (hrep : Replaces s.stream data.rev target last)
    (hdel : data.delete = false) (h : bucketUpdate s.stream compactRevAPI data last = .ok stream) :
    Harmless s (.put compactRevAPI data) := by
  obtain ⟨d, hput, hup, hle⟩ := hrep
  have hlast : lastSubjectSeq s.stream compactRevAPI = last := by
    unfold bucketUpdate at h
    split at h
    · cases h
    · split at h
      · assumption
      · cases h
  refine harmless_put hdel ?_ ?_
  · rw [storedRev_of_last hput hlast]
    exact hup
  · have := hfits.target_le
    have := hfits.current
    omega

end Stages

/-! ## Steps -/

structure OK (minRetain : ℤ) (x : NatsCompact) : Prop where
  flow : Flow x.store x.watched
  calls : ∀ c ∈ x.calls, CallOK minRetain x.store c

theorem OK.set (h : OK minRetain x) (i : ℕ) {c : CompactCall} (hc : CallOK minRetain x.store c) :
    OK minRetain { x with calls := x.calls.set i c } := by
  refine ⟨h.flow, fun d hd => ?_⟩
  rcases List.mem_or_eq_of_mem_set hd with hd | rfl
  · exact h.calls d hd
  · exact hc

theorem OK.append (h : OK minRetain x) {m : NatsMsg} (hm : Harmless x.store m) :
    OK minRetain { x with store := { x.store with stream := x.store.stream ++ [m] } } :=
  ⟨h.flow.append hm, fun c hc => (h.calls c hc).mono le_rfl fun _ _ hput => hput.append m⟩

/-- A write of a call that the bucket takes is one harmless message. -/
theorem OK.writes (h : OK minRetain x) (i : ℕ) {c : CompactCall} {result : Except Err (List NatsMsg)}
    {data : NatsData} {next : CompactStage}
    (hok : ∀ stream, result = .ok stream → stream = x.store.stream ++ [.put compactRevAPI data] ∧
      Harmless x.store (.put compactRevAPI data)) (hnext : CallOK minRetain x.store { c with stage := next }) :
    OK minRetain { x with
      store := (CompactStage.writes x.store result next).1
      calls := x.calls.set i { c with stage := (CompactStage.writes x.store result next).2 } } := by
  unfold CompactStage.writes
  split
  · obtain ⟨rfl, hharm⟩ := hok _ rfl
    have hc : CallOK minRetain { x.store with stream := x.store.stream ++ [.put compactRevAPI data] }
        { c with stage := next } := hnext.mono le_rfl fun _ _ hput => hput.append _
    exact (h.append hharm).set i hc
  · exact h.set i trivial

/-- **A step of a call.** -/
theorem OK.run (h : OK minRetain x) (i : ℕ)
    (hmod : ∀ c, x.calls[i]? = some c → x.Modest hist minRetain c) : OK minRetain (x.run hist minRetain i) := by
  unfold NatsCompact.run
  split
  · exact h
  · rename_i c hget
    have hc := h.calls c (List.mem_of_getElem? hget)
    obtain ⟨auto, revision, stage⟩ := c
    cases stage with
    | called => exact h.set i (lookup_ok (c := ⟨auto, revision, .called⟩) le_rfl le_rfl)
    | missing currRev => exact h.set i (plansCreate_ok (c := ⟨auto, revision, .called⟩) h.flow hc)
    | creating currRev data last =>
      obtain ⟨hcur, rfl, hrev, hdel⟩ := hc
      exact h.writes (c := ⟨auto, revision, .called⟩) i
        (fun stream hok => ⟨bucketCreate_ok hok, creating_harmless hrev hdel hok⟩) hcur
    | created currRev => exact h.set i (lookup_ok (c := ⟨auto, revision, .called⟩) hc trivial)
    | located currRev seq =>
      refine h.set i (compares_ok (c := ⟨auto, revision, .called⟩) h.flow hc ?_)
      rcases hmod _ hget currRev seq rfl with hend | hle
      · exact .inl (Prod.mk.inj hend).2
      · exact .inr hle
    | updating currRev target value modRevision =>
      obtain ⟨hfits, seq, rfl, hrep⟩ := hc
      exact h.set i (plansUpdate_ok (c := ⟨auto, revision, .called⟩) hfits hrep)
    | planned currRev target data last =>
      obtain ⟨hfits, hrep, hdel⟩ := hc
      exact h.writes (c := ⟨auto, revision, .called⟩) i
        (fun stream hok => ⟨bucketUpdate_ok hok, planned_harmless hfits hrep hdel hok⟩) hfits
    | stored currRev target => exact h.set i hc
    | ended => exact h.set i trivial

theorem OK.addCall (h : OK minRetain x) (auto : Bool) (revision : ℤ) : OK minRetain (x.addCall auto revision) := by
  refine ⟨h.flow, fun c hc => ?_⟩
  rcases List.mem_append.1 hc with hc | hc
  · exact h.calls c hc
  · rw [List.mem_singleton.1 hc]
    trivial

theorem OK.fail (h : OK minRetain x) (i : ℕ) : OK minRetain (x.fail i) := by
  unfold NatsCompact.fail
  split
  · exact h
  · split
    · exact h
    · exact h.set i trivial

theorem OK.watch (h : OK minRetain x) : OK minRetain x.watch ∧ x.compactRev ≤ x.watch.compactRev := by
  unfold NatsCompact.watch
  split
  · exact ⟨h, le_rfl⟩
  · rename_i m hm
    split
    · exact ⟨⟨h.flow.pass hm, h.calls⟩, le_rfl⟩
    · split
      · exact ⟨⟨h.flow.pass hm, h.calls⟩, le_rfl⟩
      · rename_i rev hrev
        obtain ⟨hup, hflow⟩ := h.flow.take hm hrev
        exact ⟨⟨hflow, fun c hc => (h.calls c hc).mono le_rfl fun _ _ hput => hput⟩, hup⟩

theorem OK.passOver (h : OK minRetain x) : OK minRetain (x.passOver hist) := by
  unfold NatsCompact.passOver
  split
  · exact h
  · rename_i m hm
    split
    · exact h
    · exact ⟨h.flow.pass hm, h.calls⟩

theorem OK.observe (h : OK minRetain x) : OK minRetain { x with store := x.store.observe hist } := by
  refine ⟨h.flow.observe, fun c hc => (h.calls c hc).mono (observe_lastSeq h.flow.last_le).1 fun d seq hput => ?_⟩
  rw [NatsList.observe_stream hist x.store]
  exact hput

theorem step_ok (h : OK minRetain x) (a : Act) (hw : x.Within hist minRetain a) :
    OK minRetain (x.step hist minRetain a) := by
  cases a with
  | compact revision => exact h.addCall false revision
  | tick => exact h.addCall true x.currentRev
  | run i => exact h.run i fun c hc => hw.1 i c rfl hc
  | fail i => exact h.fail i
  | write m =>
    simp only [step]
    split
    · exact h.append (hw.2 m rfl)
    · exact h
  | observe => exact h.observe
  | watch => exact h.watch.1
  | passOver => exact h.passOver

/-! ## Runs -/

theorem next_kv (s : NatsStore) (revision : ℤ) (stage : CompactStage) :
    (stage.next hist minRetain s revision).1.kv = s.kv := by
  have hwrites : ∀ result next, (CompactStage.writes s result next).1.kv = s.kv := by
    intro result next
    unfold CompactStage.writes
    split <;> rfl
  cases stage with
  | creating currRev data last => exact hwrites _ _
  | planned currRev target data last => exact hwrites _ _
  | _ => rfl

/-- Only the watcher moves the compact revision. -/
theorem step_forward (h : OK minRetain x) (a : Act) : x.Forward hist minRetain a := by
  unfold Forward
  cases a with
  | compact revision => exact le_rfl
  | tick => exact le_rfl
  | run i =>
    simp only [step, run]
    split
    · exact le_rfl
    · unfold compactRev
      simp only [next_kv]
      exact le_rfl
  | fail i =>
    simp only [step, fail]
    split
    · exact le_rfl
    · split <;> exact le_rfl
  | write m =>
    simp only [step]
    split <;> exact le_rfl
  | observe => exact (NatsCalls.observe_compactRev x.store).ge
  | watch => exact h.watch.2
  | passOver =>
    simp only [step, passOver]
    split
    · exact le_rfl
    · split <;> exact le_rfl

theorem OK.sound (h : OK minRetain x) : x.Sound minRetain := by
  have hstored : ∀ c ∈ x.calls, ∀ currRev target, c.stage = .stored currRev target →
      Fits minRetain x.store c.auto c.revision currRev target := by
    intro c hc currRev target hst
    have hcall := h.calls c hc
    unfold CallOK at hcall
    rw [hst] at hcall
    exact hcall
  refine ⟨h.flow.bound.trans h.flow.stored_le, ?_, ?_⟩
  · intro c hc currRev target hauto hst
    exact (hstored c hc currRev target hst).explicit hauto
  · intro c hc currRev target hauto hst
    exact (hstored c hc currRev target hst).retains hauto

theorem init_ok (minRetain : ℤ) : OK minRetain init := by
  refine ⟨⟨le_rfl, ?_, le_rfl, le_rfl, .nil, ?_, le_rfl, ?_⟩, fun c hc => absurd hc List.not_mem_nil⟩
  · exact fun k d hd => absurd hd List.not_mem_nil
  · exact fun r hr => absurd hr List.not_mem_nil
  · exact fun r hr => absurd hr List.not_mem_nil

/-- **The compact revision stays within the current revision and never goes back, an explicit call
beyond the current revision stores nothing and an automatic one retains what it has to**, in every
run with modest targets and harmless writes. -/
theorem compaction_sound (hist : ℕ) (minRetain : ℤ) (acts : List Act)
    (hw : Lts.Guarded (step hist minRetain) (Within hist minRetain) init acts) :
    Lts.Always (step hist minRetain) (Sound minRetain) init acts ∧
      Lts.Guarded (step hist minRetain) (Forward hist minRetain) init acts := by
  have hkeep : ∀ x a, Within hist minRetain x a → OK minRetain x → OK minRetain (x.step hist minRetain a) :=
    fun x a ha hx => step_ok hx a ha
  have hok : Lts.Always (step hist minRetain) (OK minRetain) init acts :=
    Lts.invariant_of_guarded hkeep acts _ (init_ok minRetain) hw
  exact ⟨hok.mono fun x hx => hx.sound,
    hw.of_invariant hkeep (fun x a _ hx => step_forward hx a) acts (init_ok minRetain)⟩

theorem within_run {i : ℕ} {c : CompactCall} (hget : x.calls[i]? = some c) (hmod : x.Modest hist minRetain c) :
    x.Within hist minRetain (.run i) := by
  constructor
  · intro j d hj hd
    obtain rfl : i = j := Act.run.inj hj
    rw [hget] at hd
    rw [← Option.some.inj hd]
    exact hmod
  · intro m hm
    cases hm

theorem within_write {m : NatsMsg} (hm : Harmless x.store m) : x.Within hist minRetain (.write m) := by
  constructor
  · intro i c hi
    cases hi
  · intro m' hm'
    rw [← Act.write.inj hm']
    exact hm

theorem within_other {a : Act} (hrun : ∀ i, a ≠ .run i) (hwrite : ∀ m, a ≠ .write m) : x.Within hist minRetain a :=
  ⟨fun i _ hi => absurd hi (hrun i), fun m hm => absurd hm (hwrite m)⟩

theorem harmless_other {s : NatsStore} {m : NatsMsg} (hk : encodeKey m.key ≠ encodeKey compactRevAPI)
    (hm : m.compactRev = none) : Harmless s m := by
  unfold Harmless
  rw [if_neg hk]
  exact hm

/-- A put of a key with a value. -/
def putMsg (key value : Bytes) : NatsMsg := .put key ⟨⟨key, value, 0, 0, 0, 0⟩, 0, true, false⟩

/-- Two pods and the compact key of an apiserver are written, and the current revision is 3. -/
def threeWrites : List Act :=
  [.write (putMsg (ascii "/pods/a") []), .observe, .write (putMsg (ascii "/pods/b") []), .observe,
    .write (putMsg compactRevAPI (ascii "1|1")), .observe]

/-- The steps of a call of `Compact` that finds the key, and the watchers after it. -/
def compactSteps (revision : ℤ) : List Act :=
  [.compact revision, .run 0, .run 0, .run 0, .run 0, .observe, .watch, .watch, .watch, .watch]

theorem threeWrites_within : Lts.Guarded (step 10 1000) (Within 10 1000) init threeWrites := by
  have hpod : ∀ s, Harmless s (putMsg (ascii "/pods/a") []) ∧ Harmless s (putMsg (ascii "/pods/b") []) := by
    intro s
    unfold putMsg
    repeat rw [ascii_ofList]
    exact ⟨harmless_other (by decide +kernel) (by decide +kernel), harmless_other (by decide +kernel) (by decide +kernel)⟩
  have hkey : Harmless (Lts.exec (step 10 1000) init (threeWrites.take 4)).store (putMsg compactRevAPI (ascii "1|1")) :=
    harmless_put rfl (by decide +kernel) (by decide +kernel)
  have hobserve : ∀ x : NatsCompact, x.Within 10 1000 .observe := fun x => within_other nofun nofun
  exact ⟨within_write (hpod _).1, hobserve _, within_write (hpod _).2, hobserve _, within_write hkey, hobserve _, trivial⟩

theorem compaction_sound_three :
    (Lts.exec (step 10 1000) init (threeWrites ++ compactSteps 3)).compactRev = 3 ∧
      Lts.Always (step 10 1000) (Sound 1000) init (threeWrites ++ compactSteps 3) := by
  have hlocated : ∀ x : NatsCompact, x.Modest 10 1000 ⟨false, 3, .located 3 3⟩ := by
    intro x currRev seq hst
    obtain ⟨rfl, rfl⟩ := CompactStage.located.inj hst
    exact .inr ⟨by decide, nofun⟩
  have hother : ∀ a ∈ [Act.compact 3, .observe, .watch], ∀ x : NatsCompact, x.Within 10 1000 a := by
    intro a ha x
    refine within_other ?_ ?_ <;> rintro _ rfl <;> simp at ha
  refine ⟨by decide +kernel, (compaction_sound 10 1000 _ (threeWrites_within.append threeWrites ?_)).1⟩
  exact ⟨hother _ (by simp) _, within_run (c := ⟨false, 3, .called⟩) (by decide +kernel) nofun,
    within_run (c := ⟨false, 3, .located 3 3⟩) (by decide +kernel) (hlocated _),
    within_run (c := ⟨false, 3, .updating 3 3 (encodeCompactValue 2 3) 3⟩) (by decide +kernel) nofun,
    within_run (c := ⟨false, 3, .planned 3 3 ⟨⟨compactRevAPI, encodeCompactValue 2 3, 0, 3, 0, 0⟩, 3, false, false⟩ 3⟩)
      (by decide +kernel) nofun,
    hother _ (by simp) _, hother _ (by simp) _, hother _ (by simp) _, hother _ (by simp) _, hother _ (by simp) _, trivial⟩

/-- `Compact(1000)` at revision 3, and a pod that is written after it. -/
def overshoot : List Act :=
  threeWrites ++ compactSteps 1000 ++ [.write (putMsg (ascii "/pods/c") []), .observe]

/-- **Each part fails without the conditions**: `Compact(1000)` takes the compact revision beyond
the current one, and no later write reaches the btree; a tick compacts everything although 1000
revisions are to be retained; and an older value from an apiserver takes the compact revision back. -/
theorem compaction_unsound :
    ((Lts.exec (step 10 1000) init overshoot).calls = [⟨false, 1000, .stored 3 1000⟩] ∧
      (Lts.exec (step 10 1000) init overshoot).compactRev = 1000 ∧
      (Lts.exec (step 10 1000) init overshoot).store.pos = 5 ∧
      (Lts.exec (step 10 1000) init overshoot).currentRev = 4) ∧
    (Lts.exec (step 10 1000) init (threeWrites ++ [.tick, .run 0, .run 0, .run 0, .run 0])).calls =
      [⟨true, 3, .stored 3 3⟩] ∧
    (Lts.exec (step 10 1000) init (threeWrites ++ compactSteps 3)).compactRev = 3 ∧
    (Lts.exec (step 10 1000) init (threeWrites ++ compactSteps 3 ++
      [.write (putMsg compactRevAPI (ascii "3|2")), .watch])).compactRev = 2 := by
  decide +kernel

end NatsCompact

end Harikube
