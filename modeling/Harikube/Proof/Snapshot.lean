import Harikube.Sorted.Scan
import Harikube.Spec.Mvcc

/-!
# Histories and their trimmed form

* `find_snapshotAt`: the live value of a key at revision `r` is decided by the last
  write to it with revision at most `r`.
* `trim c`: what a compaction to `c` has to keep of one key's writes, its last
  write at or below `c` if that is a put, and everything above `c`.
* `live_trim`: **trimming is invisible at and above `c`.**
* `trim_trim`: trimming again at a later revision is trimming once.
* `range_scan`: an iterator visits exactly the keys of a range.
-/

namespace Harikube.Mvcc

open Sorted

/-- The `i`-th write (from 0) has revision `i + 1`. -/
structure HistOK (h : List Write) : Prop where
  rev : ∀ (i : ℕ) (w : Write), h[i]? = some w → w.kv.modRevision = i + 1

theorem histOK_nil : HistOK [] := ⟨fun i w h => by simp at h⟩

theorem HistOK.append {h : List Write} (hh : HistOK h) {w : Write}
    (hw : w.kv.modRevision = nextRev h) : HistOK (h ++ [w]) := by
  refine ⟨fun i v hv => ?_⟩
  rcases lt_trichotomy i h.length with hi | hi | hi
  · rw [List.getElem?_append_left hi] at hv
    exact hh.rev i v hv
  · subst hi
    simp only [List.getElem?_concat_length, Option.some.injEq] at hv
    subst hv
    exact hw
  · rw [List.getElem?_eq_none (by simp; omega)] at hv
    simp at hv

theorem HistOK.dropLast {h : List Write} {w : Write} (hh : HistOK (h ++ [w])) : HistOK h := by
  refine ⟨fun i v hv => hh.rev i v ?_⟩
  have hi : i < h.length := (List.getElem?_eq_some_iff.1 hv).1
  rw [List.getElem?_append_left hi]
  exact hv

theorem HistOK.last {h : List Write} {w : Write} (hh : HistOK (h ++ [w])) :
    w.kv.modRevision = nextRev h :=
  hh.rev h.length w (by simp)

theorem HistOK.mem_le {h : List Write} (hh : HistOK h) {w : Write} (hw : w ∈ h) :
    0 < w.kv.modRevision ∧ w.kv.modRevision ≤ h.length := by
  obtain ⟨i, hi, hiw⟩ := List.getElem_of_mem hw
  have := hh.rev i w (by rw [List.getElem?_eq_getElem hi, hiw])
  omega

/-- The writes above revision `k` are those after the first `k`. -/
theorem HistOK.drop_eq_filter {h : List Write} (hh : HistOK h) (k : ℕ) :
    h.drop k = h.filter fun w => (k : ℤ) < w.kv.modRevision := by
  induction h using List.reverseRecOn with
  | nil => simp
  | append_singleton h w ih =>
    have hw := hh.last
    unfold nextRev at hw
    rw [List.filter_append, ← ih hh.dropLast, List.drop_append]
    congr 1
    by_cases hr : (k : ℤ) < w.kv.modRevision
    · rw [show k - h.length = 0 by omega]
      simp [hr]
    · rw [List.drop_eq_nil_of_le (by simp; omega)]
      simp [hr]

/-- Revisions increase along a history. -/
theorem HistOK.sorted {h : List Write} (hh : HistOK h) :
    h.Pairwise fun a b => a.kv.modRevision < b.kv.modRevision := by
  rw [List.pairwise_iff_getElem]
  intro i j hi hj hij
  have h1 := hh.rev i _ (List.getElem?_eq_getElem hi)
  have h2 := hh.rev j _ (List.getElem?_eq_getElem hj)
  omega

/-- The writes up to revision `r` are the first `r`. -/
theorem HistOK.take_eq_filter {h : List Write} (hh : HistOK h) (r : ℤ) :
    h.take r.toNat = h.filter fun w => w.kv.modRevision ≤ r := by
  induction h using List.reverseRecOn with
  | nil => simp
  | append_singleton h w ih =>
    have hw := hh.last
    unfold nextRev at hw
    rw [List.filter_append, ← ih hh.dropLast, List.take_append]
    congr 1
    by_cases hr : w.kv.modRevision ≤ r
    · rw [List.take_of_length_le (by simp; omega)]
      simp [hr]
    · rw [show r.toNat - h.length = 0 by omega]
      simp [hr]

/-! ## The value of a key -/

/-- The writes to a key. -/
def ofKey (h : List Write) (k : Bytes) : List Write := h.filter fun w => w.kv.key = k

/-- The live key-value after a sequence of writes to one key. -/
def live (l : List Write) : Option KeyValue :=
  l.getLast?.bind fun w => if w.delete then none else some w.kv

theorem ofKey_sorted {h : List Write} (hh : HistOK h) (k : Bytes) :
    (ofKey h k).Pairwise fun a b => a.kv.modRevision < b.kv.modRevision :=
  hh.sorted.filter _

theorem ofKey_append (h : List Write) (w : Write) (k : Bytes) :
    ofKey (h ++ [w]) k = if w.kv.key = k then ofKey h k ++ [w] else ofKey h k := by
  unfold ofKey
  rw [List.filter_append]
  split
  · rename_i hk
    rw [List.filter_cons_of_pos (by simpa using hk), List.filter_nil]
  · rename_i hk
    rw [List.filter_cons_of_neg (by simpa using hk), List.filter_nil, List.append_nil]

theorem live_append (l : List Write) (w : Write) :
    live (l ++ [w]) = if w.delete then none else some w.kv := by
  simp [live]

theorem snapshot_append (h : List Write) (w : Write) :
    snapshot (h ++ [w]) = w.apply (snapshot h) := by
  simp [snapshot]

/-- **The last write to a key decides its live value.** -/
theorem find_snapshot (h : List Write) (k : Bytes) :
    (snapshot h).find? k = live (ofKey h k) := by
  induction h using List.reverseRecOn with
  | nil => rfl
  | append_singleton h w ih =>
    rw [snapshot_append, ofKey_append]
    unfold Write.apply
    by_cases hk : w.kv.key = k
    · rw [if_pos hk, live_append]
      subst hk
      cases w.delete
      · simp
      · simp [OMap.find_erase]
    · rw [if_neg hk, ← ih]
      have hk' : k ≠ w.kv.key := fun h => hk h.symm
      cases w.delete
      · simp [OMap.find_insert_ne _ _ hk']
      · simp [OMap.find_erase, hk']

/-- **The value of a key at revision `r`** is decided by its last write up to `r`. -/
theorem find_snapshotAt {h : List Write} (hh : HistOK h) (r : ℤ) (k : Bytes) :
    (snapshotAt h r).find? k = live ((ofKey h k).filter fun w => w.kv.modRevision ≤ r) := by
  unfold snapshotAt
  rw [find_snapshot, hh.take_eq_filter]
  unfold ofKey
  rw [List.filter_filter, List.filter_filter]
  congr 1
  apply List.filter_congr
  intro w _
  exact Bool.and_comm _ _

/-- A live key-value carries its own key. -/
theorem key_of_find_snapshot {h : List Write} {k : Bytes} {kv : KeyValue}
    (hf : (snapshot h).find? k = some kv) : kv.key = k := by
  rw [find_snapshot, live, Option.bind_eq_some_iff] at hf
  obtain ⟨w, hw, hkv⟩ := hf
  have hmem : w ∈ ofKey h k := List.mem_of_getLast? hw
  have hk : w.kv.key = k := by simpa [ofKey] using (List.mem_filter.1 hmem).2
  split at hkv
  · simp at hkv
  · rw [← Option.some.inj hkv, hk]

/-! ## Growth -/

/-- A call appends at most one write, with the next revision. -/
theorem step_cases (h : List Write) (op : Op) :
    step h op = h ∨ ∃ w : Write, w.kv.modRevision = nextRev h ∧ step h op = h ++ [w] := by
  cases op with
  | create key value lease =>
    show create h key value lease = h ∨ ∃ w : Write, _ ∧ create h key value lease = h ++ [w]
    unfold create
    split
    · exact Or.inl rfl
    · exact Or.inr ⟨_, rfl, rfl⟩
  | update key value revision lease =>
    show update h key value revision lease = h ∨
      ∃ w : Write, _ ∧ update h key value revision lease = h ++ [w]
    unfold update
    split
    · exact Or.inl rfl
    · split
      · exact Or.inl rfl
      · exact Or.inr ⟨_, rfl, rfl⟩
  | delete key revision =>
    show delete h key revision = h ∨ ∃ w : Write, _ ∧ delete h key revision = h ++ [w]
    unfold delete
    split
    · exact Or.inl rfl
    · split
      · exact Or.inl rfl
      · exact Or.inr ⟨_, rfl, rfl⟩
  | compact r => exact Or.inl rfl

theorem foldl_step_grows (ops : List Op) : ∀ h : List Write, h <+: ops.foldl step h := by
  induction ops with
  | nil => intro h; exact List.prefix_refl h
  | cons op ops ih =>
    intro h
    refine List.IsPrefix.trans ?_ (ih (step h op))
    rcases step_cases h op with hs | ⟨w, -, hs⟩
    · rw [hs]
    · rw [hs]
      exact List.prefix_append h [w]

/-- Later calls only append to the writes. -/
theorem run_grows (pre post : List Op) : run pre <+: run (pre ++ post) := by
  unfold run
  rw [List.foldl_append]
  exact foldl_step_grows post _

/-! ## Trimming -/

/-- The floor of a key's writes at `c`: the last one at or below `c`, if it is a put. -/
def floor (c : ℤ) (l : List Write) : List Write :=
  ((l.filter fun w => w.kv.modRevision ≤ c).getLast?.filter fun w => !w.delete).toList

/-- What is left of a key's writes after a compaction to `c`. -/
def trim (c : ℤ) (l : List Write) : List Write :=
  floor c l ++ l.filter fun w => c < w.kv.modRevision

theorem mem_floor {c : ℤ} {l : List Write} {w : Write} (h : w ∈ floor c l) :
    w ∈ l ∧ w.kv.modRevision ≤ c := by
  unfold floor at h
  rw [Option.mem_toList, Option.filter_eq_some_iff] at h
  have := List.mem_filter.1 (List.mem_of_getLast? h.1)
  simpa using this

/-- Trimming keeps the revision order. -/
theorem trim_sorted {l : List Write} (hs : l.Pairwise fun a b => a.kv.modRevision < b.kv.modRevision)
    (c : ℤ) : (trim c l).Pairwise fun a b => a.kv.modRevision < b.kv.modRevision := by
  unfold trim
  rw [List.pairwise_append]
  refine ⟨?_, hs.filter _, ?_⟩
  · unfold floor
    cases (l.filter fun w => w.kv.modRevision ≤ c).getLast?.filter fun w => !w.delete with
    | none => exact List.Pairwise.nil
    | some w => exact List.pairwise_singleton _ _
  · intro a ha b hb
    have h1 := (mem_floor ha).2
    have h2 : c < b.kv.modRevision := by simpa using (List.mem_filter.1 hb).2
    omega

theorem live_floor (c : ℤ) (l : List Write) :
    live (floor c l) = live (l.filter fun w => w.kv.modRevision ≤ c) := by
  unfold floor
  cases hw : (l.filter fun w => w.kv.modRevision ≤ c).getLast? with
  | none => simp [live, hw]
  | some w =>
    unfold live
    rw [hw]
    by_cases hd : w.delete = true
    · simp [Option.filter, hd]
    · simp [Option.filter, hd]

/-- Only the last write matters. -/
theorem live_append_of_ne_nil (l : List Write) {l' : List Write} (h : l' ≠ []) :
    live (l ++ l') = live l' := by
  unfold live
  rw [List.getLast?_append_of_ne_nil _ h]

theorem live_append_congr {l₁ l₂ : List Write} (l : List Write) (h : live l₁ = live l₂) :
    live (l₁ ++ l) = live (l₂ ++ l) := by
  by_cases hl : l = []
  · subst hl
    simpa using h
  · rw [live_append_of_ne_nil _ hl, live_append_of_ne_nil _ hl]

theorem filter_floor {c r : ℤ} (hcr : c ≤ r) (l : List Write) :
    (floor c l).filter (fun w => w.kv.modRevision ≤ r) = floor c l := by
  rw [List.filter_eq_self]
  intro w hw
  have := (mem_floor hw).2
  simpa using le_trans this hcr

/-- A list of writes up to `r ≥ c` splits at `c`. -/
theorem filter_le_split {l : List Write} (hs : l.Pairwise fun a b => a.kv.modRevision < b.kv.modRevision)
    {c r : ℤ} (hcr : c ≤ r) :
    (l.filter fun w => w.kv.modRevision ≤ r) = (l.filter fun w => w.kv.modRevision ≤ c) ++
      ((l.filter fun w => c < w.kv.modRevision).filter fun w => w.kv.modRevision ≤ r) := by
  have h1 := filter_le_append_filter_lt (fun w : Write => w.kv.modRevision) c (hs.filter _)
    (l := l.filter fun w => w.kv.modRevision ≤ r)
  rw [← h1]
  congr 1
  · rw [List.filter_filter]
    apply List.filter_congr
    intro w _
    rw [Bool.eq_iff_iff]
    simp only [Bool.and_eq_true, decide_eq_true_eq]
    omega
  · rw [List.filter_filter, List.filter_filter]
    apply List.filter_congr
    intro w _
    exact Bool.and_comm _ _

/-- **Trimming at `c` is invisible at every revision from `c` on.** -/
theorem live_trim {l : List Write} (hs : l.Pairwise fun a b => a.kv.modRevision < b.kv.modRevision)
    {c r : ℤ} (hcr : c ≤ r) :
    live ((trim c l).filter fun w => w.kv.modRevision ≤ r) =
      live (l.filter fun w => w.kv.modRevision ≤ r) := by
  unfold trim
  rw [List.filter_append, filter_floor hcr, filter_le_split hs hcr]
  exact live_append_congr _ (live_floor c l)

/-- The current value, too, survives trimming. -/
theorem live_trim_all {l : List Write} (hs : l.Pairwise fun a b => a.kv.modRevision < b.kv.modRevision)
    (c : ℤ) : live (trim c l) = live l := by
  conv_rhs => rw [← filter_le_append_filter_lt (fun w : Write => w.kv.modRevision) c hs]
  exact live_append_congr _ (live_floor c l)

/-- A write above `c` is kept by trimming. -/
theorem trim_append {c : ℤ} (l : List Write) {w : Write} (hw : c < w.kv.modRevision) :
    trim c (l ++ [w]) = trim c l ++ [w] := by
  unfold trim floor
  rw [List.filter_append, List.filter_append, List.filter_cons_of_neg (by simpa using hw),
    List.filter_cons_of_pos (by simpa using hw), List.filter_nil, List.filter_nil, List.append_nil,
    List.append_assoc]

theorem getLast_floor (c : ℤ) (l : List Write) :
    ((floor c l).getLast?.filter fun w => !w.delete) =
      ((l.filter fun w => w.kv.modRevision ≤ c).getLast?.filter fun w => !w.delete) := by
  unfold floor
  cases hw : (l.filter fun w => w.kv.modRevision ≤ c).getLast? with
  | none => rfl
  | some w =>
    by_cases hd : w.delete = true
    · simp [Option.filter, hd]
    · simp [Option.filter, hd]

/-- **Trimming again at a later revision is trimming once.** -/
theorem trim_trim {l : List Write} (hs : l.Pairwise fun a b => a.kv.modRevision < b.kv.modRevision)
    {c c' : ℤ} (hc : c ≤ c') : trim c' (trim c l) = trim c' l := by
  have habove : ((trim c l).filter fun w => c' < w.kv.modRevision) =
      l.filter fun w => c' < w.kv.modRevision := by
    unfold trim
    rw [List.filter_append]
    have h1 : ((floor c l).filter fun w => c' < w.kv.modRevision) = [] := by
      rw [List.filter_eq_nil_iff]
      intro w hw
      have := (mem_floor hw).2
      simp only [decide_eq_true_eq, not_lt]
      omega
    rw [h1, List.nil_append, List.filter_filter]
    apply List.filter_congr
    intro w _
    rw [Bool.eq_iff_iff]
    simp only [Bool.and_eq_true, decide_eq_true_eq]
    omega
  have hfloor : floor c' (trim c l) = floor c' l := by
    unfold floor
    rw [filter_le_split hs hc]
    have h1 : ((trim c l).filter fun w => w.kv.modRevision ≤ c') =
        floor c l ++ ((l.filter fun w => c < w.kv.modRevision).filter fun w => w.kv.modRevision ≤ c') := by
      unfold trim
      rw [List.filter_append, filter_floor hc]
    rw [h1]
    -- the writes between the two revisions decide the floor, if there are any
    by_cases hB : ((l.filter fun w => c < w.kv.modRevision).filter fun w => w.kv.modRevision ≤ c') = []
    · rw [hB, List.append_nil, List.append_nil, getLast_floor]
    · rw [List.getLast?_append_of_ne_nil _ hB, List.getLast?_append_of_ne_nil _ hB]
  unfold trim at habove hfloor ⊢
  rw [habove, hfloor]

/-! ## Ranges -/

/-- **A scan from `Seek(key)` visits exactly the keys of the range.** -/
theorem range_scan {V : Type*} (m : OMap Bytes V) (key rangeEnd : Bytes) :
    ((m.entries.dropWhile fun p => p.1 < key).takeWhile fun p =>
      !decide ((rangeEnd = [] ∧ p.1 ≠ key) ∨ (rangeEnd ≠ [] ∧ rangeEnd ≤ p.1))) =
      m.entries.filter fun p => inList key rangeEnd p.1 := by
  rw [seek_eq_filter Prod.fst key _ _ m.sorted fun x _ => decide_eq_true_iff]
  · apply List.filter_congr
    rintro ⟨k, v⟩ -
    simp only [inList]
    rw [Bool.eq_iff_iff]
    by_cases hr : rangeEnd = []
    · simp only [hr, ne_eq, not_true_eq_false, false_and, or_false, true_and, Bool.and_eq_true,
        Bool.not_eq_true', decide_eq_false_iff_not, not_not, not_lt, if_true, decide_eq_true_eq]
      exact ⟨fun h => h.2, fun h => ⟨h ▸ le_rfl, h⟩⟩
    · simp only [hr, ne_eq, not_false_eq_true, false_and, true_and, false_or, Bool.and_eq_true,
        Bool.not_eq_true', decide_eq_false_iff_not, not_le, not_lt, if_false, decide_eq_true_eq]
  · intro x _ y _ hx hxy hgo
    simp only [Bool.not_eq_true', decide_eq_false_iff_not, not_or, not_and, not_not, not_le] at hgo ⊢
    -- a single key is the first one visited
    refine ⟨fun hr => ?_, fun hr => lt_trans hxy (hgo.2 hr)⟩
    have hy := hgo.1 hr
    rw [hy] at hxy
    exact absurd hxy (not_lt.2 hx)

/-- Later writes do not change the snapshot at an earlier revision. -/
theorem snapshotAt_of_isPrefix {h h' : List Write} (hp : h <+: h') {R : ℤ} (hR : R ≤ h.length) :
    snapshotAt h' R = snapshotAt h R := by
  obtain ⟨t, rfl⟩ := hp
  unfold snapshotAt
  rw [List.take_append_of_le_length (by omega)]

/-- A list reads the entries of its range. -/
theorem list_eq {s : OMap Bytes KeyValue} (hkey : ∀ k kv, s.find? k = some kv → kv.key = k)
    (key rangeEnd : Bytes) (limit : ℤ) :
    list s key rangeEnd limit = atMost limit ((s.entries.filter fun p => inList key rangeEnd p.1).map Prod.snd) := by
  have hvals : (s.values.filter fun kv => inList key rangeEnd kv.key) =
      (s.entries.filter fun p => inList key rangeEnd p.1).map Prod.snd := by
    unfold OMap.values
    rw [List.filter_map]
    congr 1
    apply List.filter_congr
    rintro ⟨k, kv⟩ hmem
    show inList key rangeEnd kv.key = inList key rangeEnd k
    rw [hkey k kv (OMap.mem_entries.1 hmem)]
  unfold list
  rw [hvals]
  rfl

/-- The keys of a range come in order. -/
theorem list_sorted {s : OMap Bytes KeyValue} (hkey : ∀ k kv, s.find? k = some kv → kv.key = k)
    (key rangeEnd : Bytes) : (list s key rangeEnd 0).Pairwise fun a b => a.key < b.key := by
  rw [list_eq hkey]
  show ((s.entries.filter _).map Prod.snd).Pairwise _
  rw [List.pairwise_map]
  refine ((s.sorted.filter _).imp_of_mem ?_)
  rintro ⟨k, kv⟩ ⟨k', kv'⟩ hm hm' hlt
  have hk := hkey k kv (OMap.mem_entries.1 (List.mem_of_mem_filter hm))
  have hk' := hkey k' kv' (OMap.mem_entries.1 (List.mem_of_mem_filter hm'))
  show kv.key < kv'.key
  rw [hk, hk']
  exact hlt

/-- Only the keys of its range matter to a list. -/
theorem list_congr {s s' : OMap Bytes KeyValue} (hkey : ∀ k kv, s.find? k = some kv → kv.key = k)
    (hkey' : ∀ k kv, s'.find? k = some kv → kv.key = k) {key rangeEnd : Bytes}
    (h : ∀ k, inList key rangeEnd k = true → s.find? k = s'.find? k) (limit : ℤ) :
    list s key rangeEnd limit = list s' key rangeEnd limit := by
  have hent : (s.entries.filter fun p => inList key rangeEnd p.1) =
      s'.entries.filter fun p => inList key rangeEnd p.1 := by
    refine ext_of_sorted Prod.fst (s.sorted.filter _) (s'.sorted.filter _) ?_
    rintro ⟨k, kv⟩
    simp only [List.mem_filter, OMap.mem_entries]
    exact and_congr_left fun hin => by rw [h k hin]
  rw [list_eq hkey, list_eq hkey', hent]

/-- A list of a map that is computed entry by entry. -/
theorem list_filterMap {V : Type*} (m : OMap Bytes V) (g : Bytes → V → Option KeyValue)
    (hkey : ∀ k kv, (m.filterMap g).find? k = some kv → kv.key = k) (key rangeEnd : Bytes) (limit : ℤ) :
    list (m.filterMap g) key rangeEnd limit =
      atMost limit ((m.entries.filter fun p => inList key rangeEnd p.1).filterMap fun p => g p.1 p.2) := by
  rw [list_eq hkey]
  unfold OMap.filterMap
  simp only
  rw [List.filter_filterMap, List.map_filterMap, List.filterMap_filter]
  congr 1
  apply List.filterMap_congr
  rintro ⟨k, v⟩ -
  cases g k v with
  | none => simp
  | some kv => by_cases hin : inList key rangeEnd k = true <;> simp [Option.filter, hin]

end Harikube.Mvcc
