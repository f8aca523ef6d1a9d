import Harikube.Sorted.Prefix
import Harikube.Spec.T4

/-!
# Ranges of the t4 backend

`translateRange` cuts the key to the length of the range end. For the range end of a prefix that is
the part of the prefix up to the byte that has been incremented, and the keys with it that are not
before the key are the range (`translateRange_selects`), also for a prefix that ends in `0xff`.

A watch on one key has no range end, and its key is a prefix for the node.

* `t4_ranges`: **`List` and `Count` select the range, and a watch on one key delivers only its
  events if and only if there are none of a key that begins with it.**
-/

namespace Harikube

open Sorted

variable {q key rangeEnd : Bytes}

/-! ## The range end of a prefix -/

/-- **The byte that is incremented**: what is before it and the byte are the beginning of the
prefix, and only `0xff` follows. -/
theorem prefixRangeEnd_eq (h : prefixRangeEnd q = some rangeEnd) :
    ∃ before c rest, q = before ++ c :: rest ∧ c ≠ 255 ∧ rangeEnd = before ++ [c + 1] := by
  unfold prefixRangeEnd at h
  split at h
  · cases h
  · rename_i c before hdrop
    have hsplit := List.takeWhile_append_dropWhile (p := fun c : Fin 256 => decide (c = 255)) (l := q.reverse)
    rw [hdrop] at hsplit
    have hc : decide (c = 255) = false := by
      have hhead := List.head?_dropWhile_not (fun c : Fin 256 => decide (c = 255)) q.reverse
      rw [hdrop] at hhead
      simpa using hhead
    have hq : q = (q.reverse.takeWhile (fun c => decide (c = 255)) ++ c :: before).reverse := by
      rw [hsplit, List.reverse_reverse]
    exact ⟨before.reverse, c, _, hq.trans (by rw [List.reverse_append, List.reverse_cons, List.append_assoc]; rfl),
      of_decide_eq_false hc, (Option.some.inj h).symm⟩

theorem covBy_succ {c : Fin 256} (hc : c ≠ 255) : c ⋖ c + 1 := by
  refine ⟨?_, fun d hcd hd => ?_⟩
  · rw [Fin.lt_def, Fin.val_add_one_of_lt (Fin.lt_last_iff_ne_last.2 hc)]
    omega
  · rw [Fin.lt_def, Fin.val_add_one_of_lt (Fin.lt_last_iff_ne_last.2 hc)] at hd
    rw [Fin.lt_def] at hcd
    omega

/-- **What the node selects is the range.** -/
theorem translateRange_selects (hend : prefixRangeEnd q = some rangeEnd) (hkey : q <+: key) (k : Bytes) :
    ((translateRange key rangeEnd).1 <+: k ∧ (translateRange key rangeEnd).2 ≤ k) ↔ key ≤ k ∧ k < rangeEnd := by
  obtain ⟨before, c, rest, rfl, hc, rfl⟩ := prefixRangeEnd_eq hend
  obtain ⟨more, rfl⟩ := hkey
  have hrange := isPrefix_iff_range (covBy_succ hc) before k
  have hbegin : before ++ c :: rest ++ more = (before ++ [c]) ++ (rest ++ more) := by simp
  have hlen : (before ++ [c + 1]).length = (before ++ [c]).length := by simp
  rw [hbegin]
  generalize rest ++ more = t
  unfold translateRange
  rw [hlen]
  by_cases ht : t = []
  · -- the key is the prefix itself
    subst ht
    rw [List.append_nil, if_neg (fun h => lt_irrefl _ h.2), hrange]
    exact and_iff_left (not_lt.1 (List.not_lt_nil k))
  · have hlonger : (before ++ [c]).length < (before ++ [c] ++ t).length := by
      have hpos := List.length_pos_iff.2 ht
      have hsum : (before ++ [c] ++ t).length = (before ++ [c]).length + t.length := List.length_append
      omega
    rw [if_pos ⟨by simp, hlonger⟩, List.take_left' rfl, hrange]
    constructor
    · rintro ⟨⟨-, hlt⟩, hge⟩
      exact ⟨hge, hlt⟩
    · rintro ⟨hge, hlt⟩
      exact ⟨⟨(le_of_isPrefix (List.prefix_append _ _)).trans hge, hlt⟩, hge⟩

/-! ## The calls -/

namespace T4Node

variable {n : T4Node} {revision : ℤ}

/-- The selection of a node, with the start key passed on or left out. -/
theorem selects_eq (n : T4Node) (revision : ℤ) (hend : prefixRangeEnd q = some rangeEnd) (hkey : q <+: key)
    (opt : Option Bytes) (hopt : opt = some (translateRange key rangeEnd).2 ∨
      opt = none ∧ (translateRange key rangeEnd).2 = []) :
    n.selects (translateRange key rangeEnd).1 (max revision 0) opt = n.inRange revision key rangeEnd := by
  unfold selects inRange
  apply List.filter_congr
  intro kv _
  have hrange := translateRange_selects hend hkey kv.key
  have hfrom : (opt.all fun k => decide (k ≤ kv.key)) = decide ((translateRange key rangeEnd).2 ≤ kv.key) := by
    rcases hopt with rfl | ⟨rfl, hnil⟩
    · rfl
    · rw [hnil]
      exact (decide_eq_true (not_lt.1 (List.not_lt_nil kv.key))).symm
  rw [hfrom, Bool.eq_iff_iff]
  simp only [Bool.and_eq_true, decide_eq_true_eq, List.isPrefixOf_iff_prefix]
  exact hrange

theorem list_selects (hread : n.Readable revision) (hend : prefixRangeEnd q = some rangeEnd) (hkey : q <+: key)
    (limit : ℤ) (keysOnly : Bool) :
    n.list key rangeEnd limit revision keysOnly = (n.currentRevision,
      (Mvcc.firstN limit (n.inRange revision key rangeEnd)).map fun kv => kv.toServerKV keysOnly, none) := by
  obtain ⟨hfuture, hcompact, hok⟩ := hread
  have hsel := selects_eq n revision hend hkey
    (if (translateRange key rangeEnd).2 ≠ [] then some (translateRange key rangeEnd).2 else none)
    (by split
        · exact .inl rfl
        · rename_i hnil
          exact .inr ⟨rfl, not_not.1 hnil⟩)
  have hlimit : ∀ l : List T4KeyValue, Mvcc.firstN ((if limit > 0 then some limit else none).getD 0) l =
      Mvcc.firstN limit l := by
    intro l
    by_cases hpos : limit > 0
    · rw [if_pos hpos]
      rfl
    · rw [if_neg hpos]
      unfold Mvcc.firstN
      rw [if_neg hpos]
      rfl
  unfold list
  rw [if_neg hfuture, if_neg hcompact]
  simp only [linearizableList, hok, hsel, hlimit]

theorem count_selects (hread : n.Readable revision) (hend : prefixRangeEnd q = some rangeEnd) (hkey : q <+: key) :
    n.count key rangeEnd revision =
      (n.currentRevision, ((n.inRange revision key rangeEnd).length : ℤ), none) := by
  obtain ⟨hfuture, hcompact, hok⟩ := hread
  have hsel := selects_eq n revision hend hkey (if key ≠ [] then some (translateRange key rangeEnd).2 else none)
    (by split
        · exact .inl rfl
        · rename_i hnil
          rw [not_not.1 hnil]
          exact .inr ⟨rfl, by simp [translateRange]⟩)
  unfold count
  rw [if_neg hfuture, if_neg hcompact]
  simp only [linearizableCount, hok, hsel]

end T4Node

/-- The batches hold the events, in order. -/
theorem flatten_batches (ready : List ℕ) : ∀ evs : List Event, (batches ready evs).flatten = evs := by
  induction ready with
  | nil =>
    intro evs
    cases evs with
    | nil => rfl
    | cons ev evs =>
      rw [batches, ← List.flatMap_def]
      exact List.flatMap_singleton' _
  | cons r ready ih =>
    intro evs
    cases evs with
    | nil => rfl
    | cons ev evs =>
      rw [batches, List.flatten_cons, ih, List.cons_append, List.take_append_drop]

namespace T4Node

/-- **What a watch on one key delivers.** -/
theorem watch_key_iff (n : T4Node) (key : Bytes) (start : ℤ) (events : List T4Event) (ready : List ℕ) :
    (∀ batch ∈ (n.watch key [] start events ready).1, ∀ ev ∈ batch, ev.kv.key = key) ↔
      (start > 0 ∧ start ≤ n.compactRevision) ∨ ∀ ev ∈ events, key <+: ev.kv.key → ev.kv.key = key := by
  unfold watch
  by_cases hcompact : start > 0 ∧ start ≤ n.compactRevision
  · rw [if_pos hcompact]
    simp [hcompact]
  · rw [if_neg hcompact, or_iff_right hcompact]
    have hpref : translateRange key [] = (key, []) := by simp [translateRange]
    rw [hpref]
    simp only
    have hflat := flatten_batches ready ((watchPrefix key events).map T4Event.toServerEvent)
    constructor
    · intro h ev hev hk
      have hmem : ev.toServerEvent ∈ (batches ready ((watchPrefix key events).map T4Event.toServerEvent)).flatten := by
        rw [hflat]
        exact List.mem_map_of_mem (List.mem_filter.2 ⟨hev, List.isPrefixOf_iff_prefix.2 hk⟩)
      obtain ⟨batch, hb, hin⟩ := List.mem_flatten.1 hmem
      exact h batch hb _ hin
    · intro h batch hb e he
      have hmem : e ∈ (watchPrefix key events).map T4Event.toServerEvent := by
        rw [← hflat]
        exact List.mem_flatten.2 ⟨batch, hb, he⟩
      obtain ⟨ev, hev, rfl⟩ := List.mem_map.1 hmem
      obtain ⟨hev, hk⟩ := List.mem_filter.1 hev
      exact h ev hev (List.isPrefixOf_iff_prefix.1 hk)

/-- **Ranges of the t4 backend.** For the range end of a prefix and any key with that prefix, `List`
returns and `Count` counts the keys of the half-open range. A watch on a single key delivers its
events only, if and only if its start revision is compacted or no event from there on is of a longer
key that begins with it. -/
theorem t4_ranges (n : T4Node) (revision : ℤ) (hread : n.Readable revision) :
    (∀ q rangeEnd key : Bytes, prefixRangeEnd q = some rangeEnd → q <+: key →
      (∀ (limit : ℤ) (keysOnly : Bool), n.list key rangeEnd limit revision keysOnly = (n.currentRevision,
        (Mvcc.firstN limit (n.inRange revision key rangeEnd)).map fun kv => kv.toServerKV keysOnly, none)) ∧
      n.count key rangeEnd revision = (n.currentRevision, ((n.inRange revision key rangeEnd).length : ℤ), none)) ∧
    ∀ (key : Bytes) (start : ℤ) (events : List T4Event) (ready : List ℕ),
      (∀ batch ∈ (n.watch key [] start events ready).1, ∀ ev ∈ batch, ev.kv.key = key) ↔
        (start > 0 ∧ start ≤ n.compactRevision) ∨ ∀ ev ∈ events, key <+: ev.kv.key → ev.kv.key = key :=
  ⟨fun _ _ _ hend hkey => ⟨list_selects hread hend hkey, count_selects hread hend hkey⟩, watch_key_iff n⟩

/-- A node with two keys, of which one ends in `0xff`. -/
def twoKeys : T4Node where
  currentRevision := 2
  compactRevision := 0
  content := fun _ => [⟨[47, 97], [], 1, 1, 0⟩, ⟨[47, 97, 255], [], 2, 2, 0⟩]
  failure := none

/-- The prefix `/a\xff` has the range end `/b`. -/
theorem t4_ranges_last_byte :
    prefixRangeEnd [47, 97, 255] = some [47, 98] ∧
      twoKeys.count [47, 97, 255] [47, 98] 0 = (2, 1, none) := by
  refine ⟨by decide, ?_⟩
  rw [((t4_ranges twoKeys 0 ⟨by decide, by decide, rfl⟩).1 [47, 97, 255] [47, 98] [47, 97, 255] (by decide)
    List.prefix_rfl).2]
  decide

/-- **A watch on `/a` delivers an event of `/ab`.** -/
theorem t4_watch_longer :
    (twoKeys.watch (ascii "/a") [] 0 [⟨false, ⟨ascii "/ab", [], 3, 3, 0⟩, none⟩] []).1.map
      (fun batch => batch.map fun ev => ev.kv.key) = [[ascii "/ab"]] := by
  decide

end T4Node

end Harikube
