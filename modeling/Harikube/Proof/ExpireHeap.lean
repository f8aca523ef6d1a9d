import Harikube.Spec.ExpireHeap

/-!
# The heap of the expire watcher

* `next_eq_none_iff`: `Next` finds no entry only if none is due.
* `processExpired_due`: a pass calls the callback with the entries that are due, in the order of
  their expiry, and keeps the others.
* `next_refines`: `Next` is `expireNext`, which takes any entry that expires first from a list.
-/

namespace Harikube

open Heap

namespace ExpireHeap

variable {h h' : ExpireHeap} {e : ExpireEntry} {now : ℤ}

theorem add_perm (h : ExpireHeap) (e : ExpireEntry) : (h.add e).entries.Perm (e :: h.entries) := push_perm _ _ _

theorem remove_ne_none (he : e ∈ h.entries) : h.remove ≠ none := by
  unfold remove
  split
  · rename_i hp
    rw [(pop_eq_none_iff _).1 hp] at he
    cases he
  · exact Option.some_ne_none _

theorem peek_le (hp : h.peek = some e) : ∀ e' ∈ h.entries, e.expires ≤ e'.expires := h.ordered.head_le hp

theorem peek_eq_none_iff : h.peek = none ↔ h.entries = [] := by
  unfold peek
  rw [List.getElem?_eq_none_iff, Nat.le_zero, List.length_eq_zero_iff]

theorem next_eq_none_iff : h.next now = none ↔ ∀ e ∈ h.entries, now < e.expires := by
  unfold next
  split
  · rename_i hnone
    rw [peek_eq_none_iff.1 hnone]
    simp
  · rename_i top htop
    have hmem : top ∈ h.entries := List.mem_of_getElem? htop
    split
    · rename_i hlate
      exact ⟨fun _ e he => hlate.trans_le (peek_le htop e he), fun _ => rfl⟩
    · rename_i hdue
      exact iff_of_false (remove_ne_none hmem) fun hall => hdue (hall top hmem)

theorem removeByKey_perm (h : ExpireHeap) (key : Bytes) :
    ((h.removeByKey key).1 ++ (h.removeByKey key).2.entries).Perm h.entries := by
  have hsplit : (h.entries.filter (·.key = key) ++ h.entries.filter (·.key ≠ key)).Perm h.entries := by
    simpa using List.filter_append_perm (fun e : ExpireEntry => decide (e.key = key)) h.entries
  unfold removeByKey
  dsimp only
  split
  · rename_i hnil
    rw [hnil]
    exact .refl _
  · exact ((init_perm _ _).append_left _).trans hsplit

/-! ## A pass -/

/-- The next entry is due and taken, or none is due. -/
theorem processExpired_cases (h : ExpireHeap) (now : ℤ) :
    (h.processExpired now = ([], h) ∧ ∀ e ∈ h.entries, now < e.expires) ∨
    ∃ e h', h.next now = some (e, h') ∧
      h.processExpired now = (e :: (h'.processExpired now).1, (h'.processExpired now).2) := by
  rw [processExpired]
  split
  · rename_i hnone
    exact .inl ⟨rfl, next_eq_none_iff.1 hnone⟩
  · rename_i e h' hn
    have hdue : ¬ now < e.expires := not_lt.2 (next_cases hn).2.1
    exact .inr ⟨e, h', hn, if_neg hdue⟩

/-- **A pass of `processExpired`** calls the callback once with each entry that is due, in the order
of their expiry, and the heap keeps the entries that are not due. -/
theorem processExpired_due (h : ExpireHeap) (now : ℤ) :
    (h.processExpired now).1.Perm (h.entries.filter (·.expires ≤ now)) ∧
    (h.processExpired now).1.Pairwise (·.expires ≤ ·.expires) ∧
    (h.processExpired now).2.entries.Perm (h.entries.filter (now < ·.expires)) := by
  -- induction on the number of entries, which each call of `Next` makes smaller
  induction hlen : h.entries.length using Nat.strongRecOn generalizing h with
  | ind n ih =>
    rcases processExpired_cases h now with ⟨heq, hnone⟩ | ⟨e, h', hn, heq⟩
    · have hdue : h.entries.filter (·.expires ≤ now) = [] := by
        rw [List.filter_eq_nil_iff]
        intro e he
        simpa using hnone e he
      have hrest : h.entries.filter (now < ·.expires) = h.entries := by
        rw [List.filter_eq_self]
        intro e he
        simpa using hnone e he
      rw [heq, hdue, hrest]
      exact ⟨.refl _, .nil, .refl _⟩
    · obtain ⟨hpeek, hle, hperm⟩ := next_cases hn
      obtain ⟨ihDue, ihSorted, ihRest⟩ := ih _ (hlen ▸ next_length hn) h' rfl
      rw [heq]
      refine ⟨?_, List.pairwise_cons.2 ⟨?_, ihSorted⟩, ?_⟩
      · refine (ihDue.cons e).trans ?_
        have hfilter := hperm.filter (fun e : ExpireEntry => decide (e.expires ≤ now))
        rwa [List.filter_cons_of_pos (by simpa using hle)] at hfilter
      · intro e' he'
        have hmem : e' ∈ h'.entries := (List.mem_filter.1 (ihDue.mem_iff.1 he')).1
        exact peek_le hpeek e' (hperm.mem_iff.1 (List.mem_cons_of_mem e hmem))
      · refine ihRest.trans ?_
        have hfilter := hperm.filter (fun e : ExpireEntry => decide (now < e.expires))
        rwa [List.filter_cons_of_neg (by simpa using hle)] at hfilter

/-- **`Next` refines the choice of an entry that expires first**: on any list of the same entries it
takes the entry at some index, and the rest is again a list of the same entries; it finds none only
if there is none to take. -/
theorem next_refines (h : ExpireHeap) (l : List ExpireEntry) (hl : h.entries.Perm l) (now : ℤ) :
    (∀ e h', h.next now = some (e, h') → ∃ i rest, expireNext l i now = some (e, rest) ∧ h'.entries.Perm rest) ∧
    (h.next now = none → ∀ i, expireNext l i now = none) := by
  constructor
  · intro e h' hn
    obtain ⟨hpeek, hle, hperm⟩ := next_cases hn
    obtain ⟨i, hi, hget⟩ := List.mem_iff_getElem.1 (hl.mem_iff.1 (List.mem_of_getElem? hpeek))
    have hfirst : ∀ e' ∈ l, e.expires ≤ e'.expires := fun e' he' => peek_le hpeek e' (hl.mem_iff.2 he')
    refine ⟨i, l.eraseIdx i, ?_, ?_⟩
    · simp only [expireNext, List.getElem?_eq_getElem hi, hget]
      rw [if_pos ⟨hle, hfirst⟩]
    · have herase : (l[i] :: l.eraseIdx i).Perm l := List.getElem_cons_eraseIdx_perm hi
      rw [hget] at herase
      exact (List.perm_cons e).1 ((hperm.trans hl).trans herase.symm)
  · intro hn i
    unfold expireNext
    split
    · rfl
    · rename_i e he
      rw [if_neg]
      rintro ⟨hle, -⟩
      have := next_eq_none_iff.1 hn e (hl.mem_iff.2 (List.mem_of_getElem? he))
      omega

/-- Three entries, the last one added the first to expire. -/
def three : ExpireHeap :=
  ((newExpireHeap.add ⟨ascii "/c", 3, 9⟩).add ⟨ascii "/b", 2, 7⟩).add ⟨ascii "/a", 1, 5⟩

theorem next_refines_three :
    three.peek = some ⟨ascii "/a", 1, 5⟩ ∧
    (∀ e h', three.next 6 = some (e, h') → ∃ i rest,
      expireNext [⟨ascii "/a", 1, 5⟩, ⟨ascii "/b", 2, 7⟩, ⟨ascii "/c", 3, 9⟩] i 6 = some (e, rest) ∧ h'.entries.Perm rest) ∧
    (three.next 6 = none → ∀ i,
      expireNext [⟨ascii "/a", 1, 5⟩, ⟨ascii "/b", 2, 7⟩, ⟨ascii "/c", 3, 9⟩] i 6 = none) :=
  ⟨by decide +kernel, next_refines three _ (by decide +kernel) 6⟩

end ExpireHeap

end Harikube
