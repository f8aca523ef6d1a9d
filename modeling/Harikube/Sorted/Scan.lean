import Harikube.Sorted.Map

/-!
# Range scans

A scan moves an iterator over a sorted list from the first element at or after a bound,
collects what it is after from each element, and stops at the end of the range or at a limit.

* `scan_eq`: the loop is a `takeWhile` and a `filterMap`, cut at the limit.
* `seek_eq_filter`: seeking and stopping at the end of the range is a filter.
-/

namespace Harikube.Sorted

variable {α β K : Type*} [LinearOrder K]

/-- The first `limit` elements, all of them if the limit is not positive. -/
def atMost (limit : ℤ) (l : List α) : List α := if 0 < limit then l.take limit.toNat else l

/-- The loop of a range scan, with what it has collected so far. -/
def scan (stop : α → Bool) (f : α → Option β) (limit : ℤ) : List α → List β → List β
  | [], acc => acc
  | a :: rest, acc =>
    if stop a then acc
    else
      let acc := acc ++ (f a).toList
      if limit > 0 ∧ (acc.length : ℤ) ≥ limit then acc else scan stop f limit rest acc

theorem atMost_of_short {limit : ℤ} {l : List α} (h : 0 < limit → (l.length : ℤ) < limit) :
    atMost limit l = l := by
  unfold atMost
  split
  · rename_i h0
    exact List.take_of_length_le (by have := h h0; omega)
  · rfl

/-- **The loop of a scan**: what is collected up to the first element that stops it, cut at the
limit. -/
theorem scan_eq (stop : α → Bool) (f : α → Option β) (limit : ℤ) (l : List α) :
    ∀ acc : List β, (0 < limit → (acc.length : ℤ) < limit) →
      scan stop f limit l acc = atMost limit (acc ++ (l.takeWhile fun a => !stop a).filterMap f) := by
  induction l with
  | nil =>
    intro acc hacc
    simp only [scan, List.takeWhile_nil, List.filterMap_nil, List.append_nil]
    exact (atMost_of_short hacc).symm
  | cons a rest ih =>
    intro acc hacc
    unfold scan
    by_cases hstop : stop a = true
    · rw [if_pos hstop, List.takeWhile_cons_of_neg (by simp [hstop]), List.filterMap_nil, List.append_nil]
      exact (atMost_of_short hacc).symm
    · rw [if_neg hstop, List.takeWhile_cons_of_pos (by simp [hstop])]
      have hrest : ((a :: rest.takeWhile fun a => !stop a).filterMap f) =
          (f a).toList ++ (rest.takeWhile fun a => !stop a).filterMap f := by
        rw [List.filterMap_cons]
        cases f a <;> rfl
      have hlen : (f a).toList.length ≤ 1 := by cases f a <;> simp
      rw [hrest, ← List.append_assoc]
      simp only
      split
      · rename_i hlim
        -- the limit is reached with this element, and not before
        have h0 := hacc hlim.1
        have hall : (acc ++ (f a).toList).length = limit.toNat := by
          have := hlim.2
          rw [List.length_append] at this ⊢
          omega
        unfold atMost
        rw [if_pos hlim.1, ← hall, List.take_left]
      · rename_i hlim
        exact ih _ fun h0 => by omega

/-- **Seeking a bound and stopping at the end of the range is a filter**, if what goes on is
downward closed above the bound. -/
theorem seek_eq_filter (f : α → K) (lo : K) (below go : α → Bool) {l : List α}
    (hs : l.Pairwise fun x y => f x < f y) (hlo : ∀ x ∈ l, below x = true ↔ f x < lo)
    (hgo : ∀ x ∈ l, ∀ y ∈ l, lo ≤ f x → f x < f y → go y = true → go x = true) :
    (l.dropWhile below).takeWhile go = l.filter fun x => !below x && go x := by
  rw [dropWhile_eq_filter f _ hs]
  · rw [takeWhile_eq_filter f _ (hs.filter _), List.filter_filter]
    · apply List.filter_congr
      intro x _
      rw [Bool.and_comm]
    · intro x hx y hy hxy hy'
      obtain ⟨hx, hbelow⟩ := List.mem_filter.1 hx
      refine hgo x hx y (List.mem_filter.1 hy).1 (not_lt.1 fun hlt => ?_) hxy hy'
      rw [(hlo x hx).2 hlt] at hbelow
      cases hbelow
  · intro x hx y hy hxy hbelow
    exact (hlo x hx).2 (lt_trans hxy ((hlo y hy).1 hbelow))

end Harikube.Sorted
