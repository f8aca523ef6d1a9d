import Mathlib

/-!
# Numbers with leading zeros

A list of digits, the highest first, is its leading zeros and the digits of its value. So a list can
be written in another base and read back, if the leading zeros are kept.

* `value`: the value of a list of digits, and `value_eq_ofDigits`.
* `zeros_append_digits`: **a list of digits is its leading zeros and the digits of its value.**
* `value_withZeros`, `zeros_withZeros`: what is read back from a number with leading zeros.
-/

namespace Harikube.Radix

variable {base : ℕ}

/-- The value of a list of digits, the highest first. -/
def value (base : ℕ) (ds : List ℕ) : ℕ := ds.foldl (fun n d => n * base + d) 0

/-- The leading zeros. -/
def zeros (ds : List ℕ) : List ℕ := ds.takeWhile fun d => d = 0

/-- A number, its highest digit first, after `z` zeros. -/
def withZeros (base z n : ℕ) : List ℕ := List.replicate z 0 ++ (base.digits n).reverse

theorem value_eq_ofDigits (ds : List ℕ) : value base ds = Nat.ofDigits base ds.reverse := by
  unfold value
  induction ds using List.reverseRecOn with
  | nil => rfl
  | append_singleton ds d ih =>
    rw [List.foldl_append, ih, List.reverse_append]
    simp only [List.foldl_cons, List.foldl_nil, List.reverse_singleton, List.singleton_append, Nat.ofDigits_cons]
    ring

theorem value_lt (hbase : 1 < base) {ds : List ℕ} (hds : ∀ d ∈ ds, d < base) : value base ds < base ^ ds.length := by
  rw [value_eq_ofDigits, ← List.length_reverse]
  exact Nat.ofDigits_lt_base_pow_length hbase fun d hd => hds d (List.mem_reverse.1 hd)

theorem value_zeros_append (z : ℕ) (ds : List ℕ) : value base (List.replicate z 0 ++ ds) = value base ds := by
  unfold value
  rw [List.foldl_append]
  congr 1
  induction z with
  | zero => rfl
  | succ z ih => simpa [List.replicate_succ] using ih

theorem zeros_eq_replicate (ds : List ℕ) : zeros ds = List.replicate (zeros ds).length 0 := by
  refine List.eq_replicate_of_mem fun d hd => ?_
  have hzero := List.mem_takeWhile_imp (p := fun d : ℕ => decide (d = 0)) hd
  exact of_decide_eq_true hzero

/-- **A list of digits is its leading zeros and the digits of its value.** -/
theorem zeros_append_digits (hbase : 1 < base) {ds : List ℕ} (hds : ∀ d ∈ ds, d < base) :
    withZeros base (zeros ds).length (value base ds) = ds := by
  set rest := ds.dropWhile fun d => d = 0 with hrest
  have hsplit : List.replicate (zeros ds).length 0 ++ rest = ds := by
    rw [← zeros_eq_replicate]
    exact List.takeWhile_append_dropWhile
  have hvalue : value base ds = Nat.ofDigits base rest.reverse := by
    rw [← hsplit, value_zeros_append, value_eq_ofDigits]
  have hdigits : base.digits (value base ds) = rest.reverse := by
    rw [hvalue]
    refine Nat.digits_ofDigits base hbase _ (fun d hd => ?_) fun hne => ?_
    · exact hds d ((List.dropWhile_sublist _).subset (List.mem_reverse.1 hd))
    · -- the highest digit of what is left is not zero
      rw [List.getLast_reverse]
      have hhead := List.head_dropWhile_not (fun d : ℕ => decide (d = 0)) (l := ds) (List.reverse_ne_nil_iff.1 hne)
      exact of_decide_eq_false hhead
  unfold withZeros
  rw [hdigits, List.reverse_reverse]
  exact hsplit

theorem value_withZeros (base z n : ℕ) : value base (withZeros base z n) = n := by
  unfold withZeros
  rw [value_zeros_append, value_eq_ofDigits, List.reverse_reverse, Nat.ofDigits_digits]

/-- The highest digit is not zero, so no zero of the number itself is a leading one. -/
theorem zeros_withZeros (base z n : ℕ) : (zeros (withZeros base z n)).length = z := by
  have hdigits : zeros (base.digits n).reverse = [] := by
    by_cases hn : n = 0
    · subst hn
      simp [zeros]
    · have hne : (base.digits n).reverse ≠ [] := by simpa [Nat.digits_ne_nil_iff_ne_zero] using hn
      obtain ⟨d, ds, hd⟩ := List.exists_cons_of_ne_nil hne
      have hlast := Nat.getLast_digit_ne_zero base hn
      rw [← List.head_reverse hne] at hlast
      simp only [hd, List.head_cons] at hlast
      rw [hd, zeros, List.takeWhile_cons_of_neg (by simpa using hlast)]
  unfold withZeros zeros at *
  rw [List.takeWhile_append_of_pos (by simp), hdigits]
  simp

theorem withZeros_lt (hbase : 1 < base) {z n : ℕ} : ∀ d ∈ withZeros base z n, d < base := by
  intro d hd
  rcases List.mem_append.1 hd with hd | hd
  · rw [List.eq_of_mem_replicate hd]
    omega
  · exact Nat.digits_lt_base hbase (List.mem_reverse.1 hd)

/-- A smaller base needs at least as many digits. -/
theorem length_digits_anti {base' : ℕ} (hbase : 1 < base) (hle : base ≤ base') (n : ℕ) :
    (base'.digits n).length ≤ (base.digits n).length := by
  rw [Nat.digits_length_le_iff (hbase.trans_le hle)]
  have hlt := (Nat.digits_length_le_iff hbase n).1 le_rfl
  exact hlt.trans_le (Nat.pow_le_pow_left hle _)

end Harikube.Radix
