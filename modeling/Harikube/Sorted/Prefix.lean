import Mathlib

/-!
# Prefix ranges

In the lexicographic order the words with a given prefix are an interval: it ends at the prefix
with its last letter replaced by the next one.

* `isPrefix_iff_range`: the words with the prefix `p ++ [a]` are those from it on and before
  `p ++ [b]`, for `b` next to `a`.
-/

namespace Harikube.Sorted

variable {K : Type*} [LinearOrder K]

/-- A word that begins with another one is not before it. -/
theorem le_of_isPrefix {p w : List K} (h : p <+: w) : p ≤ w := by
  obtain ⟨t, rfl⟩ := h
  induction p with
  | nil => exact not_lt.1 (List.not_lt_nil t)
  | cons a p ih =>
    rw [List.cons_append, ← not_lt, List.cons_lt_cons_iff, not_or]
    exact ⟨lt_irrefl a, fun h => ih.not_gt h.2⟩

/-- **The words with a prefix are a range.** -/
theorem isPrefix_iff_range {a b : K} (hab : a ⋖ b) (p w : List K) :
    p ++ [a] <+: w ↔ p ++ [a] ≤ w ∧ w < p ++ [b] := by
  induction p generalizing w with
  | nil =>
    cases w with
    | nil => simp
    | cons c w =>
      -- a letter that is not below `a` and below the next one is `a`
      have hletter : a = c ↔ ¬ c < a ∧ c < b := by
        constructor
        · rintro rfl
          exact ⟨lt_irrefl a, hab.lt⟩
        · rintro ⟨hac, hcb⟩
          by_contra hne
          exact hab.2 (lt_of_le_of_ne (not_lt.1 hac) hne) hcb
      rw [← not_lt]
      simp only [List.nil_append, List.cons_prefix_cons, List.nil_prefix, and_true, List.cons_lt_cons_iff,
        List.not_lt_nil, and_false, or_false]
      exact hletter
  | cons x p ih =>
    cases w with
    | nil => simp
    | cons c w =>
      rw [← not_lt]
      simp only [List.cons_append, List.cons_prefix_cons, List.cons_lt_cons_iff, ih w]
      rcases lt_trichotomy x c with hlt | rfl | hgt
      · simp [hlt.ne, hlt.not_gt, hlt.ne']
      · simp
      · simp [hgt, hgt.ne']

end Harikube.Sorted
