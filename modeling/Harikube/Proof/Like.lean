import Harikube.Spec.Selectors

/-!
# The texts that a pattern matches

A text is matched by itself as a pattern, whatever wildcards are in it, so a key is matched
by the pattern of each of its prefixes (`like_of_prefix`) and a value by the pattern that
looks for it (`like_within_self`).
-/

namespace Harikube

theorem self_mem_rests (s : Bytes) : ∃ l, rests false s = s :: l := by
  cases s with
  | nil => exact ⟨[], rfl⟩
  | cons b s => exact ⟨rests (192 ≤ b.val) s, rfl⟩

theorem nil_mem_rests (lead : Bool) (s : Bytes) : [] ∈ rests lead s := by
  induction s generalizing lead with
  | nil => exact List.mem_singleton.2 rfl
  | cons b s ih =>
    unfold rests
    split
    · exact ih true
    · exact List.mem_cons_of_mem _ (ih _)

/-- What follows an ASCII character is the rest of the text. -/
theorem rests_ascii {b : Fin 256} (hb : b.val < 128) (s : Bytes) : rests false (b :: s) = (b :: s) :: rests false s := by
  have h : ¬ 192 ≤ b.val := by omega
  simp only [rests, Bool.false_and, Bool.false_eq_true, if_false, h, decide_false]

/-- A character of the text is matched by itself, and the rest goes on. -/
theorem likeChars_cons {c : Fin 256} {p s : Bytes} (h : likeChars p s = true) :
    likeChars (c :: p) (c :: s) = true := by
  obtain ⟨l, hl⟩ := self_mem_rests s
  by_cases hany : c = 37
  · subst hany
    simp only [likeChars, if_true, rests_ascii (show (37 : Fin 256).val < 128 by decide), hl, List.any_cons, h,
      Bool.true_or, Bool.or_true]
  by_cases hone : c = 95
  · subst hone
    rw [likeChars, if_neg hany, if_pos rfl, rests_ascii (by decide), hl]
    exact h
  · simp only [likeChars, if_neg hany, if_neg hone, decide_true, Bool.true_and, h]

theorem likeChars_append (v : Bytes) {p s : Bytes} (h : likeChars p s = true) :
    likeChars (v ++ p) (v ++ s) = true := by
  induction v with
  | nil => exact h
  | cons c v ih => exact likeChars_cons ih

theorem likeChars_self (s : Bytes) : likeChars s s = true := by
  have h := likeChars_append s (p := []) (s := []) rfl
  rwa [List.append_nil] at h

/-- What `%` stands before may be any rest of the text. -/
theorem likeChars_percent (p s : Bytes) : likeChars (37 :: p) s = (rests false s).any (likeChars p) := by
  cases s <;> rfl

/-- The pattern `%` matches every text. -/
theorem likeChars_any (s : Bytes) : likeChars [37] s = true := by
  rw [likeChars_percent, List.any_eq_true]
  exact ⟨[], nil_mem_rests false s, rfl⟩

theorem likeChars_percent_cons {p s : Bytes} (h : likeChars p s = true) : likeChars (37 :: p) s = true := by
  obtain ⟨l, hl⟩ := self_mem_rests s
  rw [likeChars_percent, hl, List.any_cons, h, Bool.true_or]

/-- A text with a zero byte ends in the part that has it. -/
theorem takeWhile_zero_append (v t : Bytes) :
    (v ++ t).takeWhile (· ≠ 0) = if 0 ∈ v then v.takeWhile (· ≠ 0) else v ++ t.takeWhile (· ≠ 0) := by
  split
  · rename_i h
    rw [List.takeWhile_append, if_neg]
    intro hlen
    have hall := List.takeWhile_eq_self_iff.1 ((List.takeWhile_prefix _).eq_of_length hlen)
    exact absurd (hall 0 h) (by decide)
  · rename_i h
    exact List.takeWhile_append_of_pos fun c hc => decide_eq_true fun h0 => h (h0 ▸ hc)

theorem like_append (v t : Bytes) : like (v ++ [37]) (v ++ t) = true := by
  unfold like
  rw [takeWhile_zero_append, takeWhile_zero_append]
  split
  · exact likeChars_self _
  · exact likeChars_append v (likeChars_any _)

/-- **A key is matched by the pattern of each of its prefixes.** -/
theorem like_of_prefix {start key : Bytes} (h : start <+: key) :
    like (SelectorParser.selectorPattern start) key = true := by
  obtain ⟨rest, rfl⟩ := h
  unfold SelectorParser.selectorPattern
  split
  · rename_i hlast
    obtain ⟨v, rfl⟩ := List.getLast?_eq_some_iff.1 hlast
    rw [List.append_assoc]
    exact like_append v _
  · exact like_append start rest

/-- **A value is matched by the pattern that looks for it.** -/
theorem like_within_self (v : Bytes) : like ([37] ++ v ++ [37]) v = true := by
  have hcut : ([37] ++ v ++ [37] : Bytes).takeWhile (· ≠ 0) = 37 :: (v ++ [37]).takeWhile (· ≠ 0) := rfl
  have hself : v.takeWhile (· ≠ 0) = (v ++ []).takeWhile (· ≠ 0) := by rw [List.append_nil]
  unfold like
  rw [hcut, hself, takeWhile_zero_append, takeWhile_zero_append]
  apply likeChars_percent_cons
  split
  · exact likeChars_self _
  · exact likeChars_append v (likeChars_any _)

end Harikube
