import Harikube.Sorted.Scan

/-!
# Pages of a sorted list

A list that is read page by page: each page begins after the last element of the page
before. The key that a page begins at is the last key with one more letter, the least
there is.

* `lt_iff_append_le`: the words after a word are those from its extension by a least
  letter on.
* `filter_after_take`, `filter_from_take`: what is after the last element of a page is what the
  page leaves.
* `pagesAfter_eq_iff`: pages that each see only some of the elements give the whole list if
  and only if each sees all of the elements that are due.
-/

namespace Harikube.Sorted

variable {α K : Type*} [LinearOrder K]

/-- **The words after `y` are those from `y` with one more least letter on.** -/
theorem lt_iff_append_le {c : K} {y k : List K} (hk : ∀ b ∈ k, c ≤ b) : y < k ↔ y ++ [c] ≤ k := by
  rw [← not_lt]
  induction y generalizing k with
  | nil =>
    cases k with
    | nil => simp
    | cons b k =>
      have hc : c ≤ b := hk b List.mem_cons_self
      simp [List.cons_lt_cons_iff, not_lt.2 hc]
  | cons a y ih =>
    cases k with
    | nil => simp
    | cons b k =>
      have ih := ih fun b hb => hk b (List.mem_cons_of_mem _ hb)
      rw [List.cons_append, List.cons_lt_cons_iff, List.cons_lt_cons_iff, ih]
      rcases lt_trichotomy a b with hab | rfl | hab
      · simp [hab, not_lt.2 hab.le, hab.ne, hab.ne']
      · simp
      · simp [hab, not_lt.2 hab.le, hab.ne']

/-- A word with one more letter comes after it. -/
theorem lt_append_singleton (y : List K) (c : K) : y < y ++ [c] := by
  induction y with
  | nil => simp
  | cons a y ih => simpa [List.cons_lt_cons_iff] using ih

variable (f : α → K)

/-- The last element of the first `n` splits a list sorted by `f`. -/
theorem split_at_last {l : List α} (hs : l.Pairwise fun x y => f x < f y) {n : ℕ} {y : α}
    (hy : (l.take n).getLast? = some y) :
    ∃ front, l = front ++ y :: l.drop n ∧ (∀ x ∈ front, f x < f y) ∧ ∀ x ∈ l.drop n, f y < f x := by
  obtain ⟨front, hfront⟩ := List.getLast?_eq_some_iff.1 hy
  have hsplit : l = front ++ y :: l.drop n := by
    conv_lhs => rw [← List.take_append_drop n l, hfront, List.append_assoc, List.singleton_append]
  rw [hsplit, List.pairwise_append] at hs
  obtain ⟨-, hrest, hbelow⟩ := hs
  exact ⟨front, hsplit, fun x hx => hbelow x hx y List.mem_cons_self, (List.pairwise_cons.1 hrest).1⟩

/-- **What is after the last element of the first `n` is the rest**, in a list sorted by `f`. -/
theorem filter_after_take {l : List α} (hs : l.Pairwise fun x y => f x < f y) {n : ℕ} {y : α}
    (hy : (l.take n).getLast? = some y) : (l.filter fun x => f y < f x) = l.drop n := by
  obtain ⟨front, hsplit, hbelow, habove⟩ := split_at_last f hs hy
  have hfront : (front.filter fun x => f y < f x) = [] :=
    List.filter_eq_nil_iff.2 fun x hx hlt => lt_asymm (of_decide_eq_true hlt) (hbelow x hx)
  have hafter : ((l.drop n).filter fun x => f y < f x) = l.drop n :=
    List.filter_eq_self.2 fun x hx => decide_eq_true (habove x hx)
  conv_lhs => rw [hsplit]
  rw [List.filter_append, hfront, List.filter_cons_of_neg (by simp), hafter, List.nil_append]

/-- The elements from the last one of the first `n` on are that one and the rest. -/
theorem filter_from_take {l : List α} (hs : l.Pairwise fun x y => f x < f y) {n : ℕ} {y : α}
    (hy : (l.take n).getLast? = some y) : (l.filter fun x => f y ≤ f x) = y :: l.drop n := by
  obtain ⟨front, hsplit, hbelow, habove⟩ := split_at_last f hs hy
  have hfront : (front.filter fun x => f y ≤ f x) = [] :=
    List.filter_eq_nil_iff.2 fun x hx hle => not_lt.2 (of_decide_eq_true hle) (hbelow x hx)
  have hafter : ((l.drop n).filter fun x => f y ≤ f x) = l.drop n :=
    List.filter_eq_self.2 fun x hx => decide_eq_true (habove x hx).le
  conv_lhs => rw [hsplit]
  rw [List.filter_append, hfront, List.filter_cons_of_pos (by simp), hafter, List.nil_append]

/-- An element is among the first `n`, or there are `n` of them and it is after the last. -/
theorem mem_take_or_after {l : List α} (hs : l.Pairwise fun x y => f x < f y) (n : ℕ) {x : α} (hx : x ∈ l) :
    x ∈ l.take n ∨ (l.take n).length = n ∧ ∀ y, (l.take n).getLast? = some y → f y < f x := by
  rcases Nat.lt_or_ge l.length n with hlen | hlen
  · left
    rw [List.take_of_length_le hlen.le]
    exact hx
  · rw [← List.take_append_drop n l, List.mem_append] at hx
    rcases hx with hx | hx
    · exact .inl hx
    · refine .inr ⟨List.length_take_of_le hlen, fun y hy => ?_⟩
      rw [← filter_after_take f hs hy] at hx
      exact of_decide_eq_true (List.mem_filter.1 hx).2

/-! ## Pages that see a part -/

/-- The elements after `y`. -/
def after (l : List α) (y : α) : List α := l.filter fun x => f y < f x

/-- Read on after `y` in pages of `n`: the page after `y` sees the elements `x` with
`sees y x`, and a page that is not full is the last one. -/
def pagesAfter (l : List α) (n : ℕ) (sees : α → α → Bool) : ℕ → α → Option (List α)
  | 0, _ => none
  | fuel + 1, y =>
    let page := ((after f l y).filter (sees y)).take n
    if page.length < n then some page
    else
      match page.getLast? with
      | none => some page
      | some z => (pagesAfter l n sees fuel z).map (page ++ ·)

/-- Every page sees all of the elements that are due on it. -/
def SeesAll (n : ℕ) (sees : α → α → Bool) (y : α) (rest : List α) : Prop :=
  ∀ j z, ((y :: rest).take (n * j + 1)).getLast? = some z → ∀ x ∈ (rest.drop (n * j)).take n, sees z x = true

/-- The first elements that satisfy `p` are the first elements if those do. -/
theorem take_filter_eq_take_iff {p : α → Bool} {l : List α} {n : ℕ} :
    (l.filter p).take n = l.take n ↔ ∀ x ∈ l.take n, p x = true := by
  constructor
  · intro h x hx
    rw [← h] at hx
    exact (List.mem_filter.1 (List.mem_of_mem_take hx)).2
  · intro h
    have hsplit : l.filter p = l.take n ++ (l.drop n).filter p := by
      conv_lhs => rw [← List.take_append_drop n l, List.filter_append, List.filter_eq_self.2 h]
    rw [hsplit]
    rcases Nat.lt_or_ge l.length n with hlt | hge
    · rw [List.drop_of_length_le hlt.le, List.filter_nil, List.append_nil, List.take_take, min_self]
    · exact List.take_left' (List.length_take_of_le hge)

theorem seesAll_short {n : ℕ} {sees : α → α → Bool} {y : α} {rest : List α} (hlen : rest.length < n) :
    SeesAll n sees y rest ↔ ∀ x ∈ rest.take n, sees y x = true := by
  constructor
  · intro h
    exact h 0 y (by simp)
  · rintro h (_ | j) z hz x hx
    · simp only [Nat.mul_zero, Nat.zero_add, List.take_succ_cons, List.take_zero, List.getLast?_singleton,
        Option.some.injEq] at hz
      subst hz
      exact h x hx
    · have hle : rest.length ≤ n * (j + 1) := hlen.le.trans (Nat.le_mul_of_pos_right n (Nat.succ_pos j))
      rw [List.drop_of_length_le hle, List.take_nil] at hx
      cases hx

/-- The last element before a later page, counted from the beginning or from the last element
of the first page. -/
theorem getLast?_take_mul {n : ℕ} {z : α} {l : List α} (hz : (l.take n).getLast? = some z) (j : ℕ) :
    (l.take (n * (j + 1))).getLast? = ((z :: l.drop n).take (n * j + 1)).getLast? := by
  rw [Nat.mul_succ, Nat.add_comm, List.take_add, List.getLast?_append, hz, List.take_succ_cons, List.getLast?_cons]
  cases ((l.drop n).take (n * j)).getLast? <;> rfl

theorem seesAll_full {n : ℕ} {sees : α → α → Bool} {y z : α} {rest : List α}
    (hz : (rest.take n).getLast? = some z) :
    SeesAll n sees y rest ↔ (∀ x ∈ rest.take n, sees y x = true) ∧ SeesAll n sees z (rest.drop n) := by
  have hlast : ∀ j, ((y :: rest).take (n * (j + 1) + 1)).getLast? = ((z :: rest.drop n).take (n * j + 1)).getLast? := by
    intro j
    rw [List.take_succ_cons, List.getLast?_cons, getLast?_take_mul hz, List.take_succ_cons, List.getLast?_cons]
    rfl
  constructor
  · intro h
    refine ⟨h 0 y (by simp), fun j w hw x hx => h (j + 1) w ((hlast j).trans hw) x ?_⟩
    rw [List.drop_drop] at hx
    rwa [Nat.mul_succ, Nat.add_comm]
  · rintro ⟨hfirst, hrest⟩ (_ | j) w hw x hx
    · simp only [Nat.mul_zero, Nat.zero_add, List.take_succ_cons, List.take_zero, List.getLast?_singleton,
        Option.some.injEq] at hw
      subst hw
      exact hfirst x hx
    · refine hrest j w ((hlast j).symm.trans hw) x ?_
      rw [List.drop_drop]
      rwa [Nat.mul_succ, Nat.add_comm] at hx

/-- The same of a whole list, from the end of its first page on. -/
theorem seesAll_drop_iff {n : ℕ} {sees : α → α → Bool} {z : α} {l : List α} (hz : (l.take n).getLast? = some z) :
    SeesAll n sees z (l.drop n) ↔
      ∀ j y, 1 ≤ j → (l.take (n * j)).getLast? = some y → ∀ x ∈ (l.drop (n * j)).take n, sees y x = true := by
  constructor
  · rintro h (_ | j) y hj hy x hx
    · omega
    · refine h j y ((getLast?_take_mul hz j).symm.trans hy) x ?_
      rw [List.drop_drop]
      rwa [Nat.mul_succ, Nat.add_comm] at hx
  · intro h j y hy x hx
    refine h (j + 1) y (by omega) ((getLast?_take_mul hz j).trans hy) x ?_
    rw [List.drop_drop] at hx
    rwa [Nat.mul_succ, Nat.add_comm]

/-- **Reading on gives all that is left if and only if every page sees all that is due on
it**, and it comes to an end. -/
theorem pagesAfter_eq_iff {l : List α} (hs : l.Pairwise fun x y => f x < f y) {n : ℕ} (hn : 0 < n)
    (sees : α → α → Bool) (fuel : ℕ) (y : α) (hfuel : (after f l y).length < fuel) :
    ∃ read, pagesAfter f l n sees fuel y = some read ∧
      (read = after f l y ↔ SeesAll n sees y (after f l y)) := by
  induction fuel generalizing y with
  | zero => omega
  | succ fuel ih =>
    set rest := after f l y with hrest
    set page := (rest.filter (sees y)).take n with hpage
    have hdue : page = rest.take n ↔ ∀ x ∈ rest.take n, sees y x = true := take_filter_eq_take_iff
    have hle : page.length ≤ n := List.length_take_le _ _
    unfold pagesAfter
    simp only [← hrest, ← hpage]
    split
    · rename_i hshort
      refine ⟨page, rfl, ?_⟩
      constructor
      · intro heq
        rw [heq] at hshort
        rw [seesAll_short hshort, ← hdue, heq, List.take_of_length_le hshort.le]
      · intro hall
        have hfirst := hdue.2 (hall 0 y (by simp))
        rw [hfirst]
        refine List.take_of_length_le ?_
        rw [hfirst, List.length_take] at hshort
        omega
    · rename_i hfull
      have hlen : page.length = n := by omega
      obtain ⟨z, hz⟩ : ∃ z, page.getLast? = some z := by
        cases hlast : page.getLast? with
        | none =>
          rw [List.getLast?_eq_none_iff.1 hlast] at hlen
          simp at hlen
          omega
        | some z => exact ⟨z, rfl⟩
      have hzrest : z ∈ rest := (List.mem_filter.1 (List.mem_of_mem_take (List.mem_of_getLast? hz))).1
      have hyz : f y < f z := of_decide_eq_true (List.mem_filter.1 hzrest).2
      -- what is after `z` is less than what is after `y`
      have hafter : after f l z = rest.filter fun x => f z < f x := by
        rw [hrest, after, after, List.filter_filter]
        refine List.filter_congr fun x _ => ?_
        by_cases hx : f z < f x
        · simp [hx, hyz.trans hx]
        · simp [hx]
      have hless : (after f l z).length < rest.length := by
        rw [hafter]
        exact List.length_filter_lt_length_iff_exists.2 ⟨z, hzrest, by simp⟩
      obtain ⟨read, hread, hiff⟩ := ih z (by omega)
      simp only [hz, hread, Option.map_some]
      refine ⟨_, rfl, ?_⟩
      have hsorted : rest.Pairwise fun x y => f x < f y := hs.filter _
      constructor
      · intro heq
        have hfirst : page = rest.take n := by rw [← heq, List.take_left' hlen]
        have hdrop : read = rest.drop n := by rw [← heq, List.drop_left' hlen]
        have hz' := hz
        rw [hfirst] at hz'
        have hmore := filter_after_take f hsorted hz'
        rw [hafter, hmore] at hiff
        exact (seesAll_full hz').2 ⟨hdue.1 hfirst, hiff.1 hdrop⟩
      · intro hall
        have hfirst := hdue.2 (hall 0 y (by simp))
        have hz' := hz
        rw [hfirst] at hz'
        have hmore := filter_after_take f hsorted hz'
        rw [hafter, hmore] at hiff
        rw [hfirst, hiff.2 ((seesAll_full hz').1 hall).2, List.take_append_drop]

end Harikube.Sorted
