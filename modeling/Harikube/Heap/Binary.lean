import Mathlib

/-!
# Binary heaps in a list

A heap keeps its entries in a list, the children of index `i` at `2 * i + 1` and `2 * i + 2`,
ordered by a key. The operations are those of a heap that swaps entries in place: `up` and `down`
move one entry along a path, `push` and `pop` add and take an entry, `init` orders a list.

* `push_perm`, `pop_perm`, `init_perm`: the entries stay the same.
* `up_isHeap`, `down_heapFrom`: the two conditions on which a path is repaired.
* `IsHeap.push`, `IsHeap.pop`, `init_isHeap`: the operations keep or establish the order.
* `IsHeap.head_le`: the first entry of a heap is a least one.
-/

namespace Harikube.Heap

variable {α β : Type*} [LinearOrder β] (key : α → β)

/-- The entry at `i` is before the entry at `j`. -/
def less (h : List α) (i j : ℕ) : Bool :=
  match h[i]?, h[j]? with
  | some a, some b => decide (key a < key b)
  | _, _ => false

def swap (h : List α) (i j : ℕ) : List α :=
  match h[i]?, h[j]? with
  | some a, some b => (h.set i b).set j a
  | _, _ => h

@[simp] theorem length_swap (h : List α) (i j : ℕ) : (swap h i j).length = h.length := by
  unfold swap
  split <;> simp

def up (h : List α) (j : ℕ) : List α :=
  let i := (j - 1) / 2
  if i = j ∨ less key h j i = false then h else up (swap h i j) i
termination_by j
decreasing_by omega

/-- The child of `i` that `down` compares with: the second one if it is before the first. -/
def child (h : List α) (i : ℕ) : ℕ :=
  if less key h (2 * i + 2) (2 * i + 1) then 2 * i + 2 else 2 * i + 1

theorem child_cases (h : List α) (i : ℕ) : child key h i = 2 * i + 1 ∨ child key h i = 2 * i + 2 := by
  unfold child
  split
  · exact .inr rfl
  · exact .inl rfl

def down (h : List α) (i : ℕ) : List α :=
  if h.length ≤ 2 * i + 1 ∨ less key h (child key h i) i = false then h
  else down (swap h i (child key h i)) (child key h i)
termination_by h.length - i
decreasing_by
  have := child_cases key h i
  rw [length_swap]
  omega

def push (h : List α) (x : α) : List α := up key (h ++ [x]) h.length

/-- The first and the last entry change places, the last one is taken off, and the others are put
in order again. -/
def pop (h : List α) : Option (α × List α) :=
  let h' := swap h 0 (h.length - 1)
  h'.getLast?.map fun x => (x, down key h'.dropLast 0)

/-- `down` from each of the first `k` indices, the last one first. -/
def initFrom : ℕ → List α → List α
  | 0, h => h
  | k + 1, h => initFrom k (down key h k)

def init (h : List α) : List α := initFrom key (h.length / 2) h

/-! ## Swapping -/

section Swap

variable {h : List α} {i j : ℕ} (k : ℕ)

theorem swap_eq (hi : i < h.length) (hj : j < h.length) : swap h i j = (h.set i h[j]).set j h[i] := by
  simp [swap, hi, hj]

/-- Reading after a swap is reading at the swapped index. -/
theorem getElem?_swap (hi : i < h.length) (hj : j < h.length) :
    (swap h i j)[k]? = h[Equiv.swap i j k]? := by
  rw [swap_eq hi hj]
  by_cases hkj : k = j
  · subst hkj
    simp [hi, hj]
  by_cases hki : k = i
  · subst hki
    rw [List.getElem?_set_ne (by omega), Equiv.swap_apply_left]
    simp [hi, hj]
  · rw [List.getElem?_set_ne (by omega), List.getElem?_set_ne (by omega), Equiv.swap_apply_of_ne_of_ne hki hkj]

variable (h i j)

theorem swap_perm : (swap h i j).Perm h := by
  by_cases hij : i < h.length ∧ j < h.length
  · rw [swap_eq hij.1 hij.2]
    exact List.set_set_perm hij.1 hij.2
  · unfold swap
    split
    · rename_i a b ha hb
      exact absurd ⟨(List.getElem?_eq_some_iff.1 ha).1, (List.getElem?_eq_some_iff.1 hb).1⟩ hij
    · exact .refl h

end Swap

/-! ## The entries stay the same -/

theorem up_perm (h : List α) (j : ℕ) : (up key h j).Perm h := by
  fun_induction up key h j with
  | case1 => exact .refl _
  | case2 h j i _ ih => exact ih.trans (swap_perm h i j)

theorem down_perm (h : List α) (i : ℕ) : (down key h i).Perm h := by
  fun_induction down key h i with
  | case1 => exact .refl _
  | case2 h i _ ih => exact ih.trans (swap_perm h i _)

theorem initFrom_perm (k : ℕ) : ∀ h : List α, (initFrom key k h).Perm h := by
  induction k with
  | zero => intro h; exact .refl h
  | succ k ih => intro h; exact (ih _).trans (down_perm key h k)

theorem init_perm (h : List α) : (init key h).Perm h := initFrom_perm key _ h

theorem push_perm (h : List α) (x : α) : (push key h x).Perm (x :: h) :=
  (up_perm key _ _).trans (List.perm_append_singleton x h)

theorem pop_perm {h h' : List α} {x : α} (hp : pop key h = some (x, h')) : (x :: h').Perm h := by
  obtain ⟨y, hy, heq⟩ := Option.map_eq_some_iff.1 hp
  obtain ⟨rfl, rfl⟩ := Prod.mk.inj heq
  calc (y :: down key (swap h 0 (h.length - 1)).dropLast 0).Perm (y :: (swap h 0 (h.length - 1)).dropLast) :=
        (down_perm key _ _).cons y
    _ |>.Perm ((swap h 0 (h.length - 1)).dropLast ++ [y]) := (List.perm_append_singleton y _).symm
    _ = swap h 0 (h.length - 1) := List.dropLast_append_getLast? y hy
    _ |>.Perm h := swap_perm h _ _

theorem pop_eq_none_iff {h : List α} : pop key h = none ↔ h = [] := by
  simp only [pop, Option.map_eq_none_iff, List.getLast?_eq_none_iff]
  rw [← List.length_eq_zero_iff, length_swap, List.length_eq_zero_iff]

/-! ## The order -/

/-- The entry at `i` is not after the entry at `j`, if there are such entries. -/
def Le (h : List α) (i j : ℕ) : Prop := ∀ a b, h[i]? = some a → h[j]? = some b → key a ≤ key b

/-- Every entry is not before the one above it. -/
def IsHeap (h : List α) : Prop := ∀ j, 0 < j → Le key h ((j - 1) / 2) j

variable {key} {h : List α} {i j k n : ℕ}

theorem Le.refl (h : List α) (i : ℕ) : Le key h i i := by
  intro a b ha hb
  rw [Option.some.inj (ha.symm.trans hb)]

theorem Le.trans (hj : j < h.length) (hij : Le key h i j) (hjk : Le key h j k) : Le key h i k := by
  intro a c ha hc
  exact (hij a h[j] ha (List.getElem?_eq_getElem hj)).trans (hjk h[j] c (List.getElem?_eq_getElem hj) hc)

theorem le_of_less (hl : less key h i j = true) : Le key h i j := by
  intro a b ha hb
  simp only [less, ha, hb, decide_eq_true_eq] at hl
  exact hl.le

theorem le_of_not_less (hl : less key h i j = false) : Le key h j i := by
  intro a b ha hb
  simpa [less, ha, hb] using hl

theorem le_swap (hi : i < h.length) (hj : j < h.length) (p q : ℕ) :
    Le key (swap h i j) p q ↔ Le key h (Equiv.swap i j p) (Equiv.swap i j q) := by
  simp only [Le, getElem?_swap _ hi hj]

theorem lt_length_of_less (hl : less key h i j = true) : i < h.length ∧ j < h.length := by
  unfold less at hl
  split at hl
  · rename_i a b ha hb
    exact ⟨(List.getElem?_eq_some_iff.1 ha).1, (List.getElem?_eq_some_iff.1 hb).1⟩
  · cases hl

/-- The first entry of a heap is a least one. -/
theorem IsHeap.le_root (hh : IsHeap key h) (i : ℕ) (hi : i < h.length) : Le key h 0 i := by
  induction i using Nat.strongRecOn with
  | ind i ih =>
    rcases Nat.eq_zero_or_pos i with rfl | hpos
    · exact Le.refl h 0
    · have hp : (i - 1) / 2 < i := by omega
      exact (ih _ hp (by omega)).trans (by omega) (hh i hpos)

theorem IsHeap.head_le (hh : IsHeap key h) {x : α} (hx : h[0]? = some x) : ∀ y ∈ h, key x ≤ key y := by
  intro y hy
  obtain ⟨i, hi, rfl⟩ := List.mem_iff_getElem.1 hy
  exact hh.le_root i hi x h[i] hx (List.getElem?_eq_getElem hi)

/-! ## Moving an entry up -/

/-- Every entry but the one at `j` is not before the one above it, and the entries below `j` are
not before the one above `j`. -/
structure UpReady (key : α → β) (h : List α) (j : ℕ) : Prop where
  others : ∀ k, 0 < k → k ≠ j → Le key h ((k - 1) / 2) k
  below : ∀ k, 0 < k → (k - 1) / 2 = j → 0 < j → Le key h ((j - 1) / 2) k

theorem UpReady.isHeap (hr : UpReady key h j) (hj : j = 0 ∨ Le key h ((j - 1) / 2) j) : IsHeap key h := by
  intro k hk
  by_cases hkj : k = j
  · subst hkj
    exact hj.resolve_left (by omega)
  · exact hr.others k hk hkj

/-- The exchange moves the exception to the index above. -/
theorem UpReady.swap (hr : UpReady key h j) (hpos : 0 < j) (hl : less key h j ((j - 1) / 2) = true) :
    UpReady key (swap h ((j - 1) / 2) j) ((j - 1) / 2) := by
  obtain ⟨hj, hi⟩ := lt_length_of_less hl
  have hlt : (j - 1) / 2 < j := by omega
  generalize hip : (j - 1) / 2 = i at hi hl hlt
  have hji : Le key h j i := le_of_less hl
  constructor
  · intro k hk hki
    rw [le_swap hi hj]
    by_cases hkj : k = j
    · subst hkj
      rw [hip, Equiv.swap_apply_left, Equiv.swap_apply_right]
      exact hji
    · rw [Equiv.swap_apply_of_ne_of_ne hki hkj]
      by_cases hpi : (k - 1) / 2 = i
      · -- the other entry below `i`
        rw [hpi, Equiv.swap_apply_left]
        exact hji.trans hi (hpi ▸ hr.others k hk hkj)
      by_cases hpj : (k - 1) / 2 = j
      · rw [hpj, Equiv.swap_apply_right]
        exact hip ▸ hr.below k hk hpj hpos
      · rw [Equiv.swap_apply_of_ne_of_ne hpi hpj]
        exact hr.others k hk hkj
  · intro k hk hpk hipos
    have hup : Le key h ((i - 1) / 2) i := hr.others i hipos (by omega)
    rw [le_swap hi hj, Equiv.swap_apply_of_ne_of_ne (show (i - 1) / 2 ≠ i by omega) (by omega)]
    by_cases hkj : k = j
    · subst hkj
      rw [Equiv.swap_apply_right]
      exact hup
    · rw [Equiv.swap_apply_of_ne_of_ne (by omega) hkj]
      exact hup.trans hi (hpk ▸ hr.others k hk hkj)

theorem up_isHeap (hr : UpReady key h j) : IsHeap key (up key h j) := by
  fun_induction up key h j with
  | case1 h j i hstop =>
    refine hr.isHeap ?_
    rcases hstop with hij | hl
    · exact .inl (by omega)
    · exact .inr (le_of_not_less hl)
  | case2 h j i hstop ih =>
    simp only [not_or, Bool.not_eq_false] at hstop
    exact ih (hr.swap (by omega) hstop.2)

theorem IsHeap.push (hh : IsHeap key h) (x : α) : IsHeap key (push key h x) := by
  -- nothing is below the new entry
  have hend : ∀ k, h.length < k → (h ++ [x])[k]? = none := by
    intro k hk
    rw [List.getElem?_eq_none_iff, List.length_append]
    simpa using hk
  refine up_isHeap ⟨?_, ?_⟩
  · intro k hk hkl a b ha hb
    rcases Nat.lt_or_gt_of_ne hkl with hlt | hgt
    · rw [List.getElem?_append_left (by omega)] at ha hb
      exact hh k hk a b ha hb
    · simp [hend k hgt] at hb
  · intro k hk hp hpos a b ha hb
    simp [hend k (by omega)] at hb

/-! ## Moving an entry down -/

/-- The order below the indices from `m` on. -/
def HeapFrom (key : α → β) (h : List α) (m : ℕ) : Prop := ∀ k, 0 < k → m ≤ (k - 1) / 2 → Le key h ((k - 1) / 2) k

/-- Below the indices from `m` on, every entry is not before the one above it, except below `i`; and
the entries below `i` are not before the one above `i`. -/
structure DownReady (key : α → β) (h : List α) (m i : ℕ) : Prop where
  others : ∀ k, 0 < k → m ≤ (k - 1) / 2 → (k - 1) / 2 ≠ i → Le key h ((k - 1) / 2) k
  below : ∀ k, 0 < k → (k - 1) / 2 = i → 0 < i → m ≤ (i - 1) / 2 → Le key h ((i - 1) / 2) k

theorem child_le (hk : 0 < k) (hp : (k - 1) / 2 = i) : Le key h (child key h i) k := by
  have hcases : k = 2 * i + 1 ∨ k = 2 * i + 2 := by omega
  unfold child
  split
  · rename_i hc
    rcases hcases with rfl | rfl
    · exact le_of_less hc
    · exact Le.refl _ _
  · rename_i hc
    rcases hcases with rfl | rfl
    · exact Le.refl _ _
    · exact le_of_not_less (by simpa using hc)

theorem child_lt (hi : 2 * i + 1 < h.length) : child key h i < h.length := by
  unfold child
  split
  · rename_i hc
    exact (lt_length_of_less hc).1
  · exact hi

theorem DownReady.heapFrom {m : ℕ} (hr : DownReady key h m i) (hi : ∀ k, 0 < k → (k - 1) / 2 = i → Le key h i k) :
    HeapFrom key h m := by
  intro k hk hm
  by_cases hp : (k - 1) / 2 = i
  · rw [hp]
    exact hi k hk hp
  · exact hr.others k hk hm hp

/-- The exchange with a child moves the exception below the child. -/
theorem DownReady.swap {m : ℕ} (hr : DownReady key h m i) (hm : m ≤ i) (hl : less key h (child key h i) i = true) :
    DownReady key (swap h i (child key h i)) m (child key h i) := by
  have hc := child_cases key h i
  have hmin : ∀ k, 0 < k → (k - 1) / 2 = i → Le key h (child key h i) k := fun k hk hp => child_le hk hp
  obtain ⟨hcl, hil⟩ := lt_length_of_less hl
  generalize child key h i = c at *
  constructor
  · intro k hk hkm hkc
    rw [le_swap hil hcl]
    by_cases hpi : (k - 1) / 2 = i
    · rw [hpi, Equiv.swap_apply_left]
      by_cases hkeq : k = c
      · subst hkeq
        rw [Equiv.swap_apply_right]
        exact le_of_less hl
      · rw [Equiv.swap_apply_of_ne_of_ne (by omega) hkeq]
        exact hmin k hk hpi
    · rw [Equiv.swap_apply_of_ne_of_ne hpi hkc]
      by_cases hki : k = i
      · -- the child goes where `i` was, below the entry above `i`
        subst hki
        rw [Equiv.swap_apply_left]
        exact hr.below c (by omega) (by omega) hk hkm
      · rw [Equiv.swap_apply_of_ne_of_ne hki (by omega)]
        exact hr.others k hk hkm hpi
  · intro k hk hpk hc0 _
    have hci : (c - 1) / 2 = i := by omega
    rw [hci, le_swap hil hcl, Equiv.swap_apply_left, Equiv.swap_apply_of_ne_of_ne (by omega) (by omega)]
    exact hpk ▸ hr.others k hk (by omega) (by omega)

theorem down_heapFrom {m : ℕ} (hr : DownReady key h m i) (hm : m ≤ i) : HeapFrom key (down key h i) m := by
  fun_induction down key h i with
  | case1 h i hstop =>
    refine hr.heapFrom fun k hk hp => ?_
    by_cases hlen : h.length ≤ 2 * i + 1
    · -- nothing is below `i`
      intro a b _ hb
      have := (List.getElem?_eq_some_iff.1 hb).1
      omega
    · exact (le_of_not_less (hstop.resolve_left hlen)).trans (child_lt (by omega)) (child_le hk hp)
  | case2 h i hstop ih =>
    rw [not_or, Bool.not_eq_false] at hstop
    have hc := child_cases key h i
    exact ih (hr.swap hm hstop.2) (by omega)

/-! ## Taking the first entry, and building a heap -/

theorem pop_head {h' : List α} {x : α} (hp : pop key h = some (x, h')) : h[0]? = some x := by
  have hpos : 0 < h.length := by
    rw [List.length_pos_iff]
    rintro rfl
    rw [(pop_eq_none_iff key).2 rfl] at hp
    cases hp
  obtain ⟨y, hy, heq⟩ := Option.map_eq_some_iff.1 hp
  obtain ⟨rfl, -⟩ := Prod.mk.inj heq
  rwa [List.getLast?_eq_getElem?, length_swap, getElem?_swap _ hpos (by omega), Equiv.swap_apply_right] at hy

theorem IsHeap.pop {h' : List α} {x : α} (hh : IsHeap key h) (hp : pop key h = some (x, h')) : IsHeap key h' := by
  obtain ⟨y, hy, heq⟩ := Option.map_eq_some_iff.1 hp
  obtain ⟨-, rfl⟩ := Prod.mk.inj heq
  have hready : DownReady key (Heap.swap h 0 (h.length - 1)).dropLast 0 0 := by
    refine ⟨fun k hk _ hp a b ha hb => ?_, fun _ _ _ h0 => absurd h0 (lt_irrefl 0)⟩
    -- away from both ends the entries are those of the heap
    rw [List.getElem?_dropLast, length_swap] at ha hb
    split at hb
    · rename_i hlt
      rw [if_pos (by omega)] at ha
      rw [getElem?_swap _ (by omega) (by omega), Equiv.swap_apply_of_ne_of_ne (by omega) (by omega)] at ha hb
      exact hh k hk a b ha hb
    · cases hb
  exact fun j hj => down_heapFrom hready le_rfl j hj (Nat.zero_le _)

theorem initFrom_heapFrom (k : ℕ) : ∀ {h : List α}, HeapFrom key h k → HeapFrom key (initFrom key k h) 0 := by
  induction k with
  | zero => intro h hh; exact hh
  | succ k ih =>
    intro h hh
    -- the order below the indices from `k + 1` on, and `down` from `k`
    refine ih (down_heapFrom ⟨fun j hj hkj hne => hh j hj (by omega), fun _ _ _ _ hkk => ?_⟩ le_rfl)
    omega

theorem init_isHeap (h : List α) : IsHeap key (init key h) := by
  have hfrom : HeapFrom key (init key h) 0 := by
    refine initFrom_heapFrom _ fun k hk hm a b _ hb => ?_
    have := (List.getElem?_eq_some_iff.1 hb).1
    omega
  exact fun j hj => hfrom j hj (Nat.zero_le _)

end Harikube.Heap
