import Mathlib

/-!
# Ordered maps

An ordered map is a list of bindings in strictly increasing key order, with the
order as a field, so that a lookup, an iteration from a key and a range scan all
read the same list.

* `mem_entries`: a binding is listed if and only if the lookup finds it.
* `ext_find`: two maps with the same lookups are the same map.
* `find_insert`, `find_erase`, `find_filterMap`: how the operations act on lookups.
* `dropWhile_eq_filter`, `takeWhile_eq_filter`, `filter_le_append_filter_lt`: on a
  sorted list, skipping to a bound and stopping at a bound are filters.
-/

namespace Harikube.Sorted

variable {K V W : Type*} [LinearOrder K]

/-! ## Lists sorted by a key -/

theorem filter_eq_filter_iff {α : Type*} {p q : α → Bool} {l : List α} :
    l.filter p = l.filter q ↔ ∀ v ∈ l, p v = q v := by
  refine ⟨fun heq v hv => ?_, List.filter_congr⟩
  have hmem : v ∈ l.filter p ↔ v ∈ l.filter q := by rw [heq]
  simp only [List.mem_filter, hv, true_and] at hmem
  exact Bool.eq_iff_iff.2 hmem

theorem decide_lt_eq_not (a b : K) : decide (b < a) = !decide (a ≤ b) := by
  rw [← decide_not]
  exact decide_eq_decide.2 not_le.symm

section Sorted

variable {α : Type*} (f : α → K)

/-- In a list sorted by `f`, elements with the same key are equal. -/
theorem eq_of_sorted {l : List α} (hs : l.Pairwise fun x y => f x < f y) {x y : α} (hx : x ∈ l)
    (hy : y ∈ l) (h : f x = f y) : x = y := by
  by_contra hne
  have : Std.Symm fun a b : α => f a ≠ f b := ⟨fun _ _ h => h.symm⟩
  exact (hs.imp fun h => ne_of_lt h).forall hx hy hne h

/-- A list sorted by `f` is determined by its elements. -/
theorem ext_of_sorted {l l' : List α} (hs : l.Pairwise fun x y => f x < f y)
    (hs' : l'.Pairwise fun x y => f x < f y) (h : ∀ x, x ∈ l ↔ x ∈ l') : l = l' := by
  have : Std.Irrefl fun a b : α => f a < f b := ⟨fun a => lt_irrefl (f a)⟩
  have : Std.Antisymm fun a b : α => f a < f b := ⟨fun _ _ h h' => absurd h (lt_asymm h')⟩
  exact hs.eq_of_mem_iff hs' h

/-- **Stopping at a downward closed bound is a filter**, in a list sorted by `f`. -/
theorem takeWhile_eq_filter (p : α → Bool) :
    ∀ {l : List α}, (l.Pairwise fun x y => f x < f y) →
      (∀ x ∈ l, ∀ y ∈ l, f x < f y → p y = true → p x = true) → l.takeWhile p = l.filter p := by
  intro l
  induction l with
  | nil => intro _ _; rfl
  | cons x xs ih =>
    intro hs hp
    obtain ⟨hx, hxs⟩ := List.pairwise_cons.1 hs
    by_cases hpx : p x = true
    · rw [List.takeWhile_cons_of_pos hpx, List.filter_cons_of_pos hpx, ih hxs]
      exact fun y hy z hz => hp y (List.mem_cons_of_mem _ hy) z (List.mem_cons_of_mem _ hz)
    · rw [List.takeWhile_cons_of_neg hpx, List.filter_cons_of_neg hpx]
      symm
      rw [List.filter_eq_nil_iff]
      intro y hy hpy
      exact hpx (hp x List.mem_cons_self y (List.mem_cons_of_mem _ hy) (hx y hy) hpy)

/-- **Seeking past a downward closed bound is a filter**, in a list sorted by `f`. -/
theorem dropWhile_eq_filter (p : α → Bool) :
    ∀ {l : List α}, (l.Pairwise fun x y => f x < f y) →
      (∀ x ∈ l, ∀ y ∈ l, f x < f y → p y = true → p x = true) →
        l.dropWhile p = l.filter fun x => !p x := by
  intro l
  induction l with
  | nil => intro _ _; rfl
  | cons x xs ih =>
    intro hs hp
    obtain ⟨hx, hxs⟩ := List.pairwise_cons.1 hs
    by_cases hpx : p x = true
    · rw [List.dropWhile_cons_of_pos hpx, List.filter_cons_of_neg (by simp [hpx]), ih hxs]
      exact fun y hy z hz => hp y (List.mem_cons_of_mem _ hy) z (List.mem_cons_of_mem _ hz)
    · rw [List.dropWhile_cons_of_neg hpx]
      symm
      rw [List.filter_eq_self]
      intro y hy
      by_contra hpy
      simp only [Bool.not_eq_true', Bool.not_eq_false] at hpy
      rcases List.mem_cons.1 hy with rfl | hy
      · exact hpx hpy
      · exact hpx (hp x List.mem_cons_self y (List.mem_cons_of_mem _ hy) (hx y hy) hpy)

/-- **A list sorted by `f` splits at a bound**: first the elements up to it, then the
elements above it. -/
theorem filter_le_append_filter_lt (b : K) {l : List α} (hs : l.Pairwise fun x y => f x < f y) :
    (l.filter fun x => f x ≤ b) ++ (l.filter fun x => b < f x) = l := by
  have hc : ∀ x ∈ l, ∀ y ∈ l, f x < f y → decide (f y ≤ b) = true → decide (f x ≤ b) = true := by
    intro x _ y _ hxy hy
    simp only [decide_eq_true_eq] at hy ⊢
    exact le_trans hxy.le hy
  rw [← takeWhile_eq_filter f _ hs hc]
  have hd := dropWhile_eq_filter f (fun x => decide (f x ≤ b)) hs hc
  simp only [decide_lt_eq_not]
  rw [← hd]
  exact List.takeWhile_append_dropWhile

end Sorted

/-! ## The map -/

/-- A finite map whose bindings are listed in strictly increasing key order. -/
structure OMap (K V : Type*) [LinearOrder K] where
  entries : List (K × V)
  sorted : entries.Pairwise fun a b => a.1 < b.1

namespace OMap

/-- The map with no binding. -/
def empty : OMap K V := ⟨[], List.Pairwise.nil⟩

/-- The value bound to `k`. -/
def find? (m : OMap K V) (k : K) : Option V :=
  (m.entries.find? fun p => p.1 = k).map Prod.snd

/-- Bind `k` to `v`, replacing an earlier binding. -/
def insert (m : OMap K V) (k : K) (v : V) : OMap K V where
  entries := m.entries.filter (fun p => p.1 < k) ++ (k, v) :: m.entries.filter (fun p => k < p.1)
  sorted := by
    rw [List.pairwise_append]
    refine ⟨m.sorted.filter _, List.pairwise_cons.2 ⟨?_, m.sorted.filter _⟩, ?_⟩
    · intro p hp
      simpa using (List.mem_filter.1 hp).2
    · intro p hp q hq
      have hp' : p.1 < k := by simpa using (List.mem_filter.1 hp).2
      rcases List.mem_cons.1 hq with rfl | hq
      · exact hp'
      · have hq' : k < q.1 := by simpa using (List.mem_filter.1 hq).2
        exact lt_trans hp' hq'

/-- Drop the binding of `k`. -/
def erase (m : OMap K V) (k : K) : OMap K V where
  entries := m.entries.filter fun p => p.1 ≠ k
  sorted := m.sorted.filter _

/-- Rewrite every binding, dropping those sent to `none`. -/
def filterMap (m : OMap K V) (f : K → V → Option W) : OMap K W where
  entries := m.entries.filterMap fun p => (f p.1 p.2).map fun w => (p.1, w)
  sorted := by
    refine List.Pairwise.filterMap _ ?_ m.sorted
    intro p q hpq a ha b hb
    simp only [Option.map_eq_some_iff] at ha hb
    obtain ⟨_, -, rfl⟩ := ha
    obtain ⟨_, -, rfl⟩ := hb
    exact hpq

/-- The values, in key order. -/
def values (m : OMap K V) : List V := m.entries.map Prod.snd

/-- **A binding is listed if and only if the lookup finds it.** -/
theorem mem_entries {m : OMap K V} {k : K} {v : V} : (k, v) ∈ m.entries ↔ m.find? k = some v := by
  unfold find?
  rw [Option.map_eq_some_iff]
  constructor
  · intro h
    obtain ⟨q, hq⟩ := Option.isSome_iff_exists.1
      (List.find?_isSome.2 ⟨(k, v), h, by simp⟩ : (m.entries.find? fun p => p.1 = k).isSome)
    have hk : q.1 = k := by simpa using List.find?_some hq
    have : q = (k, v) := eq_of_sorted Prod.fst m.sorted (List.mem_of_find?_eq_some hq) h hk
    exact ⟨q, hq, by rw [this]⟩
  · rintro ⟨q, hq, rfl⟩
    have hk : q.1 = k := by simpa using List.find?_some hq
    rw [← hk]
    exact List.mem_of_find?_eq_some hq

/-- **A map is its lookups.** -/
theorem ext_find {m m' : OMap K V} (h : ∀ k, m.find? k = m'.find? k) : m = m' := by
  have he : m.entries = m'.entries := by
    apply ext_of_sorted Prod.fst m.sorted m'.sorted
    rintro ⟨k, v⟩
    rw [mem_entries, mem_entries, h]
  cases m
  cases m'
  simp only at he
  subst he
  rfl

@[simp] theorem find_empty (k : K) : (empty : OMap K V).find? k = none := rfl

/-- The bindings of one key. -/
theorem filter_key (m : OMap K V) (k : K) (p : K × V → Bool) (hp : ∀ b ∈ m.entries, p b = true ↔ b.1 = k) :
    m.entries.filter p = ((m.find? k).map fun v => (k, v)).toList := by
  refine ext_of_sorted Prod.fst (m.sorted.filter _) ?_ fun b => ?_
  · cases m.find? k <;> simp
  · rw [List.mem_filter, Option.mem_toList, Option.map_eq_some_iff]
    constructor
    · rintro ⟨hb, hk⟩
      have hk' : b.1 = k := (hp b hb).1 hk
      exact ⟨b.2, mem_entries.1 (hk' ▸ hb), by rw [← hk']⟩
    · rintro ⟨v, hv, rfl⟩
      exact ⟨mem_entries.2 hv, (hp _ (mem_entries.2 hv)).2 rfl⟩

theorem mem_insert {m : OMap K V} {k : K} {v : V} {p : K × V} :
    p ∈ (m.insert k v).entries ↔ p = (k, v) ∨ p ∈ m.entries ∧ p.1 ≠ k := by
  simp only [insert, List.mem_append, List.mem_filter, List.mem_cons, decide_eq_true_eq]
  constructor
  · rintro (⟨hp, hlt⟩ | rfl | ⟨hp, hlt⟩)
    · exact Or.inr ⟨hp, ne_of_lt hlt⟩
    · exact Or.inl rfl
    · exact Or.inr ⟨hp, (ne_of_lt hlt).symm⟩
  · rintro (rfl | ⟨hp, hne⟩)
    · exact Or.inr (Or.inl rfl)
    · rcases lt_or_gt_of_ne hne with h | h
      · exact Or.inl ⟨hp, h⟩
      · exact Or.inr (Or.inr ⟨hp, h⟩)

/-- Two lookups agree as soon as they list the same bindings. -/
theorem find_congr {m : OMap K V} {m' : OMap K V} {k : K}
    (h : ∀ v, (k, v) ∈ m.entries ↔ (k, v) ∈ m'.entries) : m.find? k = m'.find? k := by
  apply Option.ext
  intro v
  rw [← mem_entries, ← mem_entries, h]

@[simp] theorem find_insert_self (m : OMap K V) (k : K) (v : V) : (m.insert k v).find? k = some v := by
  rw [← mem_entries, mem_insert]
  exact Or.inl rfl

theorem find_insert_ne (m : OMap K V) {k k' : K} (v : V) (h : k' ≠ k) :
    (m.insert k v).find? k' = m.find? k' := by
  apply find_congr
  intro w
  rw [mem_insert]
  constructor
  · rintro (hp | ⟨hp, -⟩)
    · exact absurd (congrArg Prod.fst hp) h
    · exact hp
  · exact fun hp => Or.inr ⟨hp, h⟩

theorem find_insert (m : OMap K V) (k k' : K) (v : V) :
    (m.insert k v).find? k' = if k' = k then some v else m.find? k' := by
  split
  · rename_i h
    rw [h, find_insert_self]
  · rename_i h
    exact find_insert_ne m v h

theorem find_erase (m : OMap K V) (k k' : K) :
    (m.erase k).find? k' = if k' = k then none else m.find? k' := by
  have hmem : ∀ w, (k', w) ∈ (m.erase k).entries ↔ (k', w) ∈ m.entries ∧ k' ≠ k := by
    intro w
    simp [erase]
  split
  · rename_i h
    rw [Option.eq_none_iff_forall_ne_some]
    intro w hw
    exact ((hmem w).1 (mem_entries.2 hw)).2 h
  · rename_i h
    apply find_congr
    intro w
    rw [hmem]
    exact ⟨fun hw => hw.1, fun hw => ⟨hw, h⟩⟩

theorem find_filterMap (m : OMap K V) (f : K → V → Option W) (k : K) :
    (m.filterMap f).find? k = (m.find? k).bind (f k) := by
  apply Option.ext
  intro w
  rw [← mem_entries, Option.bind_eq_some_iff]
  simp only [filterMap, List.mem_filterMap, Option.map_eq_some_iff, Prod.mk.injEq]
  constructor
  · rintro ⟨⟨k', v⟩, hp, w', hf, rfl, rfl⟩
    exact ⟨v, mem_entries.1 hp, hf⟩
  · rintro ⟨v, hv, hf⟩
    exact ⟨(k, v), mem_entries.2 hv, w, hf, rfl, rfl⟩

end OMap

end Harikube.Sorted
