import Harikube.Spec.LogStructured

/-!
# Each key's rows form a chain

A row points with `prev_revision` at the row it replaces. `Chain` says that along the
rows of one name every row but the last has its successor in the table, so that the
unique index admits a new row only at the end of the chain.

* `Chain.insert`: a row that points at a row of its name, or is the first of its
  name, keeps the chains.
* `Chain.fill`, `Chain.compact`, `Chain.setCompactRevision`: so do the fill rows and
  compactions.
-/

namespace Harikube

namespace Kine

variable {t t' : Kine}

/-! ## Rows -/

theorem eq_of_id {x y : Row} (hx : x ∈ t.rows) (hy : y ∈ t.rows) (h : x.id = y.id) : x = y :=
  Sorted.eq_of_sorted Row.id t.sorted hx hy h

/-- What an insert adds. -/
theorem insert_eq_some {x : Row} {oldId id : ℤ} (h : t.insert x oldId = some (id, t')) :
    (∀ y ∈ t.rows, ¬ y.clash x) ∧ id = t.seq + 1 ∧
      ∃ old, t'.rows = t.rows ++ [{ x with id := t.seq + 1, oldValue := old }] := by
  unfold insert at h
  split at h
  · rename_i hc
    simp only [Option.some.injEq, Prod.mk.injEq] at h
    obtain ⟨rfl, rfl⟩ := h
    exact ⟨hc, rfl, _, rfl⟩
  · simp at h

theorem insert_seq {x : Row} {oldId id : ℤ} (h : t.insert x oldId = some (id, t')) :
    t'.seq = t.seq + 1 := by
  unfold insert at h
  split at h
  · obtain ⟨-, rfl⟩ := Prod.mk.inj (Option.some.inj h)
    rfl
  · simp at h

theorem mem_of_insert {x : Row} {oldId id : ℤ} (h : t.insert x oldId = some (id, t')) :
    ∃ old, { x with id := id, oldValue := old } ∈ t'.rows := by
  obtain ⟨-, rfl, old, hrows⟩ := insert_eq_some h
  refine ⟨old, ?_⟩
  rw [hrows]
  exact List.mem_append_right _ (List.mem_singleton.2 rfl)

theorem place_eq_some {x : Row} (h : t.place x = some t') :
    (∀ y ∈ t.rows, y.id ≠ x.id ∧ ¬ y.clash x) ∧
      t'.rows = (t.rows.filter fun y => y.id < x.id) ++ x :: t.rows.filter fun y => x.id < y.id := by
  unfold place at h
  split at h
  · rename_i hc
    rw [← Option.some.inj h]
    exact ⟨hc.2, rfl⟩
  · simp at h

theorem mem_place {x y : Row} (h : t.place x = some t') : y ∈ t'.rows ↔ y ∈ t.rows ∨ y = x := by
  obtain ⟨hfree, hrows⟩ := place_eq_some h
  rw [hrows]
  simp only [List.mem_append, List.mem_cons, List.mem_filter, decide_eq_true_eq]
  constructor
  · rintro (h | h | h)
    · exact Or.inl h.1
    · exact Or.inr h
    · exact Or.inl h.1
  · rintro (hy | hy)
    · rcases lt_or_gt_of_ne (hfree y hy).1 with hlt | hlt
      · exact Or.inl ⟨hy, hlt⟩
      · exact Or.inr (Or.inr ⟨hy, hlt⟩)
    · exact Or.inr (Or.inl hy)

theorem fill_eq_some {r : ℤ} (h : t.fill r = some t') :
    (∀ y ∈ t.rows, y.id ≠ r ∧ ¬ y.clash (fillRow r)) ∧
      ∀ y, y ∈ t'.rows ↔ y ∈ t.rows ∨ y = fillRow r :=
  ⟨(place_eq_some h).1, fun _ => mem_place h⟩

theorem fill_seq_le {r : ℤ} (h : t.fill r = some t') : t.seq ≤ t'.seq := by
  unfold fill place at h
  split at h
  · rw [← Option.some.inj h]
    exact le_max_left _ _
  · simp at h

/-- The row with `compact_rev_key`'s previous revision set. -/
def setCompact (r : ℤ) (x : Row) : Row :=
  if x.name = compactRevKey then { x with prevRevision := r } else x

theorem setCompactRevision_eq_some {r : ℤ} (h : t.setCompactRevision r = some t') :
    t'.rows = t.rows.map (setCompact r) := by
  unfold setCompactRevision at h
  simp only at h
  split at h
  · rw [← Option.some.inj h]
    rfl
  · simp at h

@[simp] theorem setCompact_id (r : ℤ) (x : Row) : (setCompact r x).id = x.id := by
  unfold setCompact
  split <;> rfl

@[simp] theorem setCompact_name (r : ℤ) (x : Row) : (setCompact r x).name = x.name := by
  unfold setCompact
  split <;> rfl

@[simp] theorem setCompact_deleted (r : ℤ) (x : Row) : (setCompact r x).deleted = x.deleted := by
  unfold setCompact
  split <;> rfl

@[simp] theorem setCompact_value (r : ℤ) (x : Row) : (setCompact r x).value = x.value := by
  unfold setCompact
  split <;> rfl

theorem setCompact_of_ne {r : ℤ} {x : Row} (h : x.name ≠ compactRevKey) : setCompact r x = x := by
  unfold setCompact
  rw [if_neg h]

theorem isFill_fillRow (r : ℤ) : isFill (fillRow r).name = true := by
  unfold isFill fillRow
  rw [List.isPrefixOf_iff_prefix]
  exact List.prefix_append _ _

theorem isFill_compactRevKey : isFill compactRevKey = false := by decide

/-! ## Chains -/

structure Chain (t : Kine) : Prop where
  prev_lt : ∀ x ∈ t.rows, x.name ≠ compactRevKey → x.prevRevision ≠ 0 → x.prevRevision < x.id
  prev_name : ∀ x ∈ t.rows, x.name ≠ compactRevKey → x.prevRevision ≠ 0 →
    ∀ y ∈ t.rows, y.id = x.prevRevision → y.name = x.name ∨ isFill y.name = true
  linked : ∀ x ∈ t.rows, ∀ z ∈ t.rows, x.name = z.name → x.name ≠ compactRevKey → x.id < z.id →
    ∃ y ∈ t.rows, y.name = x.name ∧ y.prevRevision = x.id ∧ y.id ≤ z.id
  gap : ∀ x ∈ t.rows, isFill x.name = true → x.prevRevision = 0 ∧ x.deleted = true
  compactKey : ∀ x ∈ t.rows, x.name = compactRevKey → x.deleted = false

theorem chain_empty : Chain empty :=
  ⟨fun _ h => absurd h List.not_mem_nil, fun _ h => absurd h List.not_mem_nil,
    fun _ h => absurd h List.not_mem_nil, fun _ h => absurd h List.not_mem_nil,
    fun _ h => absurd h List.not_mem_nil⟩

/-- A new row has its place at the end of the chain of its name: it is the first of its
name, or points at a row of its name. -/
def Follows (t : Kine) (x : Row) : Prop :=
  x.name ≠ compactRevKey ∧ isFill x.name = false ∧
    ((x.prevRevision = 0 ∧ ∀ y ∈ t.rows, y.name ≠ x.name) ∨
      ∃ y ∈ t.rows, y.name = x.name ∧ y.id = x.prevRevision)

theorem Chain.insert (hc : Chain t) {x : Row} {oldId id : ℤ} (hx : Follows t x)
    (h : t.insert x oldId = some (id, t')) : Chain t' := by
  obtain ⟨hclash, -, old, hrows⟩ := insert_eq_some h
  obtain ⟨hname, hfill, hplace⟩ := hx
  have hmem : ∀ y, y ∈ t'.rows ↔ y ∈ t.rows ∨ y = { x with id := t.seq + 1, oldValue := old } := by
    intro y
    rw [hrows, List.mem_append, List.mem_singleton]
  refine ⟨fun y hy hn hp => ?_, fun y hy hn hp z hz hid => ?_, fun y hy z hz hyz hn hlt => ?_,
    fun y hy hg => ?_, fun y hy hn => ?_⟩
  · rcases (hmem y).1 hy with hy | rfl
    · exact hc.prev_lt y hy hn hp
    · rcases hplace with ⟨h0, -⟩ | ⟨z, hz, -, hzid⟩
      · exact absurd h0 hp
      · have := (t.bounded z hz).2
        show x.prevRevision < t.seq + 1
        omega
  · rcases (hmem y).1 hy with hy | rfl
    · rcases (hmem z).1 hz with hz | rfl
      · exact hc.prev_name y hy hn hp z hz hid
      · -- an old row does not point at the new one
        have h1 := hc.prev_lt y hy hn hp
        have h2 := (t.bounded y hy).2
        have h3 : t.seq + 1 = y.prevRevision := hid
        omega
    · rcases hplace with ⟨h0, -⟩ | ⟨w, hw, hwn, hwid⟩
      · exact absurd h0 hp
      · rcases (hmem z).1 hz with hz | rfl
        · have hzw : z = w := eq_of_id hz hw (hid.trans hwid.symm)
          rw [hzw]
          exact Or.inl hwn
        · exact Or.inl rfl
  · rcases (hmem y).1 hy with hy | rfl
    · rcases (hmem z).1 hz with hz | rfl
      · obtain ⟨w, hw, hwp⟩ := hc.linked y hy z hz hyz hn hlt
        exact ⟨w, (hmem w).2 (Or.inl hw), hwp⟩
      · rcases hplace with ⟨-, hfirst⟩ | ⟨w, hw, hwn, hwid⟩
        · exact absurd hyz (hfirst y hy)
        · -- the row the new one points at is the last of its name
          have hyn : y.name = w.name := hyz.trans hwn.symm
          rcases lt_trichotomy y.id w.id with hl | hl | hl
          · obtain ⟨v, hv, hvn, hvp, hvid⟩ := hc.linked y hy w hw hyn hn hl
            have := (t.bounded w hw).2
            exact ⟨v, (hmem v).2 (Or.inl hv), hvn, hvp, by show v.id ≤ t.seq + 1; omega⟩
          · exact ⟨_, (hmem _).2 (Or.inr rfl), hyz.symm, by rw [hl]; exact hwid.symm, le_rfl⟩
          · obtain ⟨v, hv, hvn, hvp, -⟩ := hc.linked w hw y hy hyn.symm (hyn ▸ hn) hl
            exact absurd ⟨hvn.trans hwn, hvp.trans hwid⟩ (hclash v hv)
    · rcases (hmem z).1 hz with hz | rfl
      · have h1 : t.seq + 1 < z.id := hlt
        have h2 := (t.bounded z hz).2
        omega
      · exact absurd hlt (lt_irrefl _)
  · rcases (hmem y).1 hy with hy | rfl
    · exact hc.gap y hy hg
    · exact absurd hg (by rw [show isFill x.name = false from hfill]; simp)
  · rcases (hmem y).1 hy with hy | rfl
    · exact hc.compactKey y hy hn
    · exact absurd hn hname

theorem Chain.fill (hc : Chain t) {r : ℤ} (h : t.fill r = some t') : Chain t' := by
  obtain ⟨hfree, hmem⟩ := fill_eq_some h
  have hgap := isFill_fillRow r
  have hname : (fillRow r).name ≠ compactRevKey := by
    intro he
    rw [he, isFill_compactRevKey] at hgap
    exact absurd hgap Bool.false_ne_true
  -- no other row has the name of the new one
  have hother : ∀ y ∈ t.rows, y.name ≠ (fillRow r).name := by
    intro y hy he
    have hg : isFill y.name = true := by rw [he]; exact hgap
    exact (hfree y hy).2 ⟨he, (hc.gap y hy hg).1⟩
  refine ⟨fun y hy hn hp => ?_, fun y hy hn hp z hz hid => ?_, fun y hy z hz hyz hn hlt => ?_,
    fun y hy hg => ?_, fun y hy hn => ?_⟩
  · rcases (hmem y).1 hy with hy | rfl
    · exact hc.prev_lt y hy hn hp
    · exact absurd rfl hp
  · rcases (hmem y).1 hy with hy | rfl
    · rcases (hmem z).1 hz with hz | rfl
      · exact hc.prev_name y hy hn hp z hz hid
      · exact Or.inr hgap
    · exact absurd rfl hp
  · rcases (hmem y).1 hy with hy | rfl
    · rcases (hmem z).1 hz with hz | rfl
      · obtain ⟨w, hw, hwp⟩ := hc.linked y hy z hz hyz hn hlt
        exact ⟨w, (hmem w).2 (Or.inl hw), hwp⟩
      · exact absurd hyz (hother y hy)
    · rcases (hmem z).1 hz with hz | rfl
      · exact absurd hyz.symm (hother z hz)
      · exact absurd hlt (lt_irrefl _)
  · rcases (hmem y).1 hy with hy | rfl
    · exact hc.gap y hy hg
    · exact ⟨rfl, rfl⟩
  · rcases (hmem y).1 hy with hy | rfl
    · exact hc.compactKey y hy hn
    · exact absurd hn hname

/-! ## Compaction -/

theorem mem_compactIds {target i : ℤ} :
    i ∈ t.compactIds target ↔
      (∃ x ∈ t.rows, x.name ≠ compactRevKey ∧ x.prevRevision ≠ 0 ∧ x.id ≤ target ∧ x.prevRevision = i) ∨
      ∃ x ∈ t.rows, x.deleted = true ∧ x.id ≤ target ∧ x.id = i := by
  unfold compactIds
  simp only [List.mem_append, List.mem_map, List.mem_filter, decide_eq_true_eq, ne_eq]
  constructor
  · rintro (⟨x, ⟨hx, h1, h2, h3⟩, h4⟩ | ⟨x, ⟨hx, h1, h2⟩, h3⟩)
    · exact Or.inl ⟨x, hx, h1, h2, h3, h4⟩
    · exact Or.inr ⟨x, hx, h1, h2, h3⟩
  · rintro (⟨x, hx, h1, h2, h3, h4⟩ | ⟨x, hx, h1, h2, h3⟩)
    · exact Or.inl ⟨x, ⟨hx, h1, h2, h3⟩, h4⟩
    · exact Or.inr ⟨x, ⟨hx, h1, h2⟩, h3⟩

theorem mem_compact {target : ℤ} {x : Row} :
    x ∈ (t.compact target).rows ↔ x ∈ t.rows ∧ x.id ∉ t.compactIds target := by
  unfold compact keep
  simp only [List.mem_filter, decide_eq_true_eq]

/-- Only rows up to the target are deleted. -/
theorem Chain.le_of_compactIds (hc : Chain t) {target i : ℤ} (hi : i ∈ t.compactIds target) :
    i ≤ target := by
  rcases mem_compactIds.1 hi with ⟨x, hx, hn, hp, hle, rfl⟩ | ⟨x, -, -, hle, rfl⟩
  · have := hc.prev_lt x hx hn hp
    omega
  · exact hle

/-- A row that is not a tombstone is deleted only if a later row of its name, up to the
target, is in the table. -/
theorem Chain.superseded_of_compactIds (hc : Chain t) {target : ℤ} {x : Row} (hx : x ∈ t.rows)
    (hd : x.deleted = false) (hi : x.id ∈ t.compactIds target) :
    x.name ≠ compactRevKey ∧ ∃ y ∈ t.rows, y.name = x.name ∧ x.id < y.id ∧ y.id ≤ target := by
  rcases mem_compactIds.1 hi with ⟨y, hy, hn, hp, hle, hyp⟩ | ⟨y, hy, hyd, -, hyx⟩
  · have hlt := hc.prev_lt y hy hn hp
    rcases hc.prev_name y hy hn hp x hx hyp.symm with hname | hfill
    · exact ⟨hname ▸ hn, y, hy, hname.symm, hyp ▸ hlt, hle⟩
    · have := (hc.gap x hx hfill).2
      rw [hd] at this
      exact absurd this Bool.false_ne_true
  · rw [eq_of_id hy hx hyx, hd] at hyd
    exact absurd hyd Bool.false_ne_true

/-- A row that is kept, and has a later row of its name, has its successor kept as well. -/
theorem Chain.successor_kept (hc : Chain t) {target : ℤ} {x z : Row} (hx : x ∈ (t.compact target).rows)
    (hz : z ∈ t.rows) (hxz : x.name = z.name) (hn : x.name ≠ compactRevKey) (hlt : x.id < z.id) :
    ∃ y ∈ (t.compact target).rows, y.name = x.name ∧ y.prevRevision = x.id ∧ y.id ≤ z.id := by
  obtain ⟨hxt, hkept⟩ := mem_compact.1 hx
  obtain ⟨y, hy, hyn, hyp, hyz⟩ := hc.linked x hxt z hz hxz hn hlt
  -- were the successor at or below the target, it would have had the row deleted
  have hbeyond : target < y.id := by
    by_contra hle
    have hpos := (t.bounded x hxt).1
    exact hkept (mem_compactIds.2 (Or.inl ⟨y, hy, hyn ▸ hn, by omega, by omega, hyp⟩))
  refine ⟨y, mem_compact.2 ⟨hy, fun hi => ?_⟩, hyn, hyp, hyz⟩
  have := hc.le_of_compactIds hi
  omega

theorem Chain.compact (hc : Chain t) (target : ℤ) : Chain (t.compact target) := by
  have hsub : ∀ x, x ∈ (t.compact target).rows → x ∈ t.rows := fun x hx => (mem_compact.1 hx).1
  refine ⟨fun x hx => hc.prev_lt x (hsub x hx), fun x hx hn hp y hy => ?_, fun x hx z hz hxz hn hlt => ?_,
    fun x hx => hc.gap x (hsub x hx), fun x hx => hc.compactKey x (hsub x hx)⟩
  · exact hc.prev_name x (hsub x hx) hn hp y (hsub y hy)
  · exact hc.successor_kept hx (hsub z hz) hxz hn hlt

theorem Chain.setCompactRevision (hc : Chain t) {r : ℤ} (h : t.setCompactRevision r = some t') :
    Chain t' := by
  have hrows := setCompactRevision_eq_some h
  have hmem : ∀ x, x ∈ t'.rows → ∃ x₀ ∈ t.rows, setCompact r x₀ = x := by
    intro x hx
    rw [hrows] at hx
    exact List.mem_map.1 hx
  have hmem' : ∀ x ∈ t.rows, setCompact r x ∈ t'.rows := by
    intro x hx
    rw [hrows]
    exact List.mem_map_of_mem hx
  refine ⟨fun x hx hn hp => ?_, fun x hx hn hp y hy hid => ?_, fun x hx z hz hxz hn hlt => ?_,
    fun x hx hg => ?_, fun x hx hn => ?_⟩
  · obtain ⟨x, hx₀, rfl⟩ := hmem x hx
    rw [setCompact_name] at hn
    rw [setCompact_of_ne hn] at hp ⊢
    exact hc.prev_lt x hx₀ hn hp
  · obtain ⟨x, hx₀, rfl⟩ := hmem x hx
    obtain ⟨y, hy₀, rfl⟩ := hmem y hy
    rw [setCompact_name] at hn
    rw [setCompact_of_ne hn] at hp hid ⊢
    rw [setCompact_id] at hid
    rw [setCompact_name]
    exact hc.prev_name x hx₀ hn hp y hy₀ hid
  · obtain ⟨x, hx₀, rfl⟩ := hmem x hx
    obtain ⟨z, hz₀, rfl⟩ := hmem z hz
    simp only [setCompact_name, setCompact_id] at hxz hn hlt ⊢
    obtain ⟨y, hy, hyn, hyp, hyz⟩ := hc.linked x hx₀ z hz₀ hxz hn hlt
    refine ⟨y, ?_, hyn, hyp, hyz⟩
    have hy' := hmem' y hy
    rwa [setCompact_of_ne (hyn ▸ hn)] at hy'
  · obtain ⟨x, hx₀, rfl⟩ := hmem x hx
    rw [setCompact_name] at hg
    have hn : x.name ≠ compactRevKey := by
      intro he
      rw [he, isFill_compactRevKey] at hg
      exact absurd hg Bool.false_ne_true
    rw [setCompact_of_ne hn]
    exact hc.gap x hx₀ hg
  · obtain ⟨x, hx₀, rfl⟩ := hmem x hx
    rw [setCompact_name] at hn
    rw [setCompact_deleted]
    exact hc.compactKey x hx₀ hn

end Kine

end Harikube
