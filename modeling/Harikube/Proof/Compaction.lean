import Harikube.Proof.Calls

/-!
# Compaction is invisible at and above its target

`CompactSQL` deletes the rows that rows up to the target point at, and the tombstones
up to it.

* `latest_compact`: for each name the last row at or above the target, if it is not a
  tombstone, is the same before and after: a row that is kept although a later row of
  its name is gone has its successor above the target.
* `after_compact`: the rows above the target all stay.
* `compact_preserves_reads`: **so every list, get, count and `After` at or above the
  target returns the same rows.**
-/

namespace Harikube

open Kine

namespace Kine

variable {t : Kine} {target : ℤ}

/-- The rows of `compact_rev_key` are never deleted. -/
theorem Chain.compactKey_kept (hc : Chain t) {x : Row} (hx : x ∈ t.rows) (hn : x.name = compactRevKey) :
    x ∈ (t.compact target).rows := by
  refine mem_compact.2 ⟨hx, fun hi => ?_⟩
  exact (hc.superseded_of_compactIds hx (hc.compactKey x hx hn) hi).1 hn

theorem latest_compact (hc : Chain t) {upTo : Option ℤ} (hr : ∀ r ∈ upTo, target ≤ r) (sel : Bytes → Bool) :
    ((t.compact target).latest sel upTo).filter (fun x => !x.deleted) =
      (t.latest sel upTo).filter fun x => !x.deleted := by
  have hmono : ∀ {a b : ℤ}, a ≤ b → (upTo.all fun r => b ≤ r) = true → (upTo.all fun r => a ≤ r) = true := by
    intro a b hab hb
    cases upTo with
    | none => rfl
    | some r =>
      simp only [Option.all_some, decide_eq_true_eq] at hb ⊢
      omega
  refine Sorted.ext_of_sorted Row.id ((latest_sorted _ _ _).filter _) ((latest_sorted _ _ _).filter _)
    fun x => ?_
  simp only [List.mem_filter, mem_latest, Bool.not_eq_true']
  constructor
  · rintro ⟨⟨hx, hxr, hs, hmax⟩, hd⟩
    obtain ⟨hxt, -⟩ := mem_compact.1 hx
    refine ⟨⟨hxt, hxr, hs, fun y hy hyr hyn => ?_⟩, hd⟩
    by_contra hlt
    rw [not_le] at hlt
    by_cases hn : x.name = compactRevKey
    · have := hmax y (hc.compactKey_kept hy (hyn.trans hn)) hyr hyn
      omega
    · -- the successor of the row is kept, and is a later row of its name
      obtain ⟨w, hw, hwn, hwp, hwy⟩ := hc.successor_kept hx hy hyn.symm hn hlt
      have hpos := (t.bounded x hxt).1
      have hprev := hc.prev_lt w (mem_compact.1 hw).1 (hwn ▸ hn) (by omega)
      have := hmax w hw (hmono hwy hyr) hwn
      omega
  · rintro ⟨⟨hx, hxr, hs, hmax⟩, hd⟩
    have hkept : x ∈ (t.compact target).rows := by
      refine mem_compact.2 ⟨hx, fun hi => ?_⟩
      obtain ⟨-, y, hy, hyn, hlt, hyt⟩ := hc.superseded_of_compactIds hx hd hi
      have hyr : (upTo.all fun r => y.id ≤ r) = true := by
        cases upTo with
        | none => rfl
        | some r =>
          have := hr r rfl
          simp only [Option.all_some, decide_eq_true_eq]
          omega
      have := hmax y hy hyr hyn
      omega
    exact ⟨⟨hkept, hxr, hs, fun y hy hyr hyn => hmax y (mem_compact.1 hy).1 hyr hyn⟩, hd⟩

theorem list_compact (hc : Chain t) {upTo : Option ℤ} (hr : ∀ r ∈ upTo, target ≤ r) (sel : Bytes → Bool)
    (limit : ℤ) (cond : Row → Bool) :
    (t.compact target).list sel upTo limit false cond = t.list sel upTo limit false cond := by
  unfold list
  simp only [Bool.or_false]
  rw [latest_compact hc hr]

theorem getSingle_compact (hc : Chain t) (name : Bytes) :
    (t.compact target).getSingle name false = t.getSingle name false := by
  unfold getSingle
  simp only [Bool.or_false]
  exact latest_compact hc (fun r hr => absurd hr (by simp)) _

theorem count_compact (hc : Chain t) {upTo : Option ℤ} (hr : ∀ r ∈ upTo, target ≤ r)
    (key rangeEnd : Bytes) (cond : Row → Bool) :
    (t.compact target).count key rangeEnd upTo cond = t.count key rangeEnd upTo cond := by
  unfold count
  rw [latest_compact hc hr]

theorem after_compact (hc : Chain t) {r : ℤ} (hr : target ≤ r) (key rangeEnd : Bytes) (limit : ℤ) :
    (t.compact target).after key rangeEnd r limit = t.after key rangeEnd r limit := by
  unfold after
  congr 1
  show ((t.rows.filter _).filter _) = _
  rw [List.filter_filter]
  apply List.filter_congr
  intro x hx
  by_cases hlt : r < x.id
  · have hkept : x.id ∉ t.compactIds target := by
      intro hi
      have := hc.le_of_compactIds hi
      omega
    simp [hkept]
  · simp [hlt]

end Kine

namespace LogStructured

/-- **Compaction preserves reads.** After any calls, fills and compactions on a started
database, a list or get at a revision at or above the target, or of the current state, a
count, and `After` return the same rows before and after `CompactSQL`. -/
theorem compact_preserves_reads (c : Codec) (now : ℤ) (ops : List SqlOp)
    (hops : ops.all SqlOp.plain = true) (target r : ℤ) (hr : target ≤ r) (key rangeEnd : Bytes) (limit : ℤ)
    (cond : Row → Bool) :
    let t := (run c now ops).db.kine
    SqlLog.listRows (t.compact target) key rangeEnd limit r false cond =
      SqlLog.listRows t key rangeEnd limit r false cond ∧
    SqlLog.listRows (t.compact target) key rangeEnd limit 0 false cond =
      SqlLog.listRows t key rangeEnd limit 0 false cond ∧
    (t.compact target).count key rangeEnd (some r) cond = t.count key rangeEnd (some r) cond ∧
    (t.compact target).count key rangeEnd none cond = t.count key rangeEnd none cond ∧
    (t.compact target).after key rangeEnd r limit = t.after key rangeEnd r limit := by
  intro t
  have hc : Chain t := (run_ok c now ops hops).chain
  have hsome : ∀ r' ∈ some r, target ≤ r' := by
    intro r' hr'
    rw [← Option.some.inj hr']
    exact hr
  have hnone : ∀ r' ∈ (none : Option ℤ), target ≤ r' := fun r' hr' => absurd hr' (by simp)
  have hcurrent : ∀ k e, SqlLog.listRows (t.compact target) k e limit 0 false cond =
      SqlLog.listRows t k e limit 0 false cond := by
    intro k e
    unfold SqlLog.listRows
    rw [if_pos rfl, if_pos rfl, getSingle_compact hc, list_compact hc hnone]
  refine ⟨?_, hcurrent key rangeEnd, count_compact hc hsome key rangeEnd cond,
    count_compact hc hnone key rangeEnd cond, after_compact hc hr key rangeEnd limit⟩
  by_cases h0 : r = 0
  · rw [h0]
    exact hcurrent key rangeEnd
  · unfold SqlLog.listRows
    rw [if_neg h0, if_neg h0, list_compact hc hsome]

theorem compact_preserves_reads_tombstone :
    let ops : List SqlOp := [.create 0 (ascii "/a") (ascii "1") 0, .update 0 (ascii "/a") (ascii "2") 3 0,
      .create 0 (ascii "/b") (ascii "3") 0, .delete 0 (ascii "/b") 5]
    let t := (run plainCodec 0 ops).db.kine
    ((t.compact 6).rows.map Row.id = [1, 2, 4] ∧ t.rows.map Row.id = [1, 2, 3, 4, 5, 6]) ∧
    SqlLog.listRows (t.compact 6) (ascii "/") (ascii "0") 0 6 false (fun _ => true) =
      SqlLog.listRows t (ascii "/") (ascii "0") 0 6 false fun _ => true := by
  refine ⟨by decide, ?_⟩
  exact (compact_preserves_reads plainCodec 0 _ (by decide) 6 6 le_rfl _ _ _ _).1

end LogStructured

end Harikube
