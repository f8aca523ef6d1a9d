import Harikube.Spec.Resources
import Harikube.Spec.SelectorSql

/-!
# Paths in keys

A key is read by splitting it at slashes and by trimming a text at its start or end.

* `splitOn_segment`: the first part of a key is what stands before its first slash.
* `trimPrefix_append`, `trimSuffix_append`: what was put on is taken off again.
* `segment_unique`: the first part of a key is determined by the key.
-/

namespace Harikube

open SelectorSql (trimSuffix)

/-- A part of a key. -/
def Segment (s : Bytes) : Prop := s ≠ [] ∧ slash ∉ s

theorem ascii_slash : ascii "/" = [slash] := by decide

theorem splitOn_append_cons (c : Fin 256) (xs as : Bytes) :
    (xs ++ c :: as).splitOn c = xs.splitOn c ++ as.splitOn c :=
  List.splitOnP_append_cons xs as (by simp)

theorem splitOn_segment {w : Bytes} (hw : slash ∉ w) (l : Bytes) :
    (w ++ slash :: l).splitOn slash = w :: l.splitOn slash := by
  rw [splitOn_append_cons, List.splitOn_eq_singleton hw]
  rfl

theorem trimPrefix_append (p l : Bytes) : trimPrefix (p ++ l) p = l := by
  have hp : p.isPrefixOf (p ++ l) = true := List.isPrefixOf_iff_prefix.2 (List.prefix_append p l)
  unfold trimPrefix
  rw [if_pos hp, List.drop_left]

theorem trimPrefix_of_not {p l : Bytes} (h : ¬ p <+: l) : trimPrefix l p = l := by
  unfold trimPrefix
  rw [if_neg]
  exact fun hp => h (List.isPrefixOf_iff_prefix.1 hp)

theorem trimSuffix_append (l s : Bytes) : trimSuffix (l ++ s) s = l := by
  have hs : s.isSuffixOf (l ++ s) = true := List.isSuffixOf_iff_suffix.2 (List.suffix_append l s)
  unfold trimSuffix
  rw [if_pos hs, List.length_append, Nat.add_sub_cancel, List.take_left]

/-- Two words with a slash behind them at the start of one text are the same. -/
theorem segment_unique {w w' l l' : Bytes} (hw : slash ∉ w) (hw' : slash ∉ w')
    (h : w ++ slash :: l = w' ++ slash :: l') : w = w' := by
  have hs := congrArg (List.splitOn slash) h
  rw [splitOn_segment hw, splitOn_segment hw'] at hs
  exact (List.cons.inj hs).1

end Harikube
