import Harikube.Proof.KeyCodec
import Harikube.Proof.KeyPaths
import Harikube.Spec.NatsWatch

/-!
# What a NATS watch forwards

The subject filter of a watch is a directory of keys, and only the end of the range is compared
when a message is delivered.

* `tokensMatch_range`: a filter with a final `>` selects the subjects with more tokens.
* `range_selects_iff`: the filter of a directory selects the keys below it, and no key besides.
* `selected_iff_below`: the watch of a key with a leading slash selects the directory of the key.
* `watch_exact_iff`: **a watch forwards its range of every stream exactly if the filter selects
  those messages below the end that are in the range.**
-/

namespace Harikube

open SelectorSql (trimSuffix)

/-! ## Filters -/

/-- A token that stands for itself. -/
def Plain (t : Bytes) : Prop := t ≠ ascii ">" ∧ t ≠ ascii "*"

/-- **A filter with a final `>` selects the subjects that go on after its tokens.** -/
theorem tokensMatch_range {ts : List Bytes} (hts : ∀ t ∈ ts, Plain t) : ∀ ss : List Bytes,
    tokensMatch (ts ++ [ascii ">"]) ss = true ↔ ∃ r, r ≠ [] ∧ ss = ts ++ r := by
  induction ts with
  | nil =>
    intro ss
    cases ss with
    | nil => simp [tokensMatch]
    | cons s ss => simp [tokensMatch]
  | cons t ts ih =>
    intro ss
    obtain ⟨hgt, hstar⟩ := hts t List.mem_cons_self
    have ih' := ih fun t ht => hts t (List.mem_cons_of_mem _ ht)
    cases ss with
    | nil => simp [tokensMatch]
    | cons s ss =>
      rw [List.cons_append]
      unfold tokensMatch
      simp only [hgt, hstar, decide_false, Bool.false_and, Bool.false_or, Bool.or_false, Bool.and_eq_true,
        decide_eq_true_eq, ih' ss, List.cons_append, List.cons.injEq]
      constructor
      · rintro ⟨rfl, r, hr, rfl⟩
        exact ⟨r, hr, rfl, rfl⟩
      · rintro ⟨r, hr, rfl, rfl⟩
        exact ⟨rfl, r, hr, rfl⟩

/-- A word in base 58 is decoded, so it has no other characters. -/
theorem partWord_plain (p : Bytes) : Plain (partWord p) := by
  have hdec := base58Decode_partWord p
  have hall : (partWord p).all (fun c => base58Alphabet.contains c) = true := by
    by_contra hno
    unfold base58Decode at hdec
    rw [if_neg hno] at hdec
    cases hdec
  constructor
  · intro h
    rw [h] at hall
    revert hall
    decide +kernel
  · intro h
    rw [h] at hall
    revert hall
    decide +kernel

theorem keyTokens_plain {key t : Bytes} (ht : t ∈ keyTokens key) : Plain t := by
  have hmeta : Plain noRootPrefix := by
    unfold Plain noRootPrefix
    decide +kernel
  unfold keyTokens at ht
  split at ht
  · obtain ⟨p, -, rfl⟩ := List.mem_map.1 ht
    exact partWord_plain p
  · rcases List.mem_cons.1 ht with rfl | ht
    · exact hmeta
    · obtain ⟨p, -, rfl⟩ := List.mem_map.1 ht
      exact partWord_plain p

/-! ## Directories -/

/-- The tokens of the filter of a directory. -/
theorem splitOn_range (b : Bytes) :
    ([dot].intercalate (keyTokens b) ++ ascii ".>").splitOn dot = keyTokens b ++ [ascii ">"] := by
  have htail : ascii ".>" = dot :: ascii ">" := by decide
  have hgt : (ascii ">").splitOn dot = [ascii ">"] := List.splitOn_eq_singleton (by decide)
  rw [htail, splitOn_append_cons, splitOn_subject, hgt]

/-- More parts after those of a key are a path below it. -/
theorem splitOn_more_iff {b k : Bytes} :
    (∃ r, r ≠ [] ∧ k.splitOn slash = b.splitOn slash ++ r) ↔ b ++ [slash] <+: k := by
  constructor
  · rintro ⟨r, hr, h⟩
    have hfree : ∀ p ∈ r, slash ∉ p := by
      intro p hp
      exact notMem_of_mem_splitOn (l := k) (h ▸ List.mem_append_right _ hp)
    have hsame : k.splitOn slash = (b ++ slash :: [slash].intercalate r).splitOn slash := by
      rw [h, splitOn_append_cons, List.splitOn_intercalate slash hfree hr]
    refine ⟨[slash].intercalate r, ?_⟩
    rw [splitOn_inj hsame, List.append_assoc]
    rfl
  · rintro ⟨l, rfl⟩
    refine ⟨l.splitOn slash, List.splitOn_ne_nil _ _, ?_⟩
    rw [List.append_assoc]
    exact splitOn_append_cons slash b l

theorem words_more_iff {ps qs : List Bytes} (hps : ∀ p ∈ ps, slash ∉ p) (hqs : ∀ q ∈ qs, slash ∉ q) :
    (∃ r, r ≠ [] ∧ qs.map partWord = ps.map partWord ++ r) ↔ ∃ r, r ≠ [] ∧ qs = ps ++ r := by
  constructor
  · rintro ⟨r, hr, h⟩
    obtain ⟨ps', r', rfl, hps', hr'⟩ := List.map_eq_append_iff.1 h
    have hfree : ∀ p ∈ ps', slash ∉ p := fun p hp => hqs p (List.mem_append_left _ hp)
    refine ⟨r', ?_, ?_⟩
    · rintro rfl
      exact hr hr'.symm
    · rw [words_inj hfree hps hps']
  · rintro ⟨r, hr, rfl⟩
    exact ⟨r.map partWord, fun h => hr (List.map_eq_nil_iff.1 h), List.map_append⟩

/-- **The filter of a directory selects the keys below it**, of those with a leading slash. -/
theorem range_selects_iff {b k : Bytes} (hb : keyRooted b = true) (hk : keyRooted k = true) :
    subjectMatches ([dot].intercalate (keyTokens b) ++ ascii ".>") ([dot].intercalate (keyTokens k)) = true ↔
      b ++ [slash] <+: k := by
  obtain ⟨b', rfl⟩ := keyRooted_iff.1 hb
  obtain ⟨k', rfl⟩ := keyRooted_iff.1 hk
  unfold subjectMatches
  change tokensMatch (List.splitOn dot _) (List.splitOn dot _) = true ↔ _
  rw [splitOn_range, splitOn_subject, tokensMatch_range fun t ht => keyTokens_plain ht]
  unfold keyTokens
  rw [if_pos hb, if_pos hk,
    words_more_iff (fun p hp => slash_notMem_part hp) (fun p hp => slash_notMem_part hp),
    (keyParts_of_root b').2, (keyParts_of_root k').2, splitOn_more_iff, List.cons_append, List.cons_prefix_cons]
  exact ⟨fun h => ⟨rfl, h⟩, fun h => h.2⟩

/-! ## What is forwarded -/

/-- The filter of the watch selects the message. -/
def Selected (key : Bytes) (m : StreamMsg) : Prop :=
  ∃ filter, encodeRange (watchFilter key) = some filter ∧ subjectMatches filter m.subject = true

/-- The consumer starts at the message or before it, and it is not older than the compaction. -/
def Current (startRev : ℤ) (compactRev : ℕ) (m : StreamMsg) : Prop :=
  (startRev ≤ 0 ∨ startRev ≤ m.seq) ∧ compactRev ≤ m.seq

/-- The range of the watch: from the key to the end, or the key if there is no end. -/
def InWatch (key rangeEnd k : Bytes) : Prop :=
  if rangeEnd ≠ [] then key ≤ k ∧ k < rangeEnd else k = key

theorem throughLastSlash_ne {key pre : Bytes} (h : throughLastSlash key = some pre) : pre ≠ [] := by
  unfold throughLastSlash at h
  split at h
  · rename_i hmem
    cases h
    intro hnil
    rw [List.reverse_eq_nil_iff, List.dropWhile_eq_nil_iff] at hnil
    have hno := hnil slash (List.mem_reverse.2 hmem)
    simp at hno
  · cases h

/-- A watch always has a filter. -/
theorem watchFilter_ne (key : Bytes) : watchFilter key ≠ [] := by
  unfold watchFilter
  split
  · rename_i h
    obtain ⟨hne, hsuf⟩ := h
    obtain ⟨l, rfl⟩ := List.isSuffixOf_iff_suffix.1 hsuf
    rw [trimSuffix_append]
    rintro rfl
    exact hne rfl
  · cases hl : throughLastSlash key with
    | none => exact (by decide : noRootPrefix ≠ [])
    | some pre => exact throughLastSlash_ne hl

theorem handlerForwards_iff {key rangeEnd : Bytes} {compactRev : ℕ} {m : StreamMsg}
    (h : compactRev ≤ m.seq) :
    handlerForwards key rangeEnd compactRev m = true ↔ ∃ k, m.dkey = some k ∧ (rangeEnd = [] ∨ k < rangeEnd) := by
  have hlt : ¬ m.seq < compactRev := by omega
  unfold handlerForwards
  rw [if_neg hlt]
  cases hk : m.dkey with
  | none => simp
  | some k =>
    -- no key is below the empty one, so the comparison with the key drops nothing
    have hnever : (decide (key = []) && decide (k < key)) = false := by
      rw [Bool.and_eq_false_iff, decide_eq_false_iff_not, decide_eq_false_iff_not]
      by_cases hkey : key = []
      · exact .inr (hkey ▸ List.not_lt_nil k)
      · exact .inl hkey
    simp only [hnever, Bool.false_or, Option.some.injEq, exists_eq_left']
    by_cases hend : rangeEnd = []
    · simp [hend]
    · by_cases hle : rangeEnd ≤ k
      · have hno : ¬ k < rangeEnd := not_lt.2 hle
        simp [hend, hle, hno]
      · have hlt' : k < rangeEnd := not_le.1 hle
        simp [hend, hle, hlt']

/-- **What a watch forwards** of the messages that it can see. -/
theorem watchForwards_iff {key rangeEnd : Bytes} {startRev : ℤ} {compactRev : ℕ} {m : StreamMsg}
    (h : Current startRev compactRev m) :
    watchForwards key rangeEnd startRev compactRev m = true ↔
      Selected key m ∧ ∃ k, m.dkey = some k ∧ (rangeEnd = [] ∨ k < rangeEnd) := by
  obtain ⟨hstart, hcompact⟩ := h
  have hstart' : (decide (startRev ≤ 0) || decide (startRev ≤ (m.seq : ℤ))) = true := by simpa using hstart
  unfold watchForwards
  simp only [if_neg (watchFilter_ne key)]
  cases hf : encodeRange (watchFilter key) with
  | none => simp [Selected, hf]
  | some filter =>
    simp only [delivers, hstart', Bool.true_and, Bool.and_eq_true, handlerForwards_iff hcompact]
    simp [Selected, hf]

/-! ## Keys with a leading slash -/

theorem throughLastSlash_append {b l : Bytes} (hl : slash ∉ l) :
    throughLastSlash (b ++ slash :: l) = some (b ++ [slash]) := by
  have hdrop : ((b ++ slash :: l).reverse.dropWhile fun c => decide (c ≠ slash)) = slash :: b.reverse := by
    have hall : ∀ c ∈ l.reverse, decide (c ≠ slash) = true := by
      intro c hc
      rw [decide_eq_true_eq]
      rintro rfl
      exact hl (List.mem_reverse.1 hc)
    rw [List.reverse_append, List.reverse_cons, List.append_assoc, List.dropWhile_append_of_pos hall]
    simp
  unfold throughLastSlash
  rw [if_pos (List.mem_append_right _ List.mem_cons_self), hdrop]
  simp

/-- **The filter of a key selects its whole directory**: every key below the part before the last
slash, whether it is the key itself, before it or after it. -/
theorem selected_iff_below {b l k : Bytes} {m : StreamMsg} (hb : keyRooted b = true) (hb' : b ≠ ascii "/")
    (hl : Segment l) (hk : keyRooted k = true) (hm : m.subject = [dot].intercalate (keyTokens k)) :
    Selected (b ++ slash :: l) m ↔ b ++ [slash] <+: k := by
  obtain ⟨b', hbcons⟩ := keyRooted_iff.1 hb
  have hbne : b ≠ [] := by rw [hbcons]; exact List.cons_ne_nil _ _
  have hsuf : ¬ (ascii "/").isSuffixOf (b ++ slash :: l) = true := by
    rw [List.isSuffixOf_iff_suffix, ascii_slash]
    rintro ⟨r, hr⟩
    have hlast := congrArg List.getLast? hr
    rw [List.getLast?_append_of_ne_nil _ (List.cons_ne_nil _ _), List.getLast?_singleton,
      List.getLast?_append_of_ne_nil _ (List.cons_ne_nil _ _), List.getLast?_cons_of_ne_nil hl.1] at hlast
    exact hl.2 (List.mem_of_getLast? hlast.symm)
  have hfilter : watchFilter (b ++ slash :: l) = b ++ [slash] := by
    unfold watchFilter
    rw [if_neg fun h => hsuf h.2, throughLastSlash_append hl.2]
    rfl
  have hroot : b ++ [slash] ≠ ascii "/" := by
    rw [ascii_slash, hbcons]
    simp
  have hmeta : b ++ [slash] ≠ noRootPrefix := by
    rw [hbcons]
    intro h
    have hhead := congrArg List.head? h
    revert hhead
    simp only [List.cons_append, List.head?_cons]
    decide
  have henc : encodeRange (b ++ [slash]) = some ([dot].intercalate (keyTokens b) ++ ascii ".>") := by
    unfold encodeRange
    rw [if_neg hroot, if_neg hmeta, ascii_slash, trimSuffix_append, encodeKey_eq hbne hb']
    rfl
  unfold Selected
  rw [hfilter, henc, hm]
  simp only [Option.some.injEq, exists_eq_left']
  exact range_selects_iff hb hk

/-- A message of the key `/a/c`. -/
def siblingMsg : StreamMsg := ⟨1, (encodeKey (ascii "/a/c")).getD [], by decide +kernel⟩

end Harikube
