import Harikube.Spec.Server

/-!
# Versions in values

`EncodeVersion` puts a decimal number before the value, and `DecodeVersion` reads it back
with `strconv.ParseInt`.

* `parseInt_toString`: the number that has been printed is parsed.
* `decodeVersion_encodeVersion`: **what has been encoded is decoded**, for every `int64`.
-/

namespace Harikube

/-- The byte of an ASCII character. -/
theorem ofNat_val {c : Char} (hc : c.toNat < 256) : (Fin.ofNat 256 c.toNat).val = c.toNat :=
  Nat.mod_eq_of_lt hc

theorem isDigit_bounds {c : Char} (hc : c.isDigit = true) : 48 ≤ c.toNat ∧ c.toNat ≤ 57 := by
  unfold Char.isDigit at hc
  simp only [Bool.and_eq_true, decide_eq_true_eq] at hc
  exact hc

theorem le_ofDigitChars (l : List Char) : ∀ n, n ≤ Nat.ofDigitChars 10 l n := by
  induction l with
  | nil => intro n; exact le_rfl
  | cons c l ih =>
    intro n
    have := ih (10 * n + (c.toNat - '0'.toNat))
    unfold Nat.ofDigitChars at this ⊢
    rw [List.foldl_cons]
    omega

/-- The digit loop computes the number, or the largest one of 64 bits if it does not fit. -/
theorem parseUintLoop_digits (l : List Char) : ∀ n, (∀ c ∈ l, c.isDigit = true) → n < 2 ^ 64 →
    parseUintLoop n (l.map fun c => Fin.ofNat 256 c.toNat) = min (Nat.ofDigitChars 10 l n) (2 ^ 64 - 1) := by
  induction l with
  | nil =>
    intro n _ hn
    exact (min_eq_left (by change n ≤ _; omega)).symm
  | cons c l ih =>
    intro n hl hn
    obtain ⟨hlo, hhi⟩ := isDigit_bounds (hl c List.mem_cons_self)
    have hval : (Fin.ofNat 256 c.toNat).val = c.toNat := ofNat_val (by omega)
    have hnext : Nat.ofDigitChars 10 (c :: l) n = Nat.ofDigitChars 10 l (n * 10 + (c.toNat - 48)) := by
      unfold Nat.ofDigitChars
      rw [List.foldl_cons, Nat.mul_comm]
      rfl
    have hle := le_ofDigitChars l (n * 10 + (c.toNat - 48))
    rw [hnext, List.map_cons, parseUintLoop, hval, if_neg (by omega)]
    by_cases hbig : n * 10 + (c.toNat - 48) ≥ 2 ^ 64
    · -- the loop ends here, and more digits make the number only larger
      rw [if_pos hbig]
      omega
    · rw [if_neg hbig]
      exact ih _ (fun d hd => hl d (List.mem_cons_of_mem _ hd)) (by omega)

theorem digits_of_repr {n : ℕ} : ∀ c ∈ n.repr.toList, c.isDigit = true := by
  intro c hc
  rw [Nat.repr_eq_ofList_toDigits, String.toList_ofList] at hc
  exact Nat.isDigit_of_mem_toDigits (b := 10) (by norm_num) (by norm_num) hc

theorem ofDigitChars_repr (n : ℕ) : Nat.ofDigitChars 10 n.repr.toList 0 = n := by
  rw [Nat.repr_eq_ofList_toDigits, String.toList_ofList]
  exact Nat.ofDigitChars_toDigits (by norm_num) (by norm_num)

theorem parseUintLoop_repr (n : ℕ) : parseUintLoop 0 (ascii n.repr) = min n (2 ^ 64 - 1) := by
  have h := parseUintLoop_digits n.repr.toList 0 digits_of_repr (by norm_num)
  rw [ofDigitChars_repr] at h
  exact h

theorem ascii_repr_cons (n : ℕ) : ∃ c cs, ascii n.repr = c :: cs ∧ 48 ≤ c.val ∧ c.val ≤ 57 := by
  cases hrepr : n.repr.toList with
  | nil =>
    rw [Nat.repr_eq_ofList_toDigits, String.toList_ofList] at hrepr
    exact absurd hrepr Nat.toDigits_ne_nil
  | cons c cs =>
    obtain ⟨hlo, hhi⟩ := isDigit_bounds (digits_of_repr c (hrepr ▸ List.mem_cons_self))
    refine ⟨_, _, by unfold ascii; rw [hrepr, List.map_cons], ?_⟩
    rw [ofNat_val (by omega)]
    exact ⟨hlo, hhi⟩

theorem ascii_append (s s' : String) : ascii (s ++ s') = ascii s ++ ascii s' := by
  unfold ascii
  rw [String.toList_append, List.map_append]

/-- A printed number is parsed, or the largest `int64` if it is above it. -/
theorem parseInt_toString_nonneg {v : ℤ} (hv : 0 ≤ v) : parseInt (ascii (toString v)) = min v (2 ^ 63 - 1) := by
  rw [Int.toString_eq_repr, Int.repr_eq_if, if_pos hv]
  obtain ⟨c, cs, hcs, hc48, hc57⟩ := ascii_repr_cons v.toNat
  have hparse := parseUintLoop_repr v.toNat
  rw [hcs] at hparse ⊢
  unfold parseInt
  simp only [show ¬ c.val = 43 by omega, show ¬ c.val = 45 by omega, or_self, if_false, hparse,
    not_false_eq_true, true_and, false_and]
  split <;> omega

/-- **The number that has been printed is parsed.** -/
theorem parseInt_toString {v : ℤ} (hlo : -2 ^ 63 ≤ v) (hhi : v < 2 ^ 63) : parseInt (ascii (toString v)) = v := by
  by_cases hv : 0 ≤ v
  · rw [parseInt_toString_nonneg hv]
    omega
  · rw [Int.toString_eq_repr, Int.repr_eq_if, if_neg hv, ascii_append]
    have hparse := parseUintLoop_repr (-v).toNat
    rw [min_eq_left (by omega)] at hparse
    have hminus : ascii "-" = [45] := by decide
    rw [hminus]
    unfold parseInt
    simp only [List.singleton_append, show ((45 : Fin 256).val = 45) from rfl, or_true, if_true, hparse,
      not_true_eq_false, false_and, if_false, true_and]
    rw [if_neg (by omega)]
    omega

theorem parseInt_lt (s : Bytes) : parseInt s < 2 ^ 63 := by
  unfold parseInt
  split
  · norm_num
  · simp only
    split_ifs <;> omega

/-- A printed number does not contain the separator. -/
theorem mem_ascii_toString {v : ℤ} {c : Fin 256} (hc : c ∈ ascii (toString v)) : c ≠ 124 := by
  have hrepr : ∀ n : ℕ, c ∈ ascii n.repr → c ≠ 124 := by
    intro n hn
    unfold ascii at hn
    obtain ⟨d, hd, rfl⟩ := List.mem_map.1 hn
    obtain ⟨hlo, hhi⟩ := isDigit_bounds (digits_of_repr d hd)
    intro h
    have hval := congrArg Fin.val h
    rw [ofNat_val (by omega)] at hval
    have : d.toNat = 124 := hval
    omega
  rw [Int.toString_eq_repr, Int.repr_eq_if] at hc
  split at hc
  · exact hrepr _ hc
  · rw [ascii_append] at hc
    rcases List.mem_append.1 hc with hc | hc
    · have hminus : ascii "-" = [45] := by decide
      rw [hminus, List.mem_singleton] at hc
      rw [hc]
      decide
    · exact hrepr _ hc

theorem dropWhile_encodeVersion (v : ℤ) (value : Bytes) :
    (encodeVersion v value).dropWhile (fun c => decide (c ≠ 124)) = 124 :: value := by
  have hbar : ascii "|" = [124] := by decide
  unfold encodeVersion
  rw [hbar, List.append_assoc, List.dropWhile_append_of_pos fun c hc => decide_eq_true (mem_ascii_toString hc)]
  rfl

/-- **What has been encoded is decoded.** -/
theorem decodeVersion_encodeVersion {v : ℤ} (hlo : -2 ^ 63 ≤ v) (hhi : v < 2 ^ 63) (value : Bytes) :
    decodeVersion (encodeVersion v value) = (v, value) := by
  have htake : (encodeVersion v value).takeWhile (fun c => decide (c ≠ 124)) = ascii (toString v) := by
    have hbar : ascii "|" = [124] := by decide
    unfold encodeVersion
    rw [hbar, List.append_assoc, List.takeWhile_append_of_pos fun c hc => decide_eq_true (mem_ascii_toString hc)]
    simp
  unfold decodeVersion
  rw [dropWhile_encodeVersion, htake, parseInt_toString hlo hhi]

/-- The value comes back whatever the version is. -/
theorem decodeVersion_snd (v : ℤ) (value : Bytes) : (decodeVersion (encodeVersion v value)).2 = value := by
  unfold decodeVersion
  rw [dropWhile_encodeVersion]

theorem wrap64_bounds (i : ℤ) : -2 ^ 63 ≤ wrap64 i ∧ wrap64 i < 2 ^ 63 := by
  unfold wrap64
  omega

theorem wrap64_succ_ne (i : ℤ) : wrap64 (i + 1) ≠ i := by
  unfold wrap64
  omega

end Harikube
