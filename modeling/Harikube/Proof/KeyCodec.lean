import Harikube.Radix.Digits
import Harikube.Spec.NatsCodec

/-!
# Which keys the NATS backend can tell apart

The marker of a key without a leading slash, `meta`, is itself a word of base 58, and `Decode` takes
it for the marker wherever it finds it: as a token anywhere, and as the first four letters of the
subject.

* `base58Decode_encode`: **base 58 can be read back.**
* `decodeKey_encode`: what `Decode` makes of an encoded key.
* `round_trips_iff`: **a key round trips if and only if it is not taken for a marked one.**
* `encodeKey_eq_iff`: the keys that have one subject; `key_codec_iff`: the two together.
-/

namespace Harikube

open Radix

/-! ## Base 58 -/

/-- With enough fuel, `digitsOf` are the digits. -/
theorem digitsOf_eq {base : ℕ} (hbase : 1 < base) : ∀ {fuel n : ℕ}, (base.digits n).length ≤ fuel →
    digitsOf base fuel n = base.digits n
  | 0, n, h => by
    rw [List.eq_nil_of_length_eq_zero (Nat.le_zero.1 h)]
    rfl
  | fuel + 1, n, h => by
    unfold digitsOf
    by_cases hn : n = 0
    · rw [if_pos hn, hn, Nat.digits_zero]
    · have hcons := Nat.digits_def' hbase (Nat.pos_of_ne_zero hn)
      rw [hcons, List.length_cons, Nat.succ_le_succ_iff] at h
      rw [if_neg hn, hcons, digitsOf_eq hbase h]

/-- The character of a digit. -/
def base58Char (d : ℕ) : Fin 256 := base58Alphabet.getD d (Fin.ofNat 256 '1'.toNat)

theorem base58Char_index {d : ℕ} (hd : d < 58) :
    base58Alphabet.idxOf (base58Char d) = d ∧ base58Alphabet.contains (base58Char d) = true ∧
      base58Char d ≠ Fin.ofNat 256 '.'.toNat := by
  have hall : ∀ d < 58, base58Alphabet.idxOf (base58Char d) = d ∧
      base58Alphabet.contains (base58Char d) = true ∧ base58Char d ≠ Fin.ofNat 256 '.'.toNat := by decide +kernel
  exact hall d hd

/-- Only the digit zero is written as a one. -/
theorem base58Char_one {d : ℕ} (hd : d < 58) : base58Char d = Fin.ofNat 256 '1'.toNat ↔ d = 0 := by
  have hall : ∀ d < 58, base58Char d = Fin.ofNat 256 '1'.toNat ↔ d = 0 := by decide +kernel
  exact hall d hd

/-- The bytes of a key as digits. -/
def byteDigits (b : Bytes) : List ℕ := b.map Fin.val

theorem byteDigits_lt (b : Bytes) : ∀ d ∈ byteDigits b, d < 256 := by
  intro d hd
  obtain ⟨c, -, rfl⟩ := List.mem_map.1 hd
  exact c.isLt

/-- **`base58.Encode`** writes the leading zeros and then the number. -/
theorem base58Encode_eq (b : Bytes) :
    base58Encode b = (withZeros 58 (zeros (byteDigits b)).length (value 256 (byteDigits b))).map base58Char := by
  have hzeros : (b.takeWhile fun c => c.val = 0).length = (zeros (byteDigits b)).length := by
    unfold zeros byteDigits
    rw [List.takeWhile_map, List.length_map]
    rfl
  have hvalue : b.foldl (fun n c => n * 256 + c.val) 0 = value 256 (byteDigits b) := by
    unfold value byteDigits
    rw [List.foldl_map]
  -- two digits of base 58 hold a byte
  have hfuel : (Nat.digits 58 (value 256 (byteDigits b))).length ≤ 2 * b.length := by
    rw [Nat.digits_length_le_iff (by decide), pow_mul]
    have hlt := value_lt (by decide) (byteDigits_lt b)
    rw [byteDigits, List.length_map] at hlt
    exact hlt.trans_le (Nat.pow_le_pow_left (by decide) _)
  unfold base58Encode withZeros
  simp only [hvalue, digitsOf_eq (by decide : 1 < 58) hfuel]
  rw [List.map_append, List.map_const', hzeros, List.map_replicate]
  rfl

/-- **`base58.Decode`** of digits. -/
theorem base58Decode_chars {ds : List ℕ} (hds : ∀ d ∈ ds, d < 58) :
    base58Decode (ds.map base58Char) =
      some ((List.replicate (zeros ds).length 0 ++ (digitsOf 256 ds.length (value 58 ds)).reverse).map
        (Fin.ofNat 256)) := by
  have hall : ((ds.map base58Char).all fun c => base58Alphabet.contains c) = true := by
    rw [List.all_eq_true]
    intro c hc
    obtain ⟨d, hd, rfl⟩ := List.mem_map.1 hc
    exact (base58Char_index (hds d hd)).2.1
  have hzeros : ((ds.map base58Char).takeWhile fun c => c = Fin.ofNat 256 '1'.toNat).length = (zeros ds).length := by
    rw [List.takeWhile_map, List.length_map]
    clear hall
    induction ds with
    | nil => rfl
    | cons d ds ih =>
      have hd := base58Char_one (hds d List.mem_cons_self)
      have ih := ih fun d hd => hds d (List.mem_cons_of_mem _ hd)
      unfold zeros at ih ⊢
      by_cases h0 : d = 0
      · rw [List.takeWhile_cons_of_pos (by simpa using hd.2 h0), List.takeWhile_cons_of_pos (by simpa using h0),
          List.length_cons, List.length_cons, ih]
      · rw [List.takeWhile_cons_of_neg (by simpa using fun h => h0 (hd.1 h)),
          List.takeWhile_cons_of_neg (by simpa using h0)]
  have hvalue : (ds.map base58Char).foldl (fun n c => n * 58 + base58Alphabet.idxOf c) 0 = value 58 ds := by
    unfold value
    rw [List.foldl_map]
    refine List.foldl_ext _ _ _ fun n d hd => ?_
    rw [(base58Char_index (hds d hd)).1]
  unfold base58Decode
  rw [if_pos hall]
  simp only [hvalue, List.map_const', hzeros, List.length_map, List.map_append, List.map_replicate]

/-- **Base 58 can be read back.** -/
theorem base58Decode_encode (b : Bytes) : base58Decode (base58Encode b) = some b := by
  set z := (zeros (byteDigits b)).length
  set n := value 256 (byteDigits b)
  have hfuel : (Nat.digits 256 n).length ≤ (withZeros 58 z n).length := by
    rw [withZeros, List.length_append, List.length_reverse]
    exact (length_digits_anti (by decide) (by decide) n).trans (Nat.le_add_left _ _)
  rw [base58Encode_eq, base58Decode_chars (withZeros_lt (by decide)), zeros_withZeros, value_withZeros,
    digitsOf_eq (by decide) hfuel]
  change some ((withZeros 256 z n).map (Fin.ofNat 256)) = some b
  rw [zeros_append_digits (by decide) (byteDigits_lt b), byteDigits, List.map_map]
  congr 1
  refine (List.map_congr_left fun c _ => ?_).trans (List.map_id b)
  exact Fin.ofNat_val_eq_self c

theorem base58Encode_inj {b b' : Bytes} (h : base58Encode b = base58Encode b') : b = b' := by
  have hdec := base58Decode_encode b
  rw [h, base58Decode_encode] at hdec
  exact (Option.some.inj hdec).symm

/-- A word has no dots. -/
theorem dot_notMem_encode (b : Bytes) : Fin.ofNat 256 '.'.toNat ∉ base58Encode b := by
  rw [base58Encode_eq]
  intro hmem
  obtain ⟨d, hd, hdot⟩ := List.mem_map.1 hmem
  exact (base58Char_index (withZeros_lt (by decide) d hd)).2.2 hdot

/-! ## Tokens -/

section Tokens

variable {α : Type*} [DecidableEq α] {x : α}

/-- The parts between separators have none. -/
theorem notMem_of_mem_splitOn {l p : List α} (hp : p ∈ l.splitOn x) : x ∉ p := by
  induction l generalizing p with
  | nil =>
    rw [List.splitOn_nil, List.mem_singleton] at hp
    rw [hp]
    exact List.not_mem_nil
  | cons a l ih =>
    rw [List.splitOn_cons_eq_if_modifyHead] at hp
    split at hp
    · rcases List.mem_cons.1 hp with rfl | hp
      · exact List.not_mem_nil
      · exact ih hp
    · rename_i hne
      obtain ⟨q, qs, hq⟩ := List.exists_cons_of_ne_nil (List.splitOn_ne_nil x l)
      rw [hq, List.modifyHead_cons] at hp
      rcases List.mem_cons.1 hp with rfl | hp
      · rw [List.mem_cons, not_or]
        exact ⟨fun h => hne (beq_iff_eq.2 h.symm), ih (hq ▸ List.mem_cons_self)⟩
      · exact ih (hq ▸ List.mem_cons_of_mem q hp)

omit [DecidableEq α] in
/-- A word without separators is at the start of joined tokens if it is at the start of the first. -/
theorem prefix_intercalate_iff {w : List α} (hw : x ∉ w) (t : List α) (ts : List (List α)) :
    w <+: [x].intercalate (t :: ts) ↔ w <+: t := by
  cases ts with
  | nil => rw [List.intercalate_singleton]
  | cons t' ts =>
    rw [List.intercalate_cons_cons, List.append_assoc, List.singleton_append]
    constructor
    · intro h
      rcases List.prefix_or_prefix_of_prefix h (List.prefix_append t _) with h' | ⟨r, rfl⟩
      · exact h'
      · rw [List.prefix_append_right_inj] at h
        cases r with
        | nil => simp
        | cons a r =>
          -- the separator would be a letter of the word
          obtain ⟨rfl, -⟩ := List.cons_prefix_cons.1 h
          exact absurd (List.mem_append_right t List.mem_cons_self) hw
    · intro h
      exact h.trans (List.prefix_append t _)

theorem intercalate_eq_iff {l : List α} {ps : List (List α)} (hps : ∀ p ∈ ps, x ∉ p) (hne : ps ≠ []) :
    [x].intercalate ps = l ↔ ps = l.splitOn x := by
  constructor
  · rintro rfl
    exact (List.splitOn_intercalate x hps hne).symm
  · rintro rfl
    exact List.intercalate_splitOn x

end Tokens

/-! ## The subject of a key -/

def dot : Fin 256 := Fin.ofNat 256 '.'.toNat

/-- The key starts with a slash. -/
def keyRooted (key : Bytes) : Bool := (ascii "/").isPrefixOf key

/-- The parts between the slashes, after a leading one. -/
def keyParts (key : Bytes) : List Bytes := (if keyRooted key then key.tail else key).splitOn slash

/-- The word a part is written with. -/
def partWord (part : Bytes) : Bytes := base58Encode (if part = [] then ascii "/" else part)

def keyTokens (key : Bytes) : List Bytes :=
  if keyRooted key then (keyParts key).map partWord else noRootPrefix :: (keyParts key).map partWord

theorem keyRooted_iff {key : Bytes} : keyRooted key = true ↔ ∃ k, key = slash :: k := by
  unfold keyRooted
  rw [List.isPrefixOf_iff_prefix]
  exact ⟨fun ⟨k, hk⟩ => ⟨k, hk.symm⟩, fun ⟨k, hk⟩ => ⟨k, hk.symm⟩⟩

theorem encodeKey_eq {key : Bytes} (hne : key ≠ []) (hslash : key ≠ ascii "/") :
    encodeKey key = some ([dot].intercalate (keyTokens key)) := by
  unfold encodeKey
  rw [if_neg (not_or.2 ⟨hne, hslash⟩)]
  rfl

theorem slash_notMem_part {key p : Bytes} (hp : p ∈ keyParts key) : slash ∉ p := notMem_of_mem_splitOn hp

theorem keyParts_ne_nil (key : Bytes) : keyParts key ≠ [] := List.splitOn_ne_nil _ _

theorem keyTokens_ne_nil (key : Bytes) : keyTokens key ≠ [] := by
  unfold keyTokens
  split
  · exact fun h => keyParts_ne_nil key (List.map_eq_nil_iff.1 h)
  · exact List.cons_ne_nil _ _

theorem dot_notMem_token {key t : Bytes} (ht : t ∈ keyTokens key) : dot ∉ t := by
  have hword : ∀ t ∈ (keyParts key).map partWord, dot ∉ t := by
    intro t ht
    obtain ⟨p, -, rfl⟩ := List.mem_map.1 ht
    exact dot_notMem_encode _
  unfold keyTokens at ht
  split at ht
  · exact hword t ht
  · rcases List.mem_cons.1 ht with rfl | ht
    · decide +kernel
    · exact hword t ht

/-- `strings.Split` finds the tokens again. -/
theorem splitOn_subject (key : Bytes) : ([dot].intercalate (keyTokens key)).splitOn dot = keyTokens key :=
  List.splitOn_intercalate dot (fun _ ht => dot_notMem_token ht) (keyTokens_ne_nil key)

/-! ## Reading a subject -/

theorem ne_slash_of_notMem {p : Bytes} (hp : slash ∉ p) : p ≠ ascii "/" := by
  rintro rfl
  exact hp List.mem_cons_self

theorem base58Decode_partWord (p : Bytes) : base58Decode (partWord p) = some (if p = [] then ascii "/" else p) :=
  base58Decode_encode _

theorem partWord_inj {p p' : Bytes} (hp : slash ∉ p) (hp' : slash ∉ p') (h : partWord p = partWord p') : p = p' := by
  have heq := base58Encode_inj h
  split at heq <;> split at heq
  · rename_i hnil hnil'
    rw [hnil, hnil']
  · exact absurd heq.symm (ne_slash_of_notMem hp')
  · exact absurd heq (ne_slash_of_notMem hp)
  · exact heq

/-- The loop skips the parts whose word is the marker. -/
theorem decodeParts_words {ps : List Bytes} (hps : ∀ p ∈ ps, slash ∉ p) :
    decodeParts (ps.map partWord) = some (ps.filter fun p => partWord p ≠ noRootPrefix) := by
  induction ps with
  | nil => rfl
  | cons p ps ih =>
    have ih := ih fun q hq => hps q (List.mem_cons_of_mem p hq)
    rw [List.map_cons, decodeParts]
    by_cases hmark : partWord p = noRootPrefix
    · rw [if_pos hmark, ih, List.filter_cons_of_neg (by simpa using hmark)]
    · rw [if_neg hmark, base58Decode_partWord, List.filter_cons_of_pos (by simpa using hmark), ih]
      have hpart : (if (if p = [] then ascii "/" else p) = ascii "/" then [] else
          if p = [] then ascii "/" else p) = p := by
        by_cases hnil : p = []
        · rw [if_pos (if_pos hnil), hnil]
        · rw [if_neg hnil, if_neg (ne_slash_of_notMem (hps p List.mem_cons_self))]
      simp only [Option.map_some, hpart]

theorem decodeParts_tokens (key : Bytes) :
    decodeParts (keyTokens key) = some ((keyParts key).filter fun p => partWord p ≠ noRootPrefix) := by
  have hwords := decodeParts_words fun p (hp : p ∈ keyParts key) => slash_notMem_part hp
  unfold keyTokens
  split
  · exact hwords
  · rw [decodeParts, if_pos rfl]
    exact hwords

/-- The word of the first part starts with the four letters. -/
def firstMarked (key : Bytes) : Bool := (keyParts key).head?.any fun p => noRootPrefix.isPrefixOf (partWord p)

/-- `Decode` takes the subject for one of a key without a leading slash. -/
theorem subject_marked (key : Bytes) :
    noRootPrefix.isPrefixOf ([dot].intercalate (keyTokens key)) = (!keyRooted key || firstMarked key) := by
  have hdot : dot ∉ noRootPrefix := by decide +kernel
  obtain ⟨p, ps, hparts⟩ := List.exists_cons_of_ne_nil (keyParts_ne_nil key)
  rw [Bool.eq_iff_iff, List.isPrefixOf_iff_prefix]
  unfold keyTokens firstMarked
  rw [hparts]
  cases hroot : keyRooted key with
  | true => simp [prefix_intercalate_iff hdot]
  | false => simp

/-- The parts that are left of a key. -/
def readParts (key : Bytes) : List Bytes := (keyParts key).filter fun p => partWord p ≠ noRootPrefix

/-- **What `Decode` makes of an encoded key.** -/
theorem decodeKey_encode {key : Bytes} (hne : key ≠ []) (hslash : key ≠ ascii "/") :
    (encodeKey key).bind decodeKey =
      if readParts key = [] then none
      else if keyRooted key = true ∧ firstMarked key = false then some (slash :: [slash].intercalate (readParts key))
      else some ([slash].intercalate (readParts key)) := by
  have hparts : decodeParts (([dot].intercalate (keyTokens key)).splitOn (Fin.ofNat 256 '.'.toNat)) =
      some (readParts key) := (congrArg decodeParts (splitOn_subject key)).trans (decodeParts_tokens key)
  rw [encodeKey_eq hne hslash, Option.bind_some]
  unfold decodeKey
  simp only [hparts, subject_marked]
  cases hread : readParts key with
  | nil => rfl
  | cons p ps =>
    rw [if_neg (List.cons_ne_nil p ps)]
    cases keyRooted key <;> cases firstMarked key <;> rfl

/-! ## Which keys round trip -/

/-- No part is written as the marker, and the subject of a key with a leading slash does not start
with its letters. -/
def Unmarked (key : Bytes) : Prop :=
  (∀ p ∈ keyParts key, partWord p ≠ noRootPrefix) ∧ (keyRooted key = true → firstMarked key = false)

theorem readParts_eq_iff (key : Bytes) :
    readParts key = keyParts key ↔ ∀ p ∈ keyParts key, partWord p ≠ noRootPrefix := by
  unfold readParts
  rw [List.filter_eq_self]
  simp only [decide_eq_true_eq]

theorem slash_notMem_read {key p : Bytes} (hp : p ∈ readParts key) : slash ∉ p :=
  slash_notMem_part (List.mem_of_mem_filter hp)

theorem round_trips_iff {key : Bytes} (hne : key ≠ []) (hslash : key ≠ ascii "/") :
    RoundTrips key ↔ Unmarked key := by
  have hread : ∀ {k}, readParts key ≠ [] → ([slash].intercalate (readParts key) = k ↔ readParts key = k.splitOn slash) :=
    fun hnil => intercalate_eq_iff (fun _ hp => slash_notMem_read hp) hnil
  unfold RoundTrips Unmarked
  rw [decodeKey_encode hne hslash, ← readParts_eq_iff]
  by_cases hnil : readParts key = []
  · rw [if_pos hnil, hnil]
    refine ⟨nofun, fun h => absurd h.1.symm (keyParts_ne_nil key)⟩
  · rw [if_neg hnil]
    by_cases hroot : keyRooted key = true
    · obtain ⟨k, rfl⟩ := keyRooted_iff.1 hroot
      have hparts : keyParts (slash :: k) = k.splitOn slash := by
        unfold keyParts
        rw [if_pos hroot]
        rfl
      cases hfirst : firstMarked (slash :: k) with
      | false =>
        rw [if_pos ⟨hroot, rfl⟩, Option.some.injEq, List.cons.injEq, hread hnil, hparts]
        simp
      | true =>
        -- the leading slash is lost, and no part makes up for it
        rw [if_neg (by simp), Option.some.injEq, hread hnil]
        refine ⟨fun h => ?_, fun h => absurd (h.2 hroot) (by simp)⟩
        have hsplit : (slash :: k).splitOn slash = [] :: keyParts (slash :: k) := by
          rw [List.splitOn_cons_eq_if_modifyHead, if_pos (beq_self_eq_true _), hparts]
        have hlen : (readParts (slash :: k)).length ≤ (keyParts (slash :: k)).length := List.length_filter_le _ _
        rw [h, hsplit, List.length_cons] at hlen
        omega
    · have hparts : keyParts key = key.splitOn slash := by
        unfold keyParts
        rw [if_neg hroot]
      rw [if_neg fun h => hroot h.1, Option.some.injEq, hread hnil, hparts]
      exact ⟨fun h => ⟨h, fun h' => absurd h' hroot⟩, fun h => h.1⟩

/-! ## Keys with one subject -/

/-- The part that is written as the marker. -/
def markPart : Bytes := (base58Decode noRootPrefix).getD []

/-- The first key has the subject of the second, which has no leading slash. -/
def Shadows (key key' : Bytes) : Prop :=
  keyRooted key' = false ∧ key = slash :: (markPart ++ slash :: key')

theorem partWord_markPart : partWord markPart = noRootPrefix := by decide +kernel

theorem slash_notMem_markPart : slash ∉ markPart := by decide +kernel

theorem keyParts_of_root (k : Bytes) : keyRooted (slash :: k) = true ∧ keyParts (slash :: k) = k.splitOn slash := by
  have hroot : keyRooted (slash :: k) = true := keyRooted_iff.2 ⟨k, rfl⟩
  refine ⟨hroot, ?_⟩
  unfold keyParts
  rw [if_pos hroot]
  rfl

theorem keyParts_of_noRoot {key : Bytes} (hroot : keyRooted key = false) : keyParts key = key.splitOn slash := by
  unfold keyParts
  rw [hroot]
  rfl

theorem words_inj {ps qs : List Bytes} (hps : ∀ p ∈ ps, slash ∉ p) (hqs : ∀ q ∈ qs, slash ∉ q)
    (h : ps.map partWord = qs.map partWord) : ps = qs := by
  induction ps generalizing qs with
  | nil => exact (List.map_eq_nil_iff.1 h.symm).symm
  | cons p ps ih =>
    cases qs with
    | nil => cases h
    | cons q qs =>
      obtain ⟨hword, hrest⟩ := List.cons.inj h
      rw [partWord_inj (hps p List.mem_cons_self) (hqs q List.mem_cons_self) hword,
        ih (fun a ha => hps a (List.mem_cons_of_mem p ha)) (fun a ha => hqs a (List.mem_cons_of_mem q ha)) hrest]

theorem splitOn_inj {k k' : Bytes} (h : k.splitOn slash = k'.splitOn slash) : k = k' := by
  have hjoin := congrArg ([slash].intercalate ·) h
  simpa only [List.intercalate_splitOn] using hjoin

/-- The tokens of a key with a leading slash and of one without are the same only if the first part
of the one is the marker and the rest is the other. -/
theorem tokens_eq_iff_shadows {key key' : Bytes} (hroot : keyRooted key = true) (hroot' : keyRooted key' = false) :
    keyTokens key = keyTokens key' ↔ Shadows key key' := by
  obtain ⟨k, rfl⟩ := keyRooted_iff.1 hroot
  have hparts := (keyParts_of_root k).2
  have hparts' := keyParts_of_noRoot hroot'
  have hmark : ∀ q ∈ markPart :: keyParts key', slash ∉ q :=
    List.forall_mem_cons.2 ⟨slash_notMem_markPart, fun _ hq => slash_notMem_part hq⟩
  have hsplit : (markPart ++ slash :: key').splitOn slash = markPart :: keyParts key' := by
    rw [List.splitOn_append_cons_self_of_not_mem slash_notMem_markPart, hparts']
  unfold keyTokens Shadows
  rw [if_pos hroot, hroot', if_neg Bool.false_ne_true, ← partWord_markPart, ← List.map_cons]
  constructor
  · intro h
    have heq := words_inj (fun _ hp => slash_notMem_part hp) hmark h
    rw [hparts, ← hsplit] at heq
    exact ⟨rfl, by rw [splitOn_inj heq]⟩
  · rintro ⟨-, h⟩
    rw [hparts, (List.cons.inj h).2, hsplit]

theorem tokens_inj {key key' : Bytes} (hroot : keyRooted key = keyRooted key') (h : keyTokens key = keyTokens key') :
    key = key' := by
  have hwords : (keyParts key).map partWord = (keyParts key').map partWord := by
    unfold keyTokens at h
    rw [← hroot] at h
    split at h
    · exact h
    · exact (List.cons.inj h).2
  have hparts := words_inj (fun _ hp => slash_notMem_part hp) (fun _ hp => slash_notMem_part hp) hwords
  cases hr : keyRooted key with
  | true =>
    obtain ⟨k, rfl⟩ := keyRooted_iff.1 hr
    obtain ⟨k', rfl⟩ := keyRooted_iff.1 (hroot ▸ hr)
    rw [(keyParts_of_root k).2, (keyParts_of_root k').2] at hparts
    rw [splitOn_inj hparts]
  | false =>
    rw [keyParts_of_noRoot hr, keyParts_of_noRoot (hroot ▸ hr)] at hparts
    exact splitOn_inj hparts

/-- Two keys have one subject if and only if they are equal or one shadows the other. -/
theorem encodeKey_eq_iff {key key' : Bytes} (hne : key ≠ []) (hslash : key ≠ ascii "/") (hne' : key' ≠ [])
    (hslash' : key' ≠ ascii "/") :
    encodeKey key = encodeKey key' ↔ key = key' ∨ Shadows key key' ∨ Shadows key' key := by
  have htokens : encodeKey key = encodeKey key' ↔ keyTokens key = keyTokens key' := by
    rw [encodeKey_eq hne hslash, encodeKey_eq hne' hslash', Option.some.injEq]
    refine ⟨fun h => ?_, fun h => congrArg _ h⟩
    rw [← splitOn_subject key, h, splitOn_subject]
  have hshadow : ∀ {a b : Bytes}, Shadows a b → keyRooted a = true ∧ keyRooted b = false := by
    rintro a b ⟨hb, rfl⟩
    exact ⟨(keyParts_of_root _).1, hb⟩
  rw [htokens]
  constructor
  · intro h
    cases hr : keyRooted key with
    | true =>
      cases hr' : keyRooted key' with
      | true => exact .inl (tokens_inj (hr.trans hr'.symm) h)
      | false => exact .inr (.inl ((tokens_eq_iff_shadows hr hr').1 h))
    | false =>
      cases hr' : keyRooted key' with
      | true => exact .inr (.inr ((tokens_eq_iff_shadows hr' hr).1 h.symm))
      | false => exact .inl (tokens_inj (hr.trans hr'.symm) h)
  · rintro (rfl | h | h)
    · rfl
    · exact (tokens_eq_iff_shadows (hshadow h).1 (hshadow h).2).2 h
    · exact ((tokens_eq_iff_shadows (hshadow h).1 (hshadow h).2).2 h).symm

theorem Shadows.ne {key key' : Bytes} (h : Shadows key key') : key ≠ key' := by
  rintro rfl
  have hlen := congrArg List.length h.2
  rw [List.length_cons, List.length_append, List.length_cons] at hlen
  omega

/-- **A key can be read back if and only if it is not taken for a marked one, and it has its subject
for itself if and only if it shadows no other and no other shadows it.** -/
theorem key_codec_iff (key : Bytes) (hne : key ≠ []) (hslash : key ≠ ascii "/") :
    (RoundTrips key ↔ Unmarked key) ∧
      ∀ key', key' ≠ [] → key' ≠ ascii "/" →
        ((encodeKey key = encodeKey key' → key = key') ↔ ¬ Shadows key key' ∧ ¬ Shadows key' key) := by
  refine ⟨round_trips_iff hne hslash, fun key' hne' hslash' => ?_⟩
  rw [encodeKey_eq_iff hne hslash hne' hslash']
  constructor
  · intro h
    exact ⟨fun hs => hs.ne (h (.inr (.inl hs))), fun hs => hs.ne (h (.inr (.inr hs))).symm⟩
  · rintro ⟨hs, hs'⟩ (heq | h | h)
    · exact heq
    · exact absurd h hs
    · exact absurd h hs'

/-- A key of the apiserver, and the same without its leading slash. -/
theorem key_codec_registry :
    RoundTrips (ascii "/registry/a") ∧ encodeKey (ascii "/registry/a") ≠ encodeKey (ascii "registry/a") := by
  have hkey := key_codec_iff (ascii "/registry/a") (by decide) (by decide)
  have hunmarked : Unmarked (ascii "/registry/a") := by
    unfold Unmarked
    decide +kernel
  refine ⟨hkey.1.2 hunmarked, fun h => ?_⟩
  have heq := (hkey.2 (ascii "registry/a") (by decide) (by decide)).2 ?_ h
  · exact absurd heq (by decide)
  · unfold Shadows
    decide +kernel

/-- Two different keys have one subject, and the one with the leading slash is read back as the
other; and a key whose first word only starts with the four letters loses its slash. -/
theorem key_codec_collides :
    let key := ascii "/" ++ markPart ++ ascii "/b"
    encodeKey key = encodeKey (ascii "b") ∧ (encodeKey key).bind decodeKey = some (ascii "b") ∧
      let part := (base58Decode (ascii "metadata")).getD []
      (encodeKey (ascii "/" ++ part)).bind decodeKey = some part := by
  decide +kernel

end Harikube
