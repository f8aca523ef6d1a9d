import Harikube.Spec.Types

/-!
# The keys of the NATS backend

`keyCodec` (`pkg/drivers/nats/codec.go`): a key becomes a NATS subject, its parts between the
slashes written in base 58 with the Bitcoin alphabet and joined by dots. A key without a leading
slash gets `meta` as its first token.
-/

namespace Harikube

/-- `base58.BitcoinAlphabet`. -/
def base58Alphabet : Bytes := ascii "123456789ABCDEFGHJKLMNPQRSTUVWXYZabcdefghijkmnopqrstuvwxyz"

/-- The digits of a number, the lowest first; `fuel` bounds how many there are. -/
def digitsOf (base : ℕ) : ℕ → ℕ → List ℕ
  | 0, _ => []
  | fuel + 1, n => if n = 0 then [] else n % base :: digitsOf base fuel (n / base)

/-- `base58.Encode`: a one for each leading zero byte, and then the number in base 58. -/
def base58Encode (b : Bytes) : Bytes :=
  let zeros := b.takeWhile fun c => c.val = 0
  let n := b.foldl (fun n c => n * 256 + c.val) 0
  zeros.map (fun _ => Fin.ofNat 256 '1'.toNat) ++
    (digitsOf 58 (2 * b.length) n).reverse.map fun d => base58Alphabet.getD d (Fin.ofNat 256 '1'.toNat)

/-- `base58.Decode`; it fails on a character outside the alphabet. -/
def base58Decode (s : Bytes) : Option Bytes :=
  if s.all fun c => base58Alphabet.contains c then
    let zeros := s.takeWhile fun c => c = Fin.ofNat 256 '1'.toNat
    let n := s.foldl (fun n c => n * 58 + base58Alphabet.idxOf c) 0
    some (zeros.map (fun _ => Fin.ofNat 256 0) ++ (digitsOf 256 s.length n).reverse.map (Fin.ofNat 256))
  else none

/-- `noRootPrefix`. -/
def noRootPrefix : Bytes := ascii "meta"

/-- `keyCodec.Encode`: none for an invalid key. -/
def encodeKey (key : Bytes) : Option Bytes :=
  if key = [] ∨ key = ascii "/" then none
  else
    let rooted := (ascii "/").isPrefixOf key
    let key := if rooted then key.tail else key
    let parts := (key.splitOn (Fin.ofNat 256 '/'.toNat)).map fun part =>
      base58Encode (if part = [] then ascii "/" else part)
    some ((ascii ".").intercalate (if rooted then parts else noRootPrefix :: parts))

/-- The loop of `keyCodec.Decode` over the tokens. -/
def decodeParts : List Bytes → Option (List Bytes)
  | [] => some []
  | s :: rest =>
    if s = noRootPrefix then decodeParts rest
    else
      match base58Decode s with
      | none => none
      | some part => (decodeParts rest).map ((if part = ascii "/" then [] else part) :: ·)

/-- `keyCodec.Decode`. A subject is taken for one of a key without a leading slash if it starts
with the four letters, whether they are a token or not. -/
def decodeKey (subject : Bytes) : Option Bytes :=
  let rooted := !noRootPrefix.isPrefixOf subject
  match decodeParts (subject.splitOn (Fin.ofNat 256 '.'.toNat)) with
  | none => none
  | some [] => none
  | some parts =>
    let key := (ascii "/").intercalate parts
    some (if rooted then ascii "/" ++ key else key)

/-- The subject filter of `EncodeRange(noRootPrefix)`, `meta.>`. -/
def metaSubject (subject : Bytes) : Bool := (ascii "meta.").isPrefixOf subject

/-- The watchers see a key under its own name. -/
def RoundTrips (key : Bytes) : Prop := (encodeKey key).bind decodeKey = some key

instance decidableRoundTrips (key : Bytes) : Decidable (RoundTrips key) :=
  inferInstanceAs (Decidable ((encodeKey key).bind decodeKey = some key))

/-- Keys of the apiserver, and kine's own, round trip; an invalid key does not, and neither does
one whose first part is written with the four letters first. -/
example : RoundTrips (ascii "/registry/pods/default/a") ∧ RoundTrips compactRevAPI ∧ ¬ RoundTrips (ascii "/") ∧
    ¬ RoundTrips (ascii "/" ++ (base58Decode (ascii "metadata")).getD []) := by
  decide +kernel

end Harikube
