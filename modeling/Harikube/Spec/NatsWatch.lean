import Harikube.Spec.NatsCodec
import Harikube.Spec.SelectorSql
import Harikube.Spec.Resources

/-!
# The filter of a NATS watch

`KeyValue.Watch` (`pkg/drivers/nats/kv.go`) and `keyCodec.EncodeRange` (`codec.go`): the messages of
a watch are selected by a subject filter, made from the key up to its last slash, and by a comparison
when they are delivered. Subjects are written here without `$KV.`, the bucket and a dot, which all
subjects of the stream and the filter begin with. The server's matching is that of NATS.
-/

namespace Harikube

open SelectorSql (trimSuffix)

/-- How NATS matches the tokens of a filter: `*` is one token, and a final `>` one or more. -/
def tokensMatch : List Bytes → List Bytes → Bool
  | [], [] => true
  | t :: ts, s :: ss => (t = ascii ">" && ts = []) || ((t = s || t = ascii "*") && tokensMatch ts ss)
  | _, _ => false

def subjectMatches (filter subject : Bytes) : Bool :=
  tokensMatch (filter.splitOn (Fin.ofNat 256 '.'.toNat)) (subject.splitOn (Fin.ofNat 256 '.'.toNat))

/-- `keyCodec.EncodeRange`: none for an invalid key. -/
def encodeRange (pre : Bytes) : Option Bytes :=
  if pre = ascii "/" then some (ascii ">")
  else if pre = noRootPrefix then some (noRootPrefix ++ ascii ".>")
  else (encodeKey (trimSuffix pre (ascii "/"))).map (· ++ ascii ".>")

/-- The key up to and with its last slash, none if there is no slash. -/
def throughLastSlash (key : Bytes) : Option Bytes :=
  if slash ∈ key then some (key.reverse.dropWhile fun c => c ≠ slash).reverse else none

/-- What `Watch` encodes as its filter. -/
def watchFilter (key : Bytes) : Bytes :=
  if key ≠ ascii "/" ∧ (ascii "/").isSuffixOf key then trimSuffix key (ascii "/")
  else (throughLastSlash key).getD noRootPrefix

/-- A message of the stream: its sequence number and its subject. A bucket has no empty key, so the
branch of the handler for one is left out. -/
structure StreamMsg where
  seq : ℕ
  subject : Bytes
  subject_ne : subject ≠ []

/-- The key of a message for the handler, none if it cannot be decoded. -/
def StreamMsg.dkey (m : StreamMsg) : Option Bytes := decodeKey (trimPrefix m.subject (ascii "."))

/-- The handler of `Watch` forwards the message. -/
def handlerForwards (key rangeEnd : Bytes) (compactRev : ℕ) (m : StreamMsg) : Bool :=
  if m.seq < compactRev then false
  else
    match m.dkey with
    | none => false
    | some dkey => !((key = [] && dkey < key) || (rangeEnd ≠ [] && rangeEnd ≤ dkey))

/-- The consumer delivers the message: it starts at `startRev`, if that is positive, and has the filter. -/
def delivers (filter : Bytes) (startRev : ℤ) (m : StreamMsg) : Bool :=
  (startRev ≤ 0 || startRev ≤ m.seq) && subjectMatches filter m.subject

/-- `Watch` forwards the message; a key whose filter cannot be encoded has no watch. -/
def watchForwards (key rangeEnd : Bytes) (startRev : ℤ) (compactRev : ℕ) (m : StreamMsg) : Bool :=
  let filter := watchFilter key
  if filter = [] then
    -- an empty filter subject is no filter
    (startRev ≤ 0 || startRev ≤ m.seq) && handlerForwards key rangeEnd compactRev m
  else
    match encodeRange filter with
    | none => false
    | some subject => delivers subject startRev m && handlerForwards key rangeEnd compactRev m

end Harikube
