import Harikube.Spec.Etcd
import Harikube.Spec.Memory

/-!
# The etcd shim

`LimitedServer` (`pkg/server/{limited,create,update,delete,compact,put,get,list}.go`)
and `KVServerBridge.Range` (`pkg/server/kv.go`) over any backend. A backend's
methods take its state and return it, also those that only read: a SQL log may fill
its cached revision in a read.
-/

namespace Harikube

/-- The part of `server.Backend` that the key-value service calls. -/
structure Backend (σ : Type) where
  create : σ → (key value : Bytes) → (lease : ℤ) → (ℤ × Option Err) × σ
  update : σ → (key value : Bytes) → (revision lease : ℤ) →
    (ℤ × Option KeyValue × Bool × Option Err) × σ
  delete : σ → (key : Bytes) → (revision : ℤ) → (ℤ × Option KeyValue × Bool × Option Err) × σ
  get : σ → (key : Bytes) → (revision : ℤ) → (keysOnly : Bool) → (ℤ × Option KeyValue × Option Err) × σ
  list : σ → (key rangeEnd : Bytes) → (limit revision : ℤ) → (keysOnly : Bool) →
    (labelSelector fieldSelector : Bytes) → (ℤ × List KeyValue × Option Err) × σ
  count : σ → (key rangeEnd : Bytes) → (revision : ℤ) → (labelSelector fieldSelector : Bytes) →
    (ℤ × ℤ × Option Err) × σ

/-- The Memory backend; it ignores selectors. -/
def Memory.backend : Backend Memory where
  create := Memory.create
  update := Memory.update
  delete := Memory.delete
  get m key revision keysOnly := (m.get key revision keysOnly, m)
  list m key rangeEnd limit revision keysOnly _ _ := (m.list key rangeEnd limit revision keysOnly, m)
  count m key rangeEnd revision _ _ := (m.count key rangeEnd revision, m)

/-! ## Versions in values -/

/-- The two's complement value of an `int64` computation. -/
def wrap64 (i : ℤ) : ℤ := (i + 2 ^ 63) % 2 ^ 64 - 2 ^ 63

/-- The digit loop of `strconv.ParseUint` in base 10: the number so far, and zero for
a syntax error. It returns the largest value as soon as the number overflows, without
looking at the rest. -/
def parseUintLoop : ℕ → Bytes → ℕ
  | n, [] => n
  | n, c :: cs =>
    if ¬ (48 ≤ c.val ∧ c.val ≤ 57) then 0
    else if n * 10 + (c.val - 48) ≥ 2 ^ 64 then 2 ^ 64 - 1
    else parseUintLoop (n * 10 + (c.val - 48)) cs

/-- `strconv.ParseInt(s, 10, 64)`, its error dropped. -/
def parseInt (s : Bytes) : ℤ :=
  match s with
  | [] => 0
  | c :: cs =>
    let neg := c.val = 45
    let digits := if c.val = 43 ∨ c.val = 45 then cs else s
    let un := parseUintLoop 0 digits
    if ¬ neg ∧ un ≥ 2 ^ 63 then 2 ^ 63 - 1
    else if neg ∧ un > 2 ^ 63 then -2 ^ 63
    else if neg then -un else un

/-- `EncodeVersion`: the version before the client's value. -/
def encodeVersion (version : ℤ) (value : Bytes) : Bytes :=
  ascii (toString version) ++ ascii "|" ++ value

/-- `DecodeVersion`: the version and the client's value. A value without a separator
is a version alone, and its client value is `"0"`. -/
def decodeVersion (value : Bytes) : ℤ × Bytes :=
  -- `bytes.Cut(value, "|")`
  match value.dropWhile (· ≠ 124) with
  | _ :: val => (parseInt (value.takeWhile (· ≠ 124)), val)
  | [] => (parseInt value, ascii "0")

/-- `toKV`: fix up the substitute compact revision key, its version and its value. -/
def toKV (kv : KeyValue) : KeyValue :=
  if kv.key = compactRevAPI then
    { kv with
      key := compactRevKey
      version := (decodeVersion kv.value).1
      value := (decodeVersion kv.value).2 }
  else kv

/-- `toKVs` of a pointer that may be nil. -/
def toKVs (kv : Option KeyValue) : List KeyValue := kv.toList.map toKV

/-! ## Transactions -/

inductive ResponseOp
  | put (revision : ℤ)
  | range (revision : ℤ) (kvs : List KeyValue) (count : ℤ)
  | deleteRange (revision : ℤ) (prevKvs : List KeyValue) (deleted : ℤ)
deriving DecidableEq

structure TxnResponse where
  revision : ℤ
  succeeded : Bool
  responses : List ResponseOp
deriving DecidableEq

/-- `isCreate`. -/
def isCreate : TxnRequest → Option PutRequest
  | .mk [c] [op] [] =>
    if c.target = .mod ∧ c.result = .equal ∧ c.getModRevision = 0 then op.getRequestPut else none
  | _ => none

/-- `isDelete`: the revision and the key. -/
def isDelete : TxnRequest → Option (ℤ × Bytes)
  | .mk [] [op₁, op₂] [] =>
    match op₁.getRequestRange, op₂.getRequestDeleteRange with
    | some _, some r => some (0, r.key)
    | _, _ => none
  | .mk [c] [op] [op'] =>
    match op'.getRequestRange, op.getRequestDeleteRange with
    | some _, some r =>
      if c.target = .mod ∧ c.result = .equal then some (c.getModRevision, r.key) else none
    | _, _ => none
  | _ => none

/-- `isUpdate`: the revision, the key of the compare, and value and lease of the put. -/
def isUpdate : TxnRequest → Option (ℤ × Bytes × Bytes × ℤ)
  | .mk [c] [op] [op'] =>
    match op.getRequestPut, op'.getRequestRange with
    | some r, some _ =>
      if c.target = .mod ∧ c.result = .equal then some (c.getModRevision, c.key, r.value, r.lease)
      else none
    | _, _ => none
  | _ => none

/-- `isCompact`: the version and the value. -/
def isCompact : TxnRequest → Option (ℤ × Bytes)
  | .mk [c] [op] [op'] =>
    match op.getRequestPut, op'.getRequestRange with
    | some r, some _ =>
      if c.target = .version ∧ c.result = .equal ∧ c.key = compactRevKey then
        some (c.getVersion, r.value)
      else none
    | _, _ => none
  | _ => none

/-- The keys of custom resource definitions. -/
def isCRDKey (key : Bytes) : Bool :=
  (ascii "/registry/apiextensions.k8s.io/customresourcedefinitions/").isPrefixOf key

/-- The server: its backend, and the effect of `util.RegisterCustomResourceDefinition`
on a value, an error or none. -/
structure LimitedServer (σ : Type) where
  backend : Backend σ
  registerCRD : Bytes → Option Err

namespace LimitedServer

variable {σ : Type} (l : LimitedServer σ)

def create (s : σ) (put : PutRequest) : Except Err TxnResponse × σ :=
  if put.ignoreLease then (.error (.unsupported "ignoreLease"), s)
  else if put.ignoreValue then (.error (.unsupported "ignoreValue"), s)
  else if put.prevKv then (.error (.unsupported "prevKv"), s)
  else
    let r := l.backend.create s put.key put.value put.lease
    match r.1.2 with
    | some .keyExists => (.ok ⟨r.1.1, false, []⟩, r.2)
    | some err => (.error err, r.2)
    | none =>
      match if isCRDKey put.key then l.registerCRD put.value else none with
      | none => (.ok ⟨r.1.1, true, [.put r.1.1]⟩, r.2)
      | some err =>
        -- the definition is refused: delete the key again, and report success
        let d := l.backend.delete r.2 put.key 0
        match d.1.2.2.2 with
        | some delErr => (.error (.join err delErr), d.2)
        | none => (.ok ⟨d.1.1, true, [.put d.1.1]⟩, d.2)

/-- The backend call of `update`: a create for revision 0, followed by a read if the
key exists, and an update otherwise. -/
def updateCall (s : σ) (rev : ℤ) (key value : Bytes) (lease : ℤ) :
    (ℤ × Option KeyValue × Bool × Option Err) × σ :=
  if rev = 0 then
    let r := l.backend.create s key value lease
    if r.1.2 = some .keyExists then
      let g := l.backend.get r.2 key r.1.1 false
      ((g.1.1, g.1.2.1, false, g.1.2.2), g.2)
    else ((r.1.1, none, true, r.1.2), r.2)
  else l.backend.update s key value rev lease

/-- The attempt to restore a definition that is refused: read the revision just
written, and write its value again. -/
def updateRevert (s : σ) (rev : ℤ) (key : Bytes) (lease : ℤ) : (ℤ × Option Err) × σ :=
  let g := l.backend.get s key rev false
  match g.1.2.2 with
  | some err => ((rev, some err), g.2)
  | none =>
    match g.1.2.1 with
    | none => ((rev, some .crash), g.2)
    | some kv =>
      let u := l.backend.update g.2 key kv.value rev lease
      ((u.1.1, u.1.2.2.2), u.2)

def update (s : σ) (rev : ℤ) (key value : Bytes) (lease : ℤ) : Except Err TxnResponse × σ :=
  let r := l.updateCall s rev key value lease
  match r.1.2.2.2 with
  | some err => (.error err, r.2)
  | none =>
    if r.1.2.2.1 then
      match if isCRDKey key then l.registerCRD value else none with
      | none => (.ok ⟨r.1.1, true, [.put r.1.1]⟩, r.2)
      | some err =>
        let u := l.updateRevert r.2 r.1.1 key lease
        match u.1.2 with
        | some revErr => (.error (.join err revErr), u.2)
        | none => (.ok ⟨r.1.1, true, [.put u.1.1]⟩, u.2)
    else
      let kvs := toKVs r.1.2.1
      (.ok ⟨r.1.1, false, [.range r.1.1 kvs kvs.length]⟩, r.2)

def delete (s : σ) (key : Bytes) (revision : ℤ) : Except Err TxnResponse × σ :=
  let r := l.backend.delete s key revision
  match r.1.2.2.2 with
  | some err => (.error err, r.2)
  | none =>
    let kvs := toKVs r.1.2.1
    if ¬ r.1.2.2.1 then (.ok ⟨r.1.1, false, [.range r.1.1 kvs kvs.length]⟩, r.2)
    else (.ok ⟨r.1.1, true, [.deleteRange r.1.1 kvs kvs.length]⟩, r.2)

/-- The write of `compact`: a create for version 0, else an update at the revision read. -/
def compactCall (s : σ) (version modRev : ℤ) (value : Bytes) : (ℤ × Option Err) × σ :=
  if version = 0 then l.backend.create s compactRevAPI value 0
  else
    let u := l.backend.update s compactRevAPI value modRev 0
    ((u.1.1, u.1.2.2.2), u.2)

/-- The response of `compact` when it does not write. -/
def compactCurrent (rev version : ℤ) (curValue : Bytes) : TxnResponse :=
  ⟨rev, false, [.range 0 [⟨compactRevKey, curValue, version, 0, 0, 0⟩] 1]⟩

def compact (s : σ) (compareVersion : ℤ) (value : Bytes) : Except Err TxnResponse × σ :=
  let g := l.backend.get s compactRevAPI 0 false
  match g.1.2.2 with
  | some err => (.error err, g.2)
  | none =>
    let modRev := (g.1.2.1.map KeyValue.modRevision).getD 0
    let cur := (g.1.2.1.map fun kv => decodeVersion kv.value).getD (0, [])
    if compareVersion = cur.1 then
      let w := l.compactCall g.2 cur.1 modRev (encodeVersion (wrap64 (cur.1 + 1)) value)
      match w.1.2 with
      | none => (.ok ⟨w.1.1, true, []⟩, w.2)
      | some _ =>
        let g' := l.backend.get w.2 compactRevAPI 0 false
        match g'.1.2.2 with
        | some err => (.error err, g'.2)
        | none =>
          let cur' := (g'.1.2.1.map fun kv => decodeVersion kv.value).getD cur
          (.ok (compactCurrent g'.1.1 cur'.1 cur'.2), g'.2)
    else (.ok (compactCurrent g.1.1 cur.1 cur.2), g.2)

/-- `Txn`: the four shapes of transaction the apiserver uses, tried in order. -/
def txn (s : σ) (t : TxnRequest) : Except Err TxnResponse × σ :=
  match isCreate t with
  | some put => l.create s put
  | none =>
    match isDelete t with
    | some (rev, key) => l.delete s key rev
    | none =>
      match isUpdate t with
      | some (rev, key, value, lease) => l.update s rev key value lease
      | none =>
        match isCompact t with
        | some (ver, value) => l.compact s ver value
        | none => (.error .notSupported, s)

/-! ## Put and Range -/

structure PutResponse where
  revision : ℤ
  prevKv : Option KeyValue

/-- The key a request on `compact_rev_key` is redirected to. -/
def redirect (key : Bytes) : Bytes := if key = compactRevKey then compactRevAPI else key

/-- `Put`. The response is built also when the last call fails. -/
def put (s : σ) (r : PutRequest) : (Option PutResponse × Option Err) × σ :=
  if r.ignoreValue then ((none, some (.unsupported "ignoreValue")), s)
  else if r.ignoreLease then ((none, some (.unsupported "ignoreLease")), s)
  else
    let key := redirect r.key
    let c := l.backend.create s key r.value r.lease
    if c.1.2 = some .keyExists then
      let g := l.backend.get c.2 key c.1.1 false
      match g.1.2.2 with
      | some err => ((none, some err), g.2)
      | none =>
        let kv := if !r.prevKv then none else g.1.2.1
        let u := l.backend.update g.2 key r.value g.1.1 r.lease
        ((some ⟨u.1.1, kv.map toKV⟩, u.1.2.2.2), u.2)
    else ((some ⟨c.1.1, none⟩, c.1.2), c.2)

structure RangeResponse where
  revision : ℤ
  kvs : List KeyValue
  more : Bool
  count : ℤ
deriving DecidableEq

def get (s : σ) (r : RangeRequest) : Except Err RangeResponse × σ :=
  if r.limit > 1 then (.error (.unsupported "limit"), s)
  else
    let g := l.backend.get s (redirect r.key) r.revision r.keysOnly
    match g.1.2.2 with
    | some err => (.error err, g.2)
    | none => (.ok ⟨g.1.1, g.1.2.1.toList, false, g.1.2.1.toList.length⟩, g.2)

def list (s : σ) (r : RangeRequest) : Except Err RangeResponse × σ :=
  let revision := if r.revision > 0 then r.revision else 0
  if r.countOnly then
    let c := l.backend.count s r.key r.rangeEnd revision r.labelSelector r.fieldSelector
    match c.1.2.2 with
    | some err => (.error err, c.2)
    | none => (.ok ⟨c.1.1, [], false, c.1.2.1⟩, c.2)
  else
    let limit := if r.limit > 0 then r.limit + 1 else r.limit
    let k := l.backend.list s r.key r.rangeEnd limit revision r.keysOnly r.labelSelector r.fieldSelector
    -- more items than the limit: count the keys of the range at the revision listed
    if limit > 0 ∧ (k.1.2.1.length : ℤ) > r.limit then
      let revision := if revision = 0 then k.1.1 else revision
      let c := l.backend.count k.2 r.key r.rangeEnd revision r.labelSelector r.fieldSelector
      match c.1.2.2 with
      | some err => (.error err, c.2)
      | none => (.ok ⟨c.1.1, k.1.2.1.take (limit - 1).toNat, true, c.1.2.1⟩, c.2)
    else
      match k.1.2.2 with
      | some err => (.error err, k.2)
      | none => (.ok ⟨k.1.1, k.1.2.1, false, k.1.2.1.length⟩, k.2)

def range (s : σ) (r : RangeRequest) : Except Err RangeResponse × σ :=
  if r.rangeEnd = [] then l.get s r else l.list s r

end LimitedServer

/-- The checks of `KVServerBridge.Range`, in order: the field refused, if any. -/
def RangeRequest.refused (r : RangeRequest) : Option String :=
  if r.maxCreateRevision ≠ 0 then some "maxCreateRevision"
  else if r.sortOrder ≠ 0 then some "sortOrder"
  else if r.sortTarget ≠ 0 then some "sortTarget"
  else if r.serializable then some "serializable"
  else if r.minModRevision ≠ 0 then some "minModRevision"
  else if r.minCreateRevision ≠ 0 then some "minCreateRevision"
  else if r.maxModRevision ≠ 0 then some "maxModRevision"
  else none

/-- `KVServerBridge.Range`. -/
def KVServerBridge.range {σ : Type} (limited : LimitedServer σ) (s : σ) (r : RangeRequest) :
    Except Err LimitedServer.RangeResponse × σ :=
  match r.refused with
  | some field => (.error (.unsupported field), s)
  | none =>
    match limited.range s r with
    | (.error err, s) => (.error err, s)
    | (.ok resp, s) => (.ok { resp with kvs := resp.kvs.map toKV }, s)

end Harikube
