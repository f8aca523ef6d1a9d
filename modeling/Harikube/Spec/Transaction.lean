import Harikube.Spec.LogStructured

/-!
# Transaction objects

`transaction.Create` (`pkg/drivers/transaction/transaction.go`): the creation of an object
below `/harikube/transaction/` is meant to run the operations listed in it in one
transaction. The decoder of Kubernetes and the behaviour of the operations and of the
transaction are parameters.
-/

namespace Harikube

/-- A value of Go's `interface{}`: the types that JSON is decoded to, and
`map[string][]byte`, which the code asserts. -/
inductive GoValue
  | null
  | bool (b : Bool)
  | int (i : ℤ)
  | float (text : Bytes)
  | string (s : Bytes)
  | slice (items : List GoValue)
  | object (fields : List (Bytes × GoValue))
  | bytesMap (entries : List (Bytes × Bytes))

namespace GoValue

/-- `v.(map[string]interface{})`. -/
def asObject : GoValue → Option (List (Bytes × GoValue))
  | .object fields => some fields
  | _ => none

/-- `v.(map[string][]byte)`. -/
def asBytesMap : GoValue → Option (List (Bytes × Bytes))
  | .bytesMap entries => some entries
  | _ => none

/-- `v.(string)`. -/
def asString : GoValue → Option Bytes
  | .string s => some s
  | _ => none

/-- The values that `Unstructured` documents: its content is "a JSON compatible map with
string, float, int, bool, []interface{}, or map[string]interface{} children". -/
inductive Json : GoValue → Prop
  | null : Json .null
  | bool (b : Bool) : Json (.bool b)
  | int (i : ℤ) : Json (.int i)
  | float (text : Bytes) : Json (.float text)
  | string (s : Bytes) : Json (.string s)
  | slice {items : List GoValue} (h : ∀ v ∈ items, Json v) : Json (.slice items)
  | object {fields : List (Bytes × GoValue)} (h : ∀ p ∈ fields, Json p.2) : Json (.object fields)

end GoValue

/-- `unstructuredDecoder.Decode` into an `Unstructured`; `none` is an error. -/
abbrev Decoder := Bytes → Option (List (Bytes × GoValue))

/-- `strconv.ParseInt(s, 10, 64)`; `none` is an error. -/
def parseInt64 (s : Bytes) : Option ℤ :=
  let neg : Bool := s.head? = some 45
  let digits := if s.head? = some 43 || neg then s.tail else s
  if digits = [] || digits.any fun c => !(48 ≤ c.val && c.val ≤ 57) then none
  else
    let n := digits.foldl (fun (n : ℕ) c => n * 10 + (c.val - 48)) 0
    if neg then (if n ≤ 2 ^ 63 then some (-(n : ℤ)) else none)
    else if n < 2 ^ 63 then some (n : ℤ) else none

/-- The backend below a `transaction`: its calls, the same calls with the transaction in
their context, and the transaction. -/
structure TxBackend (σ : Type) where
  backend : Backend σ
  inTx : Backend σ
  currentRevision : σ → Except Err ℤ × σ
  transaction : σ → Option Err × σ
  commit : σ → Option Err × σ
  rollback : σ → Option Err × σ

namespace Transaction

variable {σ : Type} (decode : Decoder) (b : TxBackend σ) (lease : ℤ)

/-- How one operation ends: without an error, and then with or without effect; with an
error, which ends the loop; or in a panic. -/
inductive Sub
  | done (rev : ℤ) (effect : Bool)
  | failed (err : Err)
  | panicked

/-- The call of one operation. -/
def call (s : σ) (name op raw : Bytes) (revision : ℤ) : Sub × σ :=
  if op = ascii "create" then
    let r := b.inTx.create s name raw lease
    match r.1.2 with
    | none => (.done r.1.1 true, r.2)
    | some err => (.failed err, r.2)
  else if op = ascii "update" then
    let r := b.inTx.update s name raw revision lease
    match r.1.2.2.2 with
    | none => (.done r.1.1 r.1.2.2.1, r.2)
    | some err => (.failed err, r.2)
  else if op = ascii "delete" then
    let r := b.inTx.delete s name revision
    match r.1.2.2.2 with
    | none => (.done r.1.1 r.1.2.2.1, r.2)
    | some err => (.failed err, r.2)
  else (.failed .notSupported, s)

/-- The body of the loop for one resource. -/
def subOperation (s : σ) (key raw : Bytes) : Sub × σ :=
  match decode raw with
  | none => (.failed .tooManyOps, s)
  | some obj =>
    match obj.lookup (ascii "metadata") with
    | none => (.failed (.join (.missing "metadata") .tooManyOps), s)
    | some metadata =>
      match metadata.asObject with
      | none => (.panicked, s)
      | some fields =>
        match fields.lookup (ascii "resourceVersion") with
        | none => (.failed (.join (.missing "resourceVersion") .tooManyOps), s)
        | some resourceVersion =>
          match resourceVersion.asString with
          | none => (.panicked, s)
          | some text =>
            match parseInt64 text with
            | none => (.failed (.join (.missing "resourceVersion") .tooManyOps), s)
            | some revision =>
              -- `strings.Split(key, "#")`
              match key.splitOn 35 with
              | [name, op] => call b lease s name op raw revision
              | _ => (.failed .keyNotFound, s)

/-- How the loop ends: what stopped it, if anything, the largest revision returned, and
for each operation that ended without an error whether it had an effect. -/
structure Loop where
  stop : Option Sub
  maxRev : ℤ
  effects : List Bool

def loop : List (Bytes × Bytes) → ℤ → σ → Loop × σ
  | [], maxRev, s => (⟨none, maxRev, []⟩, s)
  | (key, raw) :: rest, maxRev, s =>
    match subOperation decode b lease s key raw with
    | (.done rev effect, s) =>
      let r := loop rest (max maxRev rev) s
      ({ r.1 with effects := effect :: r.1.effects }, r.2)
    | (stop, s) => (⟨some stop, maxRev, []⟩, s)

inductive Result
  | returned (rev : ℤ) (err : Option Err)
  | panicked

/-- What `Create` returns, the effects of the operations, and whether it has committed. -/
structure Outcome where
  result : Result
  effects : List Bool := []
  committed : Bool := false

/-- The operations of a transaction object: the operations, an error, or a panic of the
type assertion on `specs`. -/
def resources (value : Bytes) : Option (Except Err (List (Bytes × Bytes))) :=
  match decode value with
  | none => some (.error (.join .decode .notSupported))
  | some obj =>
    match obj.lookup (ascii "specs") with
    | none => some (.error (.join (.missing "specs") .notSupported))
    | some specs =>
      match specs.asObject with
      | none => none
      | some fields =>
        match fields.lookup (ascii "resources") with
        | none => some (.error (.join (.missing "resources") .notSupported))
        | some resources =>
          match resources.asBytesMap with
          | none => some (.error (.join (.missing "resources") .notSupported))
          | some raw => some (.ok raw)

/-- The part of `Create` behind the loop. It rolls back if no operation has failed, and
commits otherwise. -/
def finish (currRev : ℤ) (r : Loop) (s : σ) : Outcome × σ :=
  match r.stop with
  | some .panicked => (⟨.panicked, r.effects, false⟩, s)
  | none =>
    match b.rollback s with
    | (some err, s) => (⟨.returned currRev (some (.join err .tooManyOps)), r.effects, false⟩, s)
    | (none, s) => (⟨.returned currRev (some .tooManyOps), r.effects, false⟩, s)
  | some _ =>
    match b.commit s with
    | (some err, s) => (⟨.returned currRev (some (.join err .tooManyOps)), r.effects, false⟩, s)
    | (none, s) => (⟨.returned r.maxRev none, r.effects, true⟩, s)

/-- The error that a decoding failure of the object is returned with comes with revision
0, the others with the current one. -/
def refusal (currRev : ℤ) (value : Bytes) (err : Err) : Outcome :=
  ⟨.returned (if (decode value).isNone then 0 else currRev) (some err), [], false⟩

/-- `Create`. `order` is the order in which Go iterates the resources. -/
def create (order : List (Bytes × Bytes) → List (Bytes × Bytes)) (s : σ) (key value : Bytes) : Outcome × σ :=
  if !(ascii "/harikube/transaction/").isPrefixOf key then
    let r := b.backend.create s key value lease
    (⟨.returned r.1.1 r.1.2, [], false⟩, r.2)
  else if value = [] then (⟨.returned 0 (some (.join (.missing "value") .notSupported)), [], false⟩, s)
  else
    match b.currentRevision s with
    | (.error err, s) => (⟨.returned 0 (some (.join err .unhealthy)), [], false⟩, s)
    | (.ok currRev, s) =>
      match resources decode value with
      | none => (⟨.panicked, [], false⟩, s)
      | some (.error err) => (refusal decode currRev value err, s)
      | some (.ok raw) =>
        match b.transaction s with
        | (some err, s) => (⟨.returned currRev (some (.join err .unhealthy)), [], false⟩, s)
        | (none, s) =>
          let r := loop decode b lease (order raw) currRev s
          finish b currRev r.1 r.2

end Transaction

/-- The SQL backend: the log, and the state `τ` of the connection pool and the transaction.
Reading the current revision is a read of the log; what the calls, the transaction and its
end do is left open. -/
def TxBackend.OverSql {τ : Type} (b : TxBackend (SqlLog × τ)) : Prop :=
  ∀ s, b.currentRevision s = (s.1.currentRevision.1, (s.1.currentRevision.2, s.2))

end Harikube
