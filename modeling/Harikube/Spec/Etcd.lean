import Harikube.Spec.Types

/-!
# The etcd requests, and what etcd does with a transaction

The part of `etcdserverpb` the server reads. `TxnRequest.etcd` is etcd's own meaning
of a transaction whose operations all name one key: the server is compared with it,
it is not translated from the server.
-/

namespace Harikube

structure RangeRequest where
  key : Bytes
  rangeEnd : Bytes := []
  limit : ℤ := 0
  revision : ℤ := 0
  sortOrder : ℤ := 0
  sortTarget : ℤ := 0
  serializable : Bool := false
  keysOnly : Bool := false
  countOnly : Bool := false
  minModRevision : ℤ := 0
  maxModRevision : ℤ := 0
  minCreateRevision : ℤ := 0
  maxCreateRevision : ℤ := 0
  labelSelector : Bytes := []
  fieldSelector : Bytes := []

structure PutRequest where
  key : Bytes
  value : Bytes
  lease : ℤ := 0
  prevKv : Bool := false
  ignoreValue : Bool := false
  ignoreLease : Bool := false

structure DeleteRangeRequest where
  key : Bytes
  rangeEnd : Bytes := []
  prevKv : Bool := false

namespace Compare

inductive Result
  | equal | greater | less | notEqual
deriving DecidableEq

inductive Target
  | version | create | mod | value | lease
deriving DecidableEq

/-- `TargetUnion`: the operand, a `oneof` that need not agree with the target. -/
inductive Operand
  | unset
  | version (v : ℤ)
  | createRevision (v : ℤ)
  | modRevision (v : ℤ)
  | value (v : Bytes)
  | lease (v : ℤ)
deriving DecidableEq

end Compare

structure Compare where
  result : Compare.Result
  target : Compare.Target
  key : Bytes
  operand : Compare.Operand
  rangeEnd : Bytes := []

namespace Compare

/-- `GetVersion`, zero if the operand is another one. -/
def getVersion (c : Compare) : ℤ := match c.operand with | .version v => v | _ => 0

/-- `GetCreateRevision`. -/
def getCreateRevision (c : Compare) : ℤ := match c.operand with | .createRevision v => v | _ => 0

/-- `GetModRevision`. -/
def getModRevision (c : Compare) : ℤ := match c.operand with | .modRevision v => v | _ => 0

/-- `GetValue`. -/
def getValue (c : Compare) : Bytes := match c.operand with | .value v => v | _ => []

/-- `GetLease`. -/
def getLease (c : Compare) : ℤ := match c.operand with | .lease v => v | _ => 0

/-- The outcome of a three-way comparison against the requested one. -/
def Result.admits : Result → Ordering → Bool
  | .equal, o => o = .eq
  | .greater, o => o = .gt
  | .less, o => o = .lt
  | .notEqual, o => o ≠ .eq

/-- etcd's compare on the content of the one key it names. An absent key has all
revisions, its version and its lease zero; a value compare on it fails. -/
def holds (c : Compare) (content : Option KeyValue) : Bool :=
  match c.target with
  | .version => c.result.admits (compare ((content.map KeyValue.version).getD 0) c.getVersion)
  | .create => c.result.admits (compare ((content.map KeyValue.createRevision).getD 0) c.getCreateRevision)
  | .mod => c.result.admits (compare ((content.map KeyValue.modRevision).getD 0) c.getModRevision)
  | .value => content.any fun kv => c.result.admits (compare kv.value c.getValue)
  | .lease => c.result.admits (compare ((content.map KeyValue.lease).getD 0) c.getLease)

end Compare

mutual

/-- `RequestOp`, a `oneof`. -/
inductive RequestOp
  | unset
  | range (r : RangeRequest)
  | put (r : PutRequest)
  | deleteRange (r : DeleteRangeRequest)
  | txn (r : TxnRequest)

inductive TxnRequest
  | mk (compare : List Compare) (success failure : List RequestOp)

end

namespace TxnRequest

def compare : TxnRequest → List Compare
  | mk c _ _ => c

def success : TxnRequest → List RequestOp
  | mk _ s _ => s

def failure : TxnRequest → List RequestOp
  | mk _ _ f => f

end TxnRequest

namespace RequestOp

def getRequestRange : RequestOp → Option RangeRequest
  | range r => some r
  | _ => none

def getRequestPut : RequestOp → Option PutRequest
  | put r => some r
  | _ => none

def getRequestDeleteRange : RequestOp → Option DeleteRangeRequest
  | deleteRange r => some r
  | _ => none

end RequestOp

/-! ## Transactions on one key -/

/-- etcd's put, in a transaction that gets revision `rev`. -/
def PutRequest.etcd (r : PutRequest) (rev : ℤ) (content : Option KeyValue) : Option KeyValue :=
  match content with
  | none => some ⟨r.key, r.value, 1, rev, rev, r.lease⟩
  | some kv => some ⟨r.key, r.value, kv.version + 1, kv.createRevision, rev, r.lease⟩

mutual

/-- The content of the key after one operation. -/
def RequestOp.etcd (rev : ℤ) : RequestOp → Option KeyValue → Option KeyValue
  | .unset, content => content
  | .range _, content => content
  | .put r, content => r.etcd rev content
  | .deleteRange _, _ => none
  | .txn t, content => (TxnRequest.etcd rev t content).2

/-- The content of the key after the operations of a branch. -/
def RequestOp.etcdAll (rev : ℤ) : List RequestOp → Option KeyValue → Option KeyValue
  | [], content => content
  | op :: ops, content => RequestOp.etcdAll rev ops (RequestOp.etcd rev op content)

/-- Whether the compares hold, and the content of the key after the branch they choose. -/
def TxnRequest.etcd (rev : ℤ) : TxnRequest → Option KeyValue → Bool × Option KeyValue
  | .mk cs success failure, content =>
    if cs.all fun c => c.holds content then (true, RequestOp.etcdAll rev success content)
    else (false, RequestOp.etcdAll rev failure content)

end

mutual

/-- The operation names the single key `key`; a put has none of the flags that
change what it writes or returns. -/
def RequestOp.onKey (key : Bytes) : RequestOp → Bool
  | .unset => true
  | .range r => r.key = key && r.rangeEnd = []
  | .put r => r.key = key && !r.prevKv && !r.ignoreValue && !r.ignoreLease
  | .deleteRange r => r.key = key && r.rangeEnd = []
  | .txn t => TxnRequest.onKey key t

def RequestOp.allOnKey (key : Bytes) : List RequestOp → Bool
  | [] => true
  | op :: ops => RequestOp.onKey key op && RequestOp.allOnKey key ops

/-- Every compare and every operation names the single key `key`. -/
def TxnRequest.onKey (key : Bytes) : TxnRequest → Bool
  | .mk cs success failure =>
    cs.all (fun c => c.key = key && c.rangeEnd = []) &&
      RequestOp.allOnKey key success && RequestOp.allOnKey key failure

end

end Harikube
