import Harikube.Spec.LogStructured
import Harikube.Spec.Memory

/-!
# One client of a backend

The calls of `server.Backend` on the current state, issued one after another, and their
answers: on the multi-version store, on `Memory` and on `LogStructured` over a SQL table.
An answer is what a call returns besides the revision of the store.
-/

namespace Harikube

/-- A call, at a time of the clock if it may insert. Reads are at revision 0 and without
selectors. -/
inductive Request
  | create (now : ℤ) (key value : Bytes) (lease : ℤ)
  | update (now : ℤ) (key value : Bytes) (revision lease : ℤ)
  | delete (now : ℤ) (key : Bytes) (revision : ℤ)
  | get (key : Bytes) (keysOnly : Bool)
  | list (key rangeEnd : Bytes) (limit : ℤ) (keysOnly : Bool)
  | count (key rangeEnd : Bytes)

/-- What a call returns. A call without a success flag succeeds if it returns no error. -/
structure Reply where
  err : Option Err
  ok : Bool
  kvs : List KeyValue
  count : ℤ
deriving DecidableEq

/-- A key-value without its version, which `LogStructured` does not keep. -/
def KeyValue.unversioned (kv : KeyValue) : KeyValue := { kv with version := 0 }

/-- The answer of a call without a success flag. -/
def Reply.plain (err : Option Err) (kvs : List KeyValue) (count : ℤ) : Reply :=
  ⟨err, err.isNone, kvs.map KeyValue.unversioned, count⟩

/-- The answer of a call with one, and with at most one key-value. -/
def Reply.flagged (r : Option KeyValue × Bool × Option Err) : Reply :=
  ⟨r.2.2, r.2.1, (r.1.map KeyValue.unversioned).toList, 0⟩

/-- A key-value as a read returns it. -/
def KeyValue.shown (keysOnly : Bool) (kv : KeyValue) : KeyValue := if keysOnly then { kv with value := [] } else kv

/-! ## The multi-version store -/

namespace Mvcc

/-- The answer to an update. -/
def updateReply (h : List Write) (key value : Bytes) (revision lease : ℤ) : Option KeyValue × Bool × Option Err :=
  match (snapshot h).find? key with
  | none => (none, false, none)
  | some kv =>
    if kv.modRevision ≠ revision then (some kv, false, none)
    else (some ⟨key, value, kv.version + 1, kv.createRevision, nextRev h, lease⟩, true, none)

/-- The answer to a delete. -/
def deleteReply (h : List Write) (key : Bytes) (revision : ℤ) : Option KeyValue × Bool × Option Err :=
  match (snapshot h).find? key with
  | none => (none, false, none)
  | some kv => (some kv, revision = 0 || kv.modRevision = revision, none)

def serve (h : List Write) : Request → Reply × List Write
  | .create _ key value lease =>
    (.plain (if ((snapshot h).find? key).isSome then some .keyExists else none) [] 0, create h key value lease)
  | .update _ key value revision lease =>
    (.flagged (updateReply h key value revision lease), update h key value revision lease)
  | .delete _ key revision => (.flagged (deleteReply h key revision), delete h key revision)
  | .get key keysOnly => (.plain none (((snapshot h).find? key).map (KeyValue.shown keysOnly)).toList 0, h)
  | .list key rangeEnd limit keysOnly =>
    (.plain none ((list (snapshot h) key rangeEnd limit).map (KeyValue.shown keysOnly)) 0, h)
  | .count key rangeEnd => (.plain none [] (list (snapshot h) key rangeEnd 0).length, h)

end Mvcc

/-! ## The backends -/

namespace Memory

/-- `Start`: create the health key and update it, for the revision of the other backends. -/
def start (m : Memory) : Memory :=
  let m := (m.create LogStructured.healthKey LogStructured.healthVal 0).2
  (m.update LogStructured.healthKey LogStructured.healthVal 1 0).2

def serve (m : Memory) : Request → Reply × Memory
  | .create _ key value lease =>
    let r := m.create key value lease
    (.plain r.1.2 [] 0, r.2)
  | .update _ key value revision lease =>
    let r := m.update key value revision lease
    (.flagged r.1.2, r.2)
  | .delete _ key revision =>
    let r := m.delete key revision
    (.flagged r.1.2, r.2)
  | .get key keysOnly =>
    let r := m.get key 0 keysOnly
    (.plain r.2.2 r.2.1.toList 0, m)
  | .list key rangeEnd limit keysOnly =>
    let r := m.list key rangeEnd limit 0 keysOnly
    (.plain r.2.2 r.2.1 0, m)
  | .count key rangeEnd =>
    let r := m.count key rangeEnd 0
    (.plain r.2.2 [] r.2.1, m)

end Memory

namespace LogStructured

def serve (c : Codec) (s : SqlLog) : Request → Reply × SqlLog
  | .create now key value lease =>
    let r := create ⟨c, now⟩ s key value lease
    (.plain r.1.2 [] 0, r.2)
  | .update now key value revision lease =>
    let r := update ⟨c, now⟩ s key value revision lease
    (.flagged r.1.2, r.2)
  | .delete now key revision =>
    let r := delete ⟨c, now⟩ s key revision
    (.flagged r.1.2, r.2)
  | .get key keysOnly =>
    let r := get s key 0 keysOnly
    (.plain r.1.2.2 r.1.2.1.toList 0, r.2)
  | .list key rangeEnd limit keysOnly =>
    let r := list s key rangeEnd limit 0 keysOnly fun _ => true
    (.plain r.1.2.2 r.1.2.1 0, r.2)
  | .count key rangeEnd =>
    let r := s.count key rangeEnd 0 fun _ => true
    (.plain r.1.2.2 [] r.1.2.1, r.2)

end LogStructured

/-! ## Calls on one key -/

/-- A call of `LogStructured` on one key. -/
inductive KeyOp
  | get (key : Bytes) (revision : ℤ) (keysOnly : Bool)
  | create (now : ℤ) (key value : Bytes) (lease : ℤ)
  | update (now : ℤ) (key value : Bytes) (revision lease : ℤ)
  | delete (now : ℤ) (key : Bytes) (revision : ℤ)

/-- The key-value, the success flag and the error that the call returns. -/
def KeyOp.answer (c : Codec) (s : SqlLog) : KeyOp → Option KeyValue × Bool × Option Err
  | .get key revision keysOnly =>
    let r := LogStructured.get s key revision keysOnly
    (r.1.2.1, r.1.2.2.isNone, r.1.2.2)
  | .create now key value lease =>
    let r := LogStructured.create ⟨c, now⟩ s key value lease
    (none, r.1.2.isNone, r.1.2)
  | .update now key value revision lease => (LogStructured.update ⟨c, now⟩ s key value revision lease).1.2
  | .delete now key revision => (LogStructured.delete ⟨c, now⟩ s key revision).1.2

/-! ## Both at once -/

/-- The key is below `/` and not the health key. -/
def Served (key : Bytes) : Prop := ascii "/" <+: key ∧ key ≠ LogStructured.healthKey

instance decidableServed (key : Bytes) : Decidable (Served key) := inferInstanceAs (Decidable (_ ∧ _))

/-- The decoder accepts the value, and the value has no owners and no finalizers. -/
def Codec.Bare (c : Codec) (key value : Bytes) : Prop :=
  ∃ m, c.decodeObject key value = some m ∧ m.owners = [] ∧ m.finalizers = []

/-- What is assumed of the decoder: it accepts the empty value, which every delete and the
first row of the table carry, and the value of the health key. -/
structure Codec.Accepts (c : Codec) : Prop where
  nil : ∀ key, (c.decodeObject key []).isSome = true
  health : c.Bare LogStructured.healthKey LogStructured.healthVal

/-- The calls are about keys below `/` other than the health key, and write bare values. -/
def Request.Served (c : Codec) : Request → Prop
  | .create _ key value _ => Harikube.Served key ∧ c.Bare key value
  | .update _ key value _ _ => Harikube.Served key ∧ c.Bare key value
  | .delete _ key _ => Harikube.Served key
  | .get key _ => Harikube.Served key
  | .list key rangeEnd _ _ => ∀ k, Mvcc.inList key rangeEnd k = true → Harikube.Served k
  | .count key rangeEnd => ∀ k, Mvcc.inList key rangeEnd k = true → Harikube.Served k

/-- A `Memory` backend and a `LogStructured` backend. -/
structure Backends where
  mem : Memory
  log : SqlLog

namespace Backends

/-- Both started on nothing. -/
def started (c : Codec) (now : ℤ) : Backends := ⟨Memory.new.start, (LogStructured.start ⟨c, now⟩ SqlLog.init).2⟩

/-- The same call on both. -/
def step (c : Codec) (b : Backends) (r : Request) : Backends :=
  ⟨(b.mem.serve r).2, (LogStructured.serve c b.log r).2⟩

/-- Both return the same. -/
def Agree (c : Codec) (b : Backends) (r : Request) : Prop := (b.mem.serve r).1 = (LogStructured.serve c b.log r).1

/-- The key of a delete has a row, live or deleted, and the count of one key is of a key
that is not live. -/
def Known (b : Backends) : Request → Prop
  | .delete _ key _ => (b.log.db.kine.last key).isSome = true
  | .count key rangeEnd => rangeEnd = [] → ((b.log.db.kine.last key).filter fun x => !x.deleted) = none
  | _ => True

instance decidableKnown (b : Backends) (r : Request) : Decidable (b.Known r) := by
  cases r <;> unfold Known <;> infer_instance

end Backends

end Harikube
