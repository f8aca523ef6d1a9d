import Harikube.Spec.Mvcc
import Harikube.Spec.Server

/-!
# Expiry of leased keys

`ttl.Run` (`pkg/ttl/ttl.go`) over a backend, which is the list of its writes here. One
goroutine saves an entry for every leased key, first for those that a list finds and then
for those that a watch reports; another one takes keys from a delaying queue and deletes
them once their entry has expired. The map holds pointers: `save` changes the entry of a
key in place, and the handler reads the fields of the entry it has loaded without the
mutex. Each section under the mutex, each call of the backend and each of those reads is a
step.
-/

namespace Harikube

/-- `entry`. Times are nanoseconds. -/
structure TtlEntry where
  modRevision : ℤ
  expiredAt : ℤ
deriving DecidableEq

/-- `listPageSize`. -/
def listPageSize : ℕ := 1000

/-- `retryInterval`. -/
def retryInterval : ℤ := 250000000

/-- `time.Duration(kv.Lease) * time.Second`. -/
def leaseDuration (lease : ℤ) : ℤ := wrap64 (lease * 1000000000)

/-- How far `seed` has got: the revision of its lists, the page it has listed and what is
left of it. `done` keeps the revision that the watch starts behind. -/
inductive TtlSeed
  | start
  | page (rev : ℕ) (kvs todo : List KeyValue)
  | done (rev : ℕ)
deriving DecidableEq

/-- What the first goroutine is about to do: to look at the next key-value, to save one, or
to queue its key. -/
inductive TtlLoop
  | next
  | save (kv : KeyValue)
  | queue (key : Bytes) (expires : ℤ)
deriving DecidableEq

/-- Where `handle` is: it has taken a key from the queue, loaded its entry, seen that it has
expired, read its revision, and deleted the key. -/
inductive TtlHandler
  | idle
  | got (key : Bytes)
  | loaded (key : Bytes) (e : ℕ)
  | expired (key : Bytes) (e : ℕ)
  | delete (key : Bytes) (modRevision : ℤ)
  | deleted (key : Bytes) (modRevision : ℤ)
deriving DecidableEq

/-- `entries` are the entries by their addresses, and `store` is the map. `pos` counts the
writes that the watch loop has gone through. `saved` and `calls` are records of the calls of
`save` and of the calls of `Delete` by the handler, with their times. -/
structure Ttl where
  log : List Mvcc.Write
  now : ℤ
  entries : List TtlEntry
  store : Sorted.OMap Bytes ℕ
  queue : List (Bytes × ℤ)
  seed : TtlSeed
  pos : ℕ
  loop : TtlLoop
  handler : TtlHandler
  saved : List (KeyValue × ℤ)
  calls : List (Bytes × ℤ × ℤ)

namespace Ttl

/-- The steps: a client's call, time, a page of `seed`, the three parts of the loops of
`seed` and `Run`, and the parts of `handle`. A call of `Delete` by the handler may fail,
after it has taken effect or before. -/
inductive Act
  | client (op : Op)
  | tick (d : ℕ)
  | list
  | next
  | save
  | enqueue
  | get (i : ℕ)
  | load
  | check
  | read
  | delete
  | fail (took : Bool)
  | remove

/-- A page of the keys from `key` on; `limit` is 0 for a backend that ignores the limit. -/
def page (limit : ℤ) (x : Ttl) (rev : ℕ) (key : Bytes) : List KeyValue :=
  Mvcc.list (Mvcc.snapshotAt x.log rev) key (ascii "0") limit

/-- The list calls of `seed`. -/
def list (limit : ℤ) (x : Ttl) : Ttl :=
  match x.seed, x.loop with
  | .start, .next =>
    let kvs := x.page limit x.log.length (ascii "/")
    { x with seed := .page x.log.length kvs kvs }
  | .page rev kvs [], .next =>
    if kvs.length < listPageSize then { x with seed := .done rev, pos := rev }
    else
      let kvs' := x.page limit rev ((kvs.getLast?.map KeyValue.key).getD [])
      { x with seed := .page rev kvs' kvs' }
  | _, _ => x

/-- The load and the comparison with the entry. -/
def outdated (x : Ttl) (kv : KeyValue) : Bool :=
  match (x.store.find? kv.key).bind fun e => x.entries[e]? with
  | none => true
  | some e => kv.modRevision > e.modRevision

/-- The next key-value of the page, or the next event of the watch. -/
def next (x : Ttl) : Ttl :=
  match x.seed, x.loop with
  | .page rev kvs (kv :: todo), .next =>
    { x with seed := .page rev kvs todo, loop := if kv.lease > 0 then .save kv else .next }
  | .done _, .next =>
    match x.log[x.pos]? with
    | none => x
    | some w =>
      if w.delete ∨ w.kv.lease ≤ 0 then { x with pos := x.pos + 1 }
      else if x.outdated w.kv then { x with loop := .save w.kv }
      else { x with pos := x.pos + 1 }
  | _, _ => x

def save (x : Ttl) : Ttl :=
  match x.loop with
  | .save kv =>
    let expires := leaseDuration kv.lease
    let entry : TtlEntry := ⟨kv.modRevision, x.now + expires⟩
    let x := { x with loop := .queue kv.key expires, saved := x.saved ++ [(kv, x.now)] }
    match x.store.find? kv.key with
    | some e => { x with entries := x.entries.set e entry }
    | none => { x with entries := x.entries ++ [entry], store := x.store.insert kv.key x.entries.length }
  | _ => x

/-- `queue.AddAfter`, and with it the end of an event. -/
def enqueue (x : Ttl) : Ttl :=
  match x.loop with
  | .queue key expires =>
    let x := { x with loop := .next, queue := x.queue ++ [(key, x.now + expires)] }
    match x.seed with
    | .done _ => { x with pos := x.pos + 1 }
    | _ => x
  | _ => x

/-- `queue.Get` of a key whose time has come. -/
def get (x : Ttl) (i : ℕ) : Ttl :=
  match x.handler, x.queue[i]? with
  | .idle, some (key, at') =>
    if at' ≤ x.now then { x with handler := .got key, queue := x.queue.eraseIdx i } else x
  | _, _ => x

/-- `load` of the handler; a key without an entry is dropped. -/
def load (x : Ttl) : Ttl :=
  match x.handler with
  | .got key =>
    match x.store.find? key with
    | none => { x with handler := .idle }
    | some e => { x with handler := .loaded key e }
  | _ => x

def check (x : Ttl) : Ttl :=
  match x.handler with
  | .loaded key e =>
    match x.entries[e]? with
    | none => x
    | some entry =>
      if entry.expiredAt - x.now > 0 then
        { x with handler := .idle, queue := x.queue ++ [(key, entry.expiredAt)] }
      else { x with handler := .expired key e }
  | _ => x

def read (x : Ttl) : Ttl :=
  match x.handler with
  | .expired key e =>
    match x.entries[e]? with
    | none => x
    | some entry => { x with handler := .delete key entry.modRevision }
  | _ => x

/-- `Delete` returns no error: it deletes the version if it is the live one. -/
def delete (x : Ttl) : Ttl :=
  match x.handler with
  | .delete key m =>
    { x with log := Mvcc.delete x.log key m, handler := .deleted key m, calls := x.calls ++ [(key, m, x.now)] }
  | _ => x

def fail (x : Ttl) (took : Bool) : Ttl :=
  match x.handler with
  | .delete key m =>
    { x with
      log := if took then Mvcc.delete x.log key m else x.log, handler := .idle
      queue := x.queue ++ [(key, x.now + retryInterval)], calls := x.calls ++ [(key, m, x.now)] }
  | _ => x

def remove (x : Ttl) : Ttl :=
  match x.handler with
  | .deleted key _ => { x with store := x.store.erase key, handler := .idle }
  | _ => x

def step (limit : ℤ) (x : Ttl) : Act → Ttl
  | .client op => { x with log := Mvcc.step x.log op }
  | .tick d => { x with now := x.now + d }
  | .list => x.list limit
  | .next => x.next
  | .save => x.save
  | .enqueue => x.enqueue
  | .get i => x.get i
  | .load => x.load
  | .check => x.check
  | .read => x.read
  | .delete => x.delete
  | .fail took => x.fail took
  | .remove => x.remove

/-- A backend with some writes, at some time. -/
def init (log : List Mvcc.Write) (now : ℤ) : Ttl :=
  ⟨log, now, [], Sorted.OMap.empty, [], .start, 0, .next, .idle, [], []⟩

/-- The entry that the map holds for a key. -/
def entry (x : Ttl) (key : Bytes) : Option TtlEntry := (x.store.find? key).bind fun e => x.entries[e]?

/-- A version that the watch loop has gone through, that is leased and still live, has its
entry in the map. -/
def Tracked (x : Ttl) : Prop :=
  ∀ (rev i : ℕ) (w : Mvcc.Write), x.seed = .done rev → rev ≤ i → i < x.pos → x.log[i]? = some w →
    w.delete = false → 0 < w.kv.lease → (Mvcc.snapshot x.log).find? w.kv.key = some w.kv →
      ∃ e, x.entry w.kv.key = some e ∧ e.modRevision = w.kv.modRevision

/-- The handler deletes a version only if it was written with a lease, and its lease has
elapsed since it was saved. -/
def Elapsed (x : Ttl) : Prop :=
  ∀ (key : Bytes) (m t : ℤ), (key, m, t) ∈ x.calls → ∃ (w : Mvcc.Write) (s : ℤ),
    w ∈ x.log ∧ w.delete = false ∧ w.kv.key = key ∧ w.kv.modRevision = m ∧ 0 < w.kv.lease ∧
      (w.kv, s) ∈ x.saved ∧ s + w.kv.lease * 1000000000 ≤ t

/-- The handler removes the entry that it has deleted the version of. -/
def Spared (x : Ttl) (a : Act) : Prop :=
  ∀ (key : Bytes) (m : ℤ) (e : TtlEntry), a = .remove → x.handler = .deleted key m → x.entry key = some e →
    e.modRevision = m

/-- A save does not come between the handler's two reads of the entry, and the lease fits
into a `time.Duration`. -/
def Undisturbed (x : Ttl) (a : Act) : Prop :=
  ∀ kv : KeyValue, a = .save → x.loop = .save kv →
    kv.lease ≤ 9223372036 ∧ ∀ e : ℕ, x.handler ≠ .expired kv.key e

/-! ## Seeding -/

/-- The key-values of the keys that `seed` is after, at a revision and in key order. -/
def content (x : Ttl) (rev : ℕ) : List KeyValue :=
  Mvcc.list (Mvcc.snapshotAt x.log rev) (ascii "/") (ascii "0") 0

/-- The step is the next one of `seed`. -/
def seedTurn (x : Ttl) (a : Act) : Bool :=
  match a, x.seed, x.loop with
  | .list, .start, .next => true
  | .list, .page _ _ [], .next => true
  | .next, .page _ _ (_ :: _), .next => true
  | .save, .page _ _ _, .save _ => true
  | .enqueue, .page _ _ _, .queue _ _ => true
  | _, _, _ => false

/-- The step that the first goroutine takes next. -/
def own (x : Ttl) : Act :=
  match x.loop, x.seed with
  | .save _, _ => .save
  | .queue _ _, _ => .enqueue
  | .next, .page _ _ (_ :: _) => .next
  | .next, .done _ => .next
  | .next, _ => .list

/-- A schedule: at `none` the first goroutine takes its next step. -/
def sched (limit : ℤ) (x : Ttl) : Option Act → Ttl
  | none => x.step limit x.own
  | some a => x.step limit a

/-- `seed` has returned, and nothing has come from the watch yet. -/
def Returned (x : Ttl) (rev : ℕ) : Prop := x.seed = .done rev ∧ x.pos = rev ∧ x.loop = .next

end Ttl

end Harikube
