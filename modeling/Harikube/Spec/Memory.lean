import Harikube.Spec.Mvcc

/-!
# The in-memory backend

`pkg/drivers/memory/memory.go`. The backend keeps a log of entries in revision
order and, per key, the history of its entries; compaction trims both. Every
operation runs under the write lock (`Create`, `Update`, `Delete`, `Compact`) or
the read lock (`List`, one pass of a `Watch`), so it is one function here.
The `tidwall/btree` map is an ordered map.
-/

namespace Harikube

open Sorted

/-- `entry`. Of the previous entry only the key-value is ever read, so `prev` is
that key-value, `none` for the nil pointer. -/
structure Entry where
  revision : ℤ
  key : Bytes
  value : Bytes
  createRevision : ℤ
  version : ℤ
  prevRevision : ℤ
  lease : ℤ
  created : Bool
  deleted : Bool
  prev : Option KeyValue
deriving DecidableEq

def Entry.toKeyValue (e : Entry) : KeyValue :=
  ⟨e.key, e.value, e.version, e.createRevision, e.revision, e.lease⟩

/-- The watch event of an entry. -/
def Entry.event (e : Entry) : Event :=
  ⟨e.deleted, e.created, e.toKeyValue, some (e.prev.getD ⟨[], [], 0, 0, e.prevRevision, 0⟩)⟩

structure Memory where
  currentRevision : ℤ
  compactRevision : ℤ
  log : List Entry
  keys : OMap Bytes (List Entry)

namespace Memory

/-- `New`. -/
def new : Memory := ⟨0, 0, [], OMap.empty⟩

/-- `nextRevision`, then `appendEntry`: the caller has put the next revision into `e`. -/
def appendEntry (m : Memory) (e : Entry) : Memory :=
  let hist := (m.keys.find? e.key).getD []
  let e := { e with prev := hist.getLast?.map Entry.toKeyValue }
  { m with
    currentRevision := m.currentRevision + 1
    log := m.log ++ [e]
    keys := m.keys.insert e.key (hist ++ [e]) }

def latest (m : Memory) (key : Bytes) : Option Entry :=
  (m.keys.find? key).bind List.getLast?

/-- The loop of `atRevision`: the last entry before the first one above `revision`. -/
def atRevisionLoop (revision : ℤ) : List Entry → Option Entry → Option Entry
  | [], result => result
  | e :: es, result => if e.revision ≤ revision then atRevisionLoop revision es (some e) else result

def atRevision (m : Memory) (key : Bytes) (revision : ℤ) : Option Entry :=
  (m.keys.find? key).bind fun hist => atRevisionLoop revision hist none

/-- The index of the first log entry above `rev`, by arithmetic on `compactRevision`. -/
def logIndexAfter (m : Memory) (rev : ℤ) : ℕ :=
  let i := rev - m.compactRevision
  let i := if i < 0 then 0 else i
  let i := if i > m.log.length then (m.log.length : ℤ) else i
  i.toNat

def create (m : Memory) (key value : Bytes) (lease : ℤ) : (ℤ × Option Err) × Memory :=
  let latest := m.latest key
  if latest.any fun e => !e.deleted then ((m.currentRevision, some .keyExists), m)
  else
    let rev := m.currentRevision + 1
    let prevRev := (latest.map Entry.revision).getD 0
    ((rev, none), m.appendEntry ⟨rev, key, value, rev, 1, prevRev, lease, true, false, none⟩)

def update (m : Memory) (key value : Bytes) (revision lease : ℤ) :
    (ℤ × Option KeyValue × Bool × Option Err) × Memory :=
  match m.latest key with
  | none => ((m.currentRevision, none, false, none), m)
  | some latest =>
    if latest.deleted then ((m.currentRevision, none, false, none), m)
    else if latest.revision ≠ revision then
      ((m.currentRevision, some latest.toKeyValue, false, none), m)
    else
      let rev := m.currentRevision + 1
      let e : Entry := ⟨rev, key, value, latest.createRevision, latest.version + 1, latest.revision,
        lease, false, false, none⟩
      ((rev, some e.toKeyValue, true, none), m.appendEntry e)

def delete (m : Memory) (key : Bytes) (revision : ℤ) :
    (ℤ × Option KeyValue × Bool × Option Err) × Memory :=
  match m.latest key with
  | none => ((m.currentRevision, none, false, none), m)
  | some latest =>
    if latest.deleted then ((m.currentRevision, none, false, none), m)
    else if revision ≠ 0 ∧ latest.revision ≠ revision then
      ((m.currentRevision, some latest.toKeyValue, false, none), m)
    else
      let rev := m.currentRevision + 1
      ((rev, some latest.toKeyValue, true, none),
        m.appendEntry ⟨rev, key, latest.value, latest.createRevision, latest.version, latest.revision,
          latest.lease, false, true, none⟩)

/-- The body of the loop of `List`: append the entry's key-value unless it is a tombstone. -/
def collect (keysOnly : Bool) (kvs : List KeyValue) : Option Entry → List KeyValue
  | some e =>
    if e.deleted then kvs
    else kvs ++ [if keysOnly then { e.toKeyValue with value := [] } else e.toKeyValue]
  | none => kvs

/-- The loop of `List` over the iterator, from the first key at or after `key`. -/
def listLoop (m : Memory) (key rangeEnd : Bytes) (limit revision : ℤ) (keysOnly : Bool) :
    List (Bytes × List Entry) → List KeyValue → List KeyValue
  | [], kvs => kvs
  | (k, _) :: rest, kvs =>
    if (rangeEnd = [] ∧ k ≠ key) ∨ (rangeEnd ≠ [] ∧ rangeEnd ≤ k) then kvs
    else
      let e := if revision > 0 then m.atRevision k revision else m.latest k
      let kvs := collect keysOnly kvs e
      if limit > 0 ∧ (kvs.length : ℤ) ≥ limit then kvs
      else listLoop m key rangeEnd limit revision keysOnly rest kvs

def list (m : Memory) (key rangeEnd : Bytes) (limit revision : ℤ) (keysOnly : Bool) :
    ℤ × List KeyValue × Option Err :=
  let rev := m.currentRevision
  if revision > 0 ∧ revision > rev then (rev, [], some .futureRev)
  else if revision > 0 ∧ revision < m.compactRevision then (rev, [], some .compacted)
  else
    let rev := if revision > 0 then revision else rev
    -- `iter.Seek(key)`
    let iter := m.keys.entries.dropWhile fun p => p.1 < key
    (rev, listLoop m key rangeEnd limit revision keysOnly iter [], none)

def get (m : Memory) (key : Bytes) (revision : ℤ) (keysOnly : Bool) :
    ℤ × Option KeyValue × Option Err :=
  let (rev, kvs, err) := m.list key [] 1 revision keysOnly
  if err.isSome then (rev, none, err) else (rev, kvs.head?, none)

def count (m : Memory) (key rangeEnd : Bytes) (revision : ℤ) : ℤ × ℤ × Option Err :=
  let (rev, kvs, err) := m.list key rangeEnd 0 revision true
  if err.isSome then (rev, 0, err) else (rev, kvs.length, none)

/-! ## Compaction -/

/-- The loop of `Compact` over one history: the index of the last entry before the
first one above `revision`, `none` for `-1`. -/
def floorIdx (revision : ℤ) : List Entry → ℕ → Option ℕ → Option ℕ
  | [], _, floor => floor
  | e :: es, i, floor => if e.revision ≤ revision then floorIdx revision es (i + 1) (some i) else floor

/-- `newHist`: the history from its floor on, or after it if the floor is a tombstone. -/
def newHist (revision : ℤ) (hist : List Entry) : List Entry :=
  match floorIdx revision hist 0 none with
  | none => hist
  | some i => if hist[i]?.any Entry.deleted then hist.drop (i + 1) else hist.drop i

/-- `newHist[0].prev = nil`. -/
def clearPrev : List Entry → List Entry
  | [] => []
  | e :: es => { e with prev := none } :: es

/-- What the scan of `Compact` leaves of one history: `none` if the key is removed. -/
def compactHist (revision : ℤ) (hist : List Entry) : Option (List Entry) :=
  let n := newHist revision hist
  if n = [] then none
  else if n.length ≠ hist.length then some (clearPrev n)
  else some hist

/-- The entries whose `prev` the scan clears, by revision. The log holds the same
entries, so it sees the cleared pointer too. -/
def clearedRevisions (revision : ℤ) (m : Memory) : List ℤ :=
  m.keys.entries.filterMap fun p =>
    let n := newHist revision p.2
    if n.length ≠ p.2.length then n.head?.map Entry.revision else none

def compact (m : Memory) (revision : ℤ) : (ℤ × Option Err) × Memory :=
  let rev := m.currentRevision
  if revision > rev then ((0, some .futureRev), m)
  else if revision ≤ m.compactRevision then ((0, some .compacted), m)
  else
    let cleared := clearedRevisions revision m
    let cut := revision - m.compactRevision - 1
    let log := if cut > 0 then m.log.drop cut.toNat else m.log
    ((rev, none),
      { m with
        compactRevision := revision
        log := log.map fun e => if e.revision ∈ cleared then { e with prev := none } else e
        keys := m.keys.filterMap fun _ hist => compactHist revision hist })

/-! ## Calls -/

/-- The state after a call. -/
def step (m : Memory) : Op → Memory
  | .create key value lease => (m.create key value lease).2
  | .update key value revision lease => (m.update key value revision lease).2
  | .delete key revision => (m.delete key revision).2
  | .compact revision => (m.compact revision).2

/-- The state after a sequence of calls on a new backend. -/
def run (ops : List Op) : Memory := ops.foldl step new

/-! ## Watch -/

/-- The goroutine of a `Watch`: its range, the highest revision it has scanned, and
the events it has sent so far, batch after batch. -/
structure Watcher where
  key : Bytes
  rangeEnd : Bytes
  lastSeen : ℤ
  delivered : List Event
deriving DecidableEq

/-- `Watch`: `none` if the start revision is compacted and the channel is closed at
once, else the goroutine before its first pass. -/
def watch (m : Memory) (key rangeEnd : Bytes) (startRevision : ℤ) : Option Watcher :=
  if startRevision > 0 ∧ startRevision ≤ m.compactRevision then none
  else
    let lastSeen := startRevision - 1
    some ⟨key, rangeEnd, if lastSeen < 0 then m.currentRevision else lastSeen, []⟩

/-- One pass of the watch goroutine: scan the log from `logIndexAfter(lastSeen)` on
under the read lock and send the batch. -/
def pass (m : Memory) (w : Watcher) : Watcher :=
  let scanned := m.log.drop (m.logIndexAfter w.lastSeen)
  let batch := (scanned.filter fun e => inRange w.key w.rangeEnd e.key).map Entry.event
  { w with
    lastSeen := (scanned.getLast?.map Entry.revision).getD w.lastSeen
    delivered := w.delivered ++ batch }

end Memory

end Harikube
