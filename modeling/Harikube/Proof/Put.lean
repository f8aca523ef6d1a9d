import Harikube.Proof.Calls
import Harikube.Proof.Txn

/-!
# Reading back a put

`Put` is a `Create`, and for a key that exists a `Get` and an `Update` at the revision
that the `Get` returns, which is the store's and not the key's. The result of the swap
is dropped. A put on `compact_rev_key` is redirected to a key whose value is decoded
when it is read.

* `readsBack_iff`: what a range of one key returns, in terms of the backend's `Get`.
* `Memory.PutStores`, `LogStructured.PutStores`: what has to hold of the store before
  the put.
* `put_reads_back_iff`: **a put that returns no error is read back if and only if it
  does.**
-/

namespace Harikube

/-! ## Any backend -/

namespace LimitedServer

variable {σ : Type} (l : LimitedServer σ)

/-- A range of the key returns the value. -/
def ReadsBack (s : σ) (key value : Bytes) : Prop :=
  ∃ resp, (KVServerBridge.range l s { key := key }).1 = .ok resp ∧ resp.kvs.map KeyValue.value = [value]

variable {l} in
theorem not_readsBack {s : σ} {key value : Bytes} {v : List Bytes}
    (h : ((KVServerBridge.range l s { key := key }).1.toOption.map fun resp => resp.kvs.map KeyValue.value) =
      some v) (hne : v ≠ [value]) : ¬ l.ReadsBack s key value := by
  rintro ⟨resp, hresp, hvalue⟩
  rw [hresp] at h
  exact hne ((Option.some.inj h).symm.trans hvalue)

theorem readsBack_iff (s : σ) (key value : Bytes) :
    l.ReadsBack s key value ↔ (l.backend.get s (redirect key) 0 false).1.2.2 = none ∧
      ∃ kv, (l.backend.get s (redirect key) 0 false).1.2.1 = some kv ∧ (toKV kv).value = value := by
  unfold ReadsBack KVServerBridge.range
  simp only [RangeRequest.refused, ne_eq, not_true_eq_false, if_false, Bool.false_eq_true, range, get, if_true]
  rw [if_neg (by decide)]
  cases (l.backend.get s (redirect key) 0 false).1.2.2 with
  | some err => simp
  | none =>
    cases (l.backend.get s (redirect key) 0 false).1.2.1 <;> simp

end LimitedServer

/-- A key-value under the key of a request reads back as the value. -/
def Shows (value : Bytes) (kv : Option KeyValue) : Prop := ∃ x, kv = some x ∧ (toKV x).value = value

theorem decodeVersion_eq_self {value : Bytes} : (decodeVersion value).2 = value ↔ value = ascii "0" := by
  unfold decodeVersion
  split
  · rename_i c val hdrop
    -- what is behind the separator is shorter than the value
    have hlen : val.length < value.length := by
      have hle := (List.dropWhile_sublist (fun b => decide (b ≠ 124)) (l := value)).length_le
      rw [hdrop, List.length_cons] at hle
      omega
    constructor
    · intro h
      have h : val = value := h
      rw [h] at hlen
      exact absurd hlen (lt_irrefl _)
    · rintro rfl
      simp [ascii] at hdrop
  · exact eq_comm

/-- The value of a put, once stored, reads back unless its key is the redirected one and
the value is not the default of the decoder. -/
theorem shows_self {kv : KeyValue} {value : Bytes} (hv : kv.value = value) :
    Shows value (some kv) ↔ (kv.key = compactRevAPI → value = ascii "0") := by
  unfold Shows toKV
  simp only [Option.some.injEq, exists_eq_left']
  split
  · rename_i hk
    simp [hk, hv, decodeVersion_eq_self]
  · rename_i hk
    simp [hk, hv]

/-! ## The Memory backend -/

namespace Memory

variable {m : Memory} {h : List Mvcc.Write} {n : ℕ}

/-- The key is new, or its last write is the last write of all: then the put writes, and
the value has to survive the decoding. Otherwise the put writes nothing. -/
def PutStores (m : Memory) (key value : Bytes) : Prop :=
  match m.content key with
  | none => key = compactRevAPI → value = ascii "0"
  | some kv =>
    if kv.modRevision = m.currentRevision then key = compactRevAPI → value = ascii "0"
    else Shows value (some kv)

theorem Refines.readsBack_iff (hR : Refines m h n) (register : Bytes → Option Err) (key value : Bytes) :
    (LimitedServer.overMemory register).ReadsBack m key value ↔
      Shows value (m.content (LimitedServer.redirect key)) := by
  rw [LimitedServer.readsBack_iff, LimitedServer.overMemory_get, hR.get_current, hR.content_eq]
  exact ⟨fun h => h.2, fun h => ⟨rfl, h⟩⟩

theorem Refines.put_reads (hR : Refines m h n) (register : Bytes → Option Err) {r : PutRequest}
    (hput : ((LimitedServer.overMemory register).put m r).1.2 = none) :
    (LimitedServer.overMemory register).ReadsBack ((LimitedServer.overMemory register).put m r).2 r.key r.value ↔
      PutStores m (LimitedServer.redirect r.key) r.value := by
  unfold LimitedServer.put at hput ⊢
  by_cases hv : r.ignoreValue = true
  · simp [hv] at hput
  by_cases hl : r.ignoreLease = true
  · simp [hv, hl] at hput
  simp only [hv, hl, if_false, LimitedServer.overMemory_create, LimitedServer.overMemory_update,
    LimitedServer.overMemory_get, Bool.false_eq_true]
  generalize hk : LimitedServer.redirect r.key = key
  unfold PutStores
  cases hc : m.content key with
  | none =>
    obtain ⟨herr, hnew⟩ := hR.create_content key r.value r.lease
    rw [hc] at herr hnew
    have hne : (m.create key r.value r.lease).1.2 ≠ some .keyExists := by
      rw [herr]
      simp
    simp only [hne, if_false]
    rw [(create_refines hR key r.value r.lease).1.readsBack_iff, hk, hnew]
    exact shows_self rfl
  | some kv =>
    have hex := hR.create_exists (show (m.content key).isSome by rw [hc]; rfl) r.value r.lease
    have hupd := (hR.update_content key r.value m.currentRevision r.lease).2
    rw [hc] at hupd
    simp only [hex, if_true, hR.get_now key]
    rw [(update_refines hR key r.value m.currentRevision r.lease).1.readsBack_iff, hk, hupd, Option.map_some]
    split
    · exact shows_self rfl
    · exact Iff.rfl

end Memory

/-! ## The SQL backend -/

namespace SqlLog

/-- The revision `CurrentRevision` returns for a table that has rows. -/
def cachedRev (s : SqlLog) : ℤ := if s.currentRev ≠ 0 then s.currentRev else s.db.kine.currentRev.getD 0

/-- The revision that a `Get` of a live key at the cached revision returns: that of the
table if the key was live as of the cached revision, else the cached one. -/
def readRev (s : SqlLog) (key : Bytes) : ℤ :=
  if listRows s.db.kine key [] 1 s.cachedRev false (fun _ => true) ≠ [] then s.db.kine.currentRev.getD 0
  else s.cachedRev

end SqlLog

namespace LogStructured

open SqlLog Kine

variable {s : SqlLog} {key value : Bytes} {x : Row}

/-- What a client reads of a key: its last row, unless that is deleted. -/
def content (db : Db) (key : Bytes) : Option KeyValue :=
  ((db.kine.last key).filter fun x => !x.deleted).map fun x => (x.toEvent true false).kv

/-- The key has no live row, or its live row has the revision that the `Get` returns:
then the put appends, and what the append leaves has to read back. Otherwise the put
writes nothing. -/
def PutStores (env : SqlEnv) (s : SqlLog) (key value : Bytes) (lease : ℤ) : Prop :=
  match (s.db.kine.last key).filter fun x => !x.deleted with
  | none =>
    ∃ e, createEvent key value lease ((s.db.kine.last key).map (Row.toEvent false false)) = some e ∧
      Shows value (content (s.append env.codec env.now e).2.db key)
  | some x =>
    if x.id = s.readRev key then
      Shows value
        (content (s.append env.codec env.now (updateEvent key value lease (x.toEvent true false))).2.db key)
    else Shows value (content s.db key)

/-- A value without metadata reads back once its row is inserted. -/
theorem append_shows {c : Codec} {now rev : ℤ} {e : Event} {s' : SqlLog} {m : Meta}
    (h : s.append c now e = ((rev, none), s')) (hm : c.decodeObject e.kv.key e.kv.value = some m)
    (hlabels : m.labels = []) (hfields : m.fieldsSet = []) (howners : m.owners = []) (hd : e.delete = false) :
    Shows e.kv.value (content s'.db e.kv.key) ↔ (e.kv.key = compactRevAPI → e.kv.value = ascii "0") := by
  unfold append Codec.insert at h
  simp only [hm, hlabels, hfields, howners, hd, List.any_nil, Bool.false_and, Bool.or_false] at h
  split at h
  · simp at h
  · rename_i i db hins
    split at hins
    · simp at hins
    · rename_i i' db' hrow
      simp only [ne_eq, not_true_eq_false, false_or, Bool.false_eq_true, and_false, if_false,
        Except.ok.injEq, Prod.mk.injEq] at hins
      obtain ⟨rfl, rfl⟩ := hins
      obtain ⟨hkine, -⟩ := Db.insertRow_eq_ok hrow
      obtain ⟨-, -, old, hrows⟩ := insert_eq_some hkine
      simp only [Prod.mk.injEq, and_true] at h
      obtain ⟨-, rfl⟩ := h
      -- the new row has the largest id of its name
      unfold content last
      rw [hrows, List.filter_append, List.filter_cons_of_pos (by simp), List.filter_nil, List.getLast?_concat]
      exact shows_self rfl

theorem readsBack_iff (env : SqlEnv) (selected : Bytes → Bytes → Row → Bool) (register : Bytes → Option Err)
    (s : SqlLog) (key value : Bytes) :
    LimitedServer.ReadsBack ⟨backend env selected, register⟩ s key value ↔
      Shows value (content s.db (LimitedServer.redirect key)) := by
  rw [LimitedServer.readsBack_iff]
  generalize LimitedServer.redirect key = k
  show (get' s k 0 false false).1.2.2 = none ∧
    (∃ kv, (get' s k 0 false false).1.2.1.map Event.kv = some kv ∧ _) ↔ _
  unfold content Shows
  rw [get'_event]
  simp only [Bool.or_false, Bool.not_false]
  cases hlast : (s.db.kine.last k).filter fun x => !x.deleted with
  | none => simp
  | some x =>
    rw [get'_found (x := x) (by simpa using hlast)]
    simp

/-- Loading the cached revision. -/
theorem currentRevision_of_mem (hx : x ∈ s.db.kine.rows) :
    s.currentRevision = (.ok s.cachedRev, { s with currentRev := s.cachedRev }) := by
  unfold currentRevision cachedRev
  split
  · rfl
  · cases h : s.db.kine.currentRev with
    | none =>
      have := id_le_currentRev hx
      have := (s.db.kine.bounded x hx).1
      rw [h] at *
      simp only [Option.getD_none] at *
      omega
    | some rev => rfl

theorem cachedRev_ne_zero (hx : x ∈ s.db.kine.rows) : s.cachedRev ≠ 0 := by
  have hpos := currentRev_pos hx
  unfold cachedRev
  split
  · assumption
  · omega

theorem readRev_ne_zero (hx : x ∈ s.db.kine.rows) (key : Bytes) : s.readRev key ≠ 0 := by
  have hpos := currentRev_pos hx
  unfold readRev
  split
  · omega
  · exact cachedRev_ne_zero hx

/-- An append looks at the database only. -/
theorem append_congr {s' : SqlLog} (h : s'.db = s.db) (c : Codec) (now : ℤ) (e : Event) :
    (s'.append c now e).1 = (s.append c now e).1 ∧ (s'.append c now e).2.db = (s.append c now e).2.db := by
  unfold append
  rw [h]
  simp only
  split
  · exact ⟨rfl, h⟩
  · exact ⟨rfl, rfl⟩

/-- A list at the revision that is cached returns that revision, or the table's with rows. -/
theorem list_loaded (hne : s.currentRev ≠ 0) (key : Bytes) (includeDeleted : Bool) :
    (s.list key [] 1 s.currentRev includeDeleted false fun _ => true).2 = s ∧
    ((s.list key [] 1 s.currentRev includeDeleted false fun _ => true).1.2.2 = none →
      (s.list key [] 1 s.currentRev includeDeleted false fun _ => true).1.1 =
        if listRows s.db.kine key [] 1 s.currentRev includeDeleted (fun _ => true) ≠ [] then
          s.db.kine.currentRev.getD 0
        else s.currentRev) := by
  unfold SqlLog.list
  simp only [currentRevision, hne, ne_eq, not_false_eq_true, if_true, List.map_eq_nil_iff]
  split
  · unfold listCheck
    split_ifs <;> exact ⟨rfl, fun _ => rfl⟩
  · split
    · exact ⟨rfl, fun h => by simp at h⟩
    · unfold listCheck
      split_ifs <;> exact ⟨rfl, fun _ => rfl⟩

/-- A `get` does not report that the key exists. -/
theorem get'_err (s : SqlLog) (key : Bytes) (includeDeletes keysOnly : Bool) :
    (get' s key 0 includeDeletes keysOnly).1.2.2 ≠ some .keyExists := by
  have hcheck : ∀ rev compact events, (listCheck rev compact 0 events).2.2 ≠ some .keyExists := by
    intro rev compact events
    unfold listCheck
    split_ifs <;> simp
  have hlist : (s.list key [] 1 0 includeDeletes keysOnly fun _ => true).1.2.2 ≠ some .keyExists := by
    unfold SqlLog.list currentRevision getCompactRevision
    simp only
    split
    · exact hcheck _ _ _
    · split
      · rename_i err s' h
        split at h
        · simp at h
        · split at h
          · obtain ⟨h, -⟩ := Prod.mk.inj h
            rw [← Except.error.inj h]
            simp
          · simp at h
      · split
        · rename_i err h
          split at h
          · rw [← Except.error.inj h]
            simp
          · simp at h
        · exact hcheck _ _ _
  unfold get'
  simp only
  split
  · exact hlist
  · simp

section Live

/-! ### A key with a live row -/

variable (hx : ((s.db.kine.last key).filter fun x => !x.deleted) = some x)
include hx

theorem mem_of_live : x ∈ s.db.kine.rows := (last_eq_some (Option.eq_some_of_filter_eq_some hx)).1

theorem live_or (includeDeletes : Bool) :
    ((s.db.kine.last key).filter fun x => !x.deleted || includeDeletes) = some x := by
  rw [Option.filter_eq_some_iff] at hx ⊢
  exact ⟨hx.1, by rw [hx.2]; rfl⟩

theorem create_exists (env : SqlEnv) (value : Bytes) (lease : ℤ) :
    create env s key value lease =
      ((s.cachedRev, some .keyExists), { s with currentRev := s.cachedRev }) := by
  have hlive : x.deleted = false := by simpa using (Option.filter_eq_some_iff.1 hx).2
  have hadj : adjustRevision s 0 = (s.cachedRev, { s with currentRev := s.cachedRev }) := by
    unfold adjustRevision
    rw [if_neg (by simp), currentRevision_of_mem (mem_of_live hx)]
  unfold create
  rw [get'_found (live_or hx _)]
  simp only [createEvent, Row.toEvent, hlive, Bool.false_eq_true, if_false, hadj]

/-- The `Get` at the revision that the `Create` has returned. -/
theorem get_cached (hok : (get { s with currentRev := s.cachedRev } key s.cachedRev false).1.2.2 = none) :
    (get { s with currentRev := s.cachedRev } key s.cachedRev false).1.1 = s.readRev key ∧
      (get { s with currentRev := s.cachedRev } key s.cachedRev false).2 = { s with currentRev := s.cachedRev } := by
  have hmem := mem_of_live hx
  have hne := cachedRev_ne_zero hmem
  have hlist := list_loaded (s := { s with currentRev := s.cachedRev }) hne key false
  change (get' _ key s.cachedRev false false).1.2.2 = none at hok
  unfold get get' at *
  simp only at hok hlist ⊢
  rw [hlist.1]
  split at hok
  · rename_i herr
    rw [hok] at herr
    simp at herr
  · rename_i herr
    have hrev := hlist.2 (by simpa using herr)
    rw [if_neg herr]
    have hread : (SqlLog.list { s with currentRev := s.cachedRev } key [] 1 s.cachedRev false false
        fun _ => true).1.1 = s.readRev key := hrev
    simp [hread, adjustRevision, readRev_ne_zero hmem key]

theorem update_live (env : SqlEnv) (value : Bytes) (revision lease : ℤ) :
    (update env s key value revision lease).1.2.2.2 = none ∧
    (update env s key value revision lease).2.db =
      if x.id = revision then
        (s.append env.codec env.now (updateEvent key value lease (x.toEvent true false))).2.db
      else s.db := by
  have hfound := get'_found (s := s) (live_or hx false) false
  unfold update
  rw [hfound]
  simp only [Bool.not_false, adjustRevision_db]
  have hid : (x.toEvent true false).kv.modRevision = x.id := rfl
  rw [hid]
  by_cases hrev : x.id = revision
  · rw [if_neg (not_not.2 hrev), if_pos hrev]
    rcases append_cases env.codec env.now s (updateEvent key value lease (x.toEvent true false)) with
      ⟨err, happ⟩ | ⟨rev, db, -, -, -, happ, -⟩
    · rw [happ]
      simp [hfound]
    · rw [happ]
      exact ⟨rfl, rfl⟩
  · rw [if_pos hrev, if_neg hrev]
    exact ⟨rfl, rfl⟩

end Live

section Absent

/-! ### A key without a live row -/

variable (hx : ((s.db.kine.last key).filter fun x => !x.deleted) = none)
include hx

theorem update_absent (env : SqlEnv) (value : Bytes) (revision lease : ℤ) :
    (update env s key value revision lease).2.db = s.db := by
  have hdb := get'_db s key 0 false false
  have hev := get'_event s key false false
  simp only [Bool.or_false, hx, Option.map_none] at hev
  unfold update
  simp only [hev, adjustRevision_db]
  split <;> exact hdb

/-- A `Create` fails with the table, or appends. -/
theorem create_absent (env : SqlEnv) (value : Bytes) (lease : ℤ) :
    ∃ e, createEvent key value lease ((s.db.kine.last key).map (Row.toEvent false false)) = some e ∧
      ((∃ err, (create env s key value lease).1.2 = some err ∧ err ≠ .keyExists) ∨
        ((create env s key value lease).1.2 = (s.append env.codec env.now e).1.2 ∧
          (create env s key value lease).2.db = (s.append env.codec env.now e).2.db)) := by
  have hdb := get'_db s key 0 true true
  have hev := get'_event s key true true
  have hlast : ((s.db.kine.last key).filter fun x => !x.deleted || true) = s.db.kine.last key := by
    cases s.db.kine.last key <;> simp [Option.filter]
  rw [hlast] at hev
  obtain ⟨e, he⟩ : ∃ e, createEvent key value lease ((s.db.kine.last key).map (Row.toEvent false false)) = some e := by
    cases hl : s.db.kine.last key with
    | none => exact ⟨_, rfl⟩
    | some y =>
      rw [hl] at hx
      have hdel : y.deleted = true := by simpa [Option.filter] using hx
      simp [createEvent, Row.toEvent, hdel]
  refine ⟨e, he, ?_⟩
  unfold create
  simp only [hev, adjustRevision_db, Bool.not_true, he]
  cases herr : (get' s key 0 true true).1.2.2 with
  | some err =>
    left
    refine ⟨err, rfl, fun h => get'_err s key true true ?_⟩
    rw [herr, h]
  | none =>
    right
    have hcongr := append_congr hdb env.codec env.now e
    exact ⟨congrArg Prod.snd hcongr.1, hcongr.2⟩

end Absent

theorem get_db (s : SqlLog) (key : Bytes) (revision : ℤ) (keysOnly : Bool) :
    (get s key revision keysOnly).2.db = s.db := by
  unfold get
  rw [adjustRevision_db, get'_db]

theorem put_reads (env : SqlEnv) (selected : Bytes → Bytes → Row → Bool) (register : Bytes → Option Err)
    (s : SqlLog) {r : PutRequest}
    (hput : (LimitedServer.put ⟨backend env selected, register⟩ s r).1.2 = none) :
    LimitedServer.ReadsBack ⟨backend env selected, register⟩
        (LimitedServer.put ⟨backend env selected, register⟩ s r).2 r.key r.value ↔
      PutStores env s (LimitedServer.redirect r.key) r.value r.lease := by
  rw [readsBack_iff]
  unfold LimitedServer.put at hput ⊢
  by_cases hv : r.ignoreValue = true
  · simp [hv] at hput
  by_cases hl : r.ignoreLease = true
  · simp [hv, hl] at hput
  simp only [hv, hl, if_false, backend, Bool.false_eq_true] at hput ⊢
  generalize LimitedServer.redirect r.key = key at hput ⊢
  unfold PutStores
  cases hx : (s.db.kine.last key).filter fun x => !x.deleted with
  | none =>
    obtain ⟨e, he, hcreate⟩ := create_absent hx env r.value r.lease
    simp only [he, Option.some.injEq, exists_eq_left']
    rcases hcreate with ⟨err, herr, hne⟩ | ⟨herr, hdb⟩
    · -- the error of the create is returned
      simp [herr, hne] at hput
    · rcases append_cases env.codec env.now s e with ⟨err, happ⟩ | ⟨rev, db, -, -, -, happ, -⟩
      · rw [happ] at herr hdb ⊢
        by_cases hkey : err = .keyExists
        · -- the key is taken to exist, and nothing more is written
          subst hkey
          have hfilter : (((create env s key r.value r.lease).2.db.kine.last key).filter fun x => !x.deleted) =
              none := by
            rw [hdb]
            exact hx
          simp only [herr, if_true] at hput ⊢
          split
          · rw [get_db, hdb]
          · rw [update_absent (by rw [get_db]; exact hfilter), get_db, hdb]
        · simp [herr, hkey] at hput
      · rw [happ] at herr hdb ⊢
        simp only [herr, reduceCtorEq, if_false]
        rw [hdb]
  | some x =>
    simp only [create_exists hx, if_true] at hput ⊢
    cases herr : (get { s with currentRev := s.cachedRev } key s.cachedRev false).1.2.2 with
    | some err => simp [herr] at hput
    | none =>
      obtain ⟨hrev, hst⟩ := get_cached hx herr
      simp only [hrev, hst]
      rw [(update_live (s := { s with currentRev := s.cachedRev }) hx env r.value (s.readRev key) r.lease).2]
      split
      · have hdb : ({ s with currentRev := s.cachedRev } : SqlLog).db = s.db := rfl
        rw [(append_congr hdb env.codec env.now _).2]
      · exact Iff.rfl

end LogStructured

end Harikube
