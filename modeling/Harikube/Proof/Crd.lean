import Harikube.Proof.Put
import Harikube.Proof.Invisible
import Harikube.Proof.Reachable

/-!
# A definition that is refused

A put of a custom resource definition is registered after it has been written. If the
registration fails, `create` deletes the key again, and `update` reads the revision it has
just written and writes its value once more. Both report success unless the compensation
itself fails.

* `compensates_iff`: what is left to show of a backend.
* `crd_refused_iff`: **on both backends a transaction on a definition is consistent with
  its response if and only if the registration succeeds**, or nothing is written.
-/

namespace Harikube

open Mvcc (Write)

theorem isUpdate_not_create {t : TxnRequest} {u : ℤ × Bytes × Bytes × ℤ} (h : isUpdate t = some u) :
    isCreate t = none ∧ isDelete t = none := by
  obtain ⟨rev, key, value, lease⟩ := u
  obtain ⟨c, p, r, rfl, -⟩ := isUpdate_eq_some h
  exact ⟨rfl, rfl⟩

namespace LimitedServer

variable {σ : Type} (l : LimitedServer σ)

/-- A create or update transaction that puts the value under the key. -/
def Puts (t : TxnRequest) (key value : Bytes) : Prop :=
  (∃ put, isCreate t = some put ∧ put.key = key ∧ put.value = value) ∨
    ∃ rev lease, isUpdate t = some (rev, key, value, lease)

/-- A success leaves the value under the key, and a registration that fails leaves the key
as it was and is no success. -/
def Compensates (stored : σ → Bytes → Option Bytes) (s : σ) (t : TxnRequest) (key value : Bytes) : Prop :=
  (∀ resp, (l.txn s t).1 = .ok resp → resp.succeeded = true → stored (l.txn s t).2 key = some value) ∧
  (l.registerCRD value ≠ none → stored (l.txn s t).2 key = stored s key ∧
    ∀ resp, (l.txn s t).1 = .ok resp → resp.succeeded = false)

/-- The write of a create or update transaction: whether the backend accepts it, and the
state that it leaves. -/
def write (s : σ) (t : TxnRequest) : Bool × σ :=
  match isCreate t with
  | some put =>
    if put.ignoreLease ∨ put.ignoreValue ∨ put.prevKv then (false, s)
    else ((l.backend.create s put.key put.value put.lease).1.2.isNone,
      (l.backend.create s put.key put.value put.lease).2)
  | none =>
    match isUpdate t with
    | some (rev, key, value, lease) =>
      ((l.updateCall s rev key value lease).1.2.2.2.isNone && (l.updateCall s rev key value lease).1.2.2.1,
        (l.updateCall s rev key value lease).2)
    | none => (false, s)

variable {l} {s : σ} {t : TxnRequest} {key value : Bytes} {stored : σ → Bytes → Option Bytes}

/-- A write that is not accepted is no success, and nothing comes after it. -/
theorem txn_refused (hputs : Puts t key value) (hw : (l.write s t).1 = false) :
    (l.txn s t).2 = (l.write s t).2 ∧ ∀ resp, (l.txn s t).1 = .ok resp → resp.succeeded = false := by
  rcases hputs with ⟨put, hput, rfl, rfl⟩ | ⟨rev, lease, hupd⟩
  · simp only [write, hput] at hw ⊢
    simp only [txn, hput, create]
    by_cases h1 : put.ignoreLease = true
    · simp [h1]
    by_cases h2 : put.ignoreValue = true
    · simp [h1, h2]
    by_cases h3 : put.prevKv = true
    · simp [h1, h2, h3]
    simp only [h1, h2, h3, or_self, if_false, Bool.false_eq_true] at hw ⊢
    cases herr : (l.backend.create s put.key put.value put.lease).1.2 with
    | none => simp [herr] at hw
    | some err => cases err <;> simp
  · obtain ⟨hc, hd⟩ := isUpdate_not_create hupd
    simp only [write, hc, hupd] at hw ⊢
    simp only [txn, hc, hd, hupd, update]
    cases herr : (l.updateCall s rev key value lease).1.2.2.2 with
    | some err => simp
    | none =>
      have hok : (l.updateCall s rev key value lease).1.2.2.1 = false := by simpa [herr] using hw
      simp [hok]

/-- A write that is accepted and registered is a success. -/
theorem txn_registered (hputs : Puts t key value) (hreg : l.registerCRD value = none)
    (hw : (l.write s t).1 = true) :
    ∃ resp, l.txn s t = (.ok resp, (l.write s t).2) ∧ resp.succeeded = true := by
  rcases hputs with ⟨put, hput, rfl, rfl⟩ | ⟨rev, lease, hupd⟩
  · simp only [write, hput] at hw ⊢
    simp only [txn, hput, create]
    by_cases h1 : put.ignoreLease = true
    · simp [h1] at hw
    by_cases h2 : put.ignoreValue = true
    · simp [h2] at hw
    by_cases h3 : put.prevKv = true
    · simp [h3] at hw
    simp only [h1, h2, h3, or_self, if_false, Bool.false_eq_true, Option.isNone_iff_eq_none] at hw ⊢
    simp [hw, hreg]
  · obtain ⟨hc, hd⟩ := isUpdate_not_create hupd
    simp only [write, hc, hupd, Bool.and_eq_true, Option.isNone_iff_eq_none] at hw ⊢
    simp only [txn, hc, hd, hupd, update]
    simp [hw.1, hw.2, hreg]

/-- **What is left to show of a backend**: a write that it does not accept changes nothing
of the key, and after a registration that fails the transaction is a success or has
changed the key. -/
theorem compensates_iff (hputs : Puts t key value)
    (hkeep : (l.write s t).1 = false → stored (l.write s t).2 key = stored s key)
    (hundo : l.registerCRD value ≠ none → (l.write s t).1 = true →
      (∃ resp, (l.txn s t).1 = .ok resp ∧ resp.succeeded = true) ∨ stored (l.txn s t).2 key ≠ stored s key) :
    l.Compensates stored s t key value ↔
      ((l.write s t).1 = true → l.registerCRD value = none ∧ stored (l.write s t).2 key = some value) := by
  unfold Compensates
  cases hw : (l.write s t).1 with
  | false =>
    obtain ⟨hst, hresp⟩ := txn_refused hputs hw
    simp only [Bool.false_eq_true, false_imp_iff, iff_true]
    refine ⟨fun resp hr hs => ?_, fun _ => ⟨by rw [hst, hkeep hw], hresp⟩⟩
    rw [hresp resp hr] at hs
    exact absurd hs Bool.false_ne_true
  | true =>
    simp only [true_imp_iff]
    by_cases hreg : l.registerCRD value = none
    · obtain ⟨resp, hresp, hs⟩ := txn_registered hputs hreg hw
      rw [hresp]
      constructor
      · intro h
        exact ⟨hreg, h.1 resp rfl hs⟩
      · intro h
        exact ⟨fun _ _ _ => h.2, fun hne => absurd hreg hne⟩
    · refine ⟨fun h => ?_, fun h => absurd h.1 hreg⟩
      obtain ⟨hkept, hno⟩ := h.2 hreg
      rcases hundo hreg hw with ⟨resp, hr, hs⟩ | hne
      · rw [hno resp hr] at hs
        exact absurd hs Bool.false_ne_true
      · exact absurd hkept hne

/-- A refused create is a success if the delete returns no error. -/
theorem txn_create_undone {put : PutRequest} (hput : isCreate t = some put) (hcrd : isCRDKey put.key = true)
    (hreg : l.registerCRD put.value ≠ none) (hw : (l.write s t).1 = true)
    (hdel : (l.backend.delete (l.write s t).2 put.key 0).1.2.2.2 = none) :
    ∃ resp, (l.txn s t).1 = .ok resp ∧ resp.succeeded = true := by
  obtain ⟨err, herr⟩ := Option.ne_none_iff_exists'.1 hreg
  simp only [write, hput] at hw hdel
  simp only [txn, hput, create]
  by_cases h1 : put.ignoreLease = true
  · simp [h1] at hw
  by_cases h2 : put.ignoreValue = true
  · simp [h2] at hw
  by_cases h3 : put.prevKv = true
  · simp [h3] at hw
  simp only [h1, h2, h3, or_self, if_false, Bool.false_eq_true, Option.isNone_iff_eq_none] at hw hdel ⊢
  simp [hw, hcrd, herr, hdel]

/-- A refused update is a success unless reading back or writing again fails. -/
theorem txn_update_undone {rev lease : ℤ} (hupd : isUpdate t = some (rev, key, value, lease))
    (hcrd : isCRDKey key = true) (hreg : l.registerCRD value ≠ none) (hw : (l.write s t).1 = true) :
    let u := l.updateRevert (l.write s t).2 (l.updateCall s rev key value lease).1.1 key lease
    (l.txn s t).2 = u.2 ∧ (u.1.2 = none → ∃ resp, (l.txn s t).1 = .ok resp ∧ resp.succeeded = true) := by
  obtain ⟨err, herr⟩ := Option.ne_none_iff_exists'.1 hreg
  obtain ⟨hc, hd⟩ := isUpdate_not_create hupd
  simp only [write, hc, hupd, Bool.and_eq_true, Option.isNone_iff_eq_none] at hw ⊢
  simp only [txn, hc, hd, hupd, update]
  simp only [hw.1, hw.2, hcrd, herr, if_true]
  cases (l.updateRevert (l.updateCall s rev key value lease).2 (l.updateCall s rev key value lease).1.1 key
    lease).1.2 <;> simp

end LimitedServer

/-! ## The Memory backend -/

namespace Memory

open LimitedServer

variable {m : Memory} {h : List Write} {n : ℕ} (register : Bytes → Option Err)

/-- The value that is stored under a key. -/
def stored (m : Memory) (key : Bytes) : Option Bytes := (m.content key).map KeyValue.value

/-- An accepted create or update leaves the key with its value, and as the last write. -/
structure Wrote (m : Memory) (rev : ℤ) (key value : Bytes) : Prop where
  refines : ∃ h n, Refines m h n
  current : m.currentRevision = rev
  stored : m.stored key = some value

theorem Refines.create_wrote (hR : Refines m h n) {key value : Bytes} {lease : ℤ}
    (hok : (m.create key value lease).1.2 = none) :
    Wrote (m.create key value lease).2 (m.create key value lease).1.1 key value := by
  obtain ⟨herr, hnew⟩ := hR.create_content key value lease
  cases hc : m.content key with
  | some kv =>
    rw [hok, hc] at herr
    simp at herr
  | none =>
    refine ⟨⟨_, _, (create_refines hR key value lease).1⟩, ?_, ?_⟩
    · unfold create at hok ⊢
      simp only at hok ⊢
      split at hok
      · simp at hok
      · rename_i hlive
        rw [if_neg hlive]
        rfl
    · unfold Memory.stored
      rw [hnew, hc]
      rfl

theorem Refines.update_wrote (hR : Refines m h n) {key value : Bytes} {rev lease : ℤ}
    (hok : (m.update key value rev lease).1.2.2.1 = true) :
    Wrote (m.update key value rev lease).2 (m.update key value rev lease).1.1 key value := by
  obtain ⟨herr, hnew⟩ := hR.update_content key value rev lease
  have hany : (m.content key).any (fun kv => decide (kv.modRevision = rev)) = true := by
    rw [← hok, herr]
  cases hc : m.content key with
  | none =>
    rw [hc] at hany
    simp at hany
  | some kv =>
    have hrev : kv.modRevision = rev := by
      rw [hc] at hany
      simpa using hany
    refine ⟨⟨_, _, (update_refines hR key value rev lease).1⟩, ?_, ?_⟩
    · unfold update at hok ⊢
      split at hok
      · simp at hok
      · rename_i latest hl
        split at hok
        · simp at hok
        · split at hok
          · simp at hok
          · rename_i hd hr
            simp only [if_neg hd, if_neg hr]
            rfl
    · unfold Memory.stored
      rw [hnew, hc]
      simp [hrev]

variable {t : TxnRequest} {key value : Bytes}

/-- The backend call of an update, when it is accepted and when it is not. -/
theorem Refines.updateCall_cases (hR : Refines m h n) (rev : ℤ) (key value : Bytes) (lease : ℤ) :
    let r := (overMemory register).updateCall m rev key value lease
    r.1.2.2.2 = none ∧ (r.1.2.2.1 = true → Wrote r.2 r.1.1 key value) ∧
      (r.1.2.2.1 = false → r.2.stored key = m.stored key) := by
  simp only [updateCall, overMemory_create, overMemory_update, overMemory_get]
  by_cases h0 : rev = 0
  · simp only [if_pos h0]
    cases hc : m.content key with
    | some kv =>
      have hex := hR.create_exists (show (m.content key).isSome by rw [hc]; rfl) value lease
      simp [hex, hR.get_now key]
    | none =>
      have herr := (hR.create_content key value lease).1
      rw [hc] at herr
      have hok : (m.create key value lease).1.2 = none := by simpa using herr
      simp only [hok, reduceCtorEq, if_false]
      exact ⟨trivial, fun _ => hR.create_wrote hok, fun hf => hf.elim⟩
  · simp only [if_neg h0]
    obtain ⟨herr, hnew⟩ := hR.update_content key value rev lease
    refine ⟨by rw [herr], hR.update_wrote, fun hf => ?_⟩
    unfold Memory.stored
    rw [herr] at hf
    rw [hnew]
    cases hc : m.content key with
    | none => rfl
    | some kv =>
      rw [hc] at hf
      have hne : kv.modRevision ≠ rev := by simpa using hf
      simp [hne]

/-- Reading back the revision just written and writing it again does not fail. -/
theorem Wrote.revert {rev : ℤ} (hw : Wrote m rev key value) (lease : ℤ) :
    ((overMemory register).updateRevert m rev key lease).1.2 = none := by
  obtain ⟨⟨h, n, hR⟩, rfl, hst⟩ := hw
  obtain ⟨kv, hkv, -⟩ := Option.map_eq_some_iff.1 hst
  rw [hR.content_eq] at hkv
  simp only [updateRevert, overMemory_get, overMemory_update, hR.get_now key, hkv]
  rw [(hR.update_content key kv.value m.currentRevision lease).1]

theorem Wrote.delete {rev : ℤ} (hw : Wrote m rev key value) : (m.delete key 0).1.2.2.2 = none := by
  obtain ⟨⟨h, n, hR⟩, -⟩ := hw
  rw [(hR.delete_content key 0).1]

/-- **On the Memory backend**: the registration succeeds, or nothing is written. -/
theorem Refines.crd_iff (hR : Refines m h n) (hputs : Puts t key value) (hcrd : isCRDKey key = true) :
    (overMemory register).Compensates Memory.stored m t key value ↔
      (((overMemory register).write m t).1 = true → register value = none) := by
  have hreg : (overMemory register).registerCRD = register := rfl
  -- what the two kinds of transaction write
  have hwrote : ((overMemory register).write m t).1 = true →
      ((overMemory register).write m t).2.stored key = some value := by
    rcases hputs with ⟨put, hput, rfl, rfl⟩ | ⟨rev, lease, hupd⟩
    · simp only [write, hput, overMemory_create]
      split
      · simp
      · intro hok
        exact (hR.create_wrote (Option.isNone_iff_eq_none.1 hok)).stored
    · obtain ⟨hc, -⟩ := isUpdate_not_create hupd
      simp only [write, hc, hupd]
      intro hok
      exact ((hR.updateCall_cases register rev key value lease).2.1 (Bool.and_eq_true_iff.1 hok).2).stored
  rw [compensates_iff hputs, hreg]
  · exact ⟨fun hcond hw => (hcond hw).1, fun hcond hw => ⟨hcond hw, hwrote hw⟩⟩
  · rcases hputs with ⟨put, hput, rfl, rfl⟩ | ⟨rev, lease, hupd⟩
    · simp only [write, hput, overMemory_create]
      split
      · exact fun _ => rfl
      · intro hno
        cases hc : m.content put.key with
        | some kv => rw [hR.create_exists (by rw [hc]; rfl)]
        | none =>
          have herr := (hR.create_content put.key put.value put.lease).1
          rw [hc] at herr
          simp [herr] at hno
    · obtain ⟨hc, -⟩ := isUpdate_not_create hupd
      obtain ⟨herr, -, hkeep⟩ := hR.updateCall_cases register rev key value lease
      simp only [write, hc, hupd, herr, Option.isNone_none, Bool.true_and]
      exact hkeep
  · intro hne hw
    left
    rcases hputs with ⟨put, hput, rfl, rfl⟩ | ⟨rev, lease, hupd⟩
    · refine txn_create_undone hput hcrd hne hw ?_
      simp only [write, hput, overMemory_create, overMemory_delete] at hw ⊢
      split at hw
      · exact absurd hw Bool.false_ne_true
      · rename_i hflags
        rw [if_neg hflags]
        exact (hR.create_wrote (Option.isNone_iff_eq_none.1 hw)).delete
    · obtain ⟨hc, -⟩ := isUpdate_not_create hupd
      refine (txn_update_undone hupd hcrd hne hw).2 ?_
      simp only [write, hc, hupd] at hw ⊢
      exact ((hR.updateCall_cases register rev key value lease).2.1 (Bool.and_eq_true_iff.1 hw).2).revert register lease

end Memory

/-! ## The SQL backend -/

namespace LogStructured

open LimitedServer SqlLog Kine

variable {s : SqlLog} {key value : Bytes} {lease : ℤ} {t : TxnRequest} (env : SqlEnv)
  (selected : Bytes → Bytes → Row → Bool) (register : Bytes → Option Err)

/-- The value that is stored under a key. -/
def stored (s : SqlLog) (key : Bytes) : Option Bytes := (content s.db key).map KeyValue.value

theorem stored_congr {s' : SqlLog} (h : s'.db = s.db) (key : Bytes) : stored s' key = stored s key := by
  unfold stored
  rw [h]

theorem isCRDKey_plain (h : isCRDKey key = true) : key ≠ compactRevKey ∧ isFill key = false := by
  obtain ⟨rest, rfl⟩ := List.isPrefixOf_iff_prefix.1 h
  constructor
  · intro heq
    have := congrArg List.head? heq
    simp [compactRevKey, ascii] at this
  · by_contra hfill
    obtain ⟨rest', heq⟩ := List.isPrefixOf_iff_prefix.1 (Bool.not_eq_false _ ▸ hfill : isFill _ = true)
    have := congrArg List.head? heq
    simp [ascii] at this

/-- An accepted write leaves its row as the last of the key, beyond the compact revision. -/
structure Wrote (s : SqlLog) (rev : ℤ) (key : Bytes) (x : Row) : Prop where
  ready : Ready s
  last : s.db.kine.last key = some x
  id : x.id = rev
  compact_lt : s.db.kine.compactRev.getD 0 < rev

theorem Wrote.stored {rev : ℤ} {x : Row} (hw : Wrote s rev key x) :
    LogStructured.stored s key = if x.deleted then none else some x.value := by
  unfold LogStructured.stored content
  rw [hw.last]
  cases hd : x.deleted <;> simp [Option.filter, hd, Row.toEvent]

/-- The append of a call that has read the last row of its key. -/
theorem append_wrote (call : Call) {e : Event} (hs : s.db.Sound) (hkey : e.kv.key = call.key)
    (hplain : call.key ≠ compactRevKey ∧ isFill call.key = false) (hcur : Current s.db.kine call (prevRev e)) :
    (∃ err, s.append env.codec env.now e = ((0, some err), s)) ∨
    ∃ rev db m old, s.append env.codec env.now e = ((rev, none), ⟨db, rev⟩) ∧ rev ≠ 0 ∧
      ∀ s' : SqlLog, s'.db = db → 0 ≤ s'.currentRev →
        Wrote s' rev e.kv.key { rowOf e m with id := rev, oldValue := old } := by
  rcases append_last_row env.codec env.now hs hkey hplain hcur with
    happ | ⟨rev, db, m, old, happ, -, hinserted⟩
  · exact .inl happ
  · have hnew : s.db.kine.seq < rev := hinserted.new
    have hnn := s.db.kine.seq_nonneg
    refine .inr ⟨rev, db, m, old, happ, by omega, ?_⟩
    rintro s' rfl hrev
    exact ⟨⟨hinserted.sound.row, hrev⟩, hinserted.last, rfl, hinserted.compact_lt⟩

theorem adjustRevision_ne {rev : ℤ} (h : rev ≠ 0) : adjustRevision s rev = (rev, s) := by
  unfold adjustRevision
  rw [if_pos h]

/-- **A create** changes nothing, or leaves its row. -/
theorem create_wrote (value : Bytes) (lease : ℤ) (hs : s.db.Sound) (hr : Ready s)
    (hplain : key ≠ compactRevKey ∧ isFill key = false) :
    ((create env s key value lease).1.2 ≠ none ∧ (create env s key value lease).2.db = s.db) ∨
    ((create env s key value lease).1.2 = none ∧
      ∃ x, Wrote (create env s key value lease).2 (create env s key value lease).1.1 key x ∧
        x.deleted = false ∧ x.value = value) := by
  cases hx : (s.db.kine.last key).filter fun x => !x.deleted with
  | some x =>
    obtain ⟨herr, hdb⟩ := create_taken env hr (createEvent_live hx value lease)
    exact .inl ⟨by rw [herr]; simp, hdb⟩
  | none =>
    have he := createEvent_absent hx value lease
    obtain ⟨herr, hdb⟩ := create_append env hr he
    have hcur : Current s.db.kine (.create key value lease) (((s.db.kine.last key).map Row.id).getD 0) := by
      refine ⟨?_, rfl⟩
      show (s.db.kine.last key).all Row.deleted = true
      cases hl : s.db.kine.last key with
      | none => rfl
      | some y => simpa [hl, Option.filter] using hx
    rcases append_wrote env (.create key value lease) (e := ⟨false, true, ⟨key, value, 0, 0, 0, lease⟩,
        some ⟨[], [], 0, 0, ((s.db.kine.last key).map Row.id).getD 0, 0⟩⟩) hs rfl hplain hcur with
      ⟨err, happ⟩ | ⟨rev, db, m, old, happ, hne, hwrote⟩
    · rw [happ] at herr hdb
      exact .inl ⟨by rw [herr]; simp, hdb⟩
    · rw [happ] at herr hdb
      have hrev : (create env s key value lease).1.1 = rev := by
        have hcongr := append_congr (get'_db s key 0 true true) env.codec env.now _ |>.1.trans (congrArg Prod.fst happ)
        unfold create
        simp only [get'_ready hr, last_filter_true, Bool.not_true, he, hcongr, adjustRevision_ne hne]
      have hpos := serial_rev hr.rev env (.create key value lease)
      rw [hrev]
      refine .inr ⟨herr, _, hwrote _ hdb hpos, ?_, rfl⟩
      show Codec.deletes m true false = false
      simp [Codec.deletes]

/-- **An update** changes nothing, or leaves its row after a live one. -/
theorem update_wrote (value : Bytes) (lease : ℤ) (hs : s.db.Sound) (hr : Ready s)
    (hplain : key ≠ compactRevKey ∧ isFill key = false) (revision : ℤ) :
    (update env s key value revision lease).1.2.2.2 = none ∧
    (((update env s key value revision lease).1.2.2.1 = false ∧
        (update env s key value revision lease).2.db = s.db) ∨
      ((update env s key value revision lease).1.2.2.1 = true ∧ LogStructured.stored s key ≠ none ∧
        ∃ x, Wrote (update env s key value revision lease).2 (update env s key value revision lease).1.1 key x ∧
          x.value = value)) := by
  cases hx : (s.db.kine.last key).filter fun x => !x.deleted with
  | none =>
    obtain ⟨hres, hdb⟩ := update_missing env hr hx value revision lease
    rw [hres]
    exact ⟨rfl, .inl ⟨rfl, hdb⟩⟩
  | some x =>
    by_cases hid : x.id = revision
    · have hcur : Current s.db.kine (.update key value revision lease)
          (prevRev (updateEvent key value lease (x.toEvent true false))) := by
        obtain ⟨hl, hlive⟩ := Option.filter_eq_some_iff.1 hx
        refine ⟨?_, ?_⟩
        · show (s.db.kine.last key).any _ = true
          rw [hl]
          simp [hid, live_deleted hx]
        · show x.id = ((s.db.kine.last key).map Row.id).getD 0
          rw [hl]
          rfl
      rcases append_wrote env (.update key value revision lease) hs rfl hplain hcur with
        ⟨err, happ⟩ | ⟨rev, db, m, old, happ, hne, hwrote⟩
      · have hdb := (update_live hx env value revision lease).2
        rw [if_pos hid, happ] at hdb
        rw [update_failed env hx hid happ]
        exact ⟨rfl, .inl ⟨rfl, hdb⟩⟩
      · obtain ⟨hres, hdb⟩ := update_append env hx hid happ
        have hrev : (update env s key value revision lease).1.1 = rev := by
          have hmod : ¬ (x.toEvent true false).kv.modRevision ≠ revision := not_not.2 hid
          unfold update
          simp only [get'_found (live_or hx false), Bool.not_false, if_neg hmod, happ, adjustRevision_ne hne]
        have hpos := serial_rev hr.rev env (.update key value revision lease)
        rw [hres, hrev]
        refine ⟨rfl, .inr ⟨rfl, ?_, _, hwrote _ hdb hpos, rfl⟩⟩
        unfold LogStructured.stored content
        rw [hx]
        simp
    · obtain ⟨hres, hdb⟩ := update_stale env hx hid value lease
      rw [hres]
      exact ⟨rfl, .inl ⟨rfl, hdb⟩⟩

/-- The latest row of a name as of a revision at or after its last row. -/
theorem latest_of_last {k : Kine} {x : Row} (hl : k.last key = some x) {r : ℤ} (hr : x.id ≤ r) :
    k.latest (· = key) (some r) = [x] := by
  obtain ⟨hx, hn, hmax⟩ := last_eq_some hl
  refine Sorted.ext_of_sorted Row.id (latest_sorted k _ _) (List.pairwise_singleton _ _) fun y => ?_
  rw [mem_latest, List.mem_singleton]
  constructor
  · rintro ⟨hy, -, hyn, hymax⟩
    have hyn' : y.name = key := of_decide_eq_true hyn
    exact eq_of_id hy hx (le_antisymm (hmax y hy hyn') (hymax x hx (by simpa using hr) (hn.trans hyn'.symm)))
  · rintro rfl
    exact ⟨hx, by simpa using hr, decide_eq_true hn, fun z hz _ hzn => hmax z hz (hzn.trans hn)⟩

/-- Reading back the revision just written finds its row, unless that is a tombstone. -/
theorem Wrote.get {rev : ℤ} {x : Row} (hw : Wrote s rev key x) :
    (LogStructured.get s key rev false).2.db = s.db ∧
    (x.deleted = false → (LogStructured.get s key rev false).1.2 = (some (x.toEvent true false).kv, none)) ∧
    (x.deleted = true → (LogStructured.get s key rev false).1.2.1 = none) := by
  obtain ⟨hx, hn, hmax⟩ := last_eq_some hw.last
  have hpos := (s.db.kine.bounded x hx).1
  have hid := hw.id
  have hrows : SqlLog.listRows s.db.kine key [] 1 rev false (fun _ => true) =
      if x.deleted then [] else [x] := by
    unfold SqlLog.listRows Kine.list
    rw [if_neg (by omega), if_pos rfl, latest_of_last hw.last (by omega)]
    cases hd : x.deleted <;> simp [hd, Mvcc.firstN]
  have hle := id_le_currentRev hx
  have hc := hw.compact_lt
  refine ⟨get_db _ _ _ _, fun hd => ?_, fun hd => ?_⟩
  · rw [get_rows hw.ready]
    simp only [hrows, hd, Bool.false_eq_true, if_false, ne_eq, List.cons_ne_nil, not_false_eq_true, if_true]
    rw [if_neg (by omega), if_neg (by omega)]
    rfl
  · rw [get_rows hw.ready]
    simp only [hrows, hd, if_true]
    split_ifs <;> rfl

theorem Wrote.delete {rev : ℤ} {x : Row} (hw : Wrote s rev key x) :
    (LogStructured.delete env s key 0).1.2.2.2 = none := by
  cases hd : x.deleted with
  | true => rw [(delete_tombstone env hw.ready hw.last hd 0).1]
  | false =>
    have hx : ((s.db.kine.last key).filter fun x => !x.deleted) = some x := by
      rw [hw.last]
      simp [Option.filter, hd]
    rcases append_cases env.codec env.now s (deleteEvent key (x.toEvent true false)) with
      ⟨err, happ⟩ | ⟨rev', db, -, -, -, happ, -⟩
    · rw [delete_failed env hx (by simp) happ]
    · rw [(delete_append env hx (by simp) happ).1]

/-- The attempt to restore a definition returns no error, or finds a tombstone and leaves
it there. -/
theorem Wrote.revert {rev : ℤ} {x : Row} (hw : Wrote s rev key x) (lease : ℤ) :
    let u := updateRevert ⟨backend env selected, register⟩ s rev key lease
    u.1.2 = none ∨ x.deleted = true ∧ u.2.db = s.db := by
  obtain ⟨hdb, hlive, htomb⟩ := hw.get
  simp only [updateRevert, backend]
  cases hd : x.deleted with
  | false =>
    left
    have hx : (((LogStructured.get s key rev false).2.db.kine.last key).filter fun x => !x.deleted) = some x := by
      rw [hdb, hw.last]
      simp [Option.filter, hd]
    rw [hlive hd]
    exact (update_live hx env _ rev lease).1
  | true =>
    right
    refine ⟨rfl, ?_⟩
    rw [htomb hd]
    cases (LogStructured.get s key rev false).1.2.2 <;> exact hdb

/-- The backend call of an update, when it is accepted and when it is not. -/
theorem updateCall_cases (hs : s.db.Sound) (hr : Ready s) (hplain : key ≠ compactRevKey ∧ isFill key = false)
    (rev : ℤ) :
    let r := updateCall ⟨backend env selected, register⟩ s rev key value lease
    ((r.1.2.2.2.isNone && r.1.2.2.1) = false → r.2.db = s.db) ∧
    ((r.1.2.2.2.isNone && r.1.2.2.1) = true →
      ∃ x, Wrote r.2 r.1.1 key x ∧ (x.deleted = true → LogStructured.stored s key ≠ none)) := by
  simp only [updateCall, backend]
  by_cases h0 : rev = 0
  · simp only [if_pos h0]
    rcases create_wrote env value lease hs hr hplain with ⟨herr, hdb⟩ | ⟨herr, x, hw, hd, -⟩
    · by_cases hex : (create env s key value lease).1.2 = some .keyExists
      · simp only [hex, if_true]
        exact ⟨fun _ => (get_db _ _ _ _).trans hdb, fun hf => by simp at hf⟩
      · simp only [hex, if_false, Bool.and_true, Option.isNone_iff_eq_none]
        exact ⟨fun _ => hdb, fun hok => absurd hok herr⟩
    · simp only [herr, reduceCtorEq, if_false]
      refine ⟨fun hf => by simp at hf, fun _ => ⟨x, hw, fun hd' => ?_⟩⟩
      rw [hd] at hd'
      exact absurd hd' Bool.false_ne_true
  · simp only [if_neg h0]
    obtain ⟨herr, hcases⟩ := update_wrote env value lease hs hr hplain rev
    rw [herr]
    simp only [Option.isNone_none, Bool.true_and]
    rcases hcases with ⟨hok, hdb⟩ | ⟨hok, hlive, x, hw, -⟩
    · exact ⟨fun _ => hdb, fun hok' => absurd (hok.symm.trans hok') Bool.false_ne_true⟩
    · exact ⟨fun hf => absurd (hf.symm.trans hok) Bool.false_ne_true, fun _ => ⟨x, hw, fun _ => hlive⟩⟩

/-- **On the SQL backend**: the registration succeeds and the row is what is stored, or
nothing is written. -/
theorem crd_iff (hs : s.db.Sound) (hr : Ready s) (hputs : Puts t key value) (hcrd : isCRDKey key = true) :
    let l : LimitedServer SqlLog := ⟨backend env selected, register⟩
    l.Compensates LogStructured.stored s t key value ↔
      ((l.write s t).1 = true → register value = none ∧ LogStructured.stored (l.write s t).2 key = some value) := by
  intro l
  have hplain := isCRDKey_plain hcrd
  refine compensates_iff hputs ?_ ?_
  · rcases hputs with ⟨put, hput, rfl, rfl⟩ | ⟨rev, lease, hupd⟩
    · simp only [write, hput]
      split
      · exact fun _ => rfl
      · intro hno
        rcases create_wrote env put.value put.lease hs hr hplain with ⟨-, hdb⟩ | ⟨herr, -⟩
        · exact stored_congr hdb _
        · rw [show (l.backend.create s put.key put.value put.lease).1.2 = none from herr] at hno
          simp at hno
    · obtain ⟨hc, -⟩ := isUpdate_not_create hupd
      simp only [write, hc, hupd]
      exact fun hno => stored_congr ((updateCall_cases env selected register hs hr hplain rev).1 hno) _
  · intro hne hw
    rcases hputs with ⟨put, hput, rfl, rfl⟩ | ⟨rev, lease, hupd⟩
    · left
      refine txn_create_undone hput hcrd hne hw ?_
      simp only [write, hput] at hw ⊢
      split at hw
      · exact absurd hw Bool.false_ne_true
      · rename_i hflags
        rw [if_neg hflags]
        rcases create_wrote env put.value put.lease hs hr hplain with
          ⟨herr, -⟩ | ⟨-, x, hwrote, -⟩
        · exact absurd (Option.isNone_iff_eq_none.1 hw) herr
        · exact hwrote.delete env
    · obtain ⟨hc, -⟩ := isUpdate_not_create hupd
      obtain ⟨hst, hsucc⟩ := txn_update_undone hupd hcrd hne hw
      simp only [write, hc, hupd] at hw hst hsucc
      obtain ⟨x, hwrote, hbefore⟩ := (updateCall_cases env selected register hs hr hplain rev).2 hw
      rcases hwrote.revert env selected register lease with hnone | ⟨hd, hdb⟩
      · exact .inl (hsucc hnone)
      · -- the key had a value and now is deleted
        right
        rw [hst, stored_congr hdb, hwrote.stored, if_pos hd]
        exact (hbefore hd).symm

end LogStructured

open LimitedServer

/-- A key of a definition, and registrations that refuse what is not JSON. -/
def sampleKey : Bytes := ascii "/registry/apiextensions.k8s.io/customresourcedefinitions/a"

def refuseYaml (value : Bytes) : Option Err := if value = ascii "kind: A" then some .decode else none

def sampleCreate (value : Bytes) : TxnRequest :=
  .mk [⟨.equal, .mod, sampleKey, .modRevision 0, []⟩] [.put ⟨sampleKey, value, 0, false, false, false⟩] []

def sampleUpdate (rev : ℤ) (value : Bytes) : TxnRequest :=
  .mk [⟨.equal, .mod, sampleKey, .modRevision rev, []⟩] [.put ⟨sampleKey, value, 0, false, false, false⟩]
    [.range { key := sampleKey }]

end Harikube
