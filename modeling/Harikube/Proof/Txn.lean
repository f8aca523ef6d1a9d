import Harikube.Proof.MemoryCalls
import Harikube.Spec.Server

/-!
# Transactions on one key against etcd

`Txn` recognises a transaction by its shape and turns it into one call of the
backend. Each shape is compared with etcd's meaning of the same request.

* `create_matches`, `update_matches`: the two put shapes mean what etcd means by them.
* `delete_matches_iff`: a delete shape does not when its revision argument is 0,
  except for the unconditional delete of a key that is there.
* `txn_matches_etcd_iff`: **the same for every transaction on one key.**
-/

namespace Harikube

open Mvcc (Write)

/-! ## Shapes -/

theorem isCreate_eq_some {t : TxnRequest} {put : PutRequest} (ht : isCreate t = some put) :
    ∃ c : Compare, t = .mk [c] [.put put] [] ∧ c.target = .mod ∧ c.result = .equal ∧
      c.getModRevision = 0 := by
  unfold isCreate at ht
  split at ht
  · rename_i c op
    split at ht
    · rename_i hc
      obtain ⟨rfl⟩ : op = .put put := by
        cases op <;> simp_all [RequestOp.getRequestPut]
      exact ⟨c, rfl, hc⟩
    · simp at ht
  · simp at ht

theorem isDelete_eq_some {t : TxnRequest} {rev : ℤ} {key : Bytes} (ht : isDelete t = some (rev, key)) :
    (∃ r d, t = .mk [] [.range r, .deleteRange d] [] ∧ rev = 0 ∧ key = d.key) ∨
    (∃ (c : Compare) (r : RangeRequest) (d : DeleteRangeRequest),
      t = .mk [c] [.deleteRange d] [.range r] ∧ c.target = .mod ∧ c.result = .equal ∧
      rev = c.getModRevision ∧ key = d.key) := by
  unfold isDelete at ht
  split at ht
  · rename_i op₁ op₂
    cases op₁ <;> cases op₂ <;>
      simp_all [RequestOp.getRequestRange, RequestOp.getRequestDeleteRange]
  · rename_i c op op'
    cases op <;> cases op' <;>
      simp_all [RequestOp.getRequestRange, RequestOp.getRequestDeleteRange]
  · simp at ht

theorem isUpdate_eq_some {t : TxnRequest} {rev : ℤ} {key value : Bytes} {lease : ℤ}
    (ht : isUpdate t = some (rev, key, value, lease)) :
    ∃ (c : Compare) (p : PutRequest) (r : RangeRequest), t = .mk [c] [.put p] [.range r] ∧
      c.target = .mod ∧ c.result = .equal ∧ rev = c.getModRevision ∧ key = c.key ∧
      value = p.value ∧ lease = p.lease := by
  unfold isUpdate at ht
  split at ht
  · rename_i c op op'
    cases op <;> cases op' <;> simp_all [RequestOp.getRequestRange, RequestOp.getRequestPut]
  · simp at ht

theorem isCompact_key {t : TxnRequest} {ver : ℤ} {value : Bytes} (ht : isCompact t = some (ver, value)) :
    ∃ c ∈ t.compare, c.key = compactRevKey := by
  unfold isCompact at ht
  split at ht
  · rename_i c op op'
    split at ht
    · split at ht
      · rename_i hc
        exact ⟨c, List.mem_singleton.2 rfl, hc.2.2⟩
      · simp at ht
    · simp at ht
  · simp at ht

/-- A mod revision compare for equality. -/
theorem Compare.holds_mod {c : Compare} (ht : c.target = .mod) (hr : c.result = .equal)
    (content : Option KeyValue) :
    c.holds content = decide ((content.map KeyValue.modRevision).getD 0 = c.getModRevision) := by
  unfold Compare.holds
  rw [ht, hr]
  simp [Compare.Result.admits]

namespace LimitedServer

open Memory

variable {m : Memory} {h : List Write} {n : ℕ} {key : Bytes} (register : Bytes → Option Err)

/-- The server over the Memory backend. -/
def overMemory : LimitedServer Memory := ⟨Memory.backend, register⟩

@[simp] theorem overMemory_create : (overMemory register).backend.create = Memory.create := rfl
@[simp] theorem overMemory_update : (overMemory register).backend.update = Memory.update := rfl
@[simp] theorem overMemory_delete : (overMemory register).backend.delete = Memory.delete := rfl
@[simp] theorem overMemory_get (s : Memory) (k : Bytes) (r : ℤ) (b : Bool) :
    (overMemory register).backend.get s k r b = (s.get k r b, s) := rfl

/-- A result agrees with etcd's: unless it is an error, it reports whether the
compares hold, and the key afterwards is as the branch they choose leaves it. -/
def Matches (key : Bytes) (r : Except Err TxnResponse × Memory) (e : Bool × Option KeyValue) : Prop :=
  ∀ resp, r.1 = .ok resp → (resp.succeeded, r.2.content key) = e

theorem matches_ok {resp : TxnResponse} {e : Bool × Option KeyValue} :
    Matches key (.ok resp, m) e ↔ (resp.succeeded, m.content key) = e := by
  constructor
  · intro hm
    exact hm resp rfl
  · rintro hm resp' hr
    rw [← Except.ok.inj hr]
    exact hm

/-! ## The three shapes -/

/-- The mod revision an etcd compare sees is 0 exactly for an absent key. -/
theorem modRevision_eq_zero_iff (hR : Refines m h n) (key : Bytes) :
    ((m.content key).map KeyValue.modRevision).getD 0 = 0 ↔ m.content key = none := by
  cases hc : m.content key with
  | none => simp
  | some kv =>
    have hpos := (hR.content_pos hc).2.1
    simp
    omega

theorem create_matches (hR : Refines m h n) {put : PutRequest} {c : Compare}
    (hkey : TxnRequest.onKey key (.mk [c] [.put put] []) = true) (hcrd : isCRDKey key = false)
    (ht : c.target = .mod) (hr : c.result = .equal) (h0 : c.getModRevision = 0) :
    Matches key ((overMemory register).create m put)
      (TxnRequest.etcd (m.currentRevision + 1) (.mk [c] [.put put] []) (m.content key)) := by
  simp only [TxnRequest.onKey, RequestOp.allOnKey, RequestOp.onKey, List.all_cons, List.all_nil,
    Bool.and_true, Bool.and_eq_true, decide_eq_true_eq, Bool.not_eq_true'] at hkey
  obtain ⟨-, ⟨⟨hk, hpk⟩, hiv⟩, hil⟩ := hkey
  obtain ⟨herr, hcont⟩ := hR.create_content key put.value put.lease
  have hzero := modRevision_eq_zero_iff hR key
  unfold create
  simp only [hil, hiv, hpk, Bool.false_eq_true, if_false, hk, hcrd, overMemory_create]
  simp only [TxnRequest.etcd, List.all_cons, List.all_nil, Bool.and_true, Compare.holds_mod ht hr, h0,
    hzero]
  cases hc : m.content key with
  | none =>
    rw [hc] at herr hcont
    simp only [Option.isSome_none, Bool.false_eq_true, if_false] at herr
    simp only [herr]
    rw [matches_ok, hcont]
    simp [RequestOp.etcdAll, RequestOp.etcd, PutRequest.etcd, hk]
  | some kv =>
    rw [hc] at herr hcont
    simp only [Option.isSome_some, if_true] at herr
    simp only [herr]
    rw [matches_ok, hcont]
    simp [RequestOp.etcdAll]

theorem update_matches (hR : Refines m h n) {put : PutRequest} {r : RangeRequest} {c : Compare}
    (hkey : TxnRequest.onKey key (.mk [c] [.put put] [.range r]) = true) (hcrd : isCRDKey key = false)
    (ht : c.target = .mod) (hr : c.result = .equal) :
    Matches key ((overMemory register).update m c.getModRevision c.key put.value put.lease)
      (TxnRequest.etcd (m.currentRevision + 1) (.mk [c] [.put put] [.range r]) (m.content key)) := by
  simp only [TxnRequest.onKey, RequestOp.allOnKey, RequestOp.onKey, List.all_cons, List.all_nil,
    Bool.and_true, Bool.and_eq_true, decide_eq_true_eq, Bool.not_eq_true'] at hkey
  obtain ⟨⟨⟨hck, -⟩, ⟨⟨hk, hpk⟩, hiv⟩, hil⟩, -⟩ := hkey
  have hzero := modRevision_eq_zero_iff hR key
  unfold update updateCall
  simp only [hck, hcrd, Bool.false_eq_true, if_false, overMemory_create, overMemory_update, overMemory_get]
  simp only [TxnRequest.etcd, List.all_cons, List.all_nil, Bool.and_true, Compare.holds_mod ht hr]
  by_cases h0 : c.getModRevision = 0
  · -- revision 0 is a create, whose failure is turned into a read
    obtain ⟨herr, hcont⟩ := hR.create_content key put.value put.lease
    simp only [h0, if_true, hzero]
    cases hc : m.content key with
    | none =>
      rw [hc] at herr hcont
      simp only [Option.isSome_none, Bool.false_eq_true, if_false] at herr
      simp only [herr, reduceCtorEq, if_false, if_true]
      rw [matches_ok, hcont]
      simp [RequestOp.etcdAll, RequestOp.etcd, PutRequest.etcd, hk]
    | some kv =>
      rw [hR.create_exists (by rw [hc]; rfl)]
      simp only [if_true, hR.get_now, Bool.false_eq_true, if_false]
      rw [matches_ok, hc]
      simp [RequestOp.etcdAll, RequestOp.etcd]
  · obtain ⟨hres, hcont⟩ := hR.update_content key put.value c.getModRevision put.lease
    simp only [h0, if_false, hres]
    cases hc : m.content key with
    | none =>
      rw [hc] at hcont
      simp only [Option.any_none, Bool.false_eq_true, if_false]
      rw [matches_ok, hcont]
      simp [RequestOp.etcdAll, RequestOp.etcd, Ne.symm h0]
    | some kv =>
      rw [hc] at hcont
      by_cases hm : kv.modRevision = c.getModRevision
      · simp only [Option.any_some, hm, decide_true, if_true]
        rw [matches_ok, hcont]
        simp [RequestOp.etcdAll, RequestOp.etcd, PutRequest.etcd, hm, hk]
      · simp only [Option.any_some, hm, decide_false, Bool.false_eq_true, if_false]
        rw [matches_ok, hcont]
        simp [RequestOp.etcdAll, RequestOp.etcd, hm]

/-- The result of `delete` on the Memory backend, which never fails. -/
theorem delete_result (hR : Refines m h n) (key : Bytes) (revision : ℤ) :
    ∃ resp, (overMemory register).delete m key revision = (.ok resp, (m.delete key revision).2) ∧
      resp.succeeded = (m.content key).any fun kv => revision = 0 || kv.modRevision = revision := by
  obtain ⟨hres, -⟩ := hR.delete_content key revision
  unfold delete
  simp only [overMemory_delete, hres]
  split
  · rename_i hs
    exact ⟨_, rfl, (Bool.not_eq_true _ ▸ hs).symm⟩
  · rename_i hs
    exact ⟨_, rfl, (not_not.1 hs).symm⟩

theorem delete_all_matches_iff (hR : Refines m h n) (r : RangeRequest) (d : DeleteRangeRequest) :
    Matches key ((overMemory register).delete m key 0)
      (TxnRequest.etcd (m.currentRevision + 1) (.mk [] [.range r, .deleteRange d] []) (m.content key)) ↔
    m.content key ≠ none := by
  obtain ⟨resp, hres, hsucc⟩ := delete_result register hR key 0
  obtain ⟨-, hcont⟩ := hR.delete_content key 0
  rw [hres, matches_ok, hsucc, hcont]
  cases m.content key <;> simp [TxnRequest.etcd, RequestOp.etcdAll, RequestOp.etcd]

/-- A compare with 0 says that the key is absent, while a delete at revision 0 is
unconditional. -/
theorem delete_matches_iff (hR : Refines m h n) {r : RangeRequest} {d : DeleteRangeRequest} {c : Compare}
    (ht : c.target = .mod) (hr : c.result = .equal) :
    Matches key ((overMemory register).delete m key c.getModRevision)
      (TxnRequest.etcd (m.currentRevision + 1) (.mk [c] [.deleteRange d] [.range r]) (m.content key)) ↔
    c.getModRevision ≠ 0 := by
  obtain ⟨resp, hres, hsucc⟩ := delete_result register hR key c.getModRevision
  obtain ⟨-, hcont⟩ := hR.delete_content key c.getModRevision
  rw [hres, matches_ok, hsucc, hcont]
  simp only [TxnRequest.etcd, List.all_cons, List.all_nil, Bool.and_true, Compare.holds_mod ht hr]
  cases hc : m.content key with
  | none =>
    by_cases h0 : c.getModRevision = 0
    · simp [h0, RequestOp.etcdAll]
    · simp [h0, Ne.symm h0, RequestOp.etcdAll, RequestOp.etcd]
  | some kv =>
    have hpos := (hR.content_pos hc).2.1
    by_cases h0 : c.getModRevision = 0
    · have hne : kv.modRevision ≠ 0 := by omega
      simp [h0, hne]
    · by_cases hm : kv.modRevision = c.getModRevision
      · simp [h0, hm, RequestOp.etcdAll, RequestOp.etcd]
      · simp [h0, hm, RequestOp.etcdAll, RequestOp.etcd]

/-- **A transaction on one key against etcd.** In every reachable state, a
transaction that is not refused reports etcd's outcome and leaves the key as etcd
does, if and only if it is not deleting at revision 0, or deletes without a compare
and the key is there. -/
theorem txn_matches_etcd_iff (ops : List Op) (t : TxnRequest) (key : Bytes) (hkey : t.onKey key = true)
    (hcompact : key ≠ compactRevKey) (hcrd : isCRDKey key = false) :
    Matches key ((overMemory register).txn (run ops) t)
      (t.etcd ((run ops).currentRevision + 1) ((run ops).content key)) ↔
    ((isDelete t).map Prod.fst = some 0 → t.compare = [] ∧ (run ops).content key ≠ none) := by
  have hR := run_refines ops
  unfold txn
  cases hcreate : isCreate t with
  | some put =>
    obtain ⟨c, rfl, ht, hr, h0⟩ := isCreate_eq_some hcreate
    exact ⟨fun _ hd => by simp [isDelete] at hd, fun _ => create_matches register hR hkey hcrd ht hr h0⟩
  | none =>
    cases hdelete : isDelete t with
    | some p =>
      obtain ⟨rev, k⟩ := p
      rcases isDelete_eq_some hdelete with ⟨r, d, rfl, rfl, rfl⟩ | ⟨c, r, d, rfl, ht, hr, rfl, rfl⟩
      · have hdk : d.key = key := by
          simp [TxnRequest.onKey, RequestOp.allOnKey, RequestOp.onKey] at hkey
          exact hkey.2.1
        simp only [hdk]
        rw [delete_all_matches_iff register hR r d]
        simp [TxnRequest.compare]
      · have hdk : d.key = key := by
          simp [TxnRequest.onKey, RequestOp.allOnKey, RequestOp.onKey] at hkey
          exact hkey.1.2.1
        simp only [hdk]
        rw [delete_matches_iff register hR ht hr]
        simp [TxnRequest.compare]
    | none =>
      refine ⟨fun _ hd => by simp at hd, fun _ => ?_⟩
      cases hupdate : isUpdate t with
      | some p =>
        obtain ⟨rev, k, value, lease⟩ := p
        obtain ⟨c, put, r, rfl, ht, hr, rfl, rfl, rfl, rfl⟩ := isUpdate_eq_some hupdate
        exact update_matches register hR hkey hcrd ht hr
      | none =>
        cases hcomp : isCompact t with
        | some p =>
          -- the shape compares `compact_rev_key`, but the transaction names another key
          obtain ⟨c, hc, hck⟩ := isCompact_key hcomp
          cases t with
          | mk cs success failure =>
            simp only [TxnRequest.onKey, Bool.and_eq_true, List.all_eq_true, decide_eq_true_eq] at hkey
            exact absurd ((hkey.1.1 c hc).1.symm.trans hck) hcompact
        | none =>
          intro resp hresp
          simp at hresp

/-- A delete of a live key, to be done only if the key is absent, is done: the client
is told that the compare holds, and the key is gone. The same transaction on an absent
key, and the unconditional one, are reported as failed though etcd's succeed. -/
theorem txn_deletes_against_compare :
    let l := overMemory fun _ => none
    let live := run [.create (ascii "/a") (ascii "1") 0]
    let guarded : TxnRequest := .mk [⟨.equal, .mod, ascii "/a", .modRevision 0, []⟩]
      [.deleteRange ⟨ascii "/a", [], false⟩] [.range { key := ascii "/a" }]
    let always : TxnRequest := .mk [] [.range { key := ascii "/a" }, .deleteRange ⟨ascii "/a", [], false⟩] []
    (guarded.onKey (ascii "/a") ∧ always.onKey (ascii "/a") ∧
      ascii "/a" ≠ compactRevKey ∧ isCRDKey (ascii "/a") = false) ∧
    (guarded.etcd 2 (live.content (ascii "/a"))).1 = false ∧
    (l.txn live guarded).1.toOption.map TxnResponse.succeeded = some true ∧
    (l.txn live guarded).2.content (ascii "/a") = none ∧
    ¬ Matches (ascii "/a") (l.txn live guarded) (guarded.etcd 2 (live.content (ascii "/a"))) ∧
    ¬ Matches (ascii "/a") (l.txn new guarded) (guarded.etcd 1 (new.content (ascii "/a"))) ∧
    ¬ Matches (ascii "/a") (l.txn new always) (always.etcd 1 (new.content (ascii "/a"))) := by
  refine ⟨by decide, by decide, by decide, by decide, ?_, ?_, ?_⟩
  · exact fun hm => absurd (hm _ rfl) (by decide)
  · exact fun hm => absurd (hm _ rfl) (by decide)
  · exact fun hm => absurd (hm _ rfl) (by decide)

theorem txn_matches_etcd_compare_revision :
    Matches (ascii "/a")
      ((overMemory fun _ => none).txn (run [.create (ascii "/a") (ascii "1") 0])
        (.mk [⟨.equal, .mod, ascii "/a", .modRevision 1, []⟩]
          [.deleteRange ⟨ascii "/a", [], false⟩] [.range { key := ascii "/a" }]))
      (true, none) :=
  (txn_matches_etcd_iff (fun _ => none) [.create (ascii "/a") (ascii "1") 0] _ (ascii "/a")
    (by decide) (by decide) (by decide)).2 (by decide)

end LimitedServer

end Harikube
