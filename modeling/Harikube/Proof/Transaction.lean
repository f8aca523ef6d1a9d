import Harikube.Proof.Calls
import Harikube.Spec.Transaction

/-!
# Transaction objects are refused

* `resources_refused`: the decoder never produces a `map[string][]byte`, so no object has
  operations; `create_refused`: **the creation of a transaction object returns an error, or
  panics, before a transaction is begun.**
* `transaction_create_atomic`: so it is atomic, whatever the operations and the transaction
  would do.
* `finish_commits_iff`: were operations ever run, the transaction would be committed exactly
  if one of them failed.
-/

namespace Harikube.Transaction

variable {σ : Type} {decode : Decoder} {b : TxBackend σ} {lease : ℤ}


/-- The documented behaviour of the decoder: a decoded object is JSON. -/
def DecodesJson (decode : Decoder) : Prop :=
  ∀ value obj, decode value = some obj → ∀ p ∈ obj, p.2.Json

theorem mem_of_lookup {k : Bytes} {v : GoValue} {fields : List (Bytes × GoValue)}
    (h : fields.lookup k = some v) : (k, v) ∈ fields := by
  induction fields with
  | nil => simp at h
  | cons p rest ih =>
    rw [List.lookup_cons] at h
    split at h
    · rename_i hk
      obtain rfl := Option.some.inj h
      rw [eq_of_beq hk]
      exact List.mem_cons_self
    · exact List.mem_cons_of_mem _ (ih h)

theorem Json.asBytesMap {v : GoValue} (h : v.Json) : v.asBytesMap = none := by
  cases h <;> rfl

/-- No object has operations. -/
theorem resources_refused (hdec : DecodesJson decode) (value : Bytes) (raw : List (Bytes × Bytes)) :
    resources decode value ≠ some (.ok raw) := by
  unfold resources
  split
  · simp
  · rename_i obj hobj
    split
    · simp
    · rename_i specs hspecs
      have hjson : specs.Json := hdec value obj hobj _ (mem_of_lookup hspecs)
      cases hjson with
      | object hfields =>
        simp only [GoValue.asObject]
        split
        · simp
        · rename_i resources hres
          rw [Json.asBytesMap (hfields _ (mem_of_lookup hres))]
          simp
      | _ => simp [GoValue.asObject]

/-- **A transaction object is refused** with an error or a panic, in the state that reading
the current revision leaves. -/
theorem create_refused (b : TxBackend σ) (lease : ℤ) (hdec : DecodesJson decode)
    (order : List (Bytes × Bytes) → List (Bytes × Bytes)) (s : σ) {key : Bytes}
    (hkey : (ascii "/harikube/transaction/").isPrefixOf key = true) (value : Bytes) :
    ((create decode b lease order s key value).2 = s ∨
      (create decode b lease order s key value).2 = (b.currentRevision s).2) ∧
    ((create decode b lease order s key value).1.result = .panicked ∨
      ∃ rev err, (create decode b lease order s key value).1.result = .returned rev (some err)) := by
  unfold create
  simp only [hkey, Bool.not_true, Bool.false_eq_true, if_false]
  split
  · exact ⟨.inl rfl, .inr ⟨_, _, rfl⟩⟩
  · split
    · rename_i err s' hcur
      rw [hcur]
      exact ⟨.inr rfl, .inr ⟨_, _, rfl⟩⟩
    · rename_i currRev s' hcur
      rw [hcur]
      split
      · exact ⟨.inr rfl, .inl rfl⟩
      · exact ⟨.inr rfl, .inr ⟨_, _, rfl⟩⟩
      · rename_i raw hres
        exact absurd hres (resources_refused hdec value raw)

/-- Atomicity: without an error every operation has had its effect and the transaction has
been committed; with an error, or a panic, the rows of the store are as before. -/
def Atomic {τ : Type} (decode : Decoder) (value : Bytes) (s : SqlLog × τ) (o : Outcome × (SqlLog × τ)) : Prop :=
  match o.1.result with
  | .returned _ none =>
    o.1.committed = true ∧ ∃ raw, resources decode value = some (.ok raw) ∧
      o.1.effects.length = raw.length ∧ ∀ effect ∈ o.1.effects, effect = true
  | .returned _ (some _) => o.2.1.db = s.1.db
  | .panicked => o.2.1.db = s.1.db

/-- **Creating a transaction object is atomic**, for every object, every order of its
resources and every behaviour of the operations and of the transaction: a `map[string][]byte`
is never what the decoder produces, so no operation is run. -/
theorem transaction_create_atomic {τ : Type} {decode : Decoder} (hdec : DecodesJson decode)
    {b : TxBackend (SqlLog × τ)} (hb : b.OverSql) (order : List (Bytes × Bytes) → List (Bytes × Bytes))
    (s : SqlLog × τ) {key : Bytes} (hkey : (ascii "/harikube/transaction/").isPrefixOf key = true)
    (value : Bytes) (lease : ℤ) :
    Atomic decode value s (create decode b lease order s key value) := by
  obtain ⟨hstate, hresult⟩ := create_refused b lease hdec order s hkey value
  have hdb : (create decode b lease order s key value).2.1.db = s.1.db := by
    rcases hstate with h | h
    · rw [h]
    · rw [h, hb s]
      exact s.1.currentRevision_db
  unfold Atomic
  rcases hresult with h | ⟨rev, err, h⟩
  · rw [h]
    exact hdb
  · rw [h]
    exact hdb

/-- A transaction object, as YAML and decoded. -/
def sampleObject : Bytes := ascii "kind: T\nspecs:\n  resources:\n    /a#create: e30K\n"

def sampleDecoder : Decoder := fun value =>
  if value = sampleObject then
    some [(ascii "kind", .string (ascii "T")),
      (ascii "specs", .object [(ascii "resources", .object [(ascii "/a#create", .string (ascii "e30K"))])])]
  else none

/-- The SQL backend for values without metadata, whose inserts do not join the transaction. -/
def plainBackend : Backend (SqlLog × Unit) :=
  let p := LogStructured.backend ⟨LogStructured.plainCodec, 0⟩ fun _ _ _ => true
  { create s key value lease := ((p.create s.1 key value lease).1, (p.create s.1 key value lease).2, ())
    update s key value revision lease :=
      ((p.update s.1 key value revision lease).1, (p.update s.1 key value revision lease).2, ())
    delete s key revision := ((p.delete s.1 key revision).1, (p.delete s.1 key revision).2, ())
    get s key revision keysOnly := ((p.get s.1 key revision keysOnly).1, (p.get s.1 key revision keysOnly).2, ())
    list s key rangeEnd limit revision keysOnly labels fields :=
      ((p.list s.1 key rangeEnd limit revision keysOnly labels fields).1,
        (p.list s.1 key rangeEnd limit revision keysOnly labels fields).2, ())
    count s key rangeEnd revision labels fields :=
      ((p.count s.1 key rangeEnd revision labels fields).1,
        (p.count s.1 key rangeEnd revision labels fields).2, ()) }

def plainTx : TxBackend (SqlLog × Unit) where
  backend := plainBackend
  inTx := plainBackend
  currentRevision s := (s.1.currentRevision.1, s.1.currentRevision.2, s.2)
  transaction s := (none, s)
  commit s := (none, s)
  rollback s := (none, s)

theorem sampleDecoder_json : DecodesJson sampleDecoder := by
  intro value obj h
  unfold sampleDecoder at h
  split at h
  · rw [← Option.some.inj h]
    intro p hp
    simp only [List.mem_cons, List.not_mem_nil, or_false] at hp
    rcases hp with rfl | rfl
    · exact .string _
    · refine .object fun p hp => ?_
      rw [List.mem_singleton.1 hp]
      refine .object fun p hp => ?_
      rw [List.mem_singleton.1 hp]
      exact .string _
  · simp at h

theorem transaction_create_atomic_sample :
    Atomic sampleDecoder sampleObject (LogStructured.run LogStructured.plainCodec 0 [], ())
      (create sampleDecoder plainTx 0 id (LogStructured.run LogStructured.plainCodec 0 [], ())
        (ascii "/harikube/transaction/t") sampleObject) :=
  transaction_create_atomic sampleDecoder_json (fun _ => rfl) id _ (by decide) _ _

/-- The end of `Create` has the decision the wrong way round: were operations run, the call
would commit and return no error exactly if one of them has failed. -/
theorem finish_commits_iff (b : TxBackend σ) (currRev : ℤ) (r : Loop) (s : σ)
    (hcommit : (b.commit s).1 = none) :
    (∃ rev, (finish b currRev r s).1.result = .returned rev none) ↔
      ∃ stop, r.stop = some stop ∧ stop ≠ .panicked := by
  obtain ⟨st, hst⟩ : ∃ st, b.commit s = (none, st) := ⟨_, Prod.ext hcommit rfl⟩
  unfold finish
  cases hstop : r.stop with
  | none =>
    simp only [reduceCtorEq, false_and, exists_false, iff_false]
    split <;> simp
  | some stop => cases stop <;> simp [hst]

end Harikube.Transaction
