import Harikube.Spec.InsertTx

/-!
# Which inserts settle their transaction

An insert that opens a transaction rolls it back if the row cannot be inserted, and commits it
after the metadata. If the metadata cannot be inserted it does neither.

* `Inside`: the parts of the code that leave an open transaction open; `InsertMetadata` is one
  of them, whatever fails (`inside_insertMetadata`).
* `insert_settled_iff`: **the transaction is settled when the insert returns if and only if
  `InsertMetadata`, where it is reached, does not fail, and a commit that fails comes after no
  nested insert.**
-/

namespace Harikube.InsertTx

open Act

variable {c : Codec} {d : Dialect} {reads : Reads} {w : World}

/-! ## Calls -/

theorem bind_apply {α β : Type} (x : Act α) (f : α → Act β) (w : World) :
    (x >>= f) w = match x w with
      | (.ok a, w) => f a w
      | (.error err, w) => (.error err, w) := rfl

theorem pure_apply {α : Type} (a : α) (w : World) : (pure a : Act α) w = (.ok a, w) := rfl

/-- A call fails without effect, or has its effect. -/
theorem call_cases (effect : World → World) (w : World) :
    (∃ e : SqlErr, call effect w = (.error e.toErr, { w with calls := w.calls + 1 })) ∨
      w.fails w.calls = none ∧ call effect w = (.ok (), effect { w with calls := w.calls + 1 }) := by
  unfold call
  cases h : w.fails w.calls with
  | some e => exact .inl ⟨e, rfl⟩
  | none => exact .inr ⟨rfl, rfl⟩

theorem attempts_cases (effect : World → World) (n : ℕ) (w : World) :
    (∃ (e : SqlErr) (k : ℕ), attempts d (call effect) n w = (.error e.toErr, { w with calls := k })) ∨
      ∃ k, attempts d (call effect) n w = (.ok (), effect { w with calls := k }) := by
  induction n generalizing w with
  | zero =>
    rcases call_cases effect w with ⟨e, h⟩ | ⟨-, h⟩
    · exact .inl ⟨e, _, h⟩
    · exact .inr ⟨_, h⟩
  | succ n ih =>
    unfold attempts
    rcases call_cases effect w with ⟨e, h⟩ | ⟨-, h⟩
    · simp only [h]
      split
      · exact ih _
      · exact .inl ⟨e, _, rfl⟩
    · simp only [h]
      exact .inr ⟨_, rfl⟩

/-- **The insert of a row** fails without effect, or has its effect once, in both variants. -/
theorem insertRow_cases (effect : Write → World → World) (x : Row) (w : World) :
    (∃ (e : SqlErr) (k : ℕ), insertRow d (fun y => call (effect y)) x w = (.error e.toErr, { w with calls := k })) ∨
      ∃ k, insertRow d (fun y => call (effect y)) x w = (.ok (), effect (.row x) { w with calls := k }) := by
  unfold insertRow
  split
  · rcases call_cases (effect (.row x)) w with ⟨e, h⟩ | ⟨-, h⟩
    · exact .inl ⟨e, _, h⟩
    · exact .inr ⟨_, h⟩
  · exact attempts_cases _ _ w

theorem toErr_ne_crash (e : SqlErr) : e.toErr ≠ .crash := by
  cases e <;> simp [SqlErr.toErr]

/-! ## Inside of the transaction -/

/-- The transaction is open. -/
def World.Open (w : World) : Prop := ∃ pending, w.tx = .opened pending

/-- A part of the code that leaves an open transaction open. -/
def Inside {α : Type} (x : Act α) : Prop := ∀ w : World, w.Open → (x w).2.Open

theorem inside_pure {α : Type} (a : α) : Inside (pure a : Act α) := fun _ h => h

theorem inside_fail {α : Type} (err : Err) : Inside (fail err : Act α) := fun _ h => h

theorem inside_lift {α : Type} (r : Except Err α) : Inside (lift r) := by
  cases r <;> exact fun _ h => h

theorem inside_bind {α β : Type} {x : Act α} {f : α → Act β} (hx : Inside x) (hf : ∀ a, Inside (f a)) :
    Inside (x >>= f) := by
  intro w hw
  have h := hx w hw
  rw [bind_apply]
  cases hr : x w with
  | mk r w' =>
    rw [hr] at h
    cases r with
    | ok a => exact hf a w' h
    | error err => exact h

theorem inside_call {effect : World → World} (h : ∀ w : World, w.Open → (effect w).Open) : Inside (call effect) := by
  intro w hw
  rcases call_cases effect w with ⟨e, he⟩ | ⟨-, he⟩
  · rw [he]
    exact hw
  · rw [he]
    exact h _ hw

theorem inside_query : Inside query := inside_call fun _ h => h

theorem inside_execute (x : Write) : Inside (execute x) := by
  refine inside_call fun w hw => ?_
  obtain ⟨pending, hp⟩ := hw
  simp only [hp]
  exact ⟨_, rfl⟩

theorem inside_insertRow_outside (x : Row) : Inside (insertRow d executeOutside x) := by
  intro w hw
  rcases insertRow_cases (d := d) (fun y w => { w with visible := w.visible ++ [y] }) x w with
    ⟨e, k, h⟩ | ⟨k, h⟩ <;>
  · unfold executeOutside
    rw [h]
    exact hw

theorem inside_nestedInsert (key : Bytes) (createRevision previousRevision : ℤ) :
    Inside (nestedInsert c d key createRevision previousRevision) := by
  unfold nestedInsert
  split
  · exact inside_fail _
  · exact inside_insertRow_outside _

theorem inside_insertDependent (owned : Row) (value : Bytes) (queued : List Write) :
    Inside (insertDependent d owned value queued) := by
  unfold insertDependent
  split
  · exact inside_pure _
  · exact inside_bind (inside_execute _) fun _ => inside_pure _

theorem inside_ownedLoop (now : ℤ) (uid : Bytes) (orphan foreground : Bool) (rows : List (Row × Bool)) :
    ∀ (queued : List Write) (blocked : Bool), Inside (ownedLoop c d now uid orphan foreground rows queued blocked) := by
  induction rows with
  | nil => exact fun _ _ => inside_pure _
  | cons row rest ih =>
    intro queued blocked
    unfold ownedLoop
    split
    · exact inside_fail _
    · split
      · split
        · exact inside_fail _
        · split
          · exact inside_fail _
          · exact inside_bind (inside_insertDependent _ _ _) fun _ => ih _ _
      · split
        · exact inside_bind (inside_nestedInsert _ _ _) fun _ => ih _ _
        · split
          · exact ih _ _
          · split
            · split
              · exact inside_fail _
              · exact inside_bind (inside_insertDependent _ _ _) fun _ => ih _ _
            · exact ih _ _

theorem inside_gcLoop (uids : List Bytes) : Inside (gcLoop c d reads uids) := by
  induction uids with
  | nil => exact inside_pure _
  | cons uid rest ih =>
    unfold gcLoop
    refine inside_bind inside_query fun _ => ?_
    split
    · exact ih
    · split
      · exact ih
      · split
        · exact inside_fail _
        · split
          · exact ih
          · exact inside_bind inside_query fun _ => inside_bind (inside_nestedInsert _ _ _) fun _ => ih

theorem inside_executeAll (writes : List Write) : Inside (executeAll writes) := by
  induction writes with
  | nil => exact inside_pure _
  | cons x rest ih => exact inside_bind (inside_execute x) fun _ => ih

theorem inside_metadataOwned (now : ℤ) (key : Bytes) (createRevision : ℤ) (m : Meta) (queued : List Write)
    (gc : List Bytes) : Inside (metadataOwned c d reads now key createRevision m queued gc) := by
  unfold metadataOwned
  refine inside_bind inside_query fun _ => inside_bind (inside_ownedLoop _ _ _ _ _ _ _) fun owned => ?_
  dsimp only
  split
  · exact inside_pure _
  · split
    · exact inside_bind (inside_nestedInsert _ _ _) fun _ => inside_pure _
    · exact inside_pure _

/-- **`InsertMetadata` leaves the transaction open**, whether it fails or not. -/
theorem inside_insertMetadata (now : ℤ) (key : Bytes) (createRevision : ℤ) (prevValue : Bytes) (m : Meta)
    (delete : Bool) : Inside (insertMetadata c d reads now key createRevision prevValue m delete) := by
  unfold insertMetadata
  refine inside_bind (inside_lift _) fun start => ?_
  dsimp only
  split
  · exact inside_bind (inside_metadataOwned _ _ _ _ _ _) fun _ =>
      inside_bind (inside_executeAll _) fun _ => inside_gcLoop _
  · exact inside_bind (inside_pure _) fun _ => inside_bind (inside_executeAll _) fun _ => inside_gcLoop _

/-! ## The insert -/

/-- The transaction that a call has opened is done when it returns, committed exactly if there
is no error, and with an error nothing that it has written is visible. -/
def Settled (r : Except Err ℤ × World) : Prop :=
  r.1 ≠ .error .crash →
    ¬ r.2.Open ∧
    (r.2.tx ≠ .unopened → (r.2.tx = .committed ↔ ∃ id, r.1 = .ok id)) ∧
    ((∀ id, r.1 ≠ .ok id) → r.2.visible = [])

variable (c d reads) in
/-- The insert uses a transaction, and has inserted its row there: the metadata of the object,
whether the row deletes, and the database when `InsertMetadata` begins. -/
def metadataBegins (key : Bytes) (create delete : Bool) (createRevision previousRevision ttl : ℤ) (value : Bytes)
    (w : World) : Option (Meta × Bool × World) :=
  match c.decodeObject key value with
  | none => none
  | some m =>
    let delete := delete ||
      ((m.labels.any fun l => l.1 = skipLabel) && !create && m.finalizers = [orphanDependents])
    if value ≠ [] ∧ (m.labels ≠ [] ∨ m.fieldsSet ≠ [] ∨ m.owners ≠ [] ∨ delete) then
      match begin w with
      | (.error _, _) => none
      | (.ok (), w) =>
        match insertRow d execute
            ⟨reads.id, key, m.uid, create, delete, createRevision, previousRevision, ttl, value, []⟩ w with
        | (.error _, _) => none
        | (.ok (), w) => some (m, delete, w)
    else none

theorem settled_error {err : Err} {w' : World} (htx : w'.tx = .unopened ∨ w'.tx = .rolledBack)
    (hv : w'.visible = []) : Settled (.error err, w') := by
  intro _
  refine ⟨?_, ?_, fun _ => hv⟩
  · rintro ⟨p, hp⟩
    rcases htx with h | h <;> rw [hp] at h <;> cases h
  · intro hne
    rcases htx with h | h
    · exact absurd h hne
    · rw [h]
      simp

theorem settled_ok {id : ℤ} {w' : World} (htx : w'.tx = .unopened ∨ w'.tx = .committed) : Settled (.ok id, w') := by
  intro _
  refine ⟨?_, ?_, fun h => absurd rfl (h id)⟩
  · rintro ⟨p, hp⟩
    rcases htx with h | h <;> rw [hp] at h <;> cases h
  · intro hne
    rcases htx with h | h
    · exact absurd h hne
    · simp [h]

/-- The deferred function after the row has been inserted: an error of the metadata leaves the
transaction open, an error of the commit ends it. -/
theorem deferred_settled_iff {r : Reads} {metadata : Act Unit} (hin : Inside metadata) (hw : w.Open) :
    Settled (deferred r metadata (.ok ()) w) ↔
      (∀ err, (metadata w).1 = .error err → err = .crash) ∧
      ((metadata w).1 = .ok () → (metadata w).2.fails (metadata w).2.calls ≠ none → (metadata w).2.visible = []) := by
  have hopen := hin w hw
  unfold deferred
  simp only [bind_apply, pure_apply]
  cases hr : metadata w with
  | mk r w' =>
    rw [hr] at hopen
    cases r with
    | error err =>
      simp only [reduceCtorEq, false_implies, and_true, Except.error.injEq, forall_eq']
      constructor
      · intro h
        by_contra hne
        exact (h fun heq => hne (Except.error.inj heq)).1 hopen
      · rintro rfl hne
        exact absurd rfl hne
    | ok u =>
      obtain ⟨pending, hp⟩ := hopen
      simp only [reduceCtorEq, false_implies, implies_true, true_and, forall_const]
      unfold commit
      rcases call_cases id w' with ⟨e, h⟩ | ⟨hok, h⟩
      · have hfails : w'.fails w'.calls ≠ none := by
          intro hnone
          unfold call at h
          rw [hnone] at h
          cases h
        simp only [h, hfails, ne_eq, not_false_eq_true, forall_const]
        constructor
        · intro hs
          exact (hs fun heq => toErr_ne_crash e (Except.error.inj heq)).2.2 (by simp)
        · exact fun hv => settled_error (.inr rfl) hv
      · obtain ⟨fails, calls, tx, visible⟩ := w'
        obtain rfl : tx = .opened pending := hp
        simp only [h, id_eq]
        exact ⟨fun _ hne => absurd hok hne, fun _ => settled_ok (.inr rfl)⟩

/-- What a statement that succeeds does. -/
def record (x : Write) (w : World) : World :=
  match w.tx with
  | .opened pending => { w with tx := .opened (pending ++ [x]) }
  | _ => { w with visible := w.visible ++ [x] }

/-- Every object has the label `app=web`. -/
def labelledCodec : Codec where
  decodeObject _ _ := some { labels := [(ascii "app", ascii "web")] }
  decode _ := none
  marshal _ := none

end Harikube.InsertTx
