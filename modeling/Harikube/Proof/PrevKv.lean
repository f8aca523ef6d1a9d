import Harikube.Proof.OldValues
import Harikube.Proof.Reachable

/-!
# The previous key-value of an event

A poll delivers the rows of the table as events. `scan` takes the lease and the create revision
of the previous key-value from the new row, and its value from the new row's `old_value`.

* `Kine.Traced`: every row that is not a creation points at the live row that was the last of
  its name before it. `Kine.Traced.insert`: the unique index keeps it so.
* `get_at`: what `Get` returns at a revision.
* `delivered_iff`: so the event of a row is right if and only if the row has the lease, the create
  revision and the value of the row it replaces.
* `prevKv_exact`: **in every run of calls that keep the leases, delete nothing and write no
  dependent anew, every event is right.**
-/

namespace Harikube

open Lts Kine

namespace Kine

variable {R : Row → Row → Prop} {t t' : Kine} {x y : Row} {oldId id : ℤ}

/-- The rows of a name follow one another without a gap, and a row that is not a creation
replaces a live row, to which it is related by `R`. -/
structure Traced (R : Row → Row → Prop) (t : Kine) : Prop where
  successor : ∀ x ∈ t.rows, ∀ z ∈ t.rows, x.name = z.name → x.id < z.id →
    ∃ y ∈ t.rows, y.name = x.name ∧ y.prevRevision = x.id ∧ y.id ≤ z.id
  replaced : ∀ x ∈ t.rows, x.created = false →
    ∃ y ∈ t.rows, y.name = x.name ∧ y.id = x.prevRevision ∧ y.id < x.id ∧ y.deleted = false ∧ R x y

/-- A new row comes after a row of its name, which is live unless the new row is a creation. -/
def Replaces (R : Row → Row → Prop) (t : Kine) (x : Row) (old : Bytes) : Prop :=
  ∃ y ∈ t.rows, y.name = x.name ∧ y.id = x.prevRevision ∧
    (x.created = false → y.deleted = false ∧ ∀ n, R { x with id := n, oldValue := old } y)

/-- A new row is the first of its name, or comes after a row of its name. -/
def Enters (R : Row → Row → Prop) (t : Kine) (x : Row) (old : Bytes) : Prop :=
  (x.created = true ∧ ∀ y ∈ t.rows, y.name ≠ x.name) ∨ t.Replaces R x old

theorem Replaces.mono {old : Bytes} (h : t.Replaces R x old) (hrows : ∀ y ∈ t.rows, y ∈ t'.rows) :
    t'.Replaces R x old := by
  obtain ⟨y, hy, hrest⟩ := h
  exact ⟨y, hrows y hy, hrest⟩

theorem traced_empty : Traced R empty :=
  ⟨fun _ hx => absurd hx List.not_mem_nil, fun _ hx => absurd hx List.not_mem_nil⟩

theorem Traced.insert (h : Traced R t) (hx : t.Enters R x (t.valueOf oldId))
    (hi : t.insert x oldId = some (id, t')) : Traced R t' := by
  obtain ⟨hclash, -, -⟩ := insert_eq_some hi
  have hmem : ∀ y, y ∈ t'.rows ↔ y ∈ t.rows ∨ y = { x with id := t.seq + 1, oldValue := t.valueOf oldId } := by
    intro y
    rw [insert_rows hi, List.mem_append, List.mem_singleton]
  refine ⟨fun u hu z hz hn hlt => ?_, fun z hz hc => ?_⟩
  · rcases (hmem u).1 hu with hu | rfl
    · rcases (hmem z).1 hz with hz | rfl
      · obtain ⟨y, hy, hrest⟩ := h.successor u hu z hz hn hlt
        exact ⟨y, (hmem y).2 (.inl hy), hrest⟩
      · rcases hx with ⟨-, hfirst⟩ | ⟨y, hy, hyn, hyp, -⟩
        · exact absurd hn (hfirst u hu)
        · have hle : ∀ w ∈ t.rows, w.id ≤ t.seq + 1 := by
            intro w hw
            have := (t.bounded w hw).2
            omega
          rcases lt_trichotomy u.id y.id with huy | huy | huy
          · obtain ⟨w, hw, hwn, hwp, -⟩ := h.successor u hu y hy (hn.trans hyn.symm) huy
            exact ⟨w, (hmem w).2 (.inl hw), hwn, hwp, hle w hw⟩
          · exact ⟨_, hz, hn.symm, hyp.symm.trans huy.symm, le_rfl⟩
          · -- the row that follows `y` is in the way of the new one
            obtain ⟨w, hw, hwn, hwp, -⟩ := h.successor y hy u hu (hyn.trans hn.symm) huy
            exact absurd ⟨hwn.trans hyn, hwp.trans hyp⟩ (hclash w hw)
    · -- no row comes after the new one
      have hseq : z.id ≤ t'.seq := (t'.bounded z hz).2
      rw [insert_seq hi] at hseq
      have : t.seq + 1 < z.id := hlt
      omega
  · rcases (hmem z).1 hz with hz | rfl
    · obtain ⟨y, hy, hrest⟩ := h.replaced z hz hc
      exact ⟨y, (hmem y).2 (.inl hy), hrest⟩
    · rcases hx with ⟨hcreated, -⟩ | ⟨y, hy, hyn, hyp, hlive⟩
      · exact absurd (hcreated.symm.trans hc) (by decide)
      · obtain ⟨hd, hR⟩ := hlive hc
        have hlt : y.id < t.seq + 1 := by
          have := (t.bounded y hy).2
          omega
        exact ⟨y, (hmem y).2 (.inl hy), hyn, hyp, hlt, hd, hR _⟩

/-- The row that is replaced is the last of its name before the new one. -/
theorem Traced.last_before (h : Traced R t) (hx : x ∈ t.rows) (hy : y ∈ t.rows) (hn : y.name = x.name)
    (hp : y.id = x.prevRevision) : ∀ z ∈ t.rows, z.name = y.name → z.id ≤ x.id - 1 → z.id ≤ y.id := by
  intro z hz hzn hzx
  by_contra hlt
  obtain ⟨w, hw, hwn, hwp, hwz⟩ := h.successor y hy z hz hzn.symm (by omega)
  have heq : w = x := t.unique w hw x hx ⟨hwn.trans hn, hwp.trans hp⟩
  rw [heq] at hwz
  omega

end Kine

/-! ## Calls -/

/-- The condition on a queued statement. -/
def Stmt.Replaces (R : Row → Row → Prop) (t : Kine) : Stmt → Prop
  | .insertOwner _ => True
  | .insertRow x => t.Replaces R x []

theorem Codec.executeAll_traced {R : Row → Row → Prop} (stmts : List Stmt) {db db' : Db} (hdb : db.kine.Traced R)
    (hs : ∀ s ∈ stmts, s.Replaces R db.kine) (h : executeAll db stmts = .ok db') : db'.kine.Traced R := by
  refine executeAll_keeps (I := fun d => d.kine.Traced R) (Q := fun d s => s.Replaces R d.kine) ?_ stmts hdb hs h
  intro d d' s hd hsd he
  rcases Stmt.execute_cases he with ⟨r, rfl, rfl⟩ | ⟨x, id, rfl, hi⟩
  · exact ⟨hd, fun _ hs' => hs'⟩
  · obtain ⟨hins, -⟩ := Db.insertRow_eq_ok hi
    have henters : d.kine.Enters R x (d.kine.valueOf 0) := by
      rw [valueOf_zero]
      exact .inr hsd
    have hkept : ∀ y ∈ d.kine.rows, y ∈ d'.kine.rows := by
      intro y hy
      rw [insert_rows hins]
      exact List.mem_append_left _ hy
    refine ⟨hd.insert henters hins, fun s' hs' => ?_⟩
    cases s' with
    | insertOwner r => trivial
    | insertRow z => exact Kine.Replaces.mono hs' hkept

namespace LogStructured

variable {R : Row → Row → Prop} {c : Codec} {now : ℤ} {s : SqlLog} {call : Call} {e : Event}

/-- What the row of an event must be like. -/
def Placed (R : Row → Row → Prop) (t : Kine) (e : Event) : Prop :=
  ∀ uid del, t.Enters R (eventRow e uid del) (t.valueOf (prevRev e))

/-- What the dependents must be like that an insert may write anew. -/
def Cascades (R : Row → Row → Prop) (c : Codec) (db : Db) (e : Event) : Prop :=
  ∀ m, c.decodeObject e.kv.key e.kv.value = some m →
    Codec.cascades m (Codec.deletes m e.create e.delete) = true →
    ∀ d : Db, d.owners = db.owners → ∀ p ∈ d.getOwned m.uid, ∀ v, d.kine.Replaces R (Codec.dependentRow p.1 v) []

theorem append_traced (hs : s.db.kine.Traced R) (henters : Placed R s.db.kine e) (hcas : Cascades R c s.db e) :
    (s.append c now e).2.db.kine.Traced R := by
  have hprev : (e.prevKV.getD ⟨[], [], 0, 0, 0, 0⟩).modRevision = prevRev e := by
    unfold prevRev
    cases e.prevKV <;> rfl
  unfold SqlLog.append
  simp only [hprev]
  split
  · exact hs
  · rename_i rev db hins
    obtain ⟨m, d, hm, hrow, hmeta⟩ := c.insert_cases hins
    obtain ⟨hkine, ho⟩ := Db.insertRow_eq_ok hrow
    have hd : d.kine.Traced R := hs.insert (henters m.uid _) hkine
    rcases hmeta with ⟨-, hmeta⟩ | ⟨-, rfl⟩
    · obtain ⟨stmts, hstmts, hex⟩ := c.insertMetadata_executes (Q := Stmt.Replaces R d.kine) (fun _ _ => trivial)
        (fun h p hp _ v => hcas m hm h d ho p hp v) hmeta
      exact Codec.executeAll_traced stmts hd hstmts hex
    · exact hd

/-- What a call appends, by the last row of its key. -/
theorem read_cases (hread : (call.read s).1 = some e) :
    (∃ key value lease prev, call = .create key value lease ∧
      e = ⟨false, true, ⟨key, value, 0, 0, 0, lease⟩, some ⟨[], [], 0, 0, prev, 0⟩⟩ ∧
      (s.db.kine.last key = none ∨ ∃ y, s.db.kine.last key = some y ∧ prev = y.id)) ∨
    (∃ key value revision lease y, call = .update key value revision lease ∧ s.db.kine.last key = some y ∧
      y.deleted = false ∧ e = updateEvent key value lease (y.toEvent true false)) ∨
    ∃ key revision y, call = .delete key revision ∧ s.db.kine.last key = some y ∧ y.deleted = false ∧
      e = deleteEvent key (y.toEvent true false) := by
  have hnone : ∀ {α : Type} {b : Bool} {o : Option α} {a : α}, (if b then none else o) = some a → o = some a := by
    intro α b o a h
    cases b <;> simp_all
  cases call with
  | create key value lease =>
    replace hread := hnone hread
    rw [get'_event] at hread
    refine .inl ⟨key, value, lease, ?_⟩
    cases hl : s.db.kine.last key with
    | none =>
      rw [hl] at hread
      exact ⟨0, rfl, (Option.some.inj hread).symm, .inl rfl⟩
    | some y =>
      rw [hl] at hread
      simp only [createEvent, Option.filter, Bool.or_true, if_true, Option.map_some] at hread
      split at hread
      · exact ⟨y.id, rfl, (Option.some.inj hread).symm, .inr ⟨y, rfl, rfl⟩⟩
      · simp at hread
  | update key value revision lease =>
    replace hread := hnone hread
    rw [get'_event, Option.bind_eq_some_iff] at hread
    obtain ⟨event, hev, he⟩ := hread
    obtain ⟨y, hy, rfl⟩ := Option.map_eq_some_iff.1 hev
    rw [Option.filter_eq_some_iff] at hy
    split at he
    · simp at he
    · exact .inr (.inl ⟨key, value, revision, lease, y, rfl, hy.1, by simpa using hy.2, (Option.some.inj he).symm⟩)
  | delete key revision =>
    replace hread := hnone hread
    rw [get'_event, Option.bind_eq_some_iff] at hread
    obtain ⟨event, hev, he⟩ := hread
    obtain ⟨y, hy, rfl⟩ := Option.map_eq_some_iff.1 hev
    rw [Option.filter_eq_some_iff] at hy
    split at he
    · simp at he
    · rename_i hdel
      split at he
      · simp at he
      · exact .inr (.inr ⟨key, revision, y, rfl, hy.1, by simpa [Row.toEvent] using hdel, (Option.some.inj he).symm⟩)

/-! ## Reads at a revision -/

/-- `list` at a revision, for a key whose last row up to it is live. -/
theorem listRows_at {t : Kine} {y : Row} {r : ℤ} (hy : y ∈ t.rows) (hlive : y.deleted = false) (hle : y.id ≤ r)
    (hmax : ∀ z ∈ t.rows, z.name = y.name → z.id ≤ r → z.id ≤ y.id) :
    SqlLog.listRows t y.name [] 1 r false (fun _ => true) = [y] := by
  have hr : r ≠ 0 := by
    have := (t.bounded y hy).1
    omega
  have hlatest : t.latest (· = y.name) (some r) = [y] := by
    refine Sorted.ext_of_sorted Row.id (latest_sorted t _ _) (List.pairwise_singleton _ _) fun x => ?_
    rw [mem_latest, List.mem_singleton]
    constructor
    · rintro ⟨hx, hxr, hxn, hxmax⟩
      have hn : x.name = y.name := of_decide_eq_true hxn
      have hxr' : x.id ≤ r := by simpa using hxr
      have hyx : y.id ≤ x.id := hxmax y hy (by simpa using hle) hn.symm
      exact eq_of_id hx hy (le_antisymm (hmax x hx hn hxr') hyx)
    · rintro rfl
      exact ⟨hy, by simpa using hle, by simp, fun z hz hzr hzn => hmax z hz hzn (by simpa using hzr)⟩
  unfold SqlLog.listRows
  rw [if_neg hr]
  simp only [if_true]
  unfold Kine.list
  rw [hlatest]
  simp [hlive, Mvcc.firstN]

/-- **What `Get` returns at a revision** up to which the last row of the key is live. -/
theorem get_at {y : Row} {r : ℤ} (hy : y ∈ s.db.kine.rows) (hlive : y.deleted = false) (hle : y.id ≤ r)
    (hmax : ∀ z ∈ s.db.kine.rows, z.name = y.name → z.id ≤ r → z.id ≤ y.id)
    (hr : r ≤ s.db.kine.currentRev.getD 0) :
    (get s y.name r false).1.2.1 =
      if r < s.db.kine.compactRev.getD 0 then none else some (y.toEvent true false).kv := by
  have hpos : 0 < r := by
    have := (s.db.kine.bounded y hy).1
    omega
  have hcheck : ∀ events, SqlLog.listCheck (s.db.kine.currentRev.getD 0) (s.db.kine.compactRev.getD 0) r events =
      if r < s.db.kine.compactRev.getD 0 then (s.db.kine.currentRev.getD 0, [], some .compacted)
      else (s.db.kine.currentRev.getD 0, events, none) := by
    intro events
    unfold SqlLog.listCheck
    rw [if_neg (by omega)]
    simp only [gt_iff_lt, hpos, true_and]
  unfold get get' SqlLog.list
  simp only [listRows_at hy hlive hle hmax, List.map_cons, List.map_nil, ne_eq, List.cons_ne_nil, not_false_eq_true,
    if_true, hcheck]
  split <;> rfl

/-- The event of a row is right: its previous key-value is what `Get` returns at the revision
before the row, and its key-value, if it is an update, what `Get` returns at the row's. -/
def Delivered (s : SqlLog) (x : Row) : Prop :=
  let e := x.toEvent true true
  e.prevKV = (get s e.kv.key (e.kv.modRevision - 1) false).1.2.1 ∧
    (e.delete = false → some e.kv = (get s e.kv.key e.kv.modRevision false).1.2.1)

instance (s : SqlLog) (x : Row) : Decidable (Delivered s x) := inferInstanceAs (Decidable (_ ∧ _))

/-- The columns that `scan` takes the previous key-value from are those of the row that is
replaced. -/
def SameColumns (x y : Row) : Prop :=
  x.oldValue = y.value ∧ x.createRevision = (y.toEvent true false).kv.createRevision ∧ x.lease = y.lease

theorem prevKV_iff {x y : Row} (hc : x.created = false) (hn : y.name = x.name) (hp : y.id = x.prevRevision) :
    (x.toEvent true true).prevKV = some (y.toEvent true false).kv ↔ SameColumns x y := by
  unfold SameColumns Row.toEvent
  simp only [hc, Bool.false_eq_true, if_false, Bool.and_true, if_true, Option.some.injEq, KeyValue.mk.injEq, hn, hp,
    true_and]

/-- **When the event of a row is right.** -/
theorem delivered_iff (h : s.db.kine.Traced R) {x : Row} (hx : x ∈ s.db.kine.rows) (hc : x.created = false) :
    Delivered s x ↔ s.db.kine.compactRev.getD 0 < x.id ∧
      ∀ y ∈ s.db.kine.rows, y.id = x.prevRevision → SameColumns x y := by
  obtain ⟨y, hy, hyn, hyp, hlt, hlive, -⟩ := h.replaced x hx hc
  have hcur := id_le_currentRev hx
  have hbefore := get_at hy hlive (show y.id ≤ x.id - 1 by omega) (h.last_before hx hy hyn hyp) (by omega)
  rw [hyn] at hbefore
  have hnow : x.deleted = false → (get s x.name x.id false).1.2.1 =
      if x.id < s.db.kine.compactRev.getD 0 then none else some (x.toEvent true false).kv :=
    fun hd => get_at hx hd le_rfl (fun _ _ _ hle => hle) hcur
  have honly : (∀ z ∈ s.db.kine.rows, z.id = x.prevRevision → SameColumns x z) ↔ SameColumns x y := by
    constructor
    · intro hall
      exact hall y hy hyp
    · intro hsame z hz hzp
      rw [eq_of_id hz hy (hzp.trans hyp.symm)]
      exact hsame
  have hprev : (x.toEvent true true).prevKV = (get s x.name (x.id - 1) false).1.2.1 ↔
      s.db.kine.compactRev.getD 0 < x.id ∧ SameColumns x y := by
    rw [hbefore, ← prevKV_iff hc hyn hyp]
    split
    · rename_i hcomp
      constructor
      · intro hnone
        simp [Row.toEvent, hc] at hnone
      · rintro ⟨hle, -⟩
        omega
    · constructor
      · intro heq
        exact ⟨by omega, heq⟩
      · rintro ⟨-, heq⟩
        exact heq
  rw [honly]
  constructor
  · rintro ⟨hp, -⟩
    exact hprev.1 hp
  · intro hcond
    refine ⟨hprev.2 hcond, fun hd => ?_⟩
    show some (x.toEvent true true).kv = (get s x.name x.id false).1.2.1
    rw [hnow hd, if_neg (by omega)]
    rfl

/-! ## Runs -/

/-- A call at a time of the clock. -/
def callStep (c : Codec) (s : SqlLog) (a : ℤ × Call) : SqlLog := a.2.serial ⟨c, a.1⟩ s

/-- The state after calls, one after another, on a new database that has been started. -/
def callRun (c : Codec) (now : ℤ) (calls : List (ℤ × Call)) : SqlLog :=
  exec (callStep c) (start ⟨c, now⟩ SqlLog.init).2 calls

/-- The row of a call that has read its key. -/
theorem read_placed (hread : (call.read s).1 = some e)
    (hR : ∀ y, s.db.kine.last call.key = some y → e.create = false →
      ∀ uid del n, R { eventRow e uid del with id := n, oldValue := y.value } y) : Placed R s.db.kine e := by
  intro uid del
  -- an update or a delete replaces the live row that it has read
  have hlive : ∀ y, s.db.kine.last call.key = some y → y.deleted = false → e.kv.key = call.key → prevRev e = y.id →
      s.db.kine.Enters R (eventRow e uid del) (s.db.kine.valueOf (prevRev e)) := by
    intro y hl hd hkey hp
    obtain ⟨hy, hyn, -⟩ := last_eq_some hl
    refine .inr ⟨y, hy, hyn.trans hkey.symm, hp.symm, fun hc => ⟨hd, fun n => ?_⟩⟩
    rw [hp, valueOf_mem hy]
    exact hR y hl hc uid del n
  rcases read_cases hread with ⟨key, value, lease, prev, rfl, rfl, hl | ⟨y, hl, rfl⟩⟩ |
    ⟨key, value, revision, lease, y, rfl, hl, hd, rfl⟩ | ⟨key, revision, y, rfl, hl, hd, rfl⟩
  · exact .inl ⟨rfl, last_eq_none.1 hl⟩
  · obtain ⟨hy, hyn, -⟩ := last_eq_some hl
    refine .inr ⟨y, hy, hyn, rfl, fun hc => ?_⟩
    exact absurd hc (by simp [eventRow])
  · exact hlive y hl hd rfl rfl
  · exact hlive y hl hd rfl rfl

theorem serial_traced (hs : s.db.kine.Traced R)
    (hread : ∀ e, (call.read s).1 = some e → Placed R s.db.kine e ∧ Cascades R c s.db e) :
    (call.serial ⟨c, now⟩ s).db.kine.Traced R := by
  rw [serial_db]
  cases he : (call.read s).1 with
  | none => exact hs
  | some e =>
    obtain ⟨hplaced, hcas⟩ := hread e he
    rw [← read_db s call] at hs hplaced hcas
    exact append_traced hs hplaced hcas

/-- A dependent is live when it is written anew. -/
theorem cascades_any (c : Codec) (db : Db) (e : Event) : Cascades (fun _ _ => True) c db e := by
  intro m _ _ d _ p hp v
  obtain ⟨hrow, hd, -⟩ := Codec.mem_getOwned hp
  exact ⟨p.1, hrow, rfl, rfl, fun _ => ⟨hd, fun _ => trivial⟩⟩

theorem getOwned_eq_nil {db : Db} {uid : Bytes} (h : ∀ ko ∈ db.owners, ko.owner ≠ uid) : db.getOwned uid = [] := by
  have hnone : ∀ k : Row, (db.owners.any fun ko => ko.owner = uid && ko.kineId = k.id) = false := by
    intro k
    rw [List.any_eq_false]
    intro ko hko hk
    simp only [Bool.and_eq_true, decide_eq_true_eq] at hk
    exact h ko hko hk.1
  unfold Db.getOwned
  simp [hnone]

/-- A write does not ask for the dependents of an object that has any. -/
def Spares (c : Codec) (db : Db) (key value : Bytes) (create delete : Bool) : Prop :=
  ∀ m, c.decodeObject key value = some m → Codec.cascades m (Codec.deletes m create delete) = true →
    ∀ ko ∈ db.owners, ko.owner ≠ m.uid

theorem Spares.getOwned {db d : Db} (h : Spares c db e.kv.key e.kv.value e.create e.delete) {m : Meta}
    (hm : c.decodeObject e.kv.key e.kv.value = some m)
    (hcas : Codec.cascades m (Codec.deletes m e.create e.delete) = true) (ho : d.owners = db.owners) :
    d.getOwned m.uid = [] := by
  refine getOwned_eq_nil fun ko hko => ?_
  rw [ho] at hko
  exact h m hm hcas ko hko

theorem Spares.cascades {db : Db} (h : Spares c db e.kv.key e.kv.value e.create e.delete) : Cascades R c db e := by
  intro m hm hcas d ho p hp
  rw [h.getOwned hm hcas ho] at hp
  exact absurd hp List.not_mem_nil

theorem spares_of_no_owners {db : Db} (h : db.owners = []) (key value : Bytes) (create delete : Bool) :
    Spares c db key value create delete := by
  intro m _ _ ko hko
  rw [h] at hko
  exact absurd hko List.not_mem_nil

/-- A spared append adds no row but its own. -/
theorem Spares.append_rows (h : Spares c s.db e.kv.key e.kv.value e.create e.delete) {y : Row}
    (hy : y ∈ (s.append c now e).2.db.kine.rows) : y ∈ s.db.kine.rows ∨ y.name = e.kv.key := by
  unfold SqlLog.append at hy
  simp only at hy
  split at hy
  · exact .inl hy
  · rename_i rev db hins
    obtain ⟨m, d, hm, hrow, hmeta⟩ := c.insert_cases hins
    obtain ⟨hkine, ho⟩ := Db.insertRow_eq_ok hrow
    have hsame : db.kine = d.kine := by
      rcases hmeta with ⟨-, hmeta⟩ | ⟨-, rfl⟩
      · obtain ⟨stmts, hstmts, hex⟩ := c.insertMetadata_executes (Q := fun s => ∃ r, s = .insertOwner r)
          (fun _ _ => ⟨_, rfl⟩) (fun hcas p hp => by rw [h.getOwned hm hcas ho] at hp; simp at hp) hmeta
        refine Codec.executeAll_keeps (I := fun db => db.kine = d.kine) (Q := fun _ s => ∃ r, s = .insertOwner r) ?_
          stmts rfl hstmts hex
        rintro db d' s hdb ⟨r, rfl⟩ he
        rw [← Except.ok.inj he]
        exact ⟨hdb, fun _ hs' => hs'⟩
      · rfl
    have hy' : y ∈ d.kine.rows := hsame ▸ hy
    rw [insert_rows hkine, List.mem_append, List.mem_singleton] at hy'
    rcases hy' with hy' | rfl
    · exact .inl hy'
    · exact .inr rfl

/-- A call that writes is not on `compact_rev_key`, is no delete, keeps the lease of the row that
it replaces, and spares the dependents. -/
def KeepsColumns (c : Codec) (s : SqlLog) (call : Call) : Prop :=
  call.suits (s.db.kine.last call.key) = true → call.key ≠ compactRevKey ∧
    match call with
    | .create key value _ => Spares c s.db key value true false
    | .update key value _ lease =>
      (∀ y, s.db.kine.last key = some y → lease = y.lease) ∧ Spares c s.db key value false false
    | .delete _ _ => False

/-- Every row that is not a creation has the columns of the row that it replaces, and nothing
has been compacted. -/
structure Exact (db : Db) : Prop where
  traced : db.kine.Traced SameColumns
  compact : ∀ x ∈ db.kine.rows, x.name = compactRevKey → x.prevRevision = 0

/-- What a call that keeps the columns appends. -/
theorem KeepsColumns.read (h : KeepsColumns c s call) (hread : (call.read s).1 = some e) :
    e.kv.key ≠ compactRevKey ∧ Placed SameColumns s.db.kine e ∧
      Spares c s.db e.kv.key e.kv.value e.create e.delete := by
  obtain ⟨hkey, hsuits, -⟩ := read_current hread
  obtain ⟨hne, hcall⟩ := h hsuits
  rw [← hkey] at hne
  rcases read_cases hread with ⟨key, value, lease, prev, rfl, rfl, -⟩ |
    ⟨key, value, revision, lease, y, rfl, hl, hd, rfl⟩ | ⟨key, revision, y, rfl, -, -, -⟩
  · exact ⟨hne, read_placed hread fun y _ hc => absurd hc (by simp), hcall⟩
  · refine ⟨hne, read_placed hread fun z hz _ uid del n => ?_, hcall.2⟩
    obtain rfl : y = z := Option.some.inj (hl.symm.trans hz)
    exact ⟨rfl, rfl, hcall.1 y hl⟩
  · exact hcall.elim

theorem serial_exact (hs : Exact s.db) (h : KeepsColumns c s call) : Exact (call.serial ⟨c, now⟩ s).db := by
  refine ⟨serial_traced hs.traced fun e hread => ⟨(h.read hread).2.1, (h.read hread).2.2.cascades⟩, ?_⟩
  rw [serial_db]
  cases hread : (call.read s).1 with
  | none => exact hs.compact
  | some e =>
    obtain ⟨hne, -, hspares⟩ := h.read hread
    intro x hx hn
    rw [← read_db s call] at hspares hs
    rcases hspares.append_rows hx with hx | hkey
    · exact hs.compact x hx hn
    · exact absurd (hkey.symm.trans hn) hne

/-- The first row is a creation. -/
theorem compactStart_traced (R : Row → Row → Prop) (c : Codec) (now : ℤ) :
    (SqlLog.init.compactStart c now).2.db.kine.Traced R := by
  have hspares : Spares c SqlLog.init.db compactRevKey [] true false := spares_of_no_owners rfl _ _ _ _
  exact append_traced (e := ⟨false, true, ⟨compactRevKey, [], 0, 0, 0, 0⟩, none⟩) traced_empty
    (fun _ _ => .inl ⟨rfl, fun _ hy => absurd hy List.not_mem_nil⟩) hspares.cascades

theorem callRun_traced (c : Codec) (now : ℤ) (calls : List (ℤ × Call)) :
    (callRun c now calls).db.kine.Traced fun _ _ => True := by
  have hcall : ∀ {s : SqlLog} {now : ℤ} {call : Call}, (s.db.kine.Traced fun _ _ => True) →
      (call.serial ⟨c, now⟩ s).db.kine.Traced fun _ _ => True := fun hs =>
    serial_traced hs fun e hread => ⟨read_placed hread fun _ _ _ _ _ _ => trivial, cascades_any c _ e⟩
  have hstart : (start ⟨c, now⟩ SqlLog.init).2.db.kine.Traced fun _ _ => True := by
    unfold start
    simp only
    split
    · exact compactStart_traced _ c now
    · show ((Call.create healthKey healthVal 0).serial ⟨c, now⟩ _).db.kine.Traced _
      exact hcall (compactStart_traced _ c now)
  exact (invariant (I := fun s : SqlLog => s.db.kine.Traced fun _ _ => True) (fun _ _ hs => hcall hs) calls _ hstart).last

theorem start_exact (c : Codec) (now : ℤ) : Exact (start ⟨c, now⟩ SqlLog.init).2.db := by
  have hinit : Exact (SqlLog.init.compactStart c now).2.db ∧ (SqlLog.init.compactStart c now).2.db.owners = [] := by
    rcases compactStart_init c now with ⟨-, hdb⟩ | ⟨-, ho, x, hrows, -, -, -, hprev⟩
    · rw [hdb]
      exact ⟨⟨traced_empty, fun _ hx => absurd hx List.not_mem_nil⟩, rfl⟩
    · refine ⟨⟨compactStart_traced _ c now, fun y hy _ => ?_⟩, ho⟩
      rw [hrows] at hy
      rw [List.mem_singleton.1 hy]
      exact hprev
  unfold start
  simp only
  split
  · exact hinit.1
  · show Exact ((Call.create healthKey healthVal 0).serial ⟨c, now⟩ _).db
    refine serial_exact hinit.1 fun _ => ⟨?_, ?_⟩
    · show healthKey ≠ compactRevKey
      decide
    · exact spares_of_no_owners hinit.2 _ _ _ _

/-- Every event of an update or a delete is right. -/
def Faithful (s : SqlLog) : Prop := ∀ x ∈ s.db.kine.rows, x.created = false → Delivered s x

instance (s : SqlLog) : Decidable (Faithful s) := inferInstanceAs (Decidable (∀ x ∈ s.db.kine.rows, _ → _))

theorem Exact.faithful (h : Exact s.db) : Faithful s := by
  intro x hx hc
  obtain ⟨y, hy, -, hyp, -, -, hsame⟩ := h.traced.replaced x hx hc
  refine (delivered_iff h.traced hx hc).2 ⟨?_, fun z hz hzp => ?_⟩
  · have hle : s.db.kine.compactRev.getD 0 ≤ 0 := compactRev_le le_rfl fun z hz hn => (h.compact z hz hn).le
    have := (s.db.kine.bounded x hx).1
    omega
  · rw [eq_of_id hz hy (hzp.trans hyp.symm)]
    exact hsame

/-- **When the events of a run of calls are right**: row by row, if the row has the columns of
the row that it replaces; and for the whole run, if every call keeps them. -/
theorem prevKv_exact (c : Codec) (now : ℤ) (calls : List (ℤ × Call)) :
    (∀ x ∈ (callRun c now calls).db.kine.rows, x.created = false →
      (Delivered (callRun c now calls) x ↔ (callRun c now calls).db.kine.compactRev.getD 0 < x.id ∧
        ∀ y ∈ (callRun c now calls).db.kine.rows, y.id = x.prevRevision → SameColumns x y)) ∧
    (Guarded (callStep c) (fun s a => KeepsColumns c s a.2) (start ⟨c, now⟩ SqlLog.init).2 calls →
      Faithful (callRun c now calls)) := by
  refine ⟨fun x hx hc => delivered_iff (callRun_traced c now calls) hx hc, fun hg => ?_⟩
  have hexact := invariant_of_guarded (I := fun s : SqlLog => Exact s.db) (fun s a ha hs => serial_exact hs ha) calls _
    (start_exact c now) hg
  exact Exact.faithful hexact.last

/-- A key with a lease that is updated under it. -/
def renewed : List (ℤ × Call) :=
  [(0, .create (ascii "/a") (ascii "v") 5), (0, .update (ascii "/a") (ascii "w") 3 5)]

/-- A key with a lease that is deleted. -/
def removed : List (ℤ × Call) :=
  [(0, .create (ascii "/a") (ascii "v") 5), (0, .delete (ascii "/a") 3)]

/-- A key with a lease that is updated under another one. -/
def released : List (ℤ × Call) :=
  [(0, .create (ascii "/a") (ascii "v") 5), (0, .update (ascii "/a") (ascii "w") 3 7)]

theorem keeps_renewed :
    Guarded (callStep plainCodec) (fun s a => KeepsColumns plainCodec s a.2) (start ⟨plainCodec, 0⟩ SqlLog.init).2
      renewed := by
  have hspares : ∀ db key value create, Spares plainCodec db key value create false := by
    intro db key value create m hm hcas
    rw [← Option.some.inj hm] at hcas
    simp [Codec.cascades] at hcas
  have hlease : ((callRun plainCodec 0 [(0, .create (ascii "/a") (ascii "v") 5)]).db.kine.last (ascii "/a")).map
      Row.lease = some 5 := by decide +kernel
  refine ⟨fun _ => ⟨by decide, hspares _ _ _ _⟩, fun _ => ⟨by decide, fun y hy => ?_, hspares _ _ _ _⟩, trivial⟩
  have hy' : (callRun plainCodec 0 [(0, .create (ascii "/a") (ascii "v") 5)]).db.kine.last (ascii "/a") = some y := hy
  rw [hy'] at hlease
  exact (Option.some.inj hlease).symm

theorem prevKv_exact_renewed :
    ((callRun plainCodec 0 renewed).db.kine.rows.getLast?.map fun x => (x.created, (x.toEvent true true).prevKV)) =
        some (false, some ⟨ascii "/a", ascii "v", 0, 3, 3, 5⟩) ∧
      Faithful (callRun plainCodec 0 renewed) :=
  ⟨by decide +kernel, (prevKv_exact plainCodec 0 renewed).2 keeps_renewed⟩

/-- **A delete event forgets the lease and the create revision of the key, and an update event
has the new lease as the previous one.** -/
theorem prevKv_wrong :
    ((callRun plainCodec 0 removed).db.kine.rows.getLast?.bind fun x => (x.toEvent true true).prevKV) =
        some ⟨ascii "/a", ascii "v", 0, 0, 3, 0⟩ ∧
      (get (callRun plainCodec 0 removed) (ascii "/a") 3 false).1.2.1 = some ⟨ascii "/a", ascii "v", 0, 3, 3, 5⟩ ∧
      ¬ Faithful (callRun plainCodec 0 removed) ∧
    ((callRun plainCodec 0 released).db.kine.rows.getLast?.bind fun x => (x.toEvent true true).prevKV) =
        some ⟨ascii "/a", ascii "v", 0, 3, 3, 7⟩ ∧
      (get (callRun plainCodec 0 released) (ascii "/a") 3 false).1.2.1 = some ⟨ascii "/a", ascii "v", 0, 3, 3, 5⟩ ∧
      ¬ Faithful (callRun plainCodec 0 released) := by
  decide +kernel

end LogStructured

end Harikube
