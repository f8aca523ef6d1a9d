import Harikube.Proof.Answers
import Harikube.Spec.Backends

/-!
# The two backends against each other

Both backends are compared with the multi-version store, call by call.

* `Memory.Refines.serve`: `Memory` answers as the store does.
* `LogStructured.Shows`: the table shows the store's keys. `Shows.serve`: a call keeps this,
  and answers as the store does **if and only if** it is no delete of a key that has no
  row, and no count of a single live key.
* `backends_agree_iff`: **so the backends agree on a call if and only if it is none of
  these.**
-/

namespace Harikube

open Kine Mvcc Sorted

/-! ## Memory -/

namespace Memory

variable {m : Memory} {h : List Write} {n : ℕ}

theorem Refines.updateReply (hR : Refines m h n) (key value : Bytes) (revision lease : ℤ) :
    (m.update key value revision lease).1.2 = Mvcc.updateReply h key value revision lease := by
  have hf := hR.find_latest key
  unfold update Mvcc.updateReply
  rw [hR.nextRev_eq]
  cases hl : m.latest key with
  | none =>
    rw [hl] at hf
    rw [hf]
    rfl
  | some e =>
    rw [hl, Option.bind_some] at hf
    by_cases hd : e.deleted = true
    · rw [if_pos hd] at hf
      simp only [hf, hd, if_true]
    · rw [if_neg hd] at hf
      simp only [hf, hd, Bool.false_eq_true, if_false]
      by_cases hr : e.revision ≠ revision
      · rw [if_pos hr, if_pos (show e.toKeyValue.modRevision ≠ revision from hr)]
      · rw [if_neg hr, if_neg (show ¬ e.toKeyValue.modRevision ≠ revision from hr)]
        rfl

theorem Refines.deleteReply (hR : Refines m h n) (key : Bytes) (revision : ℤ) :
    (m.delete key revision).1.2 = Mvcc.deleteReply h key revision := by
  have hf := hR.find_latest key
  unfold delete Mvcc.deleteReply
  cases hl : m.latest key with
  | none =>
    rw [hl] at hf
    rw [hf]
    rfl
  | some e =>
    rw [hl, Option.bind_some] at hf
    by_cases hd : e.deleted = true
    · rw [if_pos hd] at hf
      simp only [hf, hd, if_true]
    · rw [if_neg hd] at hf
      simp only [hf, hd, Bool.false_eq_true, if_false]
      by_cases hr : revision ≠ 0 ∧ e.revision ≠ revision
      · simp [hr]
      · have hflag : (decide (revision = 0) || decide (e.toKeyValue.modRevision = revision)) = true := by
          by_contra hno
          simp only [Bool.or_eq_true, decide_eq_true_eq, not_or] at hno
          exact hr hno
        rw [if_neg hr, hflag]

theorem Refines.get_eq (hR : Refines m h n) (key : Bytes) (keysOnly : Bool) :
    (m.get key 0 keysOnly).2 = (((snapshot h).find? key).map (KeyValue.shown keysOnly), none) := by
  unfold get
  rw [hR.list_current key [] 1 keysOnly le_rfl, list_one]
  cases (snapshot h).find? key <;> rfl

/-- **`Memory` answers as the multi-version store.** -/
theorem Refines.serve (hR : Refines m h n) (r : Request) :
    (m.serve r).1 = (Mvcc.serve h r).1 ∧ Refines (m.serve r).2 (Mvcc.serve h r).2 n := by
  cases r with
  | create now key value lease =>
    obtain ⟨hR', herr⟩ := create_refines hR key value lease
    refine ⟨?_, hR'⟩
    show Reply.plain _ _ _ = Reply.plain _ _ _
    rw [herr]
  | update now key value revision lease =>
    refine ⟨?_, (update_refines hR key value revision lease).1⟩
    show Reply.flagged _ = Reply.flagged _
    rw [hR.updateReply]
  | delete now key revision =>
    refine ⟨?_, (delete_refines hR key revision).1⟩
    show Reply.flagged _ = Reply.flagged _
    rw [hR.deleteReply]
  | get key keysOnly =>
    refine ⟨?_, hR⟩
    show Reply.plain _ _ _ = Reply.plain _ _ _
    rw [hR.get_eq]
  | list key rangeEnd limit keysOnly =>
    refine ⟨?_, hR⟩
    show Reply.plain _ _ _ = Reply.plain _ _ _
    rw [hR.list_current key rangeEnd limit keysOnly le_rfl]
    rfl
  | count key rangeEnd =>
    refine ⟨?_, hR⟩
    show Reply.plain _ _ _ = Reply.plain _ _ _
    unfold count
    rw [hR.list_current key rangeEnd 0 true le_rfl]
    simp

/-- A started `Memory` backend has the writes of `Start`. -/
theorem start_refines : ∃ h, Refines new.start h 0 ∧ HistOK h ∧ h.length = 2 ∧
    ∀ k, k ≠ LogStructured.healthKey → (snapshot h).find? k = none := by
  have hcreate := (create_refines new_refines LogStructured.healthKey LogStructured.healthVal 0).1
  have hstart := (update_refines hcreate LogStructured.healthKey LogStructured.healthVal 1 0).1
  refine ⟨_, hstart, hstart.hist, rfl, fun k hk => ?_⟩
  rw [find_snapshot]
  have hnone : ofKey (Mvcc.update (Mvcc.create [] LogStructured.healthKey LogStructured.healthVal 0)
      LogStructured.healthKey LogStructured.healthVal 1 0) k = [] := by
    unfold ofKey
    rw [List.filter_eq_nil_iff]
    intro w hw
    have hkey : w.kv.key = LogStructured.healthKey := by
      fin_cases hw <;> rfl
    simp [hkey, Ne.symm hk]
  rw [hnone]
  rfl

end Memory

/-! ## LogStructured -/

theorem Served.plain {key : Bytes} (h : Served key) : key ≠ compactRevKey ∧ isFill key = false := by
  obtain ⟨⟨rest, rfl⟩, -⟩ := h
  constructor
  · intro heq
    have hhead := congrArg List.head? heq
    simp [ascii, compactRevKey] at hhead
  · simp [isFill, ascii, List.isPrefixOf]

namespace Mvcc

theorem find_append (h : List Write) (w : Write) (k : Bytes) :
    (snapshot (h ++ [w])).find? k =
      if k = w.kv.key then if w.delete then none else some w.kv else (snapshot h).find? k := by
  rw [snapshot_append]
  unfold Write.apply
  cases w.delete with
  | true =>
    rw [if_pos rfl, OMap.find_erase]
    simp
  | false =>
    rw [if_neg Bool.false_ne_true, OMap.find_insert]
    simp

end Mvcc

namespace LogStructured

variable {s : SqlLog} {h : List Write} {c : Codec} {key value : Bytes}

/-- The table shows the keys of the multi-version store, and counts its revisions. -/
structure Shows (db : Db) (h : List Write) : Prop where
  ok : db.OK
  owners : db.owners = []
  seq : db.kine.seq = h.length
  content : ∀ k, Served k → content db k = ((snapshot h).find? k).map KeyValue.unversioned

theorem Shows.next (hS : Shows s.db h) : s.db.kine.seq + 1 = nextRev h := by
  rw [hS.seq]
  rfl

/-- A key is missing on both sides, or live on both with one key-value. -/
theorem Shows.cases (hS : Shows s.db h) (hk : Served key) :
    ((s.db.kine.last key).filter fun x => !x.deleted) = none ∧ (snapshot h).find? key = none ∨
      ∃ x kv, ((s.db.kine.last key).filter fun x => !x.deleted) = some x ∧ (snapshot h).find? key = some kv ∧
        (x.toEvent true false).kv = kv.unversioned := by
  have hc := hS.content key hk
  unfold LogStructured.content at hc
  cases hx : (s.db.kine.last key).filter fun x => !x.deleted with
  | none =>
    rw [hx] at hc
    exact .inl ⟨rfl, Option.map_eq_none_iff.1 hc.symm⟩
  | some x =>
    rw [hx] at hc
    obtain ⟨kv, hkv, heq⟩ := Option.map_eq_some_iff.1 hc.symm
    exact .inr ⟨x, kv, rfl, hkv, heq.symm⟩

/-! ### Writes -/

/-- The key-value of the row of an event. -/
def eventKV (e : Event) (id : ℤ) : KeyValue :=
  ⟨e.kv.key, e.kv.value, 0, if e.create then id else e.kv.createRevision, id, e.kv.lease⟩

/-- **An append is a write of the store.** -/
theorem Shows.append (hS : Shows s.db h) {e : Event} {m : Meta} (hk : Served e.kv.key)
    (hadm : Admits c s.db.kine e m) (howners : e.kv.value = [] ∨ m.owners = []) {w : Write}
    (hw : w.kv.key = e.kv.key) (hdel : Codec.deletes m e.create e.delete = w.delete)
    (hkv : w.delete = false → eventKV e (nextRev h) = w.kv.unversioned) (now : ℤ) :
    ∃ db : Db, s.append c now e = ((nextRev h, none), ⟨db, nextRev h⟩) ∧ Shows db (h ++ [w]) := by
  obtain ⟨hn, hf⟩ := hk.plain
  obtain ⟨db, happ, hins, ho⟩ := append_last hS.ok.chain hn hadm now
  rw [hS.next] at happ hins
  have hplace : (prevRev e = 0 ∧ ∀ y ∈ s.db.kine.rows, y.name ≠ e.kv.key) ∨
      ∃ y ∈ s.db.kine.rows, y.name = e.kv.key ∧ y.id = prevRev e := by
    have hafter := hadm.after
    cases hl : s.db.kine.last e.kv.key with
    | none =>
      rw [hl] at hafter
      exact .inl ⟨hafter, last_eq_none.1 hl⟩
    | some y =>
      obtain ⟨hy, hyn, -⟩ := last_eq_some hl
      rw [hl] at hafter
      exact .inr ⟨y, hy, hyn, hafter.symm⟩
  have hok : (s.append c now e).2.db.OK := append_ok hS.ok e hn hf hplace
  rw [happ] at hok
  refine ⟨db, happ, hok, (ho howners).trans hS.owners, ?_, fun k hk' => ?_⟩
  · rw [insert_seq hins, hS.seq, List.length_append, List.length_singleton]
    push_cast
    rfl
  · rw [find_append, hw]
    by_cases hke : k = e.kv.key
    · -- the row of the event is the last of its key
      obtain ⟨old, hlast⟩ := last_insert_self hins
      change db.kine.last e.kv.key = _ at hlast
      rw [if_pos hke, hke]
      unfold LogStructured.content
      rw [hlast, hdel]
      cases hwd : w.delete with
      | true => rfl
      | false =>
        rw [if_neg Bool.false_ne_true, Option.map_some, ← hkv hwd]
        rfl
    · rw [if_neg hke, ← hS.content k hk']
      unfold LogStructured.content
      rw [last_insert_ne hins (show e.kv.key ≠ k from Ne.symm hke)]

/-- A value without finalizers neither deletes nor looks at dependents. -/
theorem deletes_of_no_finalizers {m : Meta} (hfin : m.finalizers = []) (create : Bool) :
    Codec.deletes m create false = false ∧ Codec.cascades m (Codec.deletes m create false) = false := by
  simp [Codec.deletes, Codec.cascades, hfin]

theorem Shows.create (hS : Shows s.db h) (hr : Ready s) (hk : Served key) (hb : c.Bare key value) (now lease : ℤ) :
    (create ⟨c, now⟩ s key value lease).1.2 =
        (if ((snapshot h).find? key).isSome then some .keyExists else none) ∧
      Shows (create ⟨c, now⟩ s key value lease).2.db (Mvcc.create h key value lease) := by
  obtain ⟨m, hm, howners, hfin⟩ := hb
  rcases hS.cases hk with ⟨hx, hfind⟩ | ⟨x, kv, hx, hfind, -⟩
  · have he := createEvent_absent hx value lease
    obtain ⟨hdel, hcas⟩ := deletes_of_no_finalizers hfin true
    have hadm : Admits c s.db.kine ⟨false, true, ⟨key, value, 0, 0, 0, lease⟩,
        some ⟨[], [], 0, 0, ((s.db.kine.last key).map Row.id).getD 0, 0⟩⟩ m := ⟨hm, .inr hcas, rfl, rfl⟩
    obtain ⟨db, happ, hS'⟩ := hS.append (w := ⟨true, false, ⟨key, value, 1, nextRev h, nextRev h, lease⟩⟩) hk hadm
      (.inr howners) rfl hdel (fun _ => rfl) now
    obtain ⟨herr, hdb⟩ := create_append ⟨c, now⟩ hr he
    rw [herr, hdb, happ]
    unfold Mvcc.create
    rw [hfind]
    exact ⟨rfl, hS'⟩
  · obtain ⟨herr, hdb⟩ := create_taken ⟨c, now⟩ hr (createEvent_live hx value lease)
    rw [herr, hdb]
    unfold Mvcc.create
    rw [hfind]
    exact ⟨rfl, hS⟩

theorem Shows.update (hS : Shows s.db h) (hr : Ready s) (hk : Served key) (hb : c.Bare key value)
    (now revision lease : ℤ) :
    Reply.flagged (update ⟨c, now⟩ s key value revision lease).1.2 =
        Reply.flagged (Mvcc.updateReply h key value revision lease) ∧
      Shows (update ⟨c, now⟩ s key value revision lease).2.db (Mvcc.update h key value revision lease) := by
  obtain ⟨m, hm, howners, hfin⟩ := hb
  unfold Mvcc.updateReply Mvcc.update
  rcases hS.cases hk with ⟨hx, hfind⟩ | ⟨x, kv, hx, hfind, hkv⟩
  · obtain ⟨hans, hdb⟩ := update_missing ⟨c, now⟩ hr hx value revision lease
    rw [hans, hdb, hfind]
    exact ⟨rfl, hS⟩
  · have hid : x.id = kv.modRevision := congrArg KeyValue.modRevision hkv
    have hcreated : (x.toEvent true false).kv.createRevision = kv.createRevision := by
      rw [hkv]
      rfl
    simp only [hfind]
    by_cases hrev : kv.modRevision = revision
    · obtain ⟨hdel, hcas⟩ := deletes_of_no_finalizers hfin false
      have hlast := Option.eq_some_of_filter_eq_some hx
      have hadm : Admits c s.db.kine (updateEvent key value lease (x.toEvent true false)) m :=
        ⟨hm, .inr hcas, by show x.id = ((s.db.kine.last key).map Row.id).getD 0; rw [hlast]; rfl,
          rfl⟩
      obtain ⟨db, happ, hS'⟩ := hS.append
        (w := ⟨false, false, ⟨key, value, kv.version + 1, kv.createRevision, nextRev h, lease⟩⟩) hk hadm
        (.inr howners) rfl hdel
        (fun _ => by rw [← hcreated]; rfl) now
      obtain ⟨hans, hdb⟩ := update_append ⟨c, now⟩ hx (hid.trans hrev) happ
      rw [hans, hdb, if_neg (not_not.2 hrev), if_neg (not_not.2 hrev)]
      refine ⟨?_, hS'⟩
      unfold Reply.flagged KeyValue.unversioned updateEvent
      simp only [hcreated]
      rfl
    · obtain ⟨hans, hdb⟩ := update_stale ⟨c, now⟩ hx (show x.id ≠ revision by rw [hid]; exact hrev) value lease
      rw [hans, hdb, if_pos hrev, if_pos hrev, hkv]
      exact ⟨rfl, hS⟩

/-- **A delete answers as the store does if and only if its key has a row.** -/
theorem Shows.delete (hS : Shows s.db h) (hr : Ready s) (hk : Served key) (hnil : (c.decodeObject key []).isSome)
    (now revision : ℤ) :
    (Reply.flagged (delete ⟨c, now⟩ s key revision).1.2 = Reply.flagged (Mvcc.deleteReply h key revision) ↔
        (s.db.kine.last key).isSome = true) ∧
      Shows (delete ⟨c, now⟩ s key revision).2.db (Mvcc.delete h key revision) := by
  obtain ⟨m, hm⟩ := Option.isSome_iff_exists.1 hnil
  unfold Mvcc.deleteReply Mvcc.delete
  rcases hS.cases hk with ⟨hx, hfind⟩ | ⟨x, kv, hx, hfind, hkv⟩
  · simp only [hfind]
    cases hl : s.db.kine.last key with
    | none =>
      obtain ⟨hans, hdb⟩ := delete_never ⟨c, now⟩ hr hl revision
      rw [hans, hdb]
      exact ⟨by decide, hS⟩
    | some y =>
      rw [hl] at hx
      have hdel : y.deleted = true := by simpa [Option.filter] using hx
      obtain ⟨hans, hdb⟩ := delete_tombstone ⟨c, now⟩ hr hl hdel revision
      rw [hans, hdb]
      exact ⟨by simp, hS⟩
  · have hid : x.id = kv.modRevision := congrArg KeyValue.modRevision hkv
    have hlast := Option.eq_some_of_filter_eq_some hx
    simp only [hfind, hlast, Option.isSome_some, iff_true]
    by_cases hrev : revision ≠ 0 ∧ kv.modRevision ≠ revision
    · obtain ⟨hans, hdb⟩ := delete_stale ⟨c, now⟩ hx (show revision ≠ 0 ∧ x.id ≠ revision by
        rw [hid]; exact hrev)
      rw [hans, hdb, if_pos hrev, hkv]
      refine ⟨?_, hS⟩
      simp [Reply.flagged, KeyValue.unversioned, hrev]
    · have hadm : Admits c s.db.kine (deleteEvent key (x.toEvent true false)) m :=
        ⟨hm, .inl rfl, by show x.id = ((s.db.kine.last key).map Row.id).getD 0; rw [hlast]; rfl, rfl⟩
      have hkey : kv.key = key := key_of_find_snapshot hfind
      obtain ⟨db, happ, hS'⟩ := hS.append (w := ⟨false, true, { kv with modRevision := nextRev h }⟩) hk hadm
        (.inl rfl) hkey rfl (fun hd => absurd hd (by simp)) now
      obtain ⟨hans, hdb⟩ := delete_append ⟨c, now⟩ hx (show ¬ (revision ≠ 0 ∧ x.id ≠ revision) by
        rw [hid]; exact hrev) happ
      rw [hans, hdb, if_neg hrev, hkv]
      refine ⟨?_, hS'⟩
      have hflag : (decide (revision = 0) || decide (kv.modRevision = revision)) = true := by
        by_contra hno
        simp only [Bool.or_eq_true, decide_eq_true_eq, not_or] at hno
        exact hrev hno
      rw [hflag]
      rfl

/-! ### Reads -/

/-- The live rows of a range, in the order of names. -/
def liveRows (t : Kine) (sel : Bytes → Bool) : List Row :=
  ((t.latest sel none).filter fun x => !x.deleted).insertionSort fun x y => x.name ≤ y.name

theorem mem_liveRows {t : Kine} {sel : Bytes → Bool} {x : Row} :
    x ∈ liveRows t sel ↔ ((t.last x.name).filter fun x => !x.deleted) = some x ∧ sel x.name = true := by
  unfold liveRows
  rw [List.mem_insertionSort, List.mem_filter, mem_latest, Option.filter_eq_some_iff]
  constructor
  · rintro ⟨⟨hx, -, hsel, hmax⟩, hlive⟩
    exact ⟨⟨last_eq_of_max hx fun y hy hyn => hmax y hy rfl hyn, hlive⟩, hsel⟩
  · rintro ⟨⟨hl, hlive⟩, hsel⟩
    obtain ⟨hx, -, hmax⟩ := last_eq_some hl
    exact ⟨⟨hx, rfl, hsel, fun y hy _ hyn => hmax y hy hyn⟩, hlive⟩

/-- There is one row for each name. -/
theorem liveRows_sorted (t : Kine) (sel : Bytes → Bool) : (liveRows t sel).Pairwise fun x y => x.name < y.name := by
  have hle : (liveRows t sel).Pairwise fun x y => x.name ≤ y.name := by
    have : Std.Total fun x y : Row => x.name ≤ y.name := ⟨fun x y => le_total _ _⟩
    have : IsTrans Row fun x y => x.name ≤ y.name := ⟨fun x y z => le_trans⟩
    exact List.pairwise_insertionSort _ _
  have hnodup : (liveRows t sel).Nodup := by
    unfold liveRows
    rw [(List.perm_insertionSort _ _).nodup_iff]
    exact ((latest_sorted t sel none).imp fun {x y} h heq => by rw [heq] at h; exact lt_irrefl _ h).filter _
  refine (hle.and hnodup).imp_of_mem ?_
  rintro x y hx hy ⟨hxy, hne⟩
  refine lt_of_le_of_ne hxy fun heq => hne ?_
  have hx' := (mem_liveRows.1 hx).1
  have hy' := (mem_liveRows.1 hy).1
  rw [heq] at hx'
  exact Option.some.inj (hx'.symm.trans hy')

/-- **The live rows of a range are the live key-values of the store.** -/
theorem Shows.range (hS : Shows s.db h) {rangeEnd : Bytes} {sel : Bytes → Bool}
    (hsel : ∀ k, sel k = inList key rangeEnd k) (hrange : ∀ k, inList key rangeEnd k = true → Served k) :
    (liveRows s.db.kine sel).map (fun x => (x.toEvent true false).kv) =
      ((snapshot h).values.filter fun kv => inList key rangeEnd kv.key).map KeyValue.unversioned := by
  have hkeys : ∀ p ∈ (snapshot h).entries, p.2.key = p.1 := fun p hp =>
    key_of_find_snapshot (OMap.mem_entries.1 hp)
  refine ext_of_sorted KeyValue.key ?_ ?_ fun kv => ?_
  · rw [List.pairwise_map]
    exact liveRows_sorted _ _
  · rw [List.pairwise_map]
    refine List.Pairwise.filter _ ?_
    unfold OMap.values
    rw [List.pairwise_map]
    refine (snapshot h).sorted.imp_of_mem fun {p q} hp hq hlt => ?_
    show p.2.key < q.2.key
    rw [hkeys p hp, hkeys q hq]
    exact hlt
  · simp only [List.mem_map, List.mem_filter]
    constructor
    · rintro ⟨x, hx, rfl⟩
      obtain ⟨hlive, hin⟩ := mem_liveRows.1 hx
      rw [hsel] at hin
      have hk := hrange x.name hin
      rcases hS.cases hk with ⟨hnone, -⟩ | ⟨y, kv, hy, hfind, hkv⟩
      · rw [hnone] at hlive
        simp at hlive
      · obtain rfl : y = x := Option.some.inj (hy.symm.trans hlive)
        have hkey : kv.key = y.name := key_of_find_snapshot hfind
        refine ⟨kv, ⟨List.mem_map.2 ⟨(y.name, kv), OMap.mem_entries.2 hfind, rfl⟩, ?_⟩, hkv.symm⟩
        rw [hkey]
        exact hin
    · rintro ⟨kv, ⟨hkv, hin⟩, rfl⟩
      obtain ⟨p, hp, rfl⟩ := List.mem_map.1 hkv
      have hfind := OMap.mem_entries.1 (show (p.1, p.2) ∈ (snapshot h).entries from hp)
      rw [← hkeys p hp] at hfind
      rcases hS.cases (hrange _ hin) with ⟨-, hnone⟩ | ⟨x, kv, hx, hfind', hkv'⟩
      · rw [hnone] at hfind
        simp at hfind
      · obtain rfl : kv = p.2 := Option.some.inj (hfind'.symm.trans hfind)
        have hname : x.name = p.2.key := congrArg KeyValue.key hkv'
        refine ⟨x, mem_liveRows.2 ⟨?_, ?_⟩, hkv'⟩
        · rw [hname]
          exact hx
        · rw [hsel, hname]
          exact hin

theorem inList_one (key : Bytes) : inList key [] = fun k => decide (k = key) := by
  funext k
  unfold inList
  rw [if_pos rfl]

theorem inList_range {rangeEnd : Bytes} (hne : rangeEnd ≠ []) (key : Bytes) : inList key rangeEnd = between key rangeEnd := by
  funext k
  unfold inList between
  rw [if_neg hne]

/-- The rows of a list at revision 0. -/
theorem listRows_live (t : Kine) (key rangeEnd : Bytes) (limit : ℤ) :
    SqlLog.listRows t key rangeEnd limit 0 false (fun _ => true) = firstN limit (liveRows t (inList key rangeEnd)) := by
  unfold SqlLog.listRows
  rw [if_pos rfl]
  by_cases hend : rangeEnd = []
  · -- one key: the limit does not cut a single row off
    rw [if_pos hend, hend, getSingle_eq, inList_one]
    unfold liveRows
    rw [latest_one]
    simp only [Bool.or_false]
    cases hl : t.last key with
    | none => simp [firstN]
    | some x =>
      cases hd : x.deleted with
      | true => simp [Option.filter, hd, firstN]
      | false =>
        have hone : firstN limit [x] = [x] := by
          unfold firstN
          split
          · exact List.take_of_length_le (by simp only [List.length_singleton]; omega)
          · rfl
        simp [Option.filter, hd, hone]
  · rw [if_neg hend, inList_range hend]
    unfold Kine.list liveRows
    simp only [Bool.or_false, List.filter_true]

theorem toEvent_shown (x : Row) (keysOnly : Bool) :
    ((x.toEvent (!keysOnly) false).kv).unversioned = ((x.toEvent true false).kv).shown keysOnly := by
  cases keysOnly <;> rfl

theorem shown_unversioned (kv : KeyValue) (keysOnly : Bool) :
    (kv.shown keysOnly).unversioned = kv.unversioned.shown keysOnly := by
  cases keysOnly <;> rfl

theorem Shows.get (hS : Shows s.db h) (hr : Ready s) (hk : Served key) (keysOnly : Bool) :
    (serve c s (.get key keysOnly)).1 = (Mvcc.serve h (.get key keysOnly)).1 := by
  show Reply.plain _ _ _ = Reply.plain _ _ _
  rw [get_ready hr]
  unfold Reply.plain
  simp only [Option.isNone_none, Reply.mk.injEq, true_and, and_true]
  rcases hS.cases hk with ⟨hx, hfind⟩ | ⟨x, kv, hx, hfind, hkv⟩
  · rw [hx, hfind]
    rfl
  · rw [hx, hfind]
    simp only [Option.map_some, Option.toList_some, List.map_cons, List.map_nil, toEvent_shown, hkv, shown_unversioned]

theorem Shows.list (hS : Shows s.db h) (hr : Ready s) {rangeEnd : Bytes}
    (hrange : ∀ k, inList key rangeEnd k = true → Served k) (limit : ℤ) (keysOnly : Bool) :
    (serve c s (.list key rangeEnd limit keysOnly)).1 = (Mvcc.serve h (.list key rangeEnd limit keysOnly)).1 := by
  have hlist := hS.range (fun _ => rfl) hrange
  show Reply.plain _ _ _ = Reply.plain _ _ _
  unfold LogStructured.list
  simp only [list_ready hr, listRows_live]
  unfold Reply.plain Mvcc.list
  simp only [Option.isNone_none, Reply.mk.injEq, true_and, and_true, List.map_map]
  -- both sides are the shown key-values of the range
  have hleft : (KeyValue.unversioned ∘ Event.kv ∘ Row.toEvent (!keysOnly) false) =
      KeyValue.shown keysOnly ∘ fun x => (x.toEvent true false).kv := funext fun x => toEvent_shown x keysOnly
  have hright : KeyValue.unversioned ∘ KeyValue.shown keysOnly = KeyValue.shown keysOnly ∘ KeyValue.unversioned :=
    funext fun kv => shown_unversioned kv keysOnly
  rw [hleft, hright, ← firstN_map, ← firstN_map, ← List.map_map, ← List.map_map, hlist]

/-- **A count answers as the store does unless it is of one live key.** -/
theorem Shows.count (hS : Shows s.db h) {rangeEnd : Bytes} (hrange : ∀ k, inList key rangeEnd k = true → Served k) :
    (serve c s (.count key rangeEnd)).1 = (Mvcc.serve h (.count key rangeEnd)).1 ↔
      (rangeEnd = [] → ((s.db.kine.last key).filter fun x => !x.deleted) = none) := by
  have hcount : (s.count key rangeEnd 0 fun _ => true).1.2 =
      (((liveRows s.db.kine (between key rangeEnd)).length : ℤ), none) := by
    unfold SqlLog.count Kine.count liveRows
    simp only [if_true, List.filter_true, List.length_insertionSort]
  have hreply : (serve c s (.count key rangeEnd)).1 = (Mvcc.serve h (.count key rangeEnd)).1 ↔
      (liveRows s.db.kine (between key rangeEnd)).length =
        ((snapshot h).values.filter fun kv => inList key rangeEnd kv.key).length := by
    show Reply.plain _ _ _ = Reply.plain _ _ _ ↔ _
    rw [hcount]
    unfold Reply.plain Mvcc.list firstN
    simp
  rw [hreply]
  by_cases hend : rangeEnd = []
  · subst hend
    have hnone : liveRows s.db.kine (between key []) = [] := by
      rw [List.eq_nil_iff_forall_not_mem]
      intro x hx
      have hlt := (mem_liveRows.1 hx).2
      simp [between] at hlt
    rw [hnone, values_one]
    have hk : Served key := hrange key (by simp [inList])
    rcases hS.cases hk with ⟨hx, hfind⟩ | ⟨x, kv, hx, hfind, -⟩
    · simp [hx, hfind]
    · simp [hx, hfind]
  · have hsel : ∀ k, between key rangeEnd k = inList key rangeEnd k := fun k => by rw [inList_range hend]
    have hlist := hS.range hsel hrange
    have hlen := congrArg List.length hlist
    simp only [List.length_map] at hlen
    simp [hlen, hend]

/-! ### All calls -/

theorem Ready.reads (hr : Ready s) {s' : SqlLog} (hdb : s'.db = s.db) (hrev : 0 ≤ s'.currentRev) : Ready s' :=
  ⟨by rw [hdb]; exact hr.row, hrev⟩

/-- **A call keeps the table showing the store, and answers as the store does if and only
if the call is known.** -/
theorem Shows.serve (hS : Shows s.db h) (hr : Ready s) (hc : c.Accepts) (mem : Memory) {r : Request}
    (hreq : r.Served c) :
    ((serve c s r).1 = (Mvcc.serve h r).1 ↔ Backends.Known ⟨mem, s⟩ r) ∧
      Shows (serve c s r).2.db (Mvcc.serve h r).2 ∧ Ready (serve c s r).2 := by
  cases r with
  | create now key value lease =>
    obtain ⟨hk, hb⟩ := hreq
    obtain ⟨herr, hS'⟩ := hS.create hr hk hb now lease
    refine ⟨⟨fun _ => trivial, fun _ => ?_⟩, hS', hr.serial ⟨c, now⟩ (.create key value lease)⟩
    show Reply.plain _ _ _ = Reply.plain _ _ _
    rw [herr]
  | update now key value revision lease =>
    obtain ⟨hk, hb⟩ := hreq
    obtain ⟨hans, hS'⟩ := hS.update hr hk hb now revision lease
    exact ⟨⟨fun _ => trivial, fun _ => hans⟩, hS', hr.serial ⟨c, now⟩ (.update key value revision lease)⟩
  | delete now key revision =>
    obtain ⟨hans, hS'⟩ := hS.delete hr hreq (hc.nil key) now revision
    exact ⟨hans, hS', hr.serial ⟨c, now⟩ (.delete key revision)⟩
  | get key keysOnly =>
    refine ⟨⟨fun _ => trivial, fun _ => hS.get hr hreq keysOnly⟩, ?_, ?_⟩
    · show Shows (LogStructured.get s key 0 keysOnly).2.db h
      rw [get_db]
      exact hS
    · exact hr.reads (get_db s key 0 keysOnly) (adjustRevision_rev (get'_rev hr.rev key 0 false keysOnly) _)
  | list key rangeEnd limit keysOnly =>
    refine ⟨⟨fun _ => trivial, fun _ => hS.list hr hreq limit keysOnly⟩, ?_, ?_⟩
    · show Shows (SqlLog.list s key rangeEnd limit 0 false keysOnly fun _ => true).2.db h
      rw [SqlLog.list_db]
      exact hS
    · exact hr.reads (SqlLog.list_db s key rangeEnd limit 0 false keysOnly _)
        (list_rev hr.rev key rangeEnd limit 0 false keysOnly _)
  | count key rangeEnd => exact ⟨hS.count hreq, hS, hr⟩

/-- The first row of the table. -/
theorem compactStart_table (hc : c.Accepts) (now : ℤ) :
    ∃ (db : Db) (x : Row), SqlLog.init.compactStart c now = (none, ⟨db, 1⟩) ∧ x.name = compactRevKey ∧
      Kine.empty.insert x 0 = some (1, db.kine) ∧ db.owners = [] := by
  obtain ⟨m, hm⟩ := Option.isSome_iff_exists.1 (hc.nil compactRevKey)
  obtain ⟨t, ht⟩ : ∃ t, Kine.empty.insert (Codec.insertedRow m compactRevKey true false 0 0 0 []) 0 = some (1, t) := by
    unfold Kine.insert
    exact ⟨_, dif_pos fun y hy => absurd hy List.not_mem_nil⟩
  have hrow : SqlLog.init.db.insertRow (Codec.insertedRow m compactRevKey true false 0 0 0 []) 0 =
      .ok (1, { SqlLog.init.db with kine := t }) := Db.insertRow_of_some ht
  have happ : SqlLog.init.append c now ⟨false, true, ⟨compactRevKey, [], 0, 0, 0, 0⟩, none⟩ =
      ((1, none), ⟨{ SqlLog.init.db with kine := t }, 1⟩) :=
    append_of_insert rfl (c.insert_bare hm hrow fun hmeta => hmeta.1 rfl)
  refine ⟨{ SqlLog.init.db with kine := t }, _, ?_, rfl, ht, rfl⟩
  have hnone : (SqlLog.init.db.kine.after compactRevKey [] 0 0).map (Row.toEvent true true) = [] := rfl
  unfold SqlLog.compactStart
  rw [hnone]
  simp only [happ]

/-- **A started table shows the store with the writes of the other backend's start.** -/
theorem start_shows (hc : c.Accepts) (now : ℤ) (hlen : h.length = 2)
    (hfind : ∀ k, k ≠ healthKey → (snapshot h).find? k = none) :
    Shows (start ⟨c, now⟩ SqlLog.init).2.db h ∧ Ready (start ⟨c, now⟩ SqlLog.init).2 := by
  have hok := start_ok c now
  have hok' : (SqlLog.init.compactStart c now).2.db.OK := compactStart_ok
  obtain ⟨db, x, hstart, hxn, hins, howners⟩ := compactStart_table hc now
  have heq : (start ⟨c, now⟩ SqlLog.init).2 = (create ⟨c, now⟩ ⟨db, 1⟩ healthKey healthVal 0).2 := by
    unfold start
    simp only [hstart]
  rw [hstart] at hok'
  have hlast : ∀ k, k ≠ compactRevKey → db.kine.last k = none := by
    intro k hk
    rw [last_insert_ne hins (hxn.trans_ne hk.symm)]
    rfl
  obtain ⟨old, hmem⟩ := mem_of_insert hins
  have hready : Ready ⟨db, 1⟩ := ⟨⟨_, hmem, hxn⟩, zero_le_one⟩
  -- the health key is new
  have hhealth : healthKey ≠ compactRevKey := by decide
  have hnone : ((db.kine.last healthKey).filter fun x => !x.deleted) = none := by
    rw [hlast healthKey hhealth]
    rfl
  obtain ⟨m, hm, hmo, hfin⟩ := hc.health
  obtain ⟨hdel, hcas⟩ := deletes_of_no_finalizers hfin true
  have hadm : Admits c db.kine ⟨false, true, ⟨healthKey, healthVal, 0, 0, 0, 0⟩,
      some ⟨[], [], 0, 0, ((db.kine.last healthKey).map Row.id).getD 0, 0⟩⟩ m := ⟨hm, .inr hcas, rfl, rfl⟩
  obtain ⟨db', happ, hins', ho⟩ := append_last (s := ⟨db, 1⟩) hok'.chain hhealth hadm now
  obtain ⟨-, hdb⟩ := create_append ⟨c, now⟩ hready (createEvent_absent hnone healthVal 0)
  rw [happ] at hdb
  rw [heq] at hok ⊢
  rw [hdb] at hok ⊢
  refine ⟨⟨hok, (ho (.inr hmo)).trans howners, ?_, fun k hk => ?_⟩,
    hready.serial ⟨c, now⟩ (.create healthKey healthVal 0)⟩
  · have hseq := insert_seq hins'
    have hseq' := insert_seq hins
    have h0 : Kine.empty.seq = 0 := rfl
    show db'.kine.seq = _
    have h1 : (⟨db, 1⟩ : SqlLog).db.kine.seq = db.kine.seq := rfl
    omega
  · rw [hfind k hk.2]
    unfold LogStructured.content
    rw [last_insert_ne hins' (show healthKey ≠ k from Ne.symm hk.2)]
    show Option.map _ (Option.filter _ (db.kine.last k)) = none
    rw [hlast k hk.plain.1]
    rfl

end LogStructured

/-! ## Both backends -/

namespace Backends

variable {c : Codec}

/-- Both backends have the writes of one multi-version store. -/
def Related (b : Backends) : Prop :=
  ∃ h, b.mem.Refines h 0 ∧ LogStructured.Shows b.log.db h ∧ LogStructured.Ready b.log

theorem started_related (hc : c.Accepts) (now : ℤ) : (started c now).Related := by
  obtain ⟨h, hR, -, hlen, hfind⟩ := Memory.start_refines
  exact ⟨h, hR, LogStructured.start_shows hc now hlen hfind⟩

theorem Related.step {b : Backends} (hb : b.Related) (hc : c.Accepts) {r : Request} (hr : r.Served c) :
    (b.step c r).Related := by
  obtain ⟨h, hR, hS, hready⟩ := hb
  obtain ⟨-, hS', hready'⟩ := hS.serve hready hc b.mem hr
  exact ⟨_, (hR.serve r).2, hS', hready'⟩

theorem Related.agree_iff {b : Backends} (hb : b.Related) (hc : c.Accepts) {r : Request} (hr : r.Served c) :
    b.Agree c r ↔ b.Known r := by
  obtain ⟨h, hR, hS, hready⟩ := hb
  obtain ⟨hans, -⟩ := hS.serve hready hc b.mem hr
  unfold Agree
  rw [(hR.serve r).1, eq_comm]
  exact hans

/-- **When the backends agree.** In every sequence of calls on two started backends, all
calls return the same on both if and only if no delete is of a key that has never been
created, and no count is of a single live key. -/
theorem backends_agree_iff (c : Codec) (hc : c.Accepts) (now : ℤ) (reqs : List Request) (hreqs : ∀ r ∈ reqs, r.Served c) :
    Lts.Guarded (step c) (Agree c) (started c now) reqs ↔ Lts.Guarded (step c) Known (started c now) reqs := by
  have hb := started_related hc now
  generalize started c now = b at hb
  induction reqs generalizing b with
  | nil => exact Iff.rfl
  | cons r rest ih =>
    have hr := hreqs r List.mem_cons_self
    have hrest := ih (fun r' hr' => hreqs r' (List.mem_cons_of_mem _ hr')) (b.step c r) (hb.step hc hr)
    exact and_congr (hb.agree_iff hc hr) hrest

theorem plainCodec_accepts : LogStructured.plainCodec.Accepts := ⟨fun _ => rfl, {}, rfl, rfl, rfl⟩

/-- A key is created, deleted and deleted again: both backends report the second delete as
unsuccessful. -/
theorem agree_deleted_twice :
    Lts.Guarded (step LogStructured.plainCodec) (Agree LogStructured.plainCodec) (started LogStructured.plainCodec 0)
      [.create 0 (ascii "/a") (ascii "1") 0, .delete 0 (ascii "/a") 0, .delete 0 (ascii "/a") 0] := by
  refine (backends_agree_iff LogStructured.plainCodec plainCodec_accepts 0 _ ?_).2
    ⟨trivial, by decide +kernel, by decide +kernel, trivial⟩
  intro r hr
  have hserved : Served (ascii "/a") := by decide
  fin_cases hr
  · exact ⟨hserved, {}, rfl, rfl, rfl⟩
  · exact hserved
  · exact hserved

/-- The delete of a key that has never been created is successful on `LogStructured` only,
and the count of a single live key is 0 there. -/
theorem delete_unknown_differs :
    let b := started LogStructured.plainCodec 0
    let b' := b.step LogStructured.plainCodec (.create 0 (ascii "/a") (ascii "1") 0)
    Served (ascii "/a") ∧
    (b.mem.serve (.delete 0 (ascii "/a") 0)).1 = ⟨none, false, [], 0⟩ ∧
    (LogStructured.serve LogStructured.plainCodec b.log (.delete 0 (ascii "/a") 0)).1 = ⟨none, true, [], 0⟩ ∧
    (b'.mem.serve (.count (ascii "/a") [])).1 = ⟨none, true, [], 1⟩ ∧
    (LogStructured.serve LogStructured.plainCodec b'.log (.count (ascii "/a") [])).1 = ⟨none, true, [], 0⟩ := by
  refine ⟨by decide, ?_, ?_, ?_, ?_⟩ <;> decide +kernel

end Backends

end Harikube
