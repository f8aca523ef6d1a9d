import Harikube.Lts.Run
import Harikube.Proof.Snapshot
import Harikube.Spec.Ttl

/-!
# What the expiry of leased keys keeps

* `Ttl.OK`: each key with an entry has an entry of its own, which holds the revision and the
  expiry time of a version that has been saved.
* `Ttl.leases_tracked`: **a leased version that the watch loop has gone through keeps its
  entry in every run in which the handler removes only entries of versions that it has
  deleted.**
* `Ttl.deletes_elapsed`: **the handler deletes only versions whose lease has elapsed in
  every run in which no save comes between its two reads of an entry.**
-/

namespace Harikube

namespace Mvcc

variable {h : List Write}

/-- A call appends one write with the next revision, or nothing. -/
theorem HistOK.step (hh : HistOK h) (op : Op) : HistOK (step h op) := by
  rcases step_cases h op with hs | ⟨w, hw, hs⟩
  · rw [hs]
    exact hh
  · rw [hs]
    exact hh.append hw

theorem mem_step {w : Write} (op : Op) (hw : w ∈ h) : w ∈ step h op := by
  rcases step_cases h op with hs | ⟨w', -, hs⟩
  · rw [hs]
    exact hw
  · rw [hs]
    exact List.mem_append_left _ hw

theorem length_le_step (h : List Write) (op : Op) : h.length ≤ (step h op).length := by
  rcases step_cases h op with hs | ⟨w, -, hs⟩
  · rw [hs]
  · rw [hs]
    simp

theorem getElem_step {i : ℕ} {w : Write} (op : Op) (hi : h[i]? = some w) : (step h op)[i]? = some w := by
  rcases step_cases h op with hs | ⟨w', -, hs⟩
  · rw [hs]
    exact hi
  · rw [hs, List.getElem?_append_left (List.getElem?_eq_some_iff.1 hi).1]
    exact hi

/-- A live version is the last write of its key. -/
theorem mem_of_live {k : Bytes} {kv : KeyValue} (hlive : (snapshot h).find? k = some kv) :
    ∃ w ∈ h, w.delete = false ∧ w.kv = kv ∧ kv.key = k := by
  have hkey := key_of_find_snapshot hlive
  rw [find_snapshot, live, Option.bind_eq_some_iff] at hlive
  obtain ⟨w, hw, hkv⟩ := hlive
  have hmem : w ∈ ofKey h k := List.mem_of_getLast? hw
  split at hkv
  · simp at hkv
  · rename_i hdel
    exact ⟨w, List.mem_of_mem_filter hmem, by simpa using hdel, Option.some.inj hkv, hkey⟩

/-- **A version that is live after a call was live before it, or is new.** -/
theorem live_step (op : Op) {k : Bytes} {kv : KeyValue}
    (hlive : (snapshot (step h op)).find? k = some kv) :
    (snapshot h).find? k = some kv ∨ kv.modRevision = nextRev h := by
  rcases step_cases h op with hs | ⟨w, hw, hs⟩
  · rw [hs] at hlive
    exact .inl hlive
  · rw [hs, find_snapshot, ofKey_append] at hlive
    split at hlive
    · right
      rw [live_append] at hlive
      split at hlive
      · simp at hlive
      · rw [← Option.some.inj hlive]
        exact hw
    · left
      rw [find_snapshot]
      exact hlive

/-- What a deletion of a version leaves is not that version. -/
theorem live_delete {k : Bytes} {m : ℤ} (hm : m ≤ h.length) {kv : KeyValue}
    (hlive : (snapshot (delete h k m)).find? k = some kv) : kv.modRevision ≠ m := by
  intro hkv
  have hnext : nextRev h = h.length + 1 := rfl
  rcases live_step (.delete k m) hlive with hold | hnew
  · have hlive : (snapshot (delete h k m)).find? k = some kv := hlive
    unfold delete at hlive
    rw [hold] at hlive
    simp only [hkv, ne_eq, not_true_eq_false, and_false, if_false] at hlive
    have hkey := key_of_find_snapshot hold
    rw [find_snapshot, ofKey_append, if_pos hkey, live_append] at hlive
    simp at hlive
  · omega

end Mvcc

namespace Ttl

open Lts Mvcc Sorted

variable {x : Ttl} {limit : ℤ} {kv : KeyValue} {k : Bytes}

/-- A version that has been put. -/
def Put (x : Ttl) (kv : KeyValue) : Prop := ∃ w ∈ x.log, w.delete = false ∧ w.kv = kv

/-- Each key has an entry of its own, which is that of a version that has been saved; what
is saved are leased puts; the handler holds the entry that the map has for its key. -/
structure OK (x : Ttl) : Prop where
  hist : HistOK x.log
  addr : ∀ k e, x.store.find? k = some e → e < x.entries.length
  own : ∀ k k' e, x.store.find? k = some e → x.store.find? k' = some e → k = k'
  version : ∀ k e, x.entry k = some e → ∃ kv s, (kv, s) ∈ x.saved ∧ kv.key = k ∧
    kv.modRevision = e.modRevision ∧ e.expiredAt = s + leaseDuration kv.lease
  put : ∀ kv s, (kv, s) ∈ x.saved → x.Put kv ∧ 0 < kv.lease
  page : ∀ rev kvs todo, x.seed = .page rev kvs todo →
    rev ≤ x.log.length ∧ ∀ kv ∈ todo, x.Put kv ∧ kv.modRevision ≤ rev
  saving : ∀ kv, x.loop = .save kv → x.Put kv ∧ 0 < kv.lease
  held : ∀ k e, x.handler = .loaded k e ∨ x.handler = .expired k e → x.store.find? k = some e

theorem ok_init (ops : List Op) (now : ℤ) : (init (run ops) now).OK := by
  have hhist : HistOK (run ops) := by
    unfold run
    suffices h : ∀ (l : List Op) (log : List Write), HistOK log → HistOK (l.foldl Mvcc.step log) from
      h ops [] histOK_nil
    intro l
    induction l with
    | nil => intro log hlog; exact hlog
    | cons op l ih => intro log hlog; exact ih _ (hlog.step op)
  refine ⟨hhist, ?_, ?_, ?_, ?_, ?_, ?_, ?_⟩ <;> intros <;> simp_all [init, entry]

/-! ## Steps of the backend and the clock -/

theorem Put.step {y : Ttl} {op : Op} (hlog : y.log = Mvcc.step x.log op) (h : x.Put kv) : y.Put kv := by
  obtain ⟨w, hw, hdel, hkv⟩ := h
  refine ⟨w, ?_, hdel, hkv⟩
  rw [hlog]
  exact mem_step op hw

/-- A call of the backend, by a client or by the handler. -/
theorem OK.call {y : Ttl} (hx : x.OK) (op : Op) (hlog : y.log = Mvcc.step x.log op) (hentries : y.entries = x.entries)
    (hstore : y.store = x.store) (hsaved : y.saved = x.saved) (hseed : y.seed = x.seed) (hloop : y.loop = x.loop)
    (hheld : ∀ k e, y.handler = .loaded k e ∨ y.handler = .expired k e → y.store.find? k = some e) : y.OK := by
  refine ⟨?_, ?_, ?_, ?_, ?_, ?_, ?_, hheld⟩
  · rw [hlog]
    exact hx.hist.step op
  · rw [hstore, hentries]
    exact hx.addr
  · rw [hstore]
    exact hx.own
  · unfold entry
    rw [hstore, hentries, hsaved]
    exact hx.version
  · rw [hsaved]
    intro kv s h
    exact ⟨(hx.put kv s h).1.step hlog, (hx.put kv s h).2⟩
  · rw [hseed]
    intro rev kvs todo h
    obtain ⟨hrev, htodo⟩ := hx.page rev kvs todo h
    refine ⟨?_, fun kv hkv => ⟨(htodo kv hkv).1.step hlog, (htodo kv hkv).2⟩⟩
    have := length_le_step x.log op
    rw [hlog]
    omega
  · rw [hloop]
    intro kv h
    exact ⟨(hx.saving kv h).1.step hlog, (hx.saving kv h).2⟩

theorem OK.client (hx : x.OK) (op : Op) : (x.step limit (.client op)).OK :=
  hx.call op rfl rfl rfl rfl rfl rfl hx.held

/-! ## Steps of the loop -/

/-- The entry of a key is changed in place, or there is a new one. -/
theorem save_cases (hloop : x.loop = .save kv) :
    x.save.log = x.log ∧ x.save.now = x.now ∧ x.save.queue = x.queue ∧ x.save.seed = x.seed ∧ x.save.pos = x.pos ∧
      x.save.loop = .queue kv.key (leaseDuration kv.lease) ∧ x.save.handler = x.handler ∧
      x.save.saved = x.saved ++ [(kv, x.now)] ∧ x.save.calls = x.calls ∧
      ((∃ e, x.store.find? kv.key = some e ∧ x.save.store = x.store ∧
          x.save.entries = x.entries.set e ⟨kv.modRevision, x.now + leaseDuration kv.lease⟩) ∨
        x.store.find? kv.key = none ∧ x.save.store = x.store.insert kv.key x.entries.length ∧
          x.save.entries = x.entries ++ [⟨kv.modRevision, x.now + leaseDuration kv.lease⟩]) := by
  unfold save
  rw [hloop]
  simp only
  cases x.store.find? kv.key with
  | some e => exact ⟨rfl, rfl, rfl, rfl, rfl, rfl, rfl, rfl, rfl, .inl ⟨e, rfl, rfl, rfl⟩⟩
  | none => exact ⟨rfl, rfl, rfl, rfl, rfl, rfl, rfl, rfl, rfl, .inr ⟨rfl, rfl, rfl⟩⟩

theorem save_of_ne (hloop : ∀ kv, x.loop ≠ .save kv) : x.save = x := by
  unfold save
  split
  · rename_i kv h
    exact absurd h (hloop kv)
  · rfl

/-- **A save changes the entry of its key and no other one.** -/
theorem entry_save (hx : x.OK) (hloop : x.loop = .save kv) (k : Bytes) :
    x.save.entry k = if k = kv.key then some ⟨kv.modRevision, x.now + leaseDuration kv.lease⟩ else x.entry k := by
  obtain ⟨-, -, -, -, -, -, -, -, -, ⟨e, he, hstore, hentries⟩ | ⟨hnone, hstore, hentries⟩⟩ := save_cases hloop
  · unfold entry
    rw [hstore, hentries]
    split
    · rename_i hk
      rw [hk, he, Option.bind_some, List.getElem?_set_self (hx.addr _ _ he)]
    · rename_i hk
      cases hf : x.store.find? k with
      | none => rfl
      | some e' =>
        -- another key has another entry
        have hne : e ≠ e' := fun h => hk (hx.own k kv.key e' hf (h ▸ he))
        rw [Option.bind_some, Option.bind_some, List.getElem?_set_ne hne]
  · unfold entry
    rw [hstore, hentries]
    split
    · rename_i hk
      rw [hk, OMap.find_insert_self, Option.bind_some, List.getElem?_concat_length]
    · rename_i hk
      rw [OMap.find_insert_ne _ _ hk]
      cases hf : x.store.find? k with
      | none => rfl
      | some e' => rw [Option.bind_some, Option.bind_some, List.getElem?_append_left (hx.addr _ _ hf)]

theorem OK.save (hx : x.OK) : x.save.OK := by
  by_cases hloop : ∃ kv, x.loop = .save kv
  · obtain ⟨kv, hloop⟩ := hloop
    have hentry := entry_save hx hloop
    obtain ⟨hlog, -, -, hseed, -, hloop', hhandler, hsaved, -, hcases⟩ := save_cases hloop
    have hput : ∀ {v : KeyValue}, x.Put v → x.save.Put v := by
      rintro v ⟨w, hw, h⟩
      exact ⟨w, hlog ▸ hw, h⟩
    have haddr : ∀ k e, x.save.store.find? k = some e → e < x.save.entries.length := by
      intro k e h
      rcases hcases with ⟨e', -, hstore, hentries⟩ | ⟨-, hstore, hentries⟩
      · rw [hstore] at h
        rw [hentries, List.length_set]
        exact hx.addr k e h
      · rw [hstore, OMap.find_insert] at h
        rw [hentries, List.length_append, List.length_singleton]
        split at h
        · have := Option.some.inj h
          omega
        · have := hx.addr k e h
          omega
    have hown : ∀ k k' e, x.save.store.find? k = some e → x.save.store.find? k' = some e → k = k' := by
      intro k k' e h h'
      rcases hcases with ⟨e', -, hstore, -⟩ | ⟨-, hstore, -⟩
      · rw [hstore] at h h'
        exact hx.own k k' e h h'
      · -- the address of the new entry is not in use
        rw [hstore, OMap.find_insert] at h h'
        split at h
        · rename_i hk
          split at h'
          · rename_i hk'
            rw [hk, hk']
          · have := hx.addr k' e h'
            have := Option.some.inj h
            omega
        · split at h'
          · have := hx.addr k e h
            have := Option.some.inj h'
            omega
          · exact hx.own k k' e h h'
    refine ⟨hlog ▸ hx.hist, haddr, hown, fun k e h => ?_, fun v s h => ?_, ?_, fun v h => ?_, fun k e h => ?_⟩
    · rw [hentry] at h
      rw [hsaved]
      split at h
      · rename_i hk
        refine ⟨kv, x.now, List.mem_append_right _ (List.mem_singleton_self _), hk.symm, ?_⟩
        rw [← Option.some.inj h]
        exact ⟨rfl, rfl⟩
      · obtain ⟨v, s, hmem, hv⟩ := hx.version k e h
        exact ⟨v, s, List.mem_append_left _ hmem, hv⟩
    · rw [hsaved] at h
      rcases List.mem_append.1 h with h | h
      · exact ⟨hput (hx.put v s h).1, (hx.put v s h).2⟩
      · obtain ⟨rfl, -⟩ := Prod.mk.inj (List.mem_singleton.1 h)
        exact ⟨hput (hx.saving v hloop).1, (hx.saving v hloop).2⟩
    · rw [hseed, hlog]
      intro rev kvs todo h
      obtain ⟨hrev, htodo⟩ := hx.page rev kvs todo h
      exact ⟨hrev, fun v hv => ⟨hput (htodo v hv).1, (htodo v hv).2⟩⟩
    · rw [hloop'] at h
      simp at h
    · rw [hhandler] at h
      have hheld := hx.held k e h
      rcases hcases with ⟨e', -, hstore, -⟩ | ⟨hnone, hstore, -⟩
      · rw [hstore]
        exact hheld
      · rw [hstore, OMap.find_insert_ne]
        · exact hheld
        · rintro rfl
          rw [hnone] at hheld
          simp at hheld
  · rw [save_of_ne fun kv hl => hloop ⟨kv, hl⟩]
    exact hx

/-- A step that leaves the backend, the map and its entries alone. -/
theorem OK.keep {y : Ttl} (hx : x.OK) (hlog : y.log = x.log) (hentries : y.entries = x.entries)
    (hstore : y.store = x.store) (hsaved : y.saved = x.saved)
    (hpage : ∀ rev kvs todo, y.seed = .page rev kvs todo →
      rev ≤ x.log.length ∧ ∀ kv ∈ todo, x.Put kv ∧ kv.modRevision ≤ rev)
    (hsaving : ∀ kv, y.loop = .save kv → x.Put kv ∧ 0 < kv.lease)
    (hheld : ∀ k e, y.handler = .loaded k e ∨ y.handler = .expired k e → x.store.find? k = some e) : y.OK := by
  have hput : y.Put = x.Put := by
    unfold Put
    rw [hlog]
  constructor
  · rw [hlog]
    exact hx.hist
  · rw [hstore, hentries]
    exact hx.addr
  · rw [hstore]
    exact hx.own
  · unfold entry
    rw [hstore, hentries, hsaved]
    exact hx.version
  · rw [hsaved, hput]
    exact hx.put
  · rw [hlog, hput]
    exact hpage
  · rw [hput]
    exact hsaving
  · rw [hstore]
    exact hheld

/-- What a list returns are versions that have been put. -/
theorem mem_page (hx : x.OK) {rev : ℕ} {key : Bytes} (hkv : kv ∈ x.page limit rev key) : x.Put kv ∧ kv.modRevision ≤ rev := by
  have hmem : kv ∈ (snapshotAt x.log rev).values := by
    unfold Ttl.page Mvcc.list firstN at hkv
    split at hkv
    · exact List.mem_of_mem_filter (List.mem_of_mem_take hkv)
    · exact List.mem_of_mem_filter hkv
  obtain ⟨⟨k, v⟩, hentry, rfl⟩ := List.mem_map.1 hmem
  obtain ⟨w, hw, hdel, hwv, -⟩ := mem_of_live (OMap.mem_entries.1 hentry)
  refine ⟨⟨w, List.mem_of_mem_take hw, hdel, hwv⟩, ?_⟩
  show v.modRevision ≤ rev
  rw [← hwv]
  obtain ⟨i, hi⟩ := List.mem_iff_getElem?.1 hw
  rw [Int.toNat_natCast, List.getElem?_take] at hi
  split at hi
  · have := hx.hist.rev i w hi
    omega
  · simp at hi

theorem OK.list (hx : x.OK) : (x.list limit).OK := by
  have hpages : ∀ (y : Ttl) (rev : ℕ) (key : Bytes), rev ≤ x.log.length → y = { x with
      seed := .page rev (x.page limit rev key) (x.page limit rev key) } → y.OK := by
    rintro y rev key hrev rfl
    refine hx.keep rfl rfl rfl rfl ?_ hx.saving hx.held
    rintro _ _ _ ⟨⟩
    exact ⟨hrev, fun kv hkv => mem_page hx hkv⟩
  unfold Ttl.list
  split
  · exact hpages _ _ _ le_rfl rfl
  · rename_i rev kvs hseed _
    split
    · refine hx.keep rfl rfl rfl rfl ?_ hx.saving hx.held
      intro _ _ _ h
      simp at h
    · exact hpages _ _ _ (hx.page _ _ _ hseed).1 rfl
  · exact hx

/-- What the loop does with its next key-value. -/
theorem next_cases (x : Ttl) : x.next = x ∨
    (∃ rev kvs kv todo, x.seed = .page rev kvs (kv :: todo) ∧ x.loop = .next ∧
      x.next = { x with seed := .page rev kvs todo, loop := if kv.lease > 0 then .save kv else .next }) ∨
    ∃ rev w, x.seed = .done rev ∧ x.loop = .next ∧ x.log[x.pos]? = some w ∧
      ((w.delete = true ∨ w.kv.lease ≤ 0) ∧ x.next = { x with pos := x.pos + 1 } ∨
        w.delete = false ∧ 0 < w.kv.lease ∧ (x.outdated w.kv = true ∧ x.next = { x with loop := .save w.kv } ∨
          x.outdated w.kv = false ∧ x.next = { x with pos := x.pos + 1 })) := by
  unfold next
  split
  · rename_i rev kvs kv todo hseed hloop
    exact .inr (.inl ⟨rev, kvs, kv, todo, hseed, hloop, rfl⟩)
  · rename_i rev hseed hloop
    cases hw : x.log[x.pos]? with
    | none => exact .inl rfl
    | some w =>
      refine .inr (.inr ⟨rev, w, hseed, hloop, rfl, ?_⟩)
      simp only
      split
      · rename_i hskip
        exact .inl ⟨hskip, rfl⟩
      · rename_i hskip
        rw [not_or, Bool.not_eq_true, not_le] at hskip
        refine .inr ⟨hskip.1, hskip.2, ?_⟩
        cases hout : x.outdated w.kv with
        | true => exact .inl ⟨rfl, rfl⟩
        | false => exact .inr ⟨rfl, rfl⟩
  · exact .inl rfl

theorem OK.next (hx : x.OK) : x.next.OK := by
  rcases x.next_cases with hsame | ⟨rev, kvs, kv, todo, hseed, hloop, hnext⟩ | ⟨rev, w, hseed, hloop, hw, hcases⟩
  · rw [hsame]
    exact hx
  · obtain ⟨hrev, htodo⟩ := hx.page _ _ _ hseed
    rw [hnext]
    refine hx.keep rfl rfl rfl rfl ?_ (fun v hv => ?_) hx.held
    · rintro _ _ _ ⟨⟩
      exact ⟨hrev, fun v hv => htodo v (List.mem_cons_of_mem _ hv)⟩
    · replace hv : (if kv.lease > 0 then TtlLoop.save kv else .next) = .save v := hv
      split at hv
      · rename_i hlease
        obtain rfl := TtlLoop.save.inj hv
        exact ⟨(htodo _ List.mem_cons_self).1, hlease⟩
      · simp at hv
  · rcases hcases with ⟨-, hnext⟩ | ⟨hdel, hlease, ⟨-, hnext⟩ | ⟨-, hnext⟩⟩
    · rw [hnext]
      exact hx.keep rfl rfl rfl rfl hx.page hx.saving hx.held
    · rw [hnext]
      refine hx.keep rfl rfl rfl rfl hx.page ?_ hx.held
      rintro _ ⟨⟩
      exact ⟨⟨w, List.mem_of_getElem? hw, hdel, rfl⟩, hlease⟩
    · rw [hnext]
      exact hx.keep rfl rfl rfl rfl hx.page hx.saving hx.held

theorem enqueue_cases (x : Ttl) : x.enqueue = x ∨ ∃ key expires, x.loop = .queue key expires ∧
    ((∃ rev, x.seed = .done rev) ∧ x.enqueue =
        { x with loop := .next, queue := x.queue ++ [(key, x.now + expires)], pos := x.pos + 1 } ∨
      (∀ rev, x.seed ≠ .done rev) ∧ x.enqueue =
        { x with loop := .next, queue := x.queue ++ [(key, x.now + expires)] }) := by
  unfold enqueue
  split
  · rename_i key expires hloop
    refine .inr ⟨key, expires, hloop, ?_⟩
    simp only
    split
    · rename_i rev hseed
      exact .inl ⟨⟨rev, hseed⟩, rfl⟩
    · rename_i hseed
      exact .inr ⟨hseed, rfl⟩
  · exact .inl rfl

theorem OK.enqueue (hx : x.OK) : x.enqueue.OK := by
  rcases x.enqueue_cases with hsame | ⟨key, expires, -, ⟨-, heq⟩ | ⟨-, heq⟩⟩
  · rw [hsame]
    exact hx
  · rw [heq]
    refine hx.keep rfl rfl rfl rfl hx.page (fun v hv => ?_) hx.held
    simp at hv
  · rw [heq]
    refine hx.keep rfl rfl rfl rfl hx.page (fun v hv => ?_) hx.held
    simp at hv

/-! ## Steps of the handler -/

/-- The handler moves on, without a call of the backend. -/
structure Moves (x y : Ttl) : Prop where
  log : y.log = x.log
  now : y.now = x.now
  entries : y.entries = x.entries
  store : y.store = x.store
  seed : y.seed = x.seed
  pos : y.pos = x.pos
  loop : y.loop = x.loop
  saved : y.saved = x.saved
  calls : y.calls = x.calls

theorem Moves.entry {y : Ttl} (h : Moves x y) : y.entry = x.entry := by
  unfold Ttl.entry
  rw [h.entries, h.store]

theorem Moves.ok {y : Ttl} (h : Moves x y) (hx : x.OK)
    (hheld : ∀ k e, y.handler = .loaded k e ∨ y.handler = .expired k e → x.store.find? k = some e) : y.OK :=
  hx.keep h.log h.entries h.store h.saved (h.seed ▸ hx.page) (h.loop ▸ hx.saving) hheld

/-- What the handler does between its calls. -/
def Handles (x y : Ttl) : Prop :=
  Moves x y ∧
    (y.handler = x.handler ∨ y.handler = .idle ∨ (∃ k, y.handler = .got k) ∨
      (∃ k e, x.store.find? k = some e ∧ y.handler = .loaded k e) ∨
      (∃ k e v, x.handler = .loaded k e ∧ x.entries[e]? = some v ∧ v.expiredAt ≤ x.now ∧ y.handler = .expired k e) ∨
      ∃ k e v, x.handler = .expired k e ∧ x.entries[e]? = some v ∧ y.handler = .delete k v.modRevision)

theorem handles_refl (x : Ttl) : Handles x x := ⟨⟨rfl, rfl, rfl, rfl, rfl, rfl, rfl, rfl, rfl⟩, .inl rfl⟩

theorem handles_get (x : Ttl) (i : ℕ) : Handles x (x.get i) := by
  unfold Ttl.get
  split
  · split
    · exact ⟨⟨rfl, rfl, rfl, rfl, rfl, rfl, rfl, rfl, rfl⟩, .inr (.inr (.inl ⟨_, rfl⟩))⟩
    · exact handles_refl x
  · exact handles_refl x

theorem handles_load (x : Ttl) : Handles x x.load := by
  unfold Ttl.load
  split
  · rename_i k _
    cases he : x.store.find? k with
    | none => exact ⟨⟨rfl, rfl, rfl, rfl, rfl, rfl, rfl, rfl, rfl⟩, .inr (.inl rfl)⟩
    | some e => exact ⟨⟨rfl, rfl, rfl, rfl, rfl, rfl, rfl, rfl, rfl⟩, .inr (.inr (.inr (.inl ⟨k, e, he, rfl⟩)))⟩
  · exact handles_refl x

theorem handles_check (x : Ttl) : Handles x x.check := by
  unfold Ttl.check
  split
  · rename_i k e hh
    cases hv : x.entries[e]? with
    | none => exact handles_refl x
    | some v =>
      simp only
      split
      · exact ⟨⟨rfl, rfl, rfl, rfl, rfl, rfl, rfl, rfl, rfl⟩, .inr (.inl rfl)⟩
      · have hpast : v.expiredAt ≤ x.now := by omega
        exact ⟨⟨rfl, rfl, rfl, rfl, rfl, rfl, rfl, rfl, rfl⟩,
          .inr (.inr (.inr (.inr (.inl ⟨k, e, v, hh, hv, hpast, rfl⟩))))⟩
  · exact handles_refl x

theorem handles_read (x : Ttl) : Handles x x.read := by
  unfold Ttl.read
  split
  · rename_i k e hh
    cases hv : x.entries[e]? with
    | none => exact handles_refl x
    | some v =>
      exact ⟨⟨rfl, rfl, rfl, rfl, rfl, rfl, rfl, rfl, rfl⟩, .inr (.inr (.inr (.inr (.inr ⟨k, e, v, hh, hv, rfl⟩))))⟩
  · exact handles_refl x

theorem Handles.ok {y : Ttl} (h : Handles x y) (hx : x.OK) : y.OK := by
  obtain ⟨hmoves, hcases⟩ := h
  refine hmoves.ok hx fun k e hh => ?_
  rcases hcases with h | h | ⟨k', h⟩ | ⟨k', e', he, h⟩ | ⟨k', e', v, hload, -, -, h⟩ | ⟨k', e', v, -, -, h⟩
  · rw [h] at hh
    exact hx.held k e hh
  · rw [h] at hh
    simp at hh
  · rw [h] at hh
    simp at hh
  · rw [h] at hh
    simp only [TtlHandler.loaded.injEq, reduceCtorEq, or_false] at hh
    obtain ⟨rfl, rfl⟩ := hh
    exact he
  · rw [h] at hh
    simp only [TtlHandler.expired.injEq, reduceCtorEq, false_or] at hh
    obtain ⟨rfl, rfl⟩ := hh
    exact hx.held _ _ (.inl hload)
  · rw [h] at hh
    simp at hh

/-- A call of `Delete` by the handler: it is recorded, and it takes effect, or it fails
before that. -/
structure Calls (x y : Ttl) (key : Bytes) (m : ℤ) : Prop where
  handler : x.handler = .delete key m
  after : y.handler = .deleted key m ∧ y.log = Mvcc.step x.log (.delete key m) ∨
    y.handler = .idle ∧ ∃ op, y.log = Mvcc.step x.log op
  now : y.now = x.now
  entries : y.entries = x.entries
  store : y.store = x.store
  seed : y.seed = x.seed
  pos : y.pos = x.pos
  loop : y.loop = x.loop
  saved : y.saved = x.saved
  calls : y.calls = x.calls ++ [(key, m, x.now)]

theorem delete_cases (x : Ttl) : x.delete = x ∨ ∃ key m, Calls x x.delete key m := by
  unfold delete
  split
  · rename_i key m hh
    exact .inr ⟨key, m, hh, .inl ⟨rfl, rfl⟩, rfl, rfl, rfl, rfl, rfl, rfl, rfl, rfl⟩
  · exact .inl rfl

theorem fail_cases (x : Ttl) (took : Bool) : x.fail took = x ∨ ∃ key m, Calls x (x.fail took) key m := by
  unfold fail
  split
  · rename_i key m hh
    refine .inr ⟨key, m, hh, .inr ⟨rfl, ?_⟩, rfl, rfl, rfl, rfl, rfl, rfl, rfl, rfl⟩
    cases took with
    | true => exact ⟨.delete key m, rfl⟩
    | false => exact ⟨.compact 0, rfl⟩
  · exact .inl rfl

theorem Calls.log {y : Ttl} {key : Bytes} {m : ℤ} (h : Calls x y key m) : ∃ op, y.log = Mvcc.step x.log op := by
  rcases h.after with ⟨-, hlog⟩ | ⟨-, op, hlog⟩
  · exact ⟨_, hlog⟩
  · exact ⟨op, hlog⟩

theorem Calls.ok {y : Ttl} {key : Bytes} {m : ℤ} (h : Calls x y key m) (hx : x.OK) : y.OK := by
  obtain ⟨op, hlog⟩ := h.log
  refine hx.call op hlog h.entries h.store h.saved h.seed h.loop fun k e hh => ?_
  rcases h.after with ⟨hafter, -⟩ | ⟨hafter, -⟩
  · rw [hafter] at hh
    simp at hh
  · rw [hafter] at hh
    simp at hh

/-- The entry of a key is taken out of the map. -/
theorem remove_cases (x : Ttl) : x.remove = x ∨ ∃ key m, x.handler = .deleted key m ∧
    x.remove = { x with store := x.store.erase key, handler := .idle } := by
  unfold remove
  split
  · rename_i key m hh
    exact .inr ⟨key, m, hh, rfl⟩
  · exact .inl rfl

theorem entry_erase (x : Ttl) (key k : Bytes) :
    ({ x with store := x.store.erase key, handler := .idle } : Ttl).entry k =
      if k = key then none else x.entry k := by
  unfold entry
  simp only [OMap.find_erase]
  split
  · rfl
  · rfl

theorem OK.remove (hx : x.OK) : x.remove.OK := by
  rcases x.remove_cases with hsame | ⟨key, m, -, hrem⟩
  · rw [hsame]
    exact hx
  · have hfind : ∀ {k e}, (x.store.erase key).find? k = some e → x.store.find? k = some e := by
      intro k e h
      rw [OMap.find_erase] at h
      split at h
      · simp at h
      · exact h
    rw [hrem]
    refine ⟨hx.hist, fun k e h => hx.addr k e (hfind h), fun k k' e h h' => hx.own k k' e (hfind h) (hfind h'), ?_,
      hx.put, hx.page, hx.saving, fun k e h => by simp at h⟩
    intro k e h
    rw [entry_erase] at h
    split at h
    · simp at h
    · exact hx.version k e h

theorem step_ok (hx : x.OK) (a : Act) : (x.step limit a).OK := by
  cases a with
  | client op => exact hx.client op
  | tick d => exact hx.keep rfl rfl rfl rfl hx.page hx.saving hx.held
  | list => exact hx.list
  | next => exact hx.next
  | save => exact hx.save
  | enqueue => exact hx.enqueue
  | get i => exact (x.handles_get i).ok hx
  | load => exact x.handles_load.ok hx
  | check => exact x.handles_check.ok hx
  | read => exact x.handles_read.ok hx
  | delete =>
    show x.delete.OK
    rcases x.delete_cases with hsame | ⟨key, m, hcall⟩
    · rw [hsame]
      exact hx
    · exact hcall.ok hx
  | fail took =>
    show (x.fail took).OK
    rcases x.fail_cases took with hsame | ⟨key, m, hcall⟩
    · rw [hsame]
      exact hx
    · exact hcall.ok hx
  | remove => exact hx.remove

/-! ## The handler deletes what has expired -/

/-- A version of a key that was put with a lease and saved, and whose lease has elapsed by
the time `t`. -/
def Aged (x : Ttl) (key : Bytes) (m t : ℤ) : Prop :=
  ∃ (w : Write) (s : ℤ), w ∈ x.log ∧ w.delete = false ∧ w.kv.key = key ∧ w.kv.modRevision = m ∧ 0 < w.kv.lease ∧
    (w.kv, s) ∈ x.saved ∧ s + w.kv.lease * 1000000000 ≤ t

/-- A lease that fits into a `time.Duration` is not shortened by it. -/
theorem leaseDuration_eq {lease : ℤ} (hpos : 0 < lease) (hle : lease ≤ 9223372036) :
    leaseDuration lease = lease * 1000000000 := by
  unfold leaseDuration wrap64
  omega

/-- The handler is past its check only with an entry that has expired, and about to delete
only a version that has. -/
structure Timely (x : Ttl) : Prop where
  short : ∀ kv s, (kv, s) ∈ x.saved → kv.lease ≤ 9223372036
  expired : ∀ k e v, x.handler = .expired k e → x.entries[e]? = some v → v.expiredAt ≤ x.now
  delete : ∀ k m, x.handler = .delete k m → x.Aged k m x.now
  calls : x.Elapsed

theorem Aged.mono {y : Ttl} {key : Bytes} {m t t' : ℤ} (h : x.Aged key m t) (hlog : ∀ w ∈ x.log, w ∈ y.log)
    (hsaved : ∀ p ∈ x.saved, p ∈ y.saved) (ht : t ≤ t') : y.Aged key m t' := by
  obtain ⟨w, s, hw, hdel, hkey, hm, hlease, hs, hle⟩ := h
  exact ⟨w, s, hlog w hw, hdel, hkey, hm, hlease, hsaved _ hs, hle.trans ht⟩

/-- A step that the handler does not take part in and that saves nothing. -/
theorem Timely.keep {y : Ttl} (h : x.Timely) (hlog : ∀ w ∈ x.log, w ∈ y.log) (hsaved : y.saved = x.saved)
    (hnow : x.now ≤ y.now) (hentries : y.entries = x.entries) (hhandler : y.handler = x.handler)
    (hcalls : y.calls = x.calls) : y.Timely := by
  have hmono : ∀ p ∈ x.saved, p ∈ y.saved := by
    rw [hsaved]
    exact fun p hp => hp
  constructor
  · rw [hsaved]
    exact h.short
  · rw [hhandler, hentries]
    intro k e v hh hv
    exact (h.expired k e v hh hv).trans hnow
  · rw [hhandler]
    intro k m hh
    exact (h.delete k m hh).mono hlog hmono hnow
  · intro key m t hc
    rw [hcalls] at hc
    exact Aged.mono (h.calls key m t hc) hlog hmono le_rfl

theorem Timely.save (h : x.Timely) (hx : x.OK) (hu : x.Undisturbed .save) : x.save.Timely := by
  by_cases hloop : ∃ kv, x.loop = .save kv
  · obtain ⟨kv, hloop⟩ := hloop
    obtain ⟨hshort, hfree⟩ := hu kv rfl hloop
    obtain ⟨hlog, hnow, -, -, -, -, hhandler, hsaved, hcalls, hcases⟩ := save_cases hloop
    have hmono : ∀ p ∈ x.saved, p ∈ x.save.saved := by
      rw [hsaved]
      exact fun p hp => List.mem_append_left _ hp
    have hlog' : ∀ w ∈ x.log, w ∈ x.save.log := fun w hw => hlog ▸ hw
    constructor
    · intro v s hv
      rw [hsaved] at hv
      rcases List.mem_append.1 hv with hv | hv
      · exact h.short v s hv
      · obtain ⟨rfl, -⟩ := Prod.mk.inj (List.mem_singleton.1 hv)
        exact hshort
    · intro k e v hh hv
      rw [hhandler] at hh
      rw [hnow]
      have hheld := hx.held k e (.inr hh)
      have hne : k ≠ kv.key := fun hk => hfree e (hk ▸ hh)
      -- the entry that the handler holds is not the one that is saved
      refine h.expired k e v hh ?_
      rcases hcases with ⟨e', he', -, hentries⟩ | ⟨-, -, hentries⟩
      · have hne' : e' ≠ e := fun he => hne (hx.own k kv.key e hheld (he ▸ he'))
        rw [hentries, List.getElem?_set_ne hne'] at hv
        exact hv
      · rw [hentries, List.getElem?_append_left (hx.addr _ _ hheld)] at hv
        exact hv
    · intro k m hh
      rw [hhandler] at hh
      rw [hnow]
      exact (h.delete k m hh).mono hlog' hmono le_rfl
    · intro key m t hc
      rw [hcalls] at hc
      exact Aged.mono (h.calls key m t hc) hlog' hmono le_rfl
  · rw [save_of_ne fun kv hl => hloop ⟨kv, hl⟩]
    exact h

theorem Timely.handles {y : Ttl} (h : x.Timely) (hx : x.OK) (hh : Handles x y) : y.Timely := by
  obtain ⟨hmoves, hcases⟩ := hh
  have hlog : ∀ w ∈ x.log, w ∈ y.log := fun w hw => hmoves.log ▸ hw
  have hsaved : ∀ p ∈ x.saved, p ∈ y.saved := fun p hp => hmoves.saved ▸ hp
  have hcalls : y.Elapsed := by
    intro key m t hc
    rw [hmoves.calls] at hc
    exact Aged.mono (h.calls key m t hc) hlog hsaved le_rfl
  refine ⟨fun kv s hs => h.short kv s (hmoves.saved ▸ hs), fun k e v hk hv => ?_, fun k m hk => ?_, hcalls⟩
  · rw [hmoves.entries] at hv
    rw [hmoves.now]
    rcases hcases with h' | h' | ⟨k', h'⟩ | ⟨k', e', -, h'⟩ | ⟨k', e', v', -, hv', hpast, h'⟩ | ⟨k', e', v', -, -, h'⟩
    · exact h.expired k e v (h' ▸ hk) hv
    · rw [h'] at hk
      simp at hk
    · rw [h'] at hk
      simp at hk
    · rw [h'] at hk
      simp at hk
    · rw [h'] at hk
      obtain ⟨-, rfl⟩ := TtlHandler.expired.inj hk
      rw [hv] at hv'
      rw [Option.some.inj hv']
      exact hpast
    · rw [h'] at hk
      simp at hk
  · rw [hmoves.now]
    rcases hcases with h' | h' | ⟨k', h'⟩ | ⟨k', e', -, h'⟩ | ⟨k', e', v', -, -, -, h'⟩ | ⟨k', e', v', hexp, hv', h'⟩
    · exact (h.delete k m (h' ▸ hk)).mono hlog hsaved le_rfl
    · rw [h'] at hk
      simp at hk
    · rw [h'] at hk
      simp at hk
    · rw [h'] at hk
      simp at hk
    · rw [h'] at hk
      simp at hk
    · -- the version that the handler reads is the one whose expiry it has checked
      rw [h'] at hk
      obtain ⟨rfl, rfl⟩ := TtlHandler.delete.inj hk
      have hentry : x.entry k' = some v' := by
        unfold Ttl.entry
        rw [hx.held _ _ (.inr hexp), Option.bind_some, hv']
      obtain ⟨kv, s, hs, hkey, hrev, hat⟩ := hx.version _ _ hentry
      obtain ⟨⟨w, hw, hdel, hkv⟩, hlease⟩ := hx.put _ _ hs
      rw [leaseDuration_eq hlease (h.short _ _ hs)] at hat
      have hpast := h.expired _ _ _ hexp hv'
      subst hkv
      exact ⟨w, s, hlog w hw, hdel, hkey, hrev, hlease, hsaved _ hs, by omega⟩

theorem Timely.call {y : Ttl} {key : Bytes} {m : ℤ} (h : x.Timely) (hcall : Calls x y key m) : y.Timely := by
  obtain ⟨op, hop⟩ := hcall.log
  have hlog : ∀ w ∈ x.log, w ∈ y.log := fun w hw => hop ▸ mem_step op hw
  have hsaved : ∀ p ∈ x.saved, p ∈ y.saved := fun p hp => hcall.saved ▸ hp
  have hafter : y.handler = .deleted key m ∨ y.handler = .idle := hcall.after.imp (·.1) (·.1)
  refine ⟨fun kv s hs => h.short kv s (hcall.saved ▸ hs), fun k e v hk => ?_, fun k m' hk => ?_, fun k m' t hc => ?_⟩
  · rcases hafter with h' | h' <;> simp [h'] at hk
  · rcases hafter with h' | h' <;> simp [h'] at hk
  · rw [hcall.calls] at hc
    rcases List.mem_append.1 hc with hc | hc
    · exact Aged.mono (h.calls k m' t hc) hlog hsaved le_rfl
    · obtain ⟨rfl, hrest⟩ := Prod.mk.inj (List.mem_singleton.1 hc)
      obtain ⟨rfl, rfl⟩ := Prod.mk.inj hrest
      exact (h.delete _ _ hcall.handler).mono hlog hsaved le_rfl

/-- **A step keeps the handler timely** unless it saves an entry between its two reads. -/
theorem step_timely (hx : x.OK) (h : x.Timely) {a : Act} (hu : x.Undisturbed a) : (x.step limit a).Timely := by
  have hrefl : ∀ w ∈ x.log, w ∈ x.log := fun w hw => hw
  cases a with
  | client op => exact h.keep (fun w hw => mem_step op hw) rfl le_rfl rfl rfl rfl
  | tick d => exact h.keep hrefl rfl (by show x.now ≤ x.now + d; omega) rfl rfl rfl
  | list =>
    show (x.list limit).Timely
    unfold Ttl.list
    split
    · exact h.keep hrefl rfl le_rfl rfl rfl rfl
    · split <;> exact h.keep hrefl rfl le_rfl rfl rfl rfl
    · exact h
  | next =>
    show x.next.Timely
    rcases x.next_cases with hs | ⟨_, _, _, _, -, -, hs⟩ | ⟨_, _, -, -, -, ⟨-, hs⟩ | ⟨-, -, ⟨-, hs⟩ | ⟨-, hs⟩⟩⟩ <;> rw [hs]
    · exact h
    all_goals exact h.keep hrefl rfl le_rfl rfl rfl rfl
  | save => exact h.save hx hu
  | enqueue =>
    show x.enqueue.Timely
    rcases x.enqueue_cases with hs | ⟨_, _, -, ⟨-, hs⟩ | ⟨-, hs⟩⟩ <;> rw [hs]
    · exact h
    all_goals exact h.keep hrefl rfl le_rfl rfl rfl rfl
  | get i => exact h.handles hx (x.handles_get i)
  | load => exact h.handles hx x.handles_load
  | check => exact h.handles hx x.handles_check
  | read => exact h.handles hx x.handles_read
  | delete =>
    show x.delete.Timely
    rcases x.delete_cases with hsame | ⟨key, m, hcall⟩
    · rw [hsame]
      exact h
    · exact h.call hcall
  | fail took =>
    show (x.fail took).Timely
    rcases x.fail_cases took with hsame | ⟨key, m, hcall⟩
    · rw [hsame]
      exact h
    · exact h.call hcall
  | remove =>
    show x.remove.Timely
    rcases x.remove_cases with hsame | ⟨key, m, -, hrem⟩
    · rw [hsame]
      exact h
    · rw [hrem]
      exact ⟨h.short, fun k e v hk => by simp at hk, fun k m hk => by simp at hk, h.calls⟩

theorem timely_init (log : List Write) (now : ℤ) : (init log now).Timely :=
  ⟨nofun, nofun, nofun, nofun⟩

/-- **No early deletion.** In every run in which no save comes between the handler's two
reads of an entry and leases fit into a `time.Duration`, the handler deletes a version of a
key only once its lease has elapsed since it was saved. -/
theorem deletes_elapsed (limit : ℤ) (ops : List Op) (now : ℤ) (acts : List Act)
    (hu : Guarded (step limit) Undisturbed (init (run ops) now) acts) :
    Always (step limit) Elapsed (init (run ops) now) acts := by
  have hinv := invariant_of_guarded (I := fun x : Ttl => x.OK ∧ x.Timely)
    (fun x a ha hx => ⟨step_ok hx.1 a, step_timely hx.1 hx.2 ha⟩) acts _ ⟨ok_init ops now, timely_init _ now⟩ hu
  exact hinv.mono fun x hx => hx.2.calls

/-! ## Leased versions stay in the map -/

/-- The loop goes through the writes in order: no entry is ahead of it, and the versions it
has gone through have their entries. -/
structure Follows (x : Ttl) : Prop where
  start : x.seed = .start → x.loop = .next ∧ ∀ k, x.entry k = none
  page : ∀ rev kvs todo, x.seed = .page rev kvs todo →
    (∀ k e, x.entry k = some e → e.modRevision ≤ rev) ∧ ∀ kv, x.loop = .save kv → kv.modRevision ≤ rev
  pos : ∀ rev, x.seed = .done rev → x.pos ≤ x.log.length
  next : ∀ rev, x.seed = .done rev → x.loop = .next → ∀ k e, x.entry k = some e → e.modRevision ≤ x.pos
  save : ∀ rev kv, x.seed = .done rev → x.loop = .save kv → (∀ k e, x.entry k = some e → e.modRevision ≤ x.pos) ∧
    ∃ w, x.log[x.pos]? = some w ∧ w.kv = kv
  queue : ∀ rev key t, x.seed = .done rev → x.loop = .queue key t →
    (∀ k e, x.entry k = some e → e.modRevision ≤ x.pos + 1) ∧
      ∃ w, x.log[x.pos]? = some w ∧ w.kv.key = key ∧ ((snapshot x.log).find? key = some w.kv →
        ∃ e, x.entry key = some e ∧ e.modRevision = w.kv.modRevision)
  tracked : x.Tracked

/-- What the handler has deleted is not live any more. -/
structure Gone (x : Ttl) : Prop where
  delete : ∀ k m, x.handler = .delete k m → m ≤ x.log.length
  deleted : ∀ k m, x.handler = .deleted k m →
    m ≤ x.log.length ∧ ∀ kv, (snapshot x.log).find? k = some kv → kv.modRevision ≠ m

theorem Follows.keep {y : Ttl} (h : x.Follows) (hlog : y.log = x.log) (hentry : y.entry = x.entry)
    (hseed : y.seed = x.seed) (hpos : y.pos = x.pos) (hloop : y.loop = x.loop) : y.Follows := by
  constructor
  · rw [hseed, hloop, hentry]
    exact h.start
  · rw [hseed, hloop, hentry]
    exact h.page
  · rw [hseed, hpos, hlog]
    exact h.pos
  · rw [hseed, hloop, hentry, hpos]
    exact h.next
  · rw [hseed, hloop, hentry, hpos, hlog]
    exact h.save
  · rw [hseed, hloop, hentry, hpos, hlog]
    exact h.queue
  · unfold Tracked
    rw [hseed, hpos, hlog, hentry]
    exact h.tracked

/-- A call of the backend: a version that is live after it and not new was live before. -/
theorem Follows.call {y : Ttl} (h : x.Follows) (hx : x.OK) (op : Op) (hlog : y.log = Mvcc.step x.log op)
    (hentry : y.entry = x.entry) (hseed : y.seed = x.seed) (hpos : y.pos = x.pos) (hloop : y.loop = x.loop) :
    y.Follows := by
  have hnext : nextRev x.log = x.log.length + 1 := rfl
  have hold : ∀ {i : ℕ} {w : Write} {k : Bytes}, i < x.log.length → y.log[i]? = some w →
      (snapshot y.log).find? k = some w.kv → x.log[i]? = some w ∧ (snapshot x.log).find? k = some w.kv := by
    intro i w k hi hw hlive
    have hw' : x.log[i]? = some w := by
      obtain ⟨w', hw'⟩ : ∃ w', x.log[i]? = some w' := ⟨_, List.getElem?_eq_getElem hi⟩
      have := getElem_step op hw'
      rw [← hlog, hw] at this
      rw [hw', this]
    rw [hlog] at hlive
    rcases live_step op hlive with hlive | hnew
    · exact ⟨hw', hlive⟩
    · have := hx.hist.rev i w hw'
      omega
  have hlen : x.log.length ≤ y.log.length := hlog ▸ length_le_step x.log op
  constructor
  · rw [hseed, hloop, hentry]
    exact h.start
  · rw [hseed, hloop, hentry]
    exact h.page
  · rw [hseed, hpos]
    exact fun rev hs => (h.pos rev hs).trans hlen
  · rw [hseed, hloop, hentry, hpos]
    exact h.next
  · rw [hseed, hloop, hentry, hpos]
    intro rev kv hs hl
    obtain ⟨hle, w, hw, hkv⟩ := h.save rev kv hs hl
    exact ⟨hle, w, hlog ▸ getElem_step op hw, hkv⟩
  · rw [hseed, hloop, hentry, hpos]
    intro rev key t hs hl
    obtain ⟨hle, w, hw, hkey, hlive⟩ := h.queue rev key t hs hl
    have hw' := hlog ▸ getElem_step op hw
    have hi := (List.getElem?_eq_some_iff.1 hw).1
    exact ⟨hle, w, hw', hkey, fun hl => hlive (hold hi hw' hl).2⟩
  · unfold Tracked
    rw [hseed, hpos, hentry]
    intro rev i w hs hrev hi hw hdel hlease hlive
    obtain ⟨hw', hlive'⟩ := hold (lt_of_lt_of_le hi (h.pos rev hs)) hw hlive
    exact h.tracked rev i w hs hrev hi hw' hdel hlease hlive'

theorem Gone.call {y : Ttl} (h : x.Gone) (op : Op) (hlog : y.log = Mvcc.step x.log op)
    (hhandler : y.handler = x.handler) : y.Gone := by
  have hnext : nextRev x.log = x.log.length + 1 := rfl
  have hlen : x.log.length ≤ y.log.length := hlog ▸ length_le_step x.log op
  constructor
  · rw [hhandler]
    intro k m hh
    have := h.delete k m hh
    omega
  · rw [hhandler]
    intro k m hh
    obtain ⟨hle, hne⟩ := h.deleted k m hh
    refine ⟨by omega, fun kv hlive => ?_⟩
    rw [hlog] at hlive
    rcases live_step op hlive with hlive | hnew
    · exact hne kv hlive
    · omega

/-- The live version of a key is its last write. -/
theorem le_live (hx : x.OK) (hlive : (snapshot x.log).find? k = some kv) {w : Write} (hw : w ∈ x.log)
    (hkey : w.kv.key = k) : w.kv.modRevision ≤ kv.modRevision := by
  rw [find_snapshot, live, Option.bind_eq_some_iff] at hlive
  obtain ⟨v, hv, hkv⟩ := hlive
  have hmem : w ∈ ofKey x.log k := List.mem_filter.2 ⟨hw, decide_eq_true hkey⟩
  have hle : w.kv.modRevision ≤ v.kv.modRevision := by
    obtain ⟨l, hl⟩ := List.getLast?_eq_some_iff.1 hv
    have hsorted := ofKey_sorted hx.hist k
    rw [hl] at hmem hsorted
    rcases List.mem_append.1 hmem with hmem | hmem
    · exact ((List.pairwise_append.1 hsorted).2.2 w hmem v (List.mem_singleton_self v)).le
    · rw [List.mem_singleton.1 hmem]
  split at hkv
  · simp at hkv
  · rw [← Option.some.inj hkv]
    exact hle

theorem Follows.list (h : x.Follows) (hx : x.OK) : (x.list limit).Follows := by
  have hpages : ∀ (y : Ttl) (rev : ℕ) (kvs : List KeyValue), x.loop = .next →
      (∀ k e, x.entry k = some e → e.modRevision ≤ rev) → y = { x with seed := .page rev kvs kvs } → y.Follows := by
    rintro y rev kvs hloop hle rfl
    have hsave : ∀ kv, ({ x with seed := .page rev kvs kvs } : Ttl).loop = .save kv → kv.modRevision ≤ rev := by
      intro kv hl
      have hl : x.loop = .save kv := hl
      rw [hloop] at hl
      simp at hl
    refine ⟨nofun, ?_, nofun, nofun, nofun, nofun, nofun⟩
    rintro _ _ _ ⟨⟩
    exact ⟨hle, hsave⟩
  unfold Ttl.list
  split
  · rename_i hseed hloop
    refine hpages _ _ _ hloop (fun k e he => ?_) rfl
    rw [(h.start hseed).2 k] at he
    simp at he
  · rename_i rev kvs hseed hloop
    obtain ⟨hle, -⟩ := h.page _ _ _ hseed
    split
    · refine ⟨nofun, nofun, ?_, ?_, ?_, ?_, ?_⟩
      · rintro _ ⟨⟩
        exact (hx.page _ _ _ hseed).1
      · rintro _ ⟨⟩ -
        exact hle
      · rintro _ kv ⟨⟩ hl
        have hl : x.loop = .save kv := hl
        rw [hloop] at hl
        simp at hl
      · rintro _ key t ⟨⟩ hl
        have hl : x.loop = .queue key t := hl
        rw [hloop] at hl
        simp at hl
      · -- the watch has not begun
        rintro _ i w ⟨⟩ hrev hi
        have hi : i < rev := hi
        omega
    · exact hpages _ _ _ hloop hle rfl
  · exact h

/-- No entry is ahead of the loop, so a leased version it comes to is saved. -/
theorem outdated_of_le {w : Write} (hx : x.OK) (hle : ∀ k e, x.entry k = some e → e.modRevision ≤ x.pos)
    (hw : x.log[x.pos]? = some w) : x.outdated w.kv = true := by
  have hrev := hx.hist.rev _ _ hw
  have hcases : x.outdated w.kv = ((x.entry w.kv.key).map fun e => decide (w.kv.modRevision > e.modRevision)).getD true := by
    unfold outdated entry
    cases (x.store.find? w.kv.key).bind fun e => x.entries[e]? <;> rfl
  rw [hcases]
  cases he : x.entry w.kv.key with
  | none => rfl
  | some e =>
    have := hle _ _ he
    rw [Option.map_some, Option.getD_some, decide_eq_true_eq]
    omega

theorem Follows.next_step (h : x.Follows) (hx : x.OK) : x.next.Follows := by
  rcases x.next_cases with hsame | ⟨rev, kvs, kv, todo, hseed, hloop, hnext⟩ | ⟨rev, w, hseed, hloop, hw, hcases⟩
  · rw [hsame]
    exact h
  · obtain ⟨hle, -⟩ := h.page _ _ _ hseed
    have hkv := ((hx.page _ _ _ hseed).2 kv List.mem_cons_self).2
    rw [hnext]
    refine ⟨nofun, ?_, nofun, nofun, nofun, nofun, nofun⟩
    rintro _ _ _ ⟨⟩
    refine ⟨hle, fun v hv => ?_⟩
    replace hv : (if kv.lease > 0 then TtlLoop.save kv else .next) = .save v := hv
    split at hv
    · rw [← TtlLoop.save.inj hv]
      exact hkv
    · simp at hv
  · have hle := h.next rev hseed hloop
    have hi := (List.getElem?_eq_some_iff.1 hw).1
    -- the event is skipped
    have hskip : (w.delete = true ∨ w.kv.lease ≤ 0) → ({ x with pos := x.pos + 1 } : Ttl).Follows := by
      intro hno
      have hno' : ∀ kv, x.loop ≠ .save kv := fun kv hl => by rw [hloop] at hl; simp at hl
      have hno'' : ∀ key t, x.loop ≠ .queue key t := fun key t hl => by rw [hloop] at hl; simp at hl
      refine ⟨h.start, h.page, fun _ _ => hi, fun _ _ _ k e he => ?_, fun _ kv _ hl => absurd hl (hno' kv),
        fun _ key t _ hl => absurd hl (hno'' key t), fun rev' i v hs hrev hlt hv hdel hlease hlive => ?_⟩
      · have := hle k e he
        show e.modRevision ≤ (x.pos + 1 : ℕ)
        omega
      · replace hlt : i < x.pos + 1 := hlt
        replace hv : x.log[i]? = some v := hv
        rcases Nat.lt_succ_iff_lt_or_eq.1 hlt with hlt | rfl
        · exact h.tracked rev' i v hs hrev hlt hv hdel hlease hlive
        · rw [hw] at hv
          obtain rfl := Option.some.inj hv
          rcases hno with hd | hl
          · rw [hd] at hdel
            simp at hdel
          · omega
    rcases hcases with ⟨hno, hnext⟩ | ⟨-, -, ⟨-, hnext⟩ | ⟨hout, -⟩⟩
    · rw [hnext]
      exact hskip hno
    · rw [hnext]
      refine ⟨fun hs => ?_, fun rev' kvs todo hs => ?_, h.pos, fun _ _ hl => by simp at hl, fun _ kv _ hl => ?_,
        fun _ _ _ _ hl => by simp at hl, h.tracked⟩
      · rw [hseed] at hs
        simp at hs
      · rw [hseed] at hs
        simp at hs
      · exact ⟨hle, w, hw, TtlLoop.save.inj hl⟩
    · rw [outdated_of_le hx hle hw] at hout
      simp at hout

theorem Follows.save_step (h : x.Follows) (hx : x.OK) : x.save.Follows := by
  by_cases hloop : ∃ kv, x.loop = .save kv
  · obtain ⟨kv, hloop⟩ := hloop
    have hentry := entry_save hx hloop
    obtain ⟨hlog, -, -, hseed, hpos, hloop', -⟩ := save_cases hloop
    refine ⟨fun hs => ?_, fun rev kvs todo hs => ⟨fun k e he => ?_, fun v hv => ?_⟩, ?_, fun _ _ hl => ?_,
      fun _ _ _ hl => ?_, fun rev key t hs hl => ?_, ?_⟩
    · rw [hseed] at hs
      rw [(h.start hs).1] at hloop
      simp at hloop
    · rw [hseed] at hs
      obtain ⟨hle, hsave⟩ := h.page _ _ _ hs
      rw [hentry] at he
      split at he
      · rw [← Option.some.inj he]
        exact hsave kv hloop
      · exact hle k e he
    · rw [hloop'] at hv
      simp at hv
    · rw [hseed, hpos, hlog]
      exact h.pos
    · rw [hloop'] at hl
      simp at hl
    · rw [hloop'] at hl
      simp at hl
    · rw [hseed] at hs
      rw [hloop'] at hl
      obtain ⟨hle, w, hw, hkv⟩ := h.save rev kv hs hloop
      obtain ⟨rfl, -⟩ := TtlLoop.queue.inj hl
      have hrev := hx.hist.rev _ _ hw
      rw [hkv] at hrev
      rw [hpos, hlog]
      have hnew := hentry kv.key
      rw [if_pos rfl] at hnew
      refine ⟨fun k e he => ?_, w, hw, by rw [hkv], fun _ => ⟨_, hnew, by rw [hkv]⟩⟩
      · rw [hentry] at he
        split at he
        · rw [← Option.some.inj he]
          show kv.modRevision ≤ x.pos + 1
          omega
        · have := hle k e he
          omega
    · unfold Tracked
      rw [hseed, hpos, hlog]
      intro rev i w hs hrev hi hw hdel hlease hlive
      obtain ⟨-, w', hw', hkv⟩ := h.save rev kv hs hloop
      -- the version that is saved is newer than those the loop has gone through
      have hne : w.kv.key ≠ kv.key := by
        intro hkey
        have hle := le_live hx hlive (List.mem_of_getElem? hw') (by rw [hkv, hkey])
        have := hx.hist.rev _ _ hw
        have := hx.hist.rev _ _ hw'
        omega
      rw [hentry, if_neg hne]
      exact h.tracked rev i w hs hrev hi hw hdel hlease hlive
  · rw [save_of_ne fun kv hl => hloop ⟨kv, hl⟩]
    exact h

theorem Follows.enqueue (h : x.Follows) : x.enqueue.Follows := by
  rcases x.enqueue_cases with hsame | ⟨key, expires, hloop, ⟨⟨rev, hseed⟩, heq⟩ | ⟨hseed, heq⟩⟩
  · rw [hsame]
    exact h
  · obtain ⟨hle, w, hw, hkey, hlive⟩ := h.queue rev key expires hseed hloop
    rw [heq]
    refine ⟨fun hs => ?_, fun rev' kvs todo hs => ?_, fun _ _ => (List.getElem?_eq_some_iff.1 hw).1, fun _ _ _ => hle,
      nofun, nofun, fun rev' i v hs hrev hlt hv hdel hlease hl => ?_⟩
    · rw [hseed] at hs
      simp at hs
    · rw [hseed] at hs
      simp at hs
    · replace hlt : i < x.pos + 1 := hlt
      replace hv : x.log[i]? = some v := hv
      rcases Nat.lt_succ_iff_lt_or_eq.1 hlt with hlt | rfl
      · exact h.tracked rev' i v hs hrev hlt hv hdel hlease hl
      · rw [hw] at hv
        obtain rfl := Option.some.inj hv
        subst hkey
        exact hlive hl
  · rw [heq]
    refine ⟨fun hs => ?_, fun rev kvs todo hs => ⟨(h.page rev kvs todo hs).1, nofun⟩, h.pos, fun rev hs => ?_,
      nofun, nofun, h.tracked⟩
    · rw [(h.start hs).1] at hloop
      simp at hloop
    · exact absurd hs (hseed rev)

theorem Gone.handles {y : Ttl} (h : x.Gone) (hx : x.OK) (hh : Handles x y) : y.Gone := by
  obtain ⟨hmoves, hcases⟩ := hh
  constructor
  · intro k m hk
    rw [hmoves.log]
    rcases hcases with h' | h' | ⟨k', h'⟩ | ⟨k', e', -, h'⟩ | ⟨k', e', v', -, -, -, h'⟩ | ⟨k', e', v', hexp, hv', h'⟩
    · exact h.delete k m (h' ▸ hk)
    · rw [h'] at hk
      simp at hk
    · rw [h'] at hk
      simp at hk
    · rw [h'] at hk
      simp at hk
    · rw [h'] at hk
      simp at hk
    · rw [h'] at hk
      obtain ⟨rfl, rfl⟩ := TtlHandler.delete.inj hk
      have hentry : x.entry k' = some v' := by
        unfold Ttl.entry
        rw [hx.held _ _ (.inr hexp), Option.bind_some, hv']
      obtain ⟨kv, s, hs, -, hrev, -⟩ := hx.version _ _ hentry
      obtain ⟨⟨w, hw, -, hkv⟩, -⟩ := hx.put _ _ hs
      have := (hx.hist.mem_le hw).2
      rw [← hrev, ← hkv]
      exact this
  · intro k m hk
    rw [hmoves.log]
    rcases hcases with h' | h' | ⟨k', h'⟩ | ⟨k', e', -, h'⟩ | ⟨k', e', v', -, -, -, h'⟩ | ⟨k', e', v', -, -, h'⟩
    · exact h.deleted k m (h' ▸ hk)
    all_goals
      rw [h'] at hk
      simp at hk

/-- The handler calls `Delete`: the version is deleted, or it was not the live one. -/
theorem Gone.calls {y : Ttl} {key : Bytes} {m : ℤ} (h : x.Gone) (hcall : Calls x y key m) : y.Gone := by
  have hm := h.delete key m hcall.handler
  rcases hcall.after with ⟨hafter, hlog⟩ | ⟨hafter, -⟩
  · have hlen : x.log.length ≤ y.log.length := hlog ▸ length_le_step x.log _
    constructor
    · intro k m' hk
      rw [hafter] at hk
      simp at hk
    · intro k m' hk
      rw [hafter] at hk
      obtain ⟨rfl, rfl⟩ := TtlHandler.deleted.inj hk
      refine ⟨by omega, fun kv hlive => ?_⟩
      rw [hlog] at hlive
      exact live_delete hm hlive
  · constructor
    · intro k m' hk
      rw [hafter] at hk
      simp at hk
    · intro k m' hk
      rw [hafter] at hk
      simp at hk

theorem Follows.remove (h : x.Follows) (hg : x.Gone) (hs : x.Spared .remove) : x.remove.Follows := by
  rcases x.remove_cases with hsame | ⟨key, m, hhandler, hrem⟩
  · rw [hsame]
    exact h
  · have hentry := entry_erase x key
    have hsub : ∀ {k e}, ({ x with store := x.store.erase key, handler := .idle } : Ttl).entry k = some e →
        x.entry k = some e := by
      intro k e he
      rw [hentry] at he
      split at he
      · simp at he
      · exact he
    -- the entry of a live version is not the one that is removed
    have hlive : ∀ {k kv e}, (snapshot x.log).find? k = some kv → x.entry k = some e →
        e.modRevision = kv.modRevision →
        ({ x with store := x.store.erase key, handler := .idle } : Ttl).entry k = some e := by
      intro k kv e hl he hrev
      rw [hentry]
      split
      · rename_i hk
        subst hk
        have hm := hs k m e rfl hhandler he
        exact absurd (hrev.symm.trans hm) ((hg.deleted k m hhandler).2 kv hl)
      · exact he
    rw [hrem]
    refine ⟨fun hstart => ?_, fun rev kvs todo hp => ?_, h.pos, fun rev hd hl k e he => h.next rev hd hl k e (hsub he),
      fun rev kv hd hl => ?_, fun rev key' t hd hl => ?_, fun rev i w hd hrev hi hw hdel hlease hl => ?_⟩
    · refine ⟨(h.start hstart).1, fun k => ?_⟩
      rw [hentry, (h.start hstart).2 k]
      split <;> rfl
    · obtain ⟨hle, hsave⟩ := h.page rev kvs todo hp
      exact ⟨fun k e he => hle k e (hsub he), hsave⟩
    · obtain ⟨hle, hw⟩ := h.save rev kv hd hl
      exact ⟨fun k e he => hle k e (hsub he), hw⟩
    · obtain ⟨hle, w, hw, hkey, htracked⟩ := h.queue rev key' t hd hl
      refine ⟨fun k e he => hle k e (hsub he), w, hw, hkey, fun hl => ?_⟩
      obtain ⟨e, he, hrev⟩ := htracked hl
      exact ⟨e, hlive hl he hrev, hrev⟩
    · obtain ⟨e, he, hrev⟩ := h.tracked rev i w hd hrev hi hw hdel hlease hl
      exact ⟨e, hlive hl he hrev, hrev⟩

/-- **A step keeps the leased versions in the map** unless the handler removes an entry that
has been saved anew. -/
theorem step_follows (hx : x.OK) (h : x.Follows) (hg : x.Gone) {a : Act} (hs : x.Spared a) :
    (x.step limit a).Follows ∧ (x.step limit a).Gone := by
  have hhandles : ∀ {y}, Handles x y → y.Follows ∧ y.Gone := fun hh =>
    ⟨h.keep hh.1.log hh.1.entry hh.1.seed hh.1.pos hh.1.loop, hg.handles hx hh⟩
  have hcalls : ∀ {y key m}, Calls x y key m → y.Follows ∧ y.Gone := by
    intro y key m hcall
    obtain ⟨op, hlog⟩ := hcall.log
    have hentry : y.entry = x.entry := by
      unfold Ttl.entry
      rw [hcall.entries, hcall.store]
    exact ⟨h.call hx op hlog hentry hcall.seed hcall.pos hcall.loop, hg.calls hcall⟩
  -- a step of the loop, which does not change the handler or the log
  have hloops : ∀ {y : Ttl}, y.log = x.log → y.handler = x.handler → y.Gone := by
    intro y hlog hhandler
    exact ⟨by rw [hlog, hhandler]; exact hg.delete, by rw [hlog, hhandler]; exact hg.deleted⟩
  cases a with
  | client op => exact ⟨h.call hx op rfl rfl rfl rfl rfl, hg.call op rfl rfl⟩
  | tick d => exact ⟨h.keep rfl rfl rfl rfl rfl, hloops rfl rfl⟩
  | list =>
    refine ⟨h.list hx, ?_⟩
    show (x.list limit).Gone
    unfold Ttl.list
    split
    · exact hloops rfl rfl
    · split <;> exact hloops rfl rfl
    · exact hg
  | next =>
    refine ⟨h.next_step hx, ?_⟩
    show x.next.Gone
    rcases x.next_cases with hs | ⟨_, _, _, _, -, -, hs⟩ | ⟨_, _, -, -, -, ⟨-, hs⟩ | ⟨-, -, ⟨-, hs⟩ | ⟨-, hs⟩⟩⟩ <;> rw [hs]
    · exact hg
    all_goals exact hloops rfl rfl
  | save =>
    refine ⟨h.save_step hx, ?_⟩
    show x.save.Gone
    by_cases hloop : ∃ kv, x.loop = .save kv
    · obtain ⟨kv, hloop⟩ := hloop
      obtain ⟨hlog, -, -, -, -, -, hhandler, -⟩ := save_cases hloop
      exact hloops hlog hhandler
    · rw [save_of_ne fun kv hl => hloop ⟨kv, hl⟩]
      exact hg
  | enqueue =>
    refine ⟨h.enqueue, ?_⟩
    show x.enqueue.Gone
    rcases x.enqueue_cases with hs | ⟨_, _, -, ⟨-, hs⟩ | ⟨-, hs⟩⟩ <;> rw [hs]
    · exact hg
    all_goals exact hloops rfl rfl
  | get i => exact hhandles (x.handles_get i)
  | load => exact hhandles x.handles_load
  | check => exact hhandles x.handles_check
  | read => exact hhandles x.handles_read
  | delete =>
    show x.delete.Follows ∧ x.delete.Gone
    rcases x.delete_cases with hsame | ⟨key, m, hcall⟩
    · rw [hsame]
      exact ⟨h, hg⟩
    · exact hcalls hcall
  | fail took =>
    show (x.fail took).Follows ∧ (x.fail took).Gone
    rcases x.fail_cases took with hsame | ⟨key, m, hcall⟩
    · rw [hsame]
      exact ⟨h, hg⟩
    · exact hcalls hcall
  | remove =>
    refine ⟨h.remove hg hs, ?_⟩
    show x.remove.Gone
    rcases x.remove_cases with hsame | ⟨key, m, -, hrem⟩
    · rw [hsame]
      exact hg
    · rw [hrem]
      exact ⟨nofun, nofun⟩

theorem follows_init (log : List Write) (now : ℤ) : (init log now).Follows :=
  ⟨fun _ => ⟨rfl, fun _ => rfl⟩, nofun, nofun, nofun, nofun, nofun, nofun⟩

/-- **Leases are tracked.** In every run in which the handler removes an entry only while it
holds the revision that was deleted, every version that the watch loop has gone through,
that is leased and still live has its entry in the map. -/
theorem leases_tracked (limit : ℤ) (ops : List Op) (now : ℤ) (acts : List Act)
    (hs : Guarded (step limit) Spared (init (run ops) now) acts) :
    Always (step limit) Tracked (init (run ops) now) acts := by
  have hinit : (init (run ops) now).OK ∧ (init (run ops) now).Follows ∧ (init (run ops) now).Gone :=
    ⟨ok_init ops now, follows_init _ now, nofun, nofun⟩
  have hinv := invariant_of_guarded (I := fun x : Ttl => x.OK ∧ x.Follows ∧ x.Gone)
    (fun x a ha hx => ⟨step_ok hx.1 a, step_follows hx.1 hx.2.1 hx.2.2 ha⟩) acts _ hinit hs
  exact hinv.mono fun x hx => hx.2.1.tracked

/-! ## A renewal between two steps of the handler -/

/-- A key is created with a lease of a second. -/
def created : List Act :=
  [.list, .list, .client (.create (ascii "/a") (ascii "v") 1), .next, .save, .enqueue]

/-- The second elapses, and the handler takes the key and checks its entry. -/
def due : List Act := [.tick 1000000000, .get 0, .load, .check]

/-- The key is renewed for 100 seconds, and the loop saves the renewal. -/
def renewal : List Act := [.client (.update (ascii "/a") (ascii "v") 1 100), .next, .save, .enqueue]

/-- The key is renewed in time, and deleted when the renewed lease has elapsed. -/
def plainRun : List Act :=
  created ++ renewal ++ due ++ [.tick 100000000000, .get 0, .load, .check, .read, .delete, .remove]

/-- The key is renewed just before the handler deletes the old version, which deletes
nothing then, and the renewal is saved before the handler removes the entry. -/
def erasingRun : List Act :=
  created ++ due ++ [.read, .client (.update (ascii "/a") (ascii "v") 1 100), .delete, .next, .save, .enqueue, .remove]

/-- The key is renewed after the handler has checked the old version. -/
def earlyRun : List Act := created ++ due ++ renewal ++ [.read, .delete]

theorem spared_of_ne {a : Act} (ha : a ≠ .remove) : x.Spared a := fun _ _ _ h => absurd h ha

theorem spared_remove {m : ℤ} (hhandler : x.handler = .deleted k m)
    (hentry : (x.entry k).map TtlEntry.modRevision = some m) : x.Spared .remove := by
  intro key' m' e _ hh he
  obtain ⟨rfl, rfl⟩ := TtlHandler.deleted.inj (hhandler.symm.trans hh)
  rw [he] at hentry
  exact Option.some.inj hentry

theorem leases_tracked_plain : Always (step 0) Tracked (init (run []) 0) plainRun := by
  refine leases_tracked 0 [] 0 plainRun ?_
  refine ⟨spared_of_ne nofun, spared_of_ne nofun, spared_of_ne nofun, spared_of_ne nofun, spared_of_ne nofun,
    spared_of_ne nofun, spared_of_ne nofun, spared_of_ne nofun, spared_of_ne nofun, spared_of_ne nofun, ?_⟩
  refine ⟨spared_of_ne nofun, spared_of_ne nofun, spared_of_ne nofun, spared_of_ne nofun, spared_of_ne nofun,
    spared_of_ne nofun, spared_of_ne nofun, spared_of_ne nofun, spared_of_ne nofun, spared_of_ne nofun, ?_⟩
  exact ⟨spared_remove (k := ascii "/a") (m := 2) (by decide +kernel) (by decide +kernel), trivial⟩

/-- **The renewed key never expires**: the handler has removed the entry of the renewal, and
drops the key when the queue gives it again. -/
theorem renewal_untracked : ¬ (exec (step 0) (init (run []) 0) erasingRun).Tracked ∧
    (exec (step 0) (init (run []) 0) erasingRun).entry (ascii "/a") = none ∧
    ((snapshot (exec (step 0) (init (run []) 0) erasingRun).log).find? (ascii "/a")).map KeyValue.lease = some 100 := by
  have hentry : (exec (step 0) (init (run []) 0) erasingRun).entry (ascii "/a") = none := by decide +kernel
  refine ⟨fun htracked => ?_, hentry, by decide +kernel⟩
  obtain ⟨e, he, -⟩ := htracked 0 1 ⟨false, false, ⟨ascii "/a", ascii "v", 2, 1, 2, 100⟩⟩ (by decide +kernel)
    (by decide) (by decide +kernel) (by decide +kernel) rfl (by decide) (by decide +kernel)
  rw [hentry] at he
  simp at he

theorem undisturbed_of_ne {a : Act} (ha : a ≠ .save) : x.Undisturbed a := fun _ h => absurd h ha

theorem undisturbed_save {v : KeyValue} (hloop : x.loop = .save v) (hlease : v.lease ≤ 9223372036)
    (hhandler : x.handler = .idle) : x.Undisturbed .save := by
  intro v' _ hv
  obtain rfl := TtlLoop.save.inj (hloop.symm.trans hv)
  refine ⟨hlease, fun e => ?_⟩
  rw [hhandler]
  simp

theorem deletes_elapsed_plain : Always (step 0) Elapsed (init (run []) 0) plainRun ∧
    (exec (step 0) (init (run []) 0) plainRun).calls = [(ascii "/a", 2, 101000000000)] := by
  refine ⟨deletes_elapsed 0 [] 0 plainRun ?_, by decide +kernel⟩
  refine ⟨undisturbed_of_ne nofun, undisturbed_of_ne nofun, undisturbed_of_ne nofun, undisturbed_of_ne nofun,
    undisturbed_save (v := ⟨ascii "/a", ascii "v", 1, 1, 1, 1⟩) (by decide +kernel) (by decide) (by decide +kernel), ?_⟩
  refine ⟨undisturbed_of_ne nofun, undisturbed_of_ne nofun, undisturbed_of_ne nofun,
    undisturbed_save (v := ⟨ascii "/a", ascii "v", 2, 1, 2, 100⟩) (by decide +kernel) (by decide) (by decide +kernel), ?_⟩
  exact ⟨undisturbed_of_ne nofun, undisturbed_of_ne nofun, undisturbed_of_ne nofun, undisturbed_of_ne nofun,
    undisturbed_of_ne nofun, undisturbed_of_ne nofun, undisturbed_of_ne nofun, undisturbed_of_ne nofun,
    undisturbed_of_ne nofun, undisturbed_of_ne nofun, undisturbed_of_ne nofun, undisturbed_of_ne nofun, trivial⟩

/-- **A renewed key is deleted at once**: the handler has checked the expiry of the old
version and deletes the new one, whose lease of 100 seconds it has been saved with at that
moment. -/
theorem renewal_deleted : ¬ (exec (step 0) (init (run []) 0) earlyRun).Elapsed ∧
    (exec (step 0) (init (run []) 0) earlyRun).calls = [(ascii "/a", 2, 1000000000)] ∧
    (exec (step 0) (init (run []) 0) earlyRun).saved.map (fun p => (p.1.modRevision, p.1.lease, p.2)) =
      [(1, 1, 0), (2, 100, 1000000000)] ∧
    (snapshot (exec (step 0) (init (run []) 0) earlyRun).log).find? (ascii "/a") = none := by
  have hcalls : (exec (step 0) (init (run []) 0) earlyRun).calls = [(ascii "/a", 2, 1000000000)] := by decide +kernel
  have hsaved : ∀ p ∈ (exec (step 0) (init (run []) 0) earlyRun).saved,
      p.1.modRevision = 2 → ¬ p.2 + p.1.lease * 1000000000 ≤ 1000000000 := by decide +kernel
  refine ⟨fun helapsed => ?_, hcalls, by decide +kernel, by decide +kernel⟩
  obtain ⟨w, s, -, -, -, hm, -, hs, hle⟩ := helapsed (ascii "/a") 2 1000000000 (by rw [hcalls]; simp)
  exact hsaved _ hs hm hle

end Ttl

end Harikube
