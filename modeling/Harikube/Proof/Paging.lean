import Harikube.Sorted.Page
import Harikube.Proof.MemoryList
import Harikube.Spec.Paging

/-!
# A list page by page is a snapshot

While a client follows a list, others write, and compact up to the revision of the first
page at most. The backend then still has the snapshot of that revision (`Shared.At`), and
every page is a piece of it: what is left of the snapshot from the key of the request on,
cut at the limit, with the number of keys left as its count (`At.page`).

* `memory_pages`: **the pages are the snapshot in key order**, each within the limit, and
  there is more exactly as long as keys remain.
-/

namespace Harikube

open Mvcc Sorted

namespace Memory

/-- Only a compaction moves the compact revision, and to the revision it names. -/
theorem compactRevision_step (m : Memory) (op : Op) :
    (m.step op).compactRevision = m.compactRevision ∨
      ∃ r, op = .compact r ∧ (m.step op).compactRevision = r := by
  cases op with
  | create key value lease =>
    left
    simp only [step, create]
    split <;> rfl
  | update key value revision lease =>
    left
    simp only [step, update]
    split
    · rfl
    · split
      · rfl
      · split <;> rfl
  | delete key revision =>
    left
    simp only [step, delete]
    split
    · rfl
    · split
      · rfl
      · split <;> rfl
  | compact r =>
    simp only [step, compact]
    split
    · exact .inl rfl
    · split
      · exact .inl rfl
      · exact .inr ⟨r, rfl, rfl⟩

theorem compactRevision_foldl_le {R : ℤ} (ops : List Op) : ∀ {m : Memory}, m.compactRevision ≤ R →
    (∀ op ∈ ops, ∀ r, op = .compact r → r ≤ R) → (ops.foldl step m).compactRevision ≤ R := by
  induction ops with
  | nil => intro m hm _; exact hm
  | cons op ops ih =>
    intro m hm hops
    refine ih ?_ fun op hop => hops op (List.mem_cons_of_mem _ hop)
    rcases compactRevision_step m op with heq | ⟨r, rfl, heq⟩
    · rw [heq]
      exact hm
    · rw [heq]
      exact hops _ List.mem_cons_self r rfl

end Memory

namespace Shared

open Memory

/-- The store has the snapshot `s` at revision `R`, and is not compacted past it. -/
structure At (x : Shared) (R : ℤ) (s : OMap Bytes KeyValue) : Prop where
  refines : ∃ h n, Refines x.memory h n ∧ snapshotAt h R = s
  compact_le : x.memory.compactRevision ≤ R
  le_current : R ≤ x.memory.currentRevision
  retains : x.Retains R

variable {x : Shared} {R : ℤ} {s : OMap Bytes KeyValue}

/-- **The calls of others leave the snapshot alone.** -/
theorem At.advance (hx : x.At R s) : x.advance.At R s := by
  obtain ⟨⟨h, n, hR, hs⟩, hc, hcur, hret⟩ := hx
  unfold Shared.advance
  split
  case h_1 => exact ⟨⟨h, n, hR, hs⟩, hc, hcur, hret⟩
  case h_2 ops others hothers =>
    have hgrow := foldl_step_grows ops h
    have hR' := foldl_refines ops hR
    have hle : R ≤ h.length := hR.cur ▸ hcur
    refine ⟨⟨_, _, hR', ?_⟩, ?_, ?_, ?_⟩
    · rw [← hs]
      exact snapshotAt_of_isPrefix hgrow hle
    · exact compactRevision_foldl_le ops hc (hret ops (hothers ▸ List.mem_cons_self))
    · rw [hR'.cur]
      have := hgrow.length_le
      omega
    · exact fun ops' hops' => hret ops' (hothers ▸ List.mem_cons_of_mem _ hops')

theorem At.key (hx : x.At R s) {k : Bytes} {kv : KeyValue} (hf : s.find? k = some kv) : kv.key = k := by
  obtain ⟨⟨h, n, hR, rfl⟩, -⟩ := hx
  exact key_of_find_snapshot hf

/-- A snapshot that is not empty has a revision. -/
theorem At.pos (hx : x.At R s) (hs : s.entries ≠ []) : 0 < R := by
  obtain ⟨⟨h, n, hR, rfl⟩, -⟩ := hx
  by_contra hle
  apply hs
  unfold snapshotAt
  rw [show R.toNat = 0 by omega]
  rfl

/-- The revisions that a request reads the snapshot at: `R` itself, or zero as long as it
is the current one. -/
def Reads (x : Shared) (R revision : ℤ) : Prop :=
  revision = R ∧ 0 < R ∨ revision = 0 ∧ x.memory.currentRevision = R

theorem At.list (hx : x.At R s) {revision : ℤ} (hrev : x.Reads R revision) (key rangeEnd : Bytes) (limit : ℤ)
    (keysOnly : Bool) :
    x.memory.list key rangeEnd limit revision keysOnly =
      (R, (Mvcc.list s key rangeEnd limit).map (strip keysOnly), none) := by
  obtain ⟨⟨h, n, hR, rfl⟩, hc, hcur, -⟩ := hx
  rcases hrev with ⟨rfl, h0⟩ | ⟨rfl, heq⟩
  · exact hR.list_at key rangeEnd limit keysOnly h0 hc hcur
  · rw [hR.list_current key rangeEnd limit keysOnly le_rfl, heq]
    unfold snapshotAt
    rw [List.take_of_length_le (by have := hR.cur; omega)]

theorem At.count (hx : x.At R s) (h0 : 0 < R) (key rangeEnd : Bytes) :
    x.memory.count key rangeEnd R = (R, ((Mvcc.list s key rangeEnd 0).length : ℤ), none) := by
  unfold Memory.count
  rw [hx.list (.inl ⟨rfl, h0⟩)]
  simp

/-! ## What is left of a snapshot -/

/-- The keys of a snapshot in a range come in order. -/
theorem At.sorted (hx : x.At R s) (key rangeEnd : Bytes) :
    (Mvcc.list s key rangeEnd 0).Pairwise fun a b => a.key < b.key :=
  list_sorted (fun _ _ hf => hx.key hf) key rangeEnd

/-- **The next page begins where the last one ended**: behind the first `n` keys of a
range there are the keys from the last of them, followed by a zero byte, on. -/
theorem At.rest (hx : x.At R s) {key rangeEnd : Bytes} (hend : rangeEnd ≠ []) {n : ℕ} {kv : KeyValue}
    (hlast : ((Mvcc.list s key rangeEnd 0).take n).getLast? = some kv) :
    Mvcc.list s (kv.key ++ [0]) rangeEnd 0 = (Mvcc.list s key rangeEnd 0).drop n := by
  rw [← filter_after_take KeyValue.key (hx.sorted key rangeEnd) hlast]
  have hmem : kv ∈ Mvcc.list s key rangeEnd 0 := List.mem_of_mem_take (List.mem_of_getLast? hlast)
  have hge : key ≤ kv.key := by
    have hin := (List.mem_filter.1 hmem).2
    simp only [inList, if_neg hend, Bool.and_eq_true, decide_eq_true_eq] at hin
    exact hin.1
  show s.values.filter _ = (s.values.filter _).filter _
  rw [List.filter_filter]
  apply List.filter_congr
  intro kv' _
  have hnext : kv.key < kv'.key ↔ kv.key ++ [0] ≤ kv'.key := lt_iff_append_le fun b _ => Fin.zero_le b
  simp only [inList, if_neg hend]
  rw [Bool.eq_iff_iff]
  simp only [Bool.and_eq_true, decide_eq_true_eq, hnext]
  constructor
  · rintro ⟨h1, h2⟩
    exact ⟨h1, (hge.trans_lt (hnext.2 h1)).le, h2⟩
  · rintro ⟨h1, -, h2⟩
    exact ⟨h1, h2⟩

/-! ## One page -/

variable (reg : Bytes → Option Err)

/-- The response that is a page: the first keys that are left, and how many there are. -/
def pageOf (s : OMap Bytes KeyValue) (R : ℤ) (r : RangeRequest) : LimitedServer.RangeResponse :=
  let left := Mvcc.list s r.key r.rangeEnd 0
  ⟨R, (left.take r.limit.toNat).map (strip r.keysOnly), r.limit.toNat < left.length, left.length⟩

/-- **A page is what is left of the snapshot, cut at the limit.** -/
theorem At.page (hx : x.At R s) {r : RangeRequest} (hrev : x.Reads R r.revision) (hr0 : 0 ≤ r.revision)
    (hlimit : 1 ≤ r.limit) (hcount : r.countOnly = false) :
    ∃ y : Shared, y.At R s ∧ (⟨backend, reg⟩ : LimitedServer Shared).list x r = (.ok (pageOf s R r), y) := by
  have hrevision : (if r.revision > 0 then r.revision else 0) = r.revision := by
    split <;> omega
  have hlist := hx.list hrev r.key r.rangeEnd (r.limit + 1) r.keysOnly
  have hfirst : Mvcc.list s r.key r.rangeEnd (r.limit + 1) =
      (Mvcc.list s r.key r.rangeEnd 0).take (r.limit.toNat + 1) := by
    show firstN _ _ = (firstN 0 _).take _
    unfold firstN
    rw [if_pos (by omega), if_neg (by omega), show (r.limit + 1).toNat = r.limit.toNat + 1 by omega]
  set left := Mvcc.list s r.key r.rangeEnd 0 with hleft
  unfold LimitedServer.list
  simp only [hcount, Bool.false_eq_true, if_false, hrevision]
  rw [if_pos (show r.limit > 0 by omega)]
  simp only [backend, Memory.backend, call, hlist, hfirst, List.length_map, List.length_take]
  have hadv : (Shared.advance ⟨x.memory, x.others⟩).At R s := hx.advance
  by_cases hmore : r.limit.toNat < left.length
  · -- one key more than the limit: the rest is counted at the revision of the list
    have h0 : 0 < R := by
      apply hx.pos
      intro hnil
      rw [hleft] at hmore
      simp [Mvcc.list, OMap.values, hnil, firstN] at hmore
    have hpinned : (if r.revision = 0 then R else r.revision) = R := by
      rcases hrev with ⟨h, -⟩ | ⟨h, -⟩
      · rw [h]
        split <;> rfl
      · rw [if_pos h]
    rw [if_pos (by omega), hpinned, hadv.count h0]
    refine ⟨_, hadv.advance, ?_⟩
    have htake : (((left.take (r.limit.toNat + 1)).map (strip r.keysOnly)).take (r.limit + 1 - 1).toNat) =
        (left.take r.limit.toNat).map (strip r.keysOnly) := by
      rw [show (r.limit + 1 - 1).toNat = r.limit.toNat by omega, ← List.map_take, List.take_take,
        min_eq_left (by omega)]
    simp only [htake, pageOf, ← hleft, hmore, decide_true]
  · rw [if_neg (by omega)]
    refine ⟨_, hadv, ?_⟩
    have hall : left.take (r.limit.toNat + 1) = left := List.take_of_length_le (by omega)
    have hall' : left.take r.limit.toNat = left := List.take_of_length_le (by omega)
    simp only [hall, hall', pageOf, ← hleft, hmore, decide_false]
    rw [min_eq_right (by omega)]

/-! ## All pages -/

/-- What a page leaves: behind a full page the next one begins. -/
theorem At.pages (hx : x.At R s) {r : RangeRequest} (hrev : x.Reads R r.revision) (hr0 : 0 ≤ r.revision)
    (hend : r.rangeEnd ≠ []) (hlimit : 1 ≤ r.limit) (hcount : r.countOnly = false) {fuel : ℕ}
    (hfuel : (Mvcc.list s r.key r.rangeEnd 0).length < fuel) :
    ∃ pages : List RangeRequest,
      (⟨backend, reg⟩ : LimitedServer Shared).follow fuel x r =
        pages.map (fun q => (q, .ok (pageOf s R q))) ∧
      (pages.flatMap fun q => (pageOf s R q).kvs) =
        (Mvcc.list s r.key r.rangeEnd 0).map (strip r.keysOnly) ∧
      ∀ i q, pages[i]? = some q → q.limit = r.limit ∧ q.rangeEnd = r.rangeEnd ∧
        ((pageOf s R q).more = true ↔ ((pages.drop (i + 1)).flatMap fun q => (pageOf s R q).kvs) ≠ []) := by
  induction fuel generalizing x r with
  | zero => omega
  | succ fuel ih =>
    obtain ⟨y, hy, hpage⟩ := hx.page reg hrev hr0 hlimit hcount
    set left := Mvcc.list s r.key r.rangeEnd 0 with hleft
    have hkvs : (pageOf s R r).kvs = (left.take r.limit.toNat).map (strip r.keysOnly) := rfl
    have hmore : (pageOf s R r).more = decide (r.limit.toNat < left.length) := rfl
    unfold LimitedServer.follow
    rw [hpage]
    by_cases hlt : r.limit.toNat < left.length
    · -- there is a last key, and behind it the rest
      obtain ⟨kv, hkv⟩ : ∃ kv, (left.take r.limit.toNat).getLast? = some kv := by
        apply Option.isSome_iff_exists.1
        rw [List.getLast?_isSome, ne_eq, List.take_eq_nil_iff, not_or]
        exact ⟨by omega, fun hnil => by simp [hnil] at hlt⟩
      have hlast : (pageOf s R r).kvs.getLast? = some (strip r.keysOnly kv) := by
        rw [hkvs, List.getLast?_map, hkv]
        rfl
      have hkey : (strip r.keysOnly kv).key = kv.key := by
        unfold strip
        split <;> rfl
      have hrest := hx.rest hend hkv
      have h0 : 0 < R := by
        apply hx.pos
        intro hnil
        rw [hleft] at hlt
        simp [Mvcc.list, OMap.values, hnil, firstN] at hlt
      have hpinned : (r.after kv.key R).revision = R := by
        show (if r.revision = 0 then R else r.revision) = R
        rcases hrev with ⟨h, -⟩ | ⟨h, -⟩
        · rw [h]
          split <;> rfl
        · rw [if_pos h]
      have hnext : Mvcc.list s (r.after kv.key R).key (r.after kv.key R).rangeEnd 0 =
          left.drop r.limit.toNat := hrest
      obtain ⟨pages, hfollow, hflat, hall⟩ := ih hy (r := r.after kv.key R) (.inl ⟨hpinned, h0⟩)
        (by rw [hpinned]; exact h0.le) hend hlimit hcount (by rw [hnext, List.length_drop]; omega)
      have hrev' : (pageOf s R r).revision = R := rfl
      refine ⟨r :: pages, ?_, ?_, ?_⟩
      · simp only [hmore, hlt, decide_true, hlast, hkey, hrev', hfollow, List.map_cons]
      · have hko : (r.after kv.key R).keysOnly = r.keysOnly := rfl
        rw [List.flatMap_cons, hflat, hnext, hkvs, hko, ← List.map_append, List.take_append_drop]
      · intro i q hq
        cases i with
        | zero =>
          simp only [List.getElem?_cons_zero, Option.some.injEq] at hq
          subst hq
          refine ⟨rfl, rfl, ?_⟩
          simp only [Nat.zero_add, List.drop_succ_cons, List.drop_zero, hflat, hnext, hmore,
            decide_eq_true_eq, ne_eq, List.map_eq_nil_iff, List.drop_eq_nil_iff, not_le]
        | succ i => exact hall i q hq
    · have hall : left.take r.limit.toNat = left := List.take_of_length_le (by omega)
      refine ⟨[r], ?_, ?_, ?_⟩
      · simp only [hmore, hlt, decide_false, List.map_cons, List.map_nil]
      · rw [List.flatMap_cons, List.flatMap_nil, List.append_nil, hkvs, hall]
      · intro i q hq
        cases i with
        | zero =>
          simp only [List.getElem?_cons_zero, Option.some.injEq] at hq
          subst hq
          exact ⟨rfl, rfl, by simp [hmore, hlt]⟩
        | succ i => simp at hq

end Shared

open Memory Shared

/-- **Following a list page by page returns the snapshot of its first page.** On any
reachable backend in memory, with writes of others between any two calls of the backend
and no compaction past the revision `R` of the first page: with fuel for every key the
client gets only pages, all of revision `R`; together they are the keys live in the range
at `R`, each once and in order; a page has at most `limit` keys, it announces more exactly
if a later page has a key, and its count then is the number of keys live at `R` from the
key of its request on. -/
theorem memory_pages (ops : List Op) (others : List (List Op)) (reg : Bytes → Option Err) (r : RangeRequest)
    (hend : r.rangeEnd ≠ []) (hlimit : 1 ≤ r.limit) (hrev : r.revision = 0) (hcount : r.countOnly = false)
    (hretains : Shared.Retains ⟨Memory.run ops, others⟩ (Memory.run ops).currentRevision) (fuel : ℕ)
    (hfuel : (Mvcc.list (snapshot (Mvcc.run ops)) r.key r.rangeEnd 0).length < fuel) :
    ∃ pages : List (RangeRequest × LimitedServer.RangeResponse),
      (⟨Shared.backend, reg⟩ : LimitedServer Shared).follow fuel ⟨Memory.run ops, others⟩ r =
        pages.map (fun p => (p.1, .ok p.2)) ∧
      (pages.flatMap fun p => p.2.kvs) =
        (Mvcc.list (snapshot (Mvcc.run ops)) r.key r.rangeEnd 0).map (strip r.keysOnly) ∧
      ∀ i p, pages[i]? = some p → p.2.revision = (Memory.run ops).currentRevision ∧
        (p.2.kvs.length : ℤ) ≤ r.limit ∧
        (p.2.more = true ↔ ((pages.drop (i + 1)).flatMap fun p => p.2.kvs) ≠ []) ∧
        (p.2.more = true →
          p.2.count = ((Mvcc.list (snapshot (Mvcc.run ops)) p.1.key r.rangeEnd 0).length : ℤ)) := by
  have hR := run_refines ops
  set R := (Memory.run ops).currentRevision with hRdef
  set s := snapshot (Mvcc.run ops) with hs
  have hx : Shared.At ⟨Memory.run ops, others⟩ R s := by
    refine ⟨⟨_, _, hR, ?_⟩, ?_, le_rfl, hretains⟩
    · unfold snapshotAt
      rw [List.take_of_length_le (by have := hR.cur; omega)]
    · have := hR.compact_le
      have := hR.cur
      show (Memory.run ops).compactRevision ≤ R
      omega
  obtain ⟨pages, hfollow, hflat, hall⟩ := hx.pages reg (r := r) (.inr ⟨hrev, rfl⟩) hrev.ge hend hlimit hcount hfuel
  refine ⟨pages.map fun q => (q, pageOf s R q), ?_, ?_, ?_⟩
  · rw [hfollow, List.map_map]
    rfl
  · rw [← hflat, List.flatMap_map]
  · intro i p hp
    rw [List.getElem?_map, Option.map_eq_some_iff] at hp
    obtain ⟨q, hq, rfl⟩ := hp
    obtain ⟨hql, hqe, hqm⟩ := hall i q hq
    refine ⟨rfl, ?_, ?_, fun _ => ?_⟩
    · simp only [pageOf, List.length_map, List.length_take, hql]
      omega
    · rw [← List.map_drop, List.flatMap_map]
      exact hqm
    · rw [← hqe]
      rfl

/-- Five keys in pages of two, while others delete, create and compact. -/
theorem memory_pages_two :
    let ops : List Op := [.create (ascii "/a") (ascii "1") 0, .create (ascii "/b") (ascii "2") 0,
      .create (ascii "/c") (ascii "3") 0, .create (ascii "/d") (ascii "4") 0, .create (ascii "/e") (ascii "5") 0]
    let others : List (List Op) := [[.delete (ascii "/c") 0], [.create (ascii "/bb") [] 0, .compact 5],
      [.delete (ascii "/e") 0]]
    let r : RangeRequest := { key := ascii "/", rangeEnd := ascii "0", limit := 2 }
    ∃ pages : List (RangeRequest × LimitedServer.RangeResponse),
      (⟨Shared.backend, fun _ => none⟩ : LimitedServer Shared).follow 6 ⟨Memory.run ops, others⟩ r =
        pages.map (fun p => (p.1, .ok p.2)) ∧
      (pages.flatMap fun p => p.2.kvs).map KeyValue.key =
        [ascii "/a", ascii "/b", ascii "/c", ascii "/d", ascii "/e"] := by
  intro ops others r
  have hcur : (Memory.run ops).currentRevision = 5 := by decide +kernel
  have hretains : Shared.Retains ⟨Memory.run ops, others⟩ (Memory.run ops).currentRevision := by
    rw [hcur]
    rintro os hos op hop c rfl
    simp only [others, List.mem_cons, List.not_mem_nil, or_false] at hos
    rcases hos with rfl | rfl | rfl <;> simp at hop
    omega
  obtain ⟨pages, hfollow, hflat, -⟩ := memory_pages ops others (fun _ => none) r (by decide) (by decide) rfl rfl
    hretains 6 (by decide +kernel)
  exact ⟨pages, hfollow, by rw [hflat]; decide +kernel⟩

end Harikube
