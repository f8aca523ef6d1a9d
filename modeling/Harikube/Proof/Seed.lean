import Harikube.Proof.Ttl
import Harikube.Sorted.Page

/-!
# Seeding the expiry queue

`seed` lists the keys at one revision, page by page, each page beginning with the last key of the
page before. A page is full if it has `listPageSize` keys or more, and after a full page there is
another one.

* `Seeding`: each leased key is saved, or about to be, or on the page, or behind a full page.
* `Seeding.turn`, `pageOf_cost`: every step of `seed` makes the cost of what is left smaller; a full page costs less
  than the keys that it takes off.
* `seed_saves`: **`seed` returns, and has saved every leased key with its revision**, whatever
  clients and the handler do in between.
-/

namespace Harikube

namespace Ttl

open Lts Mvcc Sorted

variable {x y : Ttl} {limit : ℤ} {R : ℕ} {c kvs todo : List KeyValue} {kv : KeyValue}

/-! ## Pages -/

/-- A page of the key-values `c` from the key `start` on. -/
def pageOf (limit : ℤ) (c : List KeyValue) (start : Bytes) : List KeyValue :=
  firstN limit (c.filter fun kv => start ≤ kv.key)

theorem page_eq (x : Ttl) (limit : ℤ) (R : ℕ) {start : Bytes} (hstart : ascii "/" ≤ start) :
    x.page limit R start = pageOf limit (x.content R) start := by
  have hzero : ascii "0" ≠ [] := by decide
  unfold Ttl.page pageOf content Mvcc.list
  have hall : ∀ l : List KeyValue, firstN 0 l = l := fun l => if_neg (lt_irrefl 0)
  rw [hall, List.filter_filter]
  congr 1
  apply List.filter_congr
  intro kv _
  unfold inList
  rw [if_neg hzero, if_neg hzero, Bool.eq_iff_iff]
  simp only [Bool.and_eq_true, decide_eq_true_eq]
  exact ⟨fun h => ⟨h.1, hstart.trans h.1, h.2⟩, fun h => ⟨h.1, h.2.2⟩⟩

theorem content_sorted (x : Ttl) (R : ℕ) : (x.content R).Pairwise fun a b => a.key < b.key :=
  list_sorted (fun _ _ h => key_of_find_snapshot h) _ _

/-- A page is the first keys of its range: at least `listPageSize`, or all of them. -/
theorem pageOf_take (hlimit : limit = 0 ∨ limit = listPageSize) (c : List KeyValue) (start : Bytes) :
    ∃ n, pageOf limit c start = (c.filter fun kv => start ≤ kv.key).take n ∧
      (listPageSize ≤ n ∨ (c.filter fun kv => start ≤ kv.key).length ≤ n) := by
  unfold pageOf firstN
  rcases hlimit with rfl | rfl
  · refine ⟨(c.filter fun kv => start ≤ kv.key).length, ?_, .inr le_rfl⟩
    rw [if_neg (lt_irrefl 0), List.take_length]
  · refine ⟨listPageSize, ?_, .inl le_rfl⟩
    rw [if_pos (by decide), Int.toNat_natCast]

theorem mem_of_mem_pageOf {start : Bytes} (hkv : kv ∈ pageOf limit c start) : kv ∈ c ∧ start ≤ kv.key := by
  have hmem : kv ∈ c.filter fun kv => start ≤ kv.key := by
    unfold pageOf firstN at hkv
    split at hkv
    · exact List.mem_of_mem_take hkv
    · exact hkv
  exact ⟨List.mem_of_mem_filter hmem, of_decide_eq_true (List.mem_filter.1 hmem).2⟩

/-- **Nothing is skipped**: a key from the start on is on the page, or the page is full and the key
is behind its last one. -/
theorem pageOf_covers (hlimit : limit = 0 ∨ limit = listPageSize) (hc : c.Pairwise fun a b => a.key < b.key)
    {start : Bytes} (hkv : kv ∈ c) (hstart : start ≤ kv.key) :
    kv ∈ pageOf limit c start ∨
      listPageSize ≤ (pageOf limit c start).length ∧
        ∀ z, (pageOf limit c start).getLast? = some z → z.key < kv.key := by
  obtain ⟨n, hpage, hn⟩ := pageOf_take hlimit c start
  have hmem : kv ∈ c.filter fun kv => start ≤ kv.key := List.mem_filter.2 ⟨hkv, decide_eq_true hstart⟩
  rw [hpage]
  rcases mem_take_or_after KeyValue.key (hc.filter _) n hmem with h | ⟨hlen, hafter⟩
  · exact .inl h
  · rcases hn with hn | hn
    · exact .inr ⟨hlen.symm ▸ hn, hafter⟩
    · rw [List.take_of_length_le hn]
      exact .inl hmem

/-- **Pages overlap in one key**: what begins at the last key of a page is one key more than the page
has left. -/
theorem pageOf_rest (hlimit : limit = 0 ∨ limit = listPageSize) (hc : c.Pairwise fun a b => a.key < b.key)
    {start : Bytes} {z : KeyValue} (hz : (pageOf limit c start).getLast? = some z) :
    (c.filter fun kv => z.key ≤ kv.key).length + (pageOf limit c start).length =
      (c.filter fun kv => start ≤ kv.key).length + 1 := by
  obtain ⟨n, hpage, -⟩ := pageOf_take hlimit c start
  have hle : start ≤ z.key := (mem_of_mem_pageOf (List.mem_of_getLast? hz)).2
  have hfrom : (c.filter fun kv => z.key ≤ kv.key) =
      (c.filter fun kv => start ≤ kv.key).filter fun kv => z.key ≤ kv.key := by
    rw [List.filter_filter]
    apply List.filter_congr
    intro kv _
    rw [Bool.eq_iff_iff]
    simp only [Bool.and_eq_true, decide_eq_true_eq]
    exact ⟨fun h => ⟨h, hle.trans h⟩, fun h => h.1⟩
  rw [hpage] at hz ⊢
  rw [hfrom, filter_from_take KeyValue.key (hc.filter _) hz, List.length_cons, List.length_drop, List.length_take]
  omega

/-! ## What the other steps leave alone -/

/-- A step of a client, the clock or the handler: `seed` and what it has saved stay. -/
structure Aside (x y : Ttl) : Prop where
  log : x.log <+: y.log
  seed : y.seed = x.seed
  loop : y.loop = x.loop
  saved : y.saved = x.saved
  pos : y.pos = x.pos

theorem Aside.of_eq (h : y = x) : Aside x y := by
  rw [h]
  exact ⟨List.prefix_rfl, rfl, rfl, rfl, rfl⟩

theorem isPrefix_step (h : List Write) (op : Op) : h <+: Mvcc.step h op := by
  rcases step_cases h op with hs | ⟨w, -, hs⟩
  · rw [hs]
  · rw [hs]
    exact List.prefix_append _ _

theorem Handles.aside (h : Handles x y) : Aside x y :=
  ⟨h.1.log ▸ List.prefix_rfl, h.1.seed, h.1.loop, h.1.saved, h.1.pos⟩

theorem Calls.aside {key : Bytes} {m : ℤ} (h : Calls x y key m) : Aside x y := by
  obtain ⟨op, hlog⟩ := h.log
  exact ⟨hlog ▸ isPrefix_step x.log op, h.seed, h.loop, h.saved, h.pos⟩

/-- Only the four parts of its loop move the first goroutine. -/
theorem aside_or_own (limit : ℤ) (x : Ttl) (a : Act) :
    Aside x (x.step limit a) ∨ a = .list ∨ a = .next ∨ a = .save ∨ a = .enqueue := by
  cases a with
  | client op => exact .inl ⟨isPrefix_step x.log op, rfl, rfl, rfl, rfl⟩
  | tick d => exact .inl ⟨List.prefix_rfl, rfl, rfl, rfl, rfl⟩
  | list => simp
  | next => simp
  | save => simp
  | enqueue => simp
  | get i => exact .inl (x.handles_get i).aside
  | load => exact .inl x.handles_load.aside
  | check => exact .inl x.handles_check.aside
  | read => exact .inl x.handles_read.aside
  | delete =>
    rcases x.delete_cases with hsame | ⟨key, m, hcall⟩
    · exact .inl (.of_eq hsame)
    · exact .inl hcall.aside
  | fail took =>
    rcases x.fail_cases took with hsame | ⟨key, m, hcall⟩
    · exact .inl (.of_eq hsame)
    · exact .inl hcall.aside
  | remove =>
    left
    show Aside x x.remove
    rcases x.remove_cases with hsame | ⟨key, m, -, hrem⟩
    · exact .of_eq hsame
    · rw [hrem]
      exact ⟨List.prefix_rfl, rfl, rfl, rfl, rfl⟩

/-- Where `seed` is when it takes a step. -/
theorem seedTurn_cases (hseed : x.seed = .page R kvs todo) {a : Act} (ha : x.seedTurn a = true) :
    (a = .list ∧ todo = [] ∧ x.loop = .next) ∨ (∃ kv rest, a = .next ∧ todo = kv :: rest ∧ x.loop = .next) ∨
      (∃ kv, a = .save ∧ x.loop = .save kv) ∨ ∃ key expires, a = .enqueue ∧ x.loop = .queue key expires := by
  unfold seedTurn at ha
  rw [hseed] at ha
  cases a <;> cases todo <;> cases hloop : x.loop <;> simp_all

/-- **A step that is not one of `seed` leaves it alone**, as long as it has not returned. -/
theorem step_aside (limit : ℤ) (hseed : x.seed = .page R kvs todo) {a : Act} (ha : x.seedTurn a = false) :
    Aside x (x.step limit a) := by
  unfold seedTurn at ha
  rw [hseed] at ha
  rcases aside_or_own limit x a with h | rfl | rfl | rfl | rfl
  · exact h
  · have hsame : x.list limit = x := by
      unfold Ttl.list
      rw [hseed]
      cases todo <;> cases hloop : x.loop <;> simp_all
    exact .of_eq hsame
  · have hsame : x.next = x := by
      unfold Ttl.next
      rw [hseed]
      cases todo <;> cases hloop : x.loop <;> simp_all
    exact .of_eq hsame
  · exact .of_eq (save_of_ne fun v hv => by simp [hv] at ha)
  · have hsame : x.enqueue = x := by
      unfold Ttl.enqueue
      cases hloop : x.loop <;> simp_all
    exact .of_eq hsame

/-! ## What is left to do -/

/-- A key-value has been saved, or is the next one to be. -/
def Kept (x : Ttl) (kv : KeyValue) : Prop := (∃ s, (kv, s) ∈ x.saved) ∨ x.loop = .save kv

/-- `seed` is on the page `kvs` of the key-values `c` at the revision `R`, with `todo` left of it.
Every leased key is kept, or on the page, or behind it. -/
structure Seeding (limit : ℤ) (R : ℕ) (c : List KeyValue) (x : Ttl) (kvs todo : List KeyValue) : Prop where
  seed : x.seed = .page R kvs todo
  le : R ≤ x.log.length
  content : x.content R = c
  page : ∃ start, ascii "/" ≤ start ∧ kvs = pageOf limit c start
  rest : ∀ kv ∈ todo, kv ∈ kvs
  saving : ∀ kv, x.loop = .save kv → kv ∈ c
  covers : ∀ kv ∈ c, 0 < kv.lease → x.Kept kv ∨ kv ∈ todo ∨
    listPageSize ≤ kvs.length ∧ ∀ z, kvs.getLast? = some z → z.key < kv.key

/-- How many steps what is in hand still takes. -/
def loopCost : TtlLoop → ℕ
  | .next => 0
  | .queue _ _ => 1
  | .save _ => 2

/-- The keys that the next page can have, none if there is no next page. -/
def ahead (c kvs : List KeyValue) : ℕ :=
  if kvs.length < listPageSize then 0
  else ((kvs.getLast?).map fun z => (c.filter fun kv => z.key ≤ kv.key).length).getD 0

theorem ahead_full {z : KeyValue} (hfull : ¬ kvs.length < listPageSize) (hz : kvs.getLast? = some z) :
    ahead c kvs = (c.filter fun kv => z.key ≤ kv.key).length := by
  unfold ahead
  rw [if_neg hfull, hz]
  rfl

/-- A page that is full has a last key. -/
theorem getLast_full (hfull : ¬ kvs.length < listPageSize) : ∃ z, kvs.getLast? = some z := by
  cases hk : kvs.getLast? with
  | some z => exact ⟨z, rfl⟩
  | none =>
    rw [List.getLast?_eq_none_iff.1 hk] at hfull
    exact absurd (by decide) hfull

/-- **A page costs less than it takes off**: three steps for each of its keys, where each key that
is left behind it is worth five. -/
theorem pageOf_cost (hlimit : limit = 0 ∨ limit = listPageSize) (hc : c.Pairwise fun a b => a.key < b.key)
    (start : Bytes) :
    3 * (pageOf limit c start).length + 5 * ahead c (pageOf limit c start) +
      min 1 (c.filter fun kv => start ≤ kv.key).length ≤ 5 * (c.filter fun kv => start ≤ kv.key).length := by
  have hle : (pageOf limit c start).length ≤ (c.filter fun kv => start ≤ kv.key).length := by
    obtain ⟨n, hn, -⟩ := pageOf_take hlimit c start
    rw [hn, List.length_take]
    exact min_le_right _ _
  by_cases hfull : (pageOf limit c start).length < listPageSize
  · have hnone : ahead c (pageOf limit c start) = 0 := if_pos hfull
    omega
  · obtain ⟨z, hz⟩ := getLast_full hfull
    have hover := pageOf_rest hlimit hc hz
    have hsize : listPageSize = 1000 := rfl
    rw [ahead_full hfull hz]
    omega

/-- A bound on the steps that `seed` still takes. -/
def cost (c : List KeyValue) (x : Ttl) (kvs todo : List KeyValue) : ℕ :=
  loopCost x.loop + 3 * todo.length + 1 + 5 * ahead c kvs

theorem content_of_isPrefix (hlog : x.log <+: y.log) (hR : R ≤ x.log.length) : y.content R = x.content R := by
  unfold Ttl.content
  rw [snapshotAt_of_isPrefix hlog (by exact_mod_cast hR)]

theorem Seeding.aside (h : Seeding limit R c x kvs todo) (hxy : Aside x y) : Seeding limit R c y kvs todo where
  seed := hxy.seed.trans h.seed
  le := h.le.trans hxy.log.length_le
  content := (content_of_isPrefix hxy.log h.le).trans h.content
  page := h.page
  rest := h.rest
  saving := hxy.loop ▸ h.saving
  covers := by
    unfold Kept
    rw [hxy.saved, hxy.loop]
    exact h.covers

theorem Seeding.sorted (h : Seeding limit R c x kvs todo) : c.Pairwise fun a b => a.key < b.key :=
  h.content ▸ content_sorted x R

theorem Seeding.mem (h : Seeding limit R c x kvs todo) (hkv : kv ∈ kvs) : kv ∈ c := by
  obtain ⟨start, -, rfl⟩ := h.page
  exact (mem_of_mem_pageOf hkv).1

/-- A page from a key that everything before is covered at. -/
theorem seeding_page (hlimit : limit = 0 ∨ limit = listPageSize) (hle : R ≤ x.log.length)
    (hcontent : x.content R = c) {start : Bytes} (hstart : ascii "/" ≤ start) (hloop : x.loop = .next)
    (hseed : x.seed = .page R (pageOf limit c start) (pageOf limit c start))
    (hbefore : ∀ kv ∈ c, 0 < kv.lease → kv.key < start → x.Kept kv) :
    Seeding limit R c x (pageOf limit c start) (pageOf limit c start) := by
  refine ⟨hseed, hle, hcontent, ⟨start, hstart, rfl⟩, fun _ h => h, fun kv h => ?_, fun kv hkv hlease => ?_⟩
  · rw [hloop] at h
    cases h
  · rcases lt_or_ge kv.key start with hlt | hge
    · exact .inl (hbefore kv hkv hlease hlt)
    · exact .inr (pageOf_covers hlimit (hcontent ▸ content_sorted x R) hkv hge)

/-! ## A step of `seed` -/

/-- The list call after a page: `seed` returns, or there is another page. -/
theorem list_page (limit : ℤ) (hseed : x.seed = .page R kvs []) (hloop : x.loop = .next) :
    x.list limit =
      if kvs.length < listPageSize then { x with seed := .done R, pos := R }
      else { x with seed := .page R (x.page limit R ((kvs.getLast?.map KeyValue.key).getD []))
                      (x.page limit R ((kvs.getLast?.map KeyValue.key).getD [])) } := by
  unfold Ttl.list
  rw [hseed, hloop]

/-- A leased key has been saved. -/
def AllSaved (c : List KeyValue) (x : Ttl) : Prop := ∀ kv ∈ c, 0 < kv.lease → ∃ s, (kv, s) ∈ x.saved

/-- **The list call after a page.** Behind a page that is not full there is nothing left; behind a
full one the next page begins with its last key, and costs less. -/
theorem Seeding.list_turn (hlimit : limit = 0 ∨ limit = listPageSize) (h : Seeding limit R c x kvs [])
    (hloop : x.loop = .next) :
    ((x.list limit).seed = .done R ∧ AllSaved c (x.list limit)) ∨
      ∃ kvs', Seeding limit R c (x.list limit) kvs' kvs' ∧ cost c (x.list limit) kvs' kvs' < cost c x kvs [] := by
  have hcases := list_page limit h.seed hloop
  have hnone : ∀ v, x.loop ≠ .save v := fun v hv => by
    rw [hloop] at hv
    cases hv
  split at hcases
  · rename_i hshort
    left
    rw [hcases]
    refine ⟨rfl, fun kv hkv hlease => ?_⟩
    rcases h.covers kv hkv hlease with (hs | hs) | hs | hs
    · exact hs
    · exact absurd hs (hnone kv)
    · cases hs
    · omega
  · rename_i hfull
    right
    obtain ⟨z, hz⟩ := getLast_full hfull
    obtain ⟨start, hstart, hkvs⟩ := h.page
    have hzc : z ∈ c ∧ start ≤ z.key := by
      rw [hkvs] at hz
      exact mem_of_mem_pageOf (List.mem_of_getLast? hz)
    have hzstart : ascii "/" ≤ z.key := hstart.trans hzc.2
    rw [hz, Option.map_some, Option.getD_some, page_eq x limit R hzstart, h.content] at hcases
    have hloop' : (x.list limit).loop = .next := by
      rw [hcases]
      exact hloop
    have hnew : Seeding limit R c (x.list limit) (pageOf limit c z.key) (pageOf limit c z.key) := by
      refine seeding_page hlimit (by rw [hcases]; exact h.le) (by rw [hcases]; exact h.content) hzstart hloop'
        (by rw [hcases]) fun kv hkv hlease hlt => ?_
      rcases h.covers kv hkv hlease with hs | hs | ⟨-, hs⟩
      · rw [hcases]
        exact hs
      · cases hs
      · exact absurd (hs z hz) (lt_asymm hlt)
    refine ⟨_, hnew, ?_⟩
    have hcost := pageOf_cost hlimit h.sorted z.key
    have hpos : 0 < (c.filter fun kv => z.key ≤ kv.key).length :=
      List.length_pos_of_mem (List.mem_filter.2 ⟨hzc.1, decide_eq_true le_rfl⟩)
    unfold cost
    rw [hloop', hloop, ahead_full hfull hz]
    simp only [loopCost, List.length_nil]
    omega

/-- The step from a key-value of the page to its save, or past it. -/
theorem Seeding.next_turn {rest : List KeyValue} (h : Seeding limit R c x kvs (kv :: rest)) (hloop : x.loop = .next) :
    Seeding limit R c x.next kvs rest ∧ cost c x.next kvs rest < cost c x kvs (kv :: rest) := by
  have hnext : x.next =
      { x with seed := .page R kvs rest, loop := if kv.lease > 0 then .save kv else .next } := by
    unfold Ttl.next
    rw [h.seed, hloop]
  have hkv : kv ∈ c := h.mem (h.rest kv List.mem_cons_self)
  rw [hnext]
  constructor
  · refine ⟨rfl, h.le, h.content, h.page, fun v hv => h.rest v (List.mem_cons_of_mem _ hv), fun v hv => ?_,
      fun v hv hlease => ?_⟩
    · simp only at hv
      split at hv
      · rw [← TtlLoop.save.inj hv]
        exact hkv
      · cases hv
    · rcases h.covers v hv hlease with (hs | hs) | hs | hs
      · exact .inl (.inl hs)
      · rw [hloop] at hs
        cases hs
      · rcases List.mem_cons.1 hs with rfl | hs
        · exact .inl (.inr (if_pos hlease))
        · exact .inr (.inl hs)
      · exact .inr (.inr hs)
  · unfold cost
    simp only [hloop, List.length_cons]
    split <;> simp only [loopCost] <;> omega

theorem Seeding.save_turn (h : Seeding limit R c x kvs todo) (hloop : x.loop = .save kv) :
    Seeding limit R c x.save kvs todo ∧ cost c x.save kvs todo < cost c x kvs todo := by
  obtain ⟨hlog, -, -, hseed, -, hloop', -, hsaved, -⟩ := save_cases hloop
  constructor
  · refine ⟨hseed.trans h.seed, hlog ▸ h.le, ?_, h.page, h.rest, fun v hv => ?_, fun v hv hlease => ?_⟩
    · rw [← h.content]
      exact content_of_isPrefix (hlog ▸ List.prefix_rfl) h.le
    · rw [hloop'] at hv
      cases hv
    · rcases h.covers v hv hlease with (⟨t, hs⟩ | hs) | hs | hs
      · exact .inl (.inl ⟨t, hsaved ▸ List.mem_append_left _ hs⟩)
      · rw [hloop] at hs
        obtain rfl := TtlLoop.save.inj hs
        exact .inl (.inl ⟨x.now, hsaved ▸ List.mem_append_right _ (List.mem_singleton_self _)⟩)
      · exact .inr (.inl hs)
      · exact .inr (.inr hs)
  · unfold cost
    rw [hloop, hloop']
    simp only [loopCost]
    omega

theorem Seeding.enqueue_turn {key : Bytes} {expires : ℤ} (h : Seeding limit R c x kvs todo)
    (hloop : x.loop = .queue key expires) :
    Seeding limit R c x.enqueue kvs todo ∧ cost c x.enqueue kvs todo < cost c x kvs todo := by
  have heq : x.enqueue = { x with loop := .next, queue := x.queue ++ [(key, x.now + expires)] } := by
    unfold Ttl.enqueue
    rw [hloop]
    simp only [h.seed]
  rw [heq]
  constructor
  · refine ⟨h.seed, h.le, h.content, h.page, h.rest, fun v hv => ?_, fun v hv hlease => ?_⟩
    · cases hv
    · rcases h.covers v hv hlease with (hs | hs) | hs
      · exact .inl (.inl hs)
      · rw [hloop] at hs
        cases hs
      · exact .inr hs
  · unfold cost
    simp only [hloop, loopCost]
    omega

/-- **A step of `seed`** returns, with every leased key saved, or costs something. -/
theorem Seeding.turn (hlimit : limit = 0 ∨ limit = listPageSize) (h : Seeding limit R c x kvs todo) {a : Act}
    (ha : x.seedTurn a = true) :
    ((x.step limit a).seed = .done R ∧ AllSaved c (x.step limit a)) ∨
      ∃ kvs' todo', Seeding limit R c (x.step limit a) kvs' todo' ∧
        cost c (x.step limit a) kvs' todo' < cost c x kvs todo := by
  rcases seedTurn_cases h.seed ha with ⟨rfl, rfl, hloop⟩ | ⟨kv, rest, rfl, rfl, hloop⟩ | ⟨kv, rfl, hloop⟩ |
    ⟨key, expires, rfl, hloop⟩
  · rcases h.list_turn hlimit hloop with hdone | ⟨kvs', h', hcost⟩
    · exact .inl hdone
    · exact .inr ⟨kvs', kvs', h', hcost⟩
  · exact .inr ⟨kvs, rest, (h.next_turn hloop).1, (h.next_turn hloop).2⟩
  · exact .inr ⟨kvs, todo, (h.save_turn hloop).1, (h.save_turn hloop).2⟩
  · exact .inr ⟨kvs, todo, (h.enqueue_turn hloop).1, (h.enqueue_turn hloop).2⟩

/-! ## After the return -/

/-- What `seed` has returned with stays: the watch loop only adds to what is saved. -/
theorem done_step (limit : ℤ) (hseed : x.seed = .done R) (a : Act) :
    (x.step limit a).seed = .done R ∧ ∀ p ∈ x.saved, p ∈ (x.step limit a).saved := by
  have hstay : ∀ y : Ttl, y = x → y.seed = .done R ∧ ∀ p ∈ x.saved, p ∈ y.saved := by
    rintro y rfl
    exact ⟨hseed, fun _ hp => hp⟩
  rcases aside_or_own limit x a with h | rfl | rfl | rfl | rfl
  · exact ⟨h.seed.trans hseed, fun p hp => h.saved.symm ▸ hp⟩
  · refine hstay _ ?_
    show x.list limit = x
    unfold Ttl.list
    rw [hseed]
  · show x.next.seed = _ ∧ _
    rcases x.next_cases with hsame | ⟨rev, kvs, kv, todo, hpage, -⟩ | ⟨rev, w, -, -, -, hcases⟩
    · exact hstay _ hsame
    · rw [hseed] at hpage
      cases hpage
    · rcases hcases with ⟨-, hn⟩ | ⟨-, -, ⟨-, hn⟩ | ⟨-, hn⟩⟩
      all_goals exact ⟨hn ▸ hseed, fun p hp => (congrArg Ttl.saved hn).symm ▸ hp⟩
  · by_cases hloop : ∃ kv, x.loop = .save kv
    · obtain ⟨kv, hloop⟩ := hloop
      obtain ⟨-, -, -, hs, -, -, -, hsaved, -⟩ := save_cases hloop
      exact ⟨hs.trans hseed, fun p hp => hsaved.symm ▸ List.mem_append_left _ hp⟩
    · exact hstay _ (save_of_ne fun kv hl => hloop ⟨kv, hl⟩)
  · show x.enqueue.seed = _ ∧ _
    rcases x.enqueue_cases with hsame | ⟨key, expires, -, ⟨-, heq⟩ | ⟨-, heq⟩⟩
    · exact hstay _ hsame
    · exact ⟨heq ▸ hseed, fun p hp => (congrArg Ttl.saved heq).symm ▸ hp⟩
    · exact ⟨heq ▸ hseed, fun p hp => (congrArg Ttl.saved heq).symm ▸ hp⟩

/-- `seed` is on a page, or has returned with every leased key saved. -/
def Progress (limit : ℤ) (R : ℕ) (c : List KeyValue) (x : Ttl) : Prop :=
  (∃ kvs todo, Seeding limit R c x kvs todo) ∨ x.seed = .done R ∧ AllSaved c x

theorem Progress.step (hlimit : limit = 0 ∨ limit = listPageSize) (h : Progress limit R c x) (a : Act) :
    Progress limit R c (x.step limit a) := by
  rcases h with ⟨kvs, todo, h⟩ | ⟨hseed, hall⟩
  · cases ha : x.seedTurn a with
    | false => exact .inl ⟨kvs, todo, h.aside (step_aside _ h.seed ha)⟩
    | true =>
      rcases h.turn hlimit ha with hdone | ⟨kvs', todo', h', -⟩
      · exact .inr hdone
      · exact .inl ⟨kvs', todo', h'⟩
  · obtain ⟨hseed', hsaved⟩ := done_step limit hseed a
    refine .inr ⟨hseed', fun kv hkv hlease => ?_⟩
    obtain ⟨t, ht⟩ := hall kv hkv hlease
    exact ⟨t, hsaved _ ht⟩

/-- The step of a schedule. -/
theorem sched_eq (limit : ℤ) (x : Ttl) (o : Option Act) : x.sched limit o = x.step limit (o.getD x.own) := by
  cases o <;> rfl

theorem exec_done (acts : List (Option Act)) :
    ∀ {x : Ttl}, x.seed = .done R → (exec (sched limit) x acts).seed = .done R := by
  induction acts with
  | nil => intro x h; exact h
  | cons o acts ih =>
    intro x h
    rw [exec_cons, sched_eq]
    exact ih (done_step _ h _).1

/-- The next step of the first goroutine is one of `seed` as long as that has not returned. -/
theorem seedTurn_own (hseed : x.seed = .page R kvs todo) : x.seedTurn x.own = true := by
  unfold seedTurn own
  rw [hseed]
  cases todo <;> cases hloop : x.loop <;> rfl

theorem own_ne_remove (x : Ttl) : x.own ≠ .remove := by
  unfold own
  split <;> simp

/-- **`seed` returns** once the first goroutine has taken as many steps as the cost says. -/
theorem Seeding.returns (hlimit : limit = 0 ∨ limit = listPageSize) (acts : List (Option Act)) :
    ∀ {x : Ttl} {kvs todo : List KeyValue}, Seeding limit R c x kvs todo →
      cost c x kvs todo ≤ acts.countP Option.isNone → (exec (sched limit) x acts).seed = .done R := by
  induction acts with
  | nil =>
    intro x kvs todo _ hcost
    unfold cost at hcost
    rw [List.countP_nil] at hcost
    omega
  | cons o acts ih =>
    intro x kvs todo h hcost
    rw [exec_cons]
    -- a step that is not one of `seed` costs nothing
    have hother : ∀ a, x.seedTurn a = false → cost c x kvs todo ≤ acts.countP Option.isNone →
        (exec (sched limit) (x.step limit a) acts).seed = .done R := by
      intro a ha hle
      have hside := step_aside limit h.seed ha
      refine ih (h.aside hside) ?_
      unfold cost at hle ⊢
      rw [hside.loop]
      exact hle
    have hturn : ∀ a, x.seedTurn a = true → cost c x kvs todo ≤ acts.countP Option.isNone + 1 →
        (exec (sched limit) (x.step limit a) acts).seed = .done R := by
      intro a ha hle
      rcases h.turn hlimit ha with hdone | ⟨kvs', todo', h', hlt⟩
      · exact exec_done acts hdone.1
      · exact ih h' (by omega)
    cases o with
    | none =>
      rw [List.countP_cons_of_pos rfl] at hcost
      exact hturn x.own (seedTurn_own h.seed) hcost
    | some a =>
      rw [List.countP_cons_of_neg (by simp)] at hcost
      cases ha : x.seedTurn a with
      | false => exact hother a ha hcost
      | true => exact hturn a ha (by omega)

/-! ## The entries -/

theorem entry_step {a : Act} (hsave : a ≠ .save) (hremove : a ≠ .remove) : (x.step limit a).entry = x.entry := by
  cases a with
  | client op => rfl
  | tick d => rfl
  | list =>
    show (x.list limit).entry = _
    unfold Ttl.list
    repeat' split
    all_goals rfl
  | next =>
    show x.next.entry = _
    rcases x.next_cases with hn | ⟨_, _, _, _, -, -, hn⟩ | ⟨_, _, -, -, -, hcases⟩
    · rw [hn]
    · rw [hn]
      rfl
    · rcases hcases with ⟨-, hn⟩ | ⟨-, -, ⟨-, hn⟩ | ⟨-, hn⟩⟩ <;> rw [hn] <;> rfl
  | save => exact absurd rfl hsave
  | enqueue =>
    show x.enqueue.entry = _
    rcases x.enqueue_cases with hn | ⟨_, _, -, ⟨-, hn⟩ | ⟨-, hn⟩⟩
    · rw [hn]
    · rw [hn]
      rfl
    · rw [hn]
      rfl
  | get i => exact (x.handles_get i).1.entry
  | load => exact x.handles_load.1.entry
  | check => exact x.handles_check.1.entry
  | read => exact x.handles_read.1.entry
  | delete =>
    show x.delete.entry = _
    rcases x.delete_cases with hn | ⟨key, m, hcall⟩
    · rw [hn]
    · unfold Ttl.entry
      rw [hcall.entries, hcall.store]
  | fail took =>
    show (x.fail took).entry = _
    rcases x.fail_cases took with hn | ⟨key, m, hcall⟩
    · rw [hn]
    · unfold Ttl.entry
      rw [hcall.entries, hcall.store]
  | remove => exact absurd rfl hremove

/-- What has been saved of the key-values `c` is in the map. -/
def Held (c : List KeyValue) (x : Ttl) : Prop :=
  ∀ kv ∈ c, (∃ s, (kv, s) ∈ x.saved) → ∃ e, x.entry kv.key = some e ∧ e.modRevision = kv.modRevision

theorem Held.keep (h : Held c x) (hsaved : y.saved = x.saved) (hentry : y.entry = x.entry) : Held c y := by
  unfold Held
  rw [hsaved, hentry]
  exact h

/-- As long as `seed` runs, and until the watch loop takes its first event, the map holds what has
been saved. -/
def Entered (R : ℕ) (c : List KeyValue) (x : Ttl) : Prop :=
  (∀ rev kvs todo, x.seed = .page rev kvs todo → Held c x) ∧
    ∀ rev, x.seed = .done rev → R ≤ x.pos ∧ (x.pos = R → x.loop = .next → Held c x)

/-- The save of a key-value of `c` enters its revision; no other key-value has that key. -/
theorem Held.save (h : Held c x) (hx : x.OK) (hc : c.Pairwise fun a b => a.key < b.key) (hkv : kv ∈ c)
    (hloop : x.loop = .save kv) : Held c x.save := by
  obtain ⟨-, -, -, -, -, -, -, hsaved, -⟩ := save_cases hloop
  intro v hv hs
  rw [entry_save hx hloop]
  split
  · rename_i hkey
    have hnodup : (c.map KeyValue.key).Nodup := List.pairwise_map.2 (hc.imp fun h => h.ne)
    have hsame : v = kv := List.inj_on_of_nodup_map hnodup hv hkv hkey
    exact ⟨_, rfl, by rw [hsame]⟩
  · rename_i hkey
    refine h v hv ?_
    obtain ⟨t, ht⟩ := hs
    rw [hsaved] at ht
    rcases List.mem_append.1 ht with ht | ht
    · exact ⟨t, ht⟩
    · rw [(Prod.mk.inj (List.mem_singleton.1 ht)).1] at hkey
      exact absurd rfl hkey

theorem saved_step {a : Act} (hsave : a ≠ .save) : (x.step limit a).saved = x.saved := by
  rcases aside_or_own limit x a with h | rfl | rfl | rfl | rfl
  · exact h.saved
  · show (x.list limit).saved = _
    unfold Ttl.list
    repeat' split
    all_goals rfl
  · show x.next.saved = _
    rcases x.next_cases with hn | ⟨_, _, _, _, -, -, hn⟩ | ⟨_, _, -, -, -, hcases⟩
    · rw [hn]
    · rw [hn]
    · rcases hcases with ⟨-, hn⟩ | ⟨-, -, ⟨-, hn⟩ | ⟨-, hn⟩⟩ <;> rw [hn]
  · exact absurd rfl hsave
  · show x.enqueue.saved = _
    rcases x.enqueue_cases with hn | ⟨_, _, -, ⟨-, hn⟩ | ⟨-, hn⟩⟩ <;> rw [hn]

/-- While `seed` runs, every step but the handler's removal keeps the map. -/
theorem Seeding.held_step (h : Seeding limit R c x kvs todo) (hx : x.OK) (hheld : Held c x) {a : Act}
    (ha : a ≠ .remove) : Held c (x.step limit a) := by
  by_cases hsave : a = .save
  · subst hsave
    show Held c x.save
    by_cases hloop : ∃ kv, x.loop = .save kv
    · obtain ⟨kv, hloop⟩ := hloop
      exact hheld.save hx h.sorted (h.saving kv hloop) hloop
    · rw [save_of_ne fun kv hl => hloop ⟨kv, hl⟩]
      exact hheld
  · exact hheld.keep (saved_step hsave) (entry_step hsave ha)

/-- The watch loop starts behind the revision of the lists. -/
theorem Seeding.done_pos (h : Seeding limit R c x kvs todo) {a : Act} {rev : ℕ}
    (hdone : (x.step limit a).seed = .done rev) : (x.step limit a).pos = R := by
  cases ha : x.seedTurn a with
  | false =>
    rw [(step_aside _ h.seed ha).seed, h.seed] at hdone
    cases hdone
  | true =>
    rcases seedTurn_cases h.seed ha with ⟨rfl, rfl, hloop⟩ | ⟨kv, rest, rfl, rfl, hloop⟩ | ⟨kv, rfl, hloop⟩ |
      ⟨key, expires, rfl, hloop⟩
    · have hlist := list_page limit h.seed hloop
      replace hdone : (x.list limit).seed = .done rev := hdone
      show (x.list limit).pos = R
      split at hlist
      · rw [hlist]
      · rw [hlist] at hdone
        cases hdone
    · have hs := (h.next_turn hloop).1.seed.symm.trans hdone
      cases hs
    · have hs := (h.save_turn hloop).1.seed.symm.trans hdone
      cases hs
    · have hs := (h.enqueue_turn hloop).1.seed.symm.trans hdone
      cases hs

/-- After the return `pos` does not go back, and the loop that has left its first place does not come
back to it. -/
theorem returned_step (limit : ℤ) (hseed : x.seed = .done R) (hpos : R ≤ x.pos) (a : Act) :
    R ≤ (x.step limit a).pos ∧ ((x.step limit a).pos = R → (x.step limit a).loop = .next →
      x.pos = R ∧ x.loop = .next ∧ (a = .save → x.step limit a = x)) := by
  have hstay : ∀ y : Ttl, y = x → R ≤ y.pos ∧ (y.pos = R → y.loop = .next →
      x.pos = R ∧ x.loop = .next ∧ (a = .save → y = x)) := by
    rintro y rfl
    exact ⟨hpos, fun h1 h2 => ⟨h1, h2, fun _ => rfl⟩⟩
  by_cases hsave : a = .save
  · subst hsave
    by_cases hloop : ∃ kv, x.loop = .save kv
    · obtain ⟨kv, hloop⟩ := hloop
      obtain ⟨-, -, -, -, hp, hl, -⟩ := save_cases hloop
      refine ⟨hp.symm ▸ hpos, fun _ h2 => ?_⟩
      replace h2 : x.save.loop = .next := h2
      rw [hl] at h2
      cases h2
    · exact hstay _ (save_of_ne fun kv hl => hloop ⟨kv, hl⟩)
  rcases aside_or_own limit x a with h | rfl | rfl | rfl | rfl
  · rw [h.pos, h.loop]
    exact ⟨hpos, fun h1 h2 => ⟨h1, h2, fun hs => absurd hs hsave⟩⟩
  · refine hstay _ ?_
    show x.list limit = x
    unfold Ttl.list
    rw [hseed]
  · show R ≤ x.next.pos ∧ (x.next.pos = R → x.next.loop = .next → _)
    rcases x.next_cases with hsame | ⟨rev, kvs, kv, todo, hpage, -⟩ | ⟨rev, w, -, -, -, hcases⟩
    · exact hstay _ hsame
    · rw [hseed] at hpage
      cases hpage
    · rcases hcases with ⟨-, hn⟩ | ⟨-, -, ⟨-, hn⟩ | ⟨-, hn⟩⟩
      · rw [hn]
        exact ⟨hpos.trans (Nat.le_succ _), fun (h1 : x.pos + 1 = R) => by omega⟩
      · rw [hn]
        exact ⟨hpos, fun _ h2 => by cases h2⟩
      · rw [hn]
        exact ⟨hpos.trans (Nat.le_succ _), fun (h1 : x.pos + 1 = R) => by omega⟩
  · exact absurd rfl hsave
  · show R ≤ x.enqueue.pos ∧ (x.enqueue.pos = R → x.enqueue.loop = .next → _)
    rcases x.enqueue_cases with hsame | ⟨key, expires, -, ⟨-, heq⟩ | ⟨hne, -⟩⟩
    · exact hstay _ hsame
    · rw [heq]
      exact ⟨hpos.trans (Nat.le_succ _), fun (h1 : x.pos + 1 = R) => by omega⟩
    · exact absurd hseed (hne R)

theorem Entered.step (hp : Progress limit R c x) (hx : x.OK) (h : Entered R c x) {a : Act} (ha : a ≠ .remove) :
    Entered R c (x.step limit a) := by
  obtain ⟨hpage, hdone⟩ := h
  rcases hp with ⟨kvs, todo, hs⟩ | ⟨hseed, -⟩
  · have hheld : Held c (x.step limit a) := hs.held_step hx (hpage _ _ _ hs.seed) ha
    exact ⟨fun _ _ _ _ => hheld, fun rev hrev => ⟨(hs.done_pos hrev).ge, fun _ _ => hheld⟩⟩
  · obtain ⟨hpos, hheld⟩ := hdone R hseed
    have hseed' := (done_step limit hseed a).1
    obtain ⟨hpos', hback⟩ := returned_step limit hseed hpos a
    refine ⟨fun rev kvs todo hr => ?_, fun rev _ => ⟨hpos', fun h1 h2 => ?_⟩⟩
    · rw [hseed'] at hr
      cases hr
    · obtain ⟨hb1, hb2, hsame⟩ := hback h1 h2
      by_cases hsave : a = .save
      · rw [hsame hsave]
        exact hheld hb1 hb2
      · exact (hheld hb1 hb2).keep (saved_step hsave) (entry_step hsave ha)

/-! ## Runs -/

/-- The state after the first list call. -/
theorem seeding_first (hlimit : limit = 0 ∨ limit = listPageSize) (ops : List Op) (now : ℤ) :
    let x := init (run ops) now
    let page := pageOf limit (x.content (run ops).length) (ascii "/")
    Seeding limit (run ops).length (x.content (run ops).length) (x.list limit) page page := by
  intro x page
  have hlist : x.list limit = { x with seed := .page (run ops).length page page } := by
    unfold Ttl.list
    show ({ x with seed := _ } : Ttl) = _
    rw [page_eq x limit _ le_rfl]
    rfl
  refine seeding_page hlimit (by rw [hlist]; exact le_rfl) (by rw [hlist]; rfl) le_rfl (by rw [hlist]; rfl)
    (by rw [hlist]) fun kv hkv _ hlt => ?_
  -- no key of the range is before its beginning
  have hin := (List.mem_filter.1 hkv).2
  unfold inList at hin
  rw [if_neg (by decide), Bool.and_eq_true, decide_eq_true_eq] at hin
  exact absurd hlt (not_lt.2 hin.1)

/-- **`seed` returns with every leased key saved.** The lists show the keys at the revision of the
first one, page by page or all at once; after the first list clients, the clock, the handler and
`seed` itself take steps in any order.

`seed` has returned after five steps for each key and one more. Every key that has a lease at that
revision has then been saved, and as long as the handler has not removed an entry, the map has its
revision at the moment of the return. -/
theorem seed_saves (limit : ℤ) (hlimit : limit = 0 ∨ limit = listPageSize) (ops : List Op) (now : ℤ)
    (acts : List (Option Act)) :
    let rev := (run ops).length
    let content := (init (run ops) now).content rev
    let last := exec (sched limit) ((init (run ops) now).list limit) acts
    (5 * content.length + 1 ≤ acts.countP Option.isNone → last.seed = .done rev) ∧
      (last.seed = .done rev → ∀ kv ∈ content, 0 < kv.lease → ∃ s, (kv, s) ∈ last.saved) ∧
      (some .remove ∉ acts → last.Returned rev → ∀ kv ∈ content, 0 < kv.lease →
        ∃ e, last.entry kv.key = some e ∧ e.modRevision = kv.modRevision) := by
  intro rev content last
  have hfirst := seeding_first hlimit ops now
  have hok : ((init (run ops) now).list limit).OK := (ok_init ops now).list
  have hprogress : Progress limit rev content last :=
    (invariant (I := Progress limit rev content) (fun x o hx => by rw [sched_eq]; exact hx.step hlimit _) acts _
      (.inl ⟨_, _, hfirst⟩)).last
  have hsaved : last.seed = .done rev → AllSaved content last := by
    intro hdone
    rcases hprogress with ⟨kvs, todo, hs⟩ | ⟨-, hall⟩
    · rw [hs.seed] at hdone
      cases hdone
    · exact hall
  refine ⟨fun hcount => hfirst.returns hlimit acts (le_trans ?_ hcount), hsaved, fun hno hret kv hkv hlease => ?_⟩
  · have hcost := pageOf_cost hlimit hfirst.sorted (ascii "/")
    have hall : (((init (run ops) now).content (run ops).length).filter fun kv => ascii "/" ≤ kv.key).length ≤
        content.length := List.length_filter_le _ _
    have hloop : loopCost ((init (run ops) now).list limit).loop = 0 := rfl
    unfold cost
    rw [hloop]
    omega
  · -- the map holds what has been saved, in every state of the run
    have hentered : last.OK ∧ Progress limit rev content last ∧ Entered rev content last := by
      refine (invariant_of_guarded (G := fun _ o => o ≠ some .remove)
        (I := fun x => x.OK ∧ Progress limit rev content x ∧ Entered rev content x) ?_ acts _
        ⟨hok, .inl ⟨_, _, hfirst⟩, fun _ _ _ _ v hv hs => ?_, fun r hr => ?_⟩
        (guarded_of_mem (G := fun _ o => o ≠ some .remove) acts (fun o ho _ heq => hno (heq ▸ ho)) _)).last
      · rintro x o ho ⟨hx, hp, he⟩
        rw [sched_eq]
        refine ⟨step_ok hx _, hp.step hlimit _, he.step hp hx ?_⟩
        cases o with
        | some a => exact fun h => ho (congrArg some h)
        | none => exact x.own_ne_remove
      · -- nothing is saved before the first page
        obtain ⟨t, ht⟩ := hs
        cases ht
      · rw [hfirst.seed] at hr
        cases hr
    exact (hentered.2.2.2 rev hret.1).2 hret.2.1 hret.2.2 kv hkv (hsaved hret.1 kv hkv hlease)

/-- One leased key, and the six steps that the bound gives it. -/
theorem seed_saves_one :
    let last := exec (sched 0) ((init (run [.create (ascii "/a") [] 5]) 0).list 0) (List.replicate 6 none)
    last.seed = .done 1 ∧ (∃ s, (⟨ascii "/a", [], 1, 1, 1, 5⟩, s) ∈ last.saved) := by
  intro last
  obtain ⟨hreturns, hsaved, -⟩ := seed_saves 0 (.inl rfl) [.create (ascii "/a") [] 5] 0 (List.replicate 6 none)
  have hdone : last.seed = .done 1 := hreturns (by decide +kernel)
  exact ⟨hdone, hsaved hdone _ (by decide +kernel) (by decide)⟩

end Ttl

end Harikube
