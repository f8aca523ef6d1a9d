import Harikube.Proof.Stitch
import Harikube.Proof.Version

/-!
# The poll loop and the goroutines make progress

* `Hub.query_closer`: an iteration of the poll loop passes on a revision, fills a gap, or
  notes a gap to be filled by the next iteration.
* `Stitch.flush`: the goroutines of a watch empty their channels into the reader.
* `Stitch.drain`: so a watch whose stream is exact can deliver every wanted row of the
  table, without any more rows becoming visible.
* `Stitch.watch_stitches_iff`: **a watch delivers every wanted row once and in order in
  exactly the runs without rows that come too late.**
-/

namespace Harikube

open Kine

namespace Kine

variable {t t' : Kine}

/-- The bytes of an ASCII string determine it. -/
theorem ascii_inj {s s' : String} (hs : ∀ c ∈ s.toList, c.toNat < 256) (hs' : ∀ c ∈ s'.toList, c.toNat < 256)
    (h : ascii s = ascii s') : s = s' := by
  unfold ascii at h
  apply String.toList_inj.1
  generalize s.toList = l at h hs
  generalize s'.toList = l' at h hs'
  induction l generalizing l' with
  | nil => simpa using h.symm
  | cons c l ih =>
    cases l' with
    | nil => simp at h
    | cons c' l' =>
      simp only [List.map_cons, List.cons.injEq] at h
      have hc := hs c List.mem_cons_self
      have hc' := hs' c' List.mem_cons_self
      have hval := congrArg Fin.val h.1
      rw [ofNat_val hc, ofNat_val hc'] at hval
      rw [Char.toNat_inj.1 hval, ih (fun d hd => hs d (List.mem_cons_of_mem _ hd)) l' h.2
        (fun d hd => hs' d (List.mem_cons_of_mem _ hd))]

theorem toNat_lt_of_mem_repr {n : ℕ} {c : Char} (hc : c ∈ n.repr.toList) : c.toNat < 256 := by
  have hdigit := isDigit_bounds (digits_of_repr c hc)
  omega

/-- Different revisions are filled under different names. -/
theorem fillRow_inj {n m : ℤ} (hn : 0 < n) (hm : 0 < m) (h : (fillRow n).name = (fillRow m).name) : n = m := by
  obtain ⟨a, rfl⟩ := Int.eq_ofNat_of_zero_le hn.le
  obtain ⟨b, rfl⟩ := Int.eq_ofNat_of_zero_le hm.le
  have hrepr : ascii a.repr = ascii b.repr := List.append_cancel_left h
  rw [Nat.repr_inj.1 (ascii_inj (fun c => toNat_lt_of_mem_repr) (fun c => toNat_lt_of_mem_repr) hrepr)]

/-- Only fill rows have the names of fill rows. -/
def OwnFills (t : Kine) : Prop := ∀ y ∈ t.rows, isFill y.name = true → y = fillRow y.id

theorem OwnFills.place (h : t.OwnFills) {x : Row} (ht : t.place x = some t')
    (hx : isFill x.name = true → x = fillRow x.id) : t'.OwnFills := by
  intro y hy hname
  rcases (mem_place ht).1 hy with hy | rfl
  · exact h y hy hname
  · exact hx hname

/-- Then every missing revision can be filled. -/
theorem OwnFills.fill (h : t.OwnFills) {n : ℤ} (hn : 0 < n) (hfree : ∀ y ∈ t.rows, y.id ≠ n) :
    ∃ t', t.fill n = some t' ∧ t'.OwnFills := by
  have hclash : ∀ y ∈ t.rows, y.id ≠ n ∧ ¬ y.clash (fillRow n) := by
    intro y hy
    refine ⟨hfree y hy, fun hc => hfree y hy ?_⟩
    have hname : isFill y.name = true := by
      rw [hc.1]
      exact isFill_fillRow n
    have hy' := h y hy hname
    refine fillRow_inj (t.bounded y hy).1 hn ?_
    rw [← hy', hc.1]
  obtain ⟨t', ht⟩ : ∃ t', t.fill n = some t' := by
    unfold Kine.fill Kine.place
    rw [dif_pos ⟨hn, hclash⟩]
    exact ⟨_, rfl⟩
  exact ⟨t', ht, h.place ht fun _ => rfl⟩

section After

variable {x y : Row} {rev limit : ℤ}

/-- A limit leaves at least one row. -/
theorem exists_mem_after (rev limit : ℤ) (hy : y ∈ t.rows) (hrev : rev < y.id) :
    ∃ x, x ∈ t.after [] [] rev limit := by
  have hmem : y ∈ t.rows.filter fun x => decide (rev < x.id) := List.mem_filter.2 ⟨hy, decide_eq_true hrev⟩
  have hall : (t.rows.filter fun x => decide (rev < x.id) && (if ([] : Bytes) = [] then true else
      if ([] : Bytes) = [] then decide (x.name = []) else between [] [] x.name)) =
      t.rows.filter fun x => decide (rev < x.id) := by
    apply List.filter_congr
    intro x _
    simp
  unfold after Mvcc.firstN
  rw [hall]
  split
  · refine List.exists_mem_of_ne_nil _ fun hnil => ?_
    rcases List.take_eq_nil_iff.1 hnil with h | h
    · omega
    · rw [h] at hmem
      exact absurd hmem List.not_mem_nil
  · exact ⟨y, hmem⟩

end After

/-- The largest id is that of a row. -/
theorem exists_currentRev {x : Row} (hx : x ∈ t.rows) : ∃ y ∈ t.rows, y.id = t.currentRev.getD 0 := by
  unfold currentRev
  cases hlast : t.rows.getLast? with
  | none =>
    rw [List.getLast?_eq_none_iff] at hlast
    rw [hlast] at hx
    exact absurd hx List.not_mem_nil
  | some y => exact ⟨y, List.mem_of_getLast? hlast, rfl⟩

theorem currentRev_place {x : Row} (ht : t.place x = some t') (hx : x.id ≤ t.currentRev.getD 0) :
    t'.currentRev.getD 0 = t.currentRev.getD 0 := by
  have hpos := (t'.bounded x ((mem_place ht).2 (.inr rfl))).1
  obtain ⟨w, hw⟩ : ∃ w, w ∈ t.rows := by
    by_contra hnone
    have hnil : t.rows = [] := List.eq_nil_iff_forall_not_mem.2 fun w hw => hnone ⟨w, hw⟩
    have hzero : t.currentRev.getD 0 = 0 := by
      unfold currentRev
      rw [hnil]
      rfl
    omega
  have hattained := exists_currentRev hw
  have hattained' := exists_currentRev ((mem_place (y := x) ht).2 (.inr rfl))
  obtain ⟨y, hy, hyr⟩ := hattained
  obtain ⟨z, hz, hzr⟩ := hattained'
  refine le_antisymm ?_ ?_
  · rw [← hzr]
    rcases (mem_place ht).1 hz with hz | rfl
    · exact id_le_currentRev hz
    · exact hx
  · rw [← hyr]
    exact id_le_currentRev ((mem_place ht).2 (.inl hy))

end Kine

/-! ## An iteration of the poll loop -/

/-- Before the time is over no revision is skipped. -/
theorem pollLoop_skipped (skip : ℤ) (rows : List Row) :
    ∀ rev, (pollLoop skip false rev rows).skipped = false := by
  induction rows with
  | nil => intro rev; rfl
  | cons x rest ih =>
    intro rev
    unfold pollLoop
    simp only [Bool.false_eq_true, and_false, not_false_eq_true, and_true]
    split
    · rfl
    · rename_i hx
      simp [ih, not_not.1 hx]

/-- Why the loop over the rows stops: it has passed them all, or the next revision is
missing; it is filled if it has been missing before. -/
def PollLoop.StopsAt (r : PollLoop) (skip : ℤ) (rows : List Row) : Prop :=
  match r.gap with
  | .atEnd => ∀ z ∈ rows, z.id ≤ r.rev
  | .retry n => n = r.rev + 1 ∧ skip ≠ n ∧ (∃ z ∈ rows, n < z.id) ∧ ∀ z ∈ rows, z.id ≠ n
  | .fill n => n = r.rev + 1 ∧ skip = n ∧ (∃ z ∈ rows, n < z.id) ∧ ∀ z ∈ rows, z.id ≠ n

theorem pollLoop_stopsAt (skip : ℤ) (elapsed : Bool) (rows : List Row) :
    ∀ {rev : ℤ}, (rows.Pairwise fun x y => x.id < y.id) → (∀ x ∈ rows, rev < x.id) →
      (pollLoop skip elapsed rev rows).StopsAt skip rows := by
  induction rows with
  | nil =>
    intro rev _ _ z hz
    exact absurd hz List.not_mem_nil
  | cons x rest ih =>
    intro rev hs hrev
    obtain ⟨hx, hrest⟩ := List.pairwise_cons.1 hs
    have hrx := hrev x List.mem_cons_self
    unfold pollLoop
    simp only
    split
    · rename_i hgap
      -- the first row is already behind the missing revision, and so are the others
      have habove : ∀ z ∈ x :: rest, rev + 1 < z.id := by
        intro z hz
        rcases List.mem_cons.1 hz with rfl | hz
        · omega
        · have := hx z hz
          omega
      have hgone : (∃ z ∈ x :: rest, rev + 1 < z.id) ∧ ∀ z ∈ x :: rest, z.id ≠ rev + 1 :=
        ⟨⟨x, List.mem_cons_self, habove x List.mem_cons_self⟩, fun z hz => (habove z hz).ne'⟩
      by_cases hskip : skip = rev + 1
      · simp only [PollLoop.StopsAt, hskip, ne_eq, not_true_eq_false, if_false]
        exact ⟨trivial, trivial, hgone⟩
      · simp only [PollLoop.StopsAt, ne_eq, hskip, not_false_eq_true, if_true]
        exact ⟨trivial, trivial, hgone⟩
    · have hstop := ih hrest hx
      have hle := (pollLoop_spec skip elapsed rest hrest hx).1
      generalize pollLoop skip elapsed x.id rest = r at hstop hle
      unfold PollLoop.StopsAt at hstop ⊢
      simp only
      cases hg : r.gap with
      | atEnd =>
        rw [hg] at hstop
        intro z hz
        rcases List.mem_cons.1 hz with rfl | hz
        · exact hle
        · exact hstop z hz
      | retry n =>
        rw [hg] at hstop
        obtain ⟨hn, hsk, ⟨z, hz, hzn⟩, hne⟩ := hstop
        refine ⟨hn, hsk, ⟨z, List.mem_cons_of_mem _ hz, hzn⟩, fun w hw => ?_⟩
        rcases List.mem_cons.1 hw with rfl | hw
        · omega
        · exact hne w hw
      | fill n =>
        rw [hg] at hstop
        obtain ⟨hn, hsk, ⟨z, hz, hzn⟩, hne⟩ := hstop
        refine ⟨hn, hsk, ⟨z, List.mem_cons_of_mem _ hz, hzn⟩, fun w hw => ?_⟩
        rcases List.mem_cons.1 hw with rfl | hw
        · omega
        · exact hne w hw

namespace Hub

variable {h : Hub}

theorem noSkip_false (h : Hub) (limit : ℤ) : h.NoSkip (.query limit false) := by
  rintro limit' elapsed p ⟨⟩ _ _
  exact pollLoop_skipped _ _ _

theorem noSkip_of_ne {a : HubAct} (ha : ∀ limit elapsed, a ≠ .query limit elapsed) : h.NoSkip a :=
  fun limit elapsed _ h => absurd h (ha limit elapsed)

/-- How far the poll loop is from a revision that it can pass on. -/
def gapLevel (t : Kine) (p : Poll) : ℕ :=
  if ∃ y ∈ t.rows, y.id = p.pollRevision + 1 then 0 else if p.skip = p.pollRevision + 1 then 1 else 2

/-- How far the poll loop is from the end of the table. -/
def distance (t : Kine) (p : Poll) : ℕ := 3 * (t.currentRev.getD 0 - p.pollRevision).toNat + gapLevel t p

theorem gapLevel_le (t : Kine) (p : Poll) : gapLevel t p ≤ 2 := by
  unfold gapLevel
  split_ifs <;> omega

/-- A revision is passed on: the loop is closer to the end. -/
theorem distance_lt {t : Kine} {p p' : Poll} (hlt : p.pollRevision < p'.pollRevision)
    (hle : p'.pollRevision ≤ t.currentRev.getD 0) : distance t p' < distance t p := by
  have := gapLevel_le t p'
  unfold distance
  omega

/-- Only rows are added, none above: the loop is not further from the end. -/
theorem distance_le {t t' : Kine} {p : Poll} (hlast : t'.currentRev.getD 0 = t.currentRev.getD 0)
    (hrows : ∀ y ∈ t.rows, y.id = p.pollRevision + 1 → ∃ y ∈ t'.rows, y.id = p.pollRevision + 1) :
    distance t' p ≤ distance t p := by
  have hlevel : gapLevel t' p ≤ gapLevel t p := by
    unfold gapLevel
    by_cases h : ∃ y ∈ t.rows, y.id = p.pollRevision + 1
    · obtain ⟨y, hy, hyr⟩ := h
      rw [if_pos (hrows y hy hyr)]
      exact Nat.zero_le _
    · rw [if_neg h]
      split_ifs <;> omega
  unfold distance
  omega

/-- A scan stops as the loop over the rows of its query does. -/
theorem scan_stopsAt (h : Hub) (p : Poll) (limit : ℤ) :
    (h.scan p limit false).StopsAt p.skip (h.table.after [] [] p.pollRevision limit) :=
  pollLoop_stopsAt _ _ _ (h.table.after_sorted _ _) fun _ hx => (mem_after hx).2

theorem scan_rev_le (h : Hub) (p : Poll) (limit : ℤ) (hp : p.pollRevision ≤ h.table.currentRev.getD 0) :
    (h.scan p limit false).rev ≤ h.table.currentRev.getD 0 := by
  obtain ⟨-, -, heq | ⟨x, hx, hxr⟩, -⟩ := pollLoop_spec p.skip false _
    (h.table.after_sorted p.pollRevision limit) fun _ hx => (mem_after hx).2
  · exact heq.le.trans hp
  · exact hxr.symm.le.trans (id_le_currentRev (mem_after hx).1)

/-- The poll loop waits again, and is closer to the end of the table than `d`; only fill
rows have been added. -/
structure Closer (h h' : Hub) (d : ℕ) : Prop where
  held : h'.held = h.held
  own : h'.table.OwnFills
  last : h'.table.currentRev.getD 0 = h.table.currentRev.getD 0
  poll : ∃ p, h'.poll = some p ∧ p.stage = .waiting ∧ p.pollRevision ≤ h'.table.currentRev.getD 0 ∧
    distance h'.table p < d

/-- Publishing a revision. -/
theorem closer_publish {p : Poll} (p' : Poll) {r : PollLoop} (hsave : r.saveLast = true)
    (hlt : p'.pollRevision < r.rev) (hle : r.rev ≤ h.table.currentRev.getD 0) (hown : h.table.OwnFills) :
    Closer h (h.publish p r) (distance h.table p') := by
  unfold publish
  rw [if_pos hsave]
  exact ⟨rfl, hown, rfl, _, rfl, rfl, hle, distance_lt hlt hle⟩

/-- Publishing nothing, with a better chance at the next revision. -/
theorem closer_wait {p : Poll} (p' : Poll) {r : PollLoop} (hsave : r.saveLast = false)
    (hrev : p.pollRevision = p'.pollRevision) (hle : p.pollRevision ≤ h.table.currentRev.getD 0)
    (hown : h.table.OwnFills) {t : Kine} (hlast : h.table.currentRev.getD 0 = t.currentRev.getD 0)
    (hlevel : gapLevel h.table { p with stage := .waiting } < gapLevel t p') :
    Closer h (h.publish p r) (distance t p') := by
  unfold publish
  rw [if_neg (by simp [hsave])]
  refine ⟨rfl, hown, rfl, _, rfl, rfl, hle, ?_⟩
  show 3 * (h.table.currentRev.getD 0 - p.pollRevision).toNat + gapLevel h.table { p with stage := .waiting } <
    3 * (t.currentRev.getD 0 - p'.pollRevision).toNat + gapLevel t p'
  have hdist : h.table.currentRev.getD 0 - p.pollRevision = t.currentRev.getD 0 - p'.pollRevision := by
    rw [hlast, hrev]
  omega

section Query

variable {start rev skip : ℤ} {r : PollLoop}

theorem gapLevel_missing {t : Kine} {stage : PollStage} (hgone : ∀ y ∈ t.rows, y.id ≠ rev + 1) :
    gapLevel t ⟨start, rev, skip, stage⟩ = if skip = rev + 1 then 1 else 2 := by
  unfold gapLevel
  rw [if_neg]
  rintro ⟨y, hy, hyr⟩
  exact hgone y hy hyr

/-- A query that finds rows: a revision is published, or the gap in front of them is noted
or filled. -/
theorem query_closer (hok : h.OK) (hp : h.poll = some ⟨start, rev, skip, .querying⟩)
    (hlt : rev < h.table.currentRev.getD 0) (hown : h.table.OwnFills) (limit : ℤ) :
    Closer h (h.query limit false) (distance h.table ⟨start, rev, skip, .waiting⟩) ∨
      Closer h (h.query limit false).fill (distance h.table ⟨start, rev, skip, .waiting⟩) := by
  have hr : (h.scan ⟨start, rev, skip, .querying⟩ limit false).OK h.table rev :=
    pollLoop_ok (pollLoop_skipped skip (h.table.after [] [] rev limit) rev)
  have hstop := h.scan_stopsAt ⟨start, rev, skip, .querying⟩ limit
  have hle := h.scan_rev_le ⟨start, rev, skip, .querying⟩ limit hlt.le
  obtain ⟨r, hscan⟩ : ∃ r, h.scan ⟨start, rev, skip, .querying⟩ limit false = r := ⟨_, rfl⟩
  rw [hscan] at hr hstop hle
  have hrev : rev ≤ r.rev := hr.le
  have hnosave : ¬ rev < r.rev → r.saveLast = false := by
    intro hpast
    rw [← Bool.not_eq_true]
    exact fun hs => hpast (hr.save.1 hs)
  unfold PollLoop.StopsAt at hstop
  cases hgap : r.gap with
  | atEnd =>
    rw [hgap] at hstop
    have hquery : h.query limit false = h.publish ⟨start, rev, skip, .querying⟩ r := by
      simp only [query, hp, hscan, hgap]
    left
    rw [hquery]
    -- there are rows above, and those that the query has found are passed
    obtain ⟨y, hy, hyr⟩ := exists_currentRev hok.row.choose_spec
    obtain ⟨z, hz⟩ := exists_mem_after rev limit hy (by omega)
    have hpast : rev < r.rev := (mem_after hz).2.trans_le (hstop z hz)
    exact closer_publish ⟨start, rev, skip, .waiting⟩ (hr.save.2 hpast) hpast hle hown
  | retry n =>
    rw [hgap] at hstop
    obtain ⟨hn, hskip, ⟨z, hz, hzn⟩, hne⟩ := hstop
    have hquery : h.query limit false = h.publish ⟨start, rev, n, .querying⟩ r := by
      simp only [query, hp, hscan, hgap]
    have hgone : ∀ y ∈ h.table.rows, y.id ≠ n :=
      fun y hy hyn => hne y (mem_after_of_le hz hy (by show rev < y.id; omega) (by omega)) hyn
    left
    rw [hquery]
    by_cases hpast : rev < r.rev
    · exact closer_publish ⟨start, rev, skip, .waiting⟩ (hr.save.2 hpast) hpast hle hown
    · have hnext : n = rev + 1 := by omega
      subst hnext
      have hlevel : gapLevel h.table ⟨start, rev, rev + 1, .waiting⟩ < gapLevel h.table ⟨start, rev, skip, .waiting⟩ := by
        rw [gapLevel_missing hgone, gapLevel_missing hgone, if_pos rfl, if_neg hskip]
        omega
      exact closer_wait (p := ⟨start, rev, rev + 1, .querying⟩) ⟨start, rev, skip, .waiting⟩ (hnosave hpast) rfl
        hlt.le hown rfl hlevel
  | fill n =>
    rw [hgap] at hstop
    obtain ⟨hn, hskip, ⟨z, hz, hzn⟩, hne⟩ := hstop
    have hquery : h.query limit false = { h with poll := some ⟨start, rev, skip, .filling n r⟩ } := by
      simp only [query, hp, hscan, hgap]
    have hgone : ∀ y ∈ h.table.rows, y.id ≠ n :=
      fun y hy hyn => hne y (mem_after_of_le hz hy (by show rev < y.id; omega) (by omega)) hyn
    have hpos : 0 < n := by
      obtain ⟨hstart, hle', -⟩ := hok.start _ hp
      have hstart : 0 < start := hstart
      have hle' : start ≤ rev := hle'
      omega
    obtain ⟨t', ht, hown'⟩ := hown.fill hpos hgone
    have hlast : t'.currentRev.getD 0 = h.table.currentRev.getD 0 := by
      refine currentRev_place ht ?_
      have := id_le_currentRev (mem_after hz).1
      show n ≤ _
      omega
    have hnew : ∃ y ∈ t'.rows, y.id = n := ⟨fillRow n, (mem_place ht).2 (.inr rfl), rfl⟩
    have hfill : (h.query limit false).fill =
        ({ h with table := t', poll := some ⟨start, rev, skip, .filling n r⟩ } : Hub).publish
          ⟨start, rev, skip, .waiting⟩ r := by
      rw [hquery]
      unfold fill
      simp only [ht, Option.getD_some]
    have hcloser : Closer ({ h with table := t', poll := some ⟨start, rev, skip, .filling n r⟩ } : Hub)
        (h.query limit false).fill (distance h.table ⟨start, rev, skip, .waiting⟩) := by
      rw [hfill]
      by_cases hpast : rev < r.rev
      · have hsame : distance t' ⟨start, rev, skip, .waiting⟩ ≤ distance h.table ⟨start, rev, skip, .waiting⟩ := by
          refine distance_le hlast fun y hy hyr => ⟨y, (mem_place ht).2 (.inl hy), hyr⟩
        obtain ⟨hheld, hown, hl, p, hpoll, hwait, hpl, hd⟩ := closer_publish
          (h := { h with table := t', poll := some ⟨start, rev, skip, .filling n r⟩ })
          (p := ⟨start, rev, skip, .waiting⟩) ⟨start, rev, skip, .waiting⟩ (hr.save.2 hpast) hpast
          (hle.trans hlast.symm.le) hown'
        exact ⟨hheld, hown, hl, p, hpoll, hwait, hpl, hd.trans_le hsame⟩
      · have hnext : n = rev + 1 := by omega
        subst hnext
        have hlevel : gapLevel t' ⟨start, rev, skip, .waiting⟩ < gapLevel h.table ⟨start, rev, skip, .waiting⟩ := by
          rw [gapLevel_missing hgone, if_pos hskip]
          unfold gapLevel
          rw [if_pos hnew]
          omega
        exact closer_wait (p := ⟨start, rev, skip, .waiting⟩) ⟨start, rev, skip, .waiting⟩ (hnosave hpast) rfl
          (hlt.le.trans hlast.symm.le) hown' hlast hlevel
    right
    exact ⟨hcloser.held, hcloser.own, hcloser.last.trans hlast, hcloser.poll⟩

end Query

theorem publish_table (h : Hub) (p : Poll) (r : PollLoop) : (h.publish p r).table = h.table := by
  unfold publish
  split <;> rfl

theorem publish_waiting (h : Hub) (p : Poll) (r : PollLoop) :
    ∃ p', (h.publish p r).poll = some p' ∧ p'.stage = .waiting := by
  unfold publish
  split <;> exact ⟨_, rfl, rfl⟩

/-- The hub itself adds fill rows only. -/
theorem step_own (hown : h.table.OwnFills) {a : HubAct} (ha : ∀ y, a ≠ .place y) : (h.step a).table.OwnFills := by
  cases a with
  | place y => exact absurd rfl (ha y)
  | wake =>
    show h.wake.table.OwnFills
    unfold wake
    split <;> exact hown
  | query limit elapsed =>
    show (h.query limit elapsed).table.OwnFills
    unfold query
    split
    · dsimp only
      split
      · rw [publish_table]; exact hown
      · rw [publish_table]; exact hown
      · exact hown
    · exact hown
  | fill =>
    show h.fill.table.OwnFills
    unfold fill
    split
    · rename_i next r _
      rw [publish_table]
      show ((h.table.fill next).getD h.table).OwnFills
      cases ht : h.table.fill next with
      | none => exact hown
      | some t' => exact hown.place ht fun _ => rfl
    · exact hown
  | receive =>
    show h.receive.table.OwnFills
    unfold receive
    split <;> exact hown
  | fanout => exact hown

end Hub

/-! ## The goroutines -/

namespace Stitch

open Lts

variable {x : Stitch} {w : Event → Bool} {W : List Event} {L limit : ℤ}

/-- The steps of the poll loop, with queries of a given batch size, of the broadcaster, the
goroutines and the reader: no row becomes visible, and there is no subscription. -/
def quiet (limit : ℤ) : Act → Bool
  | .hub (.place _) => false
  | .hub (.query n _) => n = limit
  | .hub _ => true
  | .connect => false
  | .feed a => Feed.moves a
  | .read => true

def Quiet (limit : ℤ) (x : Stitch) (a : Act) : Prop := quiet limit a = true ∧ x.Assumed a

/-- A watch that is on its way to deliver `W`. -/
structure Draining (w : Event → Bool) (W : List Event) (L : ℤ) (x : Stitch) : Prop where
  ok : x.OK
  exactly : x.Exactly
  listed : x.feed.stage = .listed L
  own : x.hub.table.OwnFills
  wants : x.feed.wants = w
  rows : (x.hub.table.rows.map Row.event).filter w = W

/-- It stays on its way. -/
theorem Draining.step (h : Draining w W L x) {a : Act} (ha : x.Quiet limit a) :
    Draining w W L (x.step a) := by
  obtain ⟨hq, ha⟩ := ha
  have hin : x.InTime a := by
    refine inTime_of_ne ?_
    rintro y rfl
    exact absurd hq Bool.false_ne_true
  have hok := step_ok h.ok ha
  have hexact := (step_exactly h.ok h.exactly ha).2 hin
  cases a with
  | hub b =>
    have hb : ∀ y, b ≠ .place y := by
      rintro y rfl
      exact absurd hq Bool.false_ne_true
    have hframe : (x.step (.hub b)).feed.stage = x.feed.stage ∧ (x.step (.hub b)).feed.wants = x.feed.wants := by
      by_cases hf : b = .fanout
      · subst hf
        obtain ⟨-, hstage, -, hwants, -⟩ := feed_fanout h.ok ha
        exact ⟨hstage, hwants⟩
      · rw [(feed_hub h.ok (ha b rfl).1 hf).1]
        exact ⟨rfl, rfl⟩
    have hrows : ((x.hub.step b).table.rows.map Row.event).filter w = (x.hub.table.rows.map Row.event).filter w := by
      by_cases hf : b = .fanout
      · subst hf
        rfl
      · obtain ⟨t', ht, htable, -⟩ := Hub.step_advance h.ok.hub (ha b rfl).1 hf
        rw [htable]
        rcases ht with rfl | ⟨y, hy, rfl | hfill⟩
        · rfl
        · exact absurd rfl (hb y)
        · rw [List.filter_map, List.filter_map]
          refine congrArg _ (filter_place hy ?_)
          rw [← h.wants]
          simp [Feed.wants, hfill]
    exact ⟨hok, hexact, hframe.1.trans h.listed, Hub.step_own h.own hb, hframe.2.trans h.wants,
      hrows.trans h.rows⟩
  | connect => exact absurd hq Bool.false_ne_true
  | feed a =>
    have hstep : x.step (.feed a) = { x with feed := x.feed.step x.hub.table a } := by
      cases a with
      | subscribe => exact absurd hq Bool.false_ne_true
      | _ => rfl
    obtain ⟨hstage, hwants, -⟩ := x.feed.step_frame x.hub.table hq
    rw [hstep] at hok hexact ⊢
    exact ⟨hok, hexact, hstage.trans h.listed, h.own, hwants.trans h.wants, h.rows⟩
  | read =>
    have hkeep : (x.step .read).hub = x.hub ∧ (x.step .read).feed.stage = x.feed.stage ∧
        (x.step .read).feed.wants = x.feed.wants := by
      cases hres : x.feed.result with
      | nil =>
        rw [step_read_nil hres]
        exact ⟨rfl, rfl, rfl⟩
      | cons events result =>
        rw [step_read_cons hres]
        exact ⟨rfl, rfl, rfl⟩
    obtain ⟨hhub, hstage, hwants⟩ := hkeep
    refine ⟨hok, hexact, hstage.trans h.listed, ?_, hwants.trans h.wants, ?_⟩
    · rw [hhub]; exact h.own
    · rw [hhub]; exact h.rows

/-- The batches on their way, each counted with the steps it has to make. -/
def load (x : Stitch) : ℕ :=
  7 * x.hub.outbox.toList.length + 6 * x.hub.held.toList.length + 5 * x.feed.sub.length +
    4 * x.feed.filtered.toList.length + 3 * x.feed.res.length + 2 * x.feed.forwarded.toList.length +
    x.feed.result.length

theorem assumed_of_ne {a : Act} (ha : ∀ b, a ≠ .hub b) : x.Assumed a := fun b hb => absurd hb (ha b)

theorem assumed_hub {b : HubAct} (hskip : x.hub.NoSkip b) (hb : b ≠ .fanout) : x.Assumed (.hub b) := by
  rintro b' ⟨⟩
  exact ⟨hskip, fun h => absurd h hb⟩

theorem assumed_fanout (hroom : x.feed.sub.length < capacity) : x.Assumed (.hub .fanout) := by
  rintro b ⟨⟩
  exact ⟨Hub.noSkip_of_ne (by simp), fun _ _ => hroom⟩

/-- As long as a batch is on its way, the one that is furthest can make a step. -/
theorem exists_load_lt (limit : ℤ) (hL : x.feed.stage = .listed L) (hin : x.feed.inSubs = true) (hload : x.load ≠ 0) :
    ∃ a, x.Quiet limit a ∧ (x.step a).load < x.load ∧ (x.step a).hub.table = x.hub.table ∧
      (x.step a).hub.poll = x.hub.poll := by
  obtain ⟨⟨table, polledRev, poll, outbox, held⟩, ⟨key, rangeEnd, start, selected, stage, inSubs, dropped, sub,
    filtered, res, forwarded, result⟩, delivered⟩ := x
  obtain rfl : stage = .listed L := hL
  obtain rfl : inSubs = true := hin
  rcases result with _ | ⟨events, result⟩
  case cons =>
    refine ⟨.read, ⟨rfl, assumed_of_ne (by simp)⟩, ?_, rfl, rfl⟩
    simp [load, step]
  rcases forwarded with _ | events
  case some =>
    refine ⟨.feed .deliver, ⟨rfl, assumed_of_ne (by simp)⟩, ?_, rfl, rfl⟩
    simp [load, step, Feed.step, Feed.deliver, capacity]
  rcases res with _ | ⟨events, res⟩
  case cons =>
    refine ⟨.feed .forward, ⟨rfl, assumed_of_ne (by simp)⟩, ?_, rfl, rfl⟩
    simp [load, step, Feed.step, Feed.forward]
    omega
  rcases filtered with _ | events
  case some =>
    refine ⟨.feed .send, ⟨rfl, assumed_of_ne (by simp)⟩, ?_, rfl, rfl⟩
    simp [load, step, Feed.step, Feed.send, capacity]
  rcases sub with _ | ⟨batch, sub⟩
  case cons =>
    refine ⟨.feed .filter, ⟨rfl, assumed_of_ne (by simp)⟩, ?_, rfl, rfl⟩
    simp only [load, step, Feed.step, Feed.filter, List.length_cons]
    split_ifs
    · simp
      omega
    · simp
  rcases held with _ | batch
  case some =>
    refine ⟨.hub .fanout, ⟨rfl, assumed_fanout (by simp [capacity])⟩, ?_, rfl, rfl⟩
    simp [load, step, Hub.step, Feed.fanout, capacity]
  rcases outbox with _ | batch
  case some =>
    refine ⟨.hub .receive, ⟨rfl, assumed_hub (Hub.noSkip_of_ne (by simp)) (by simp)⟩, ?_, rfl, rfl⟩
    simp [load, step, Hub.step, Hub.receive]
  exact absurd rfl hload

/-- **The goroutines empty their channels** into the reader. -/
theorem flush (h : Draining w W L x) (limit : ℤ) :
    ∃ x', Reaches step (Quiet limit) x x' ∧ Draining w W L x' ∧
      x'.hub.table = x.hub.table ∧ x'.hub.poll = x.hub.poll ∧ x'.load = 0 := by
  have hstep : ∀ y, (Draining w W L y ∧ y.hub.table = x.hub.table ∧ y.hub.poll = x.hub.poll) → ¬ y.load = 0 →
      ∃ y', Reaches step (Quiet limit) y y' ∧
        (Draining w W L y' ∧ y'.hub.table = x.hub.table ∧ y'.hub.poll = x.hub.poll) ∧ y'.load < y.load := by
    rintro y ⟨hy, htable, hpoll⟩ hne
    obtain ⟨a, ha, hlt, htable', hpoll'⟩ := exists_load_lt limit hy.listed
      (hy.ok.live (by rw [hy.listed]; simp)).1 hne
    exact ⟨_, .single ha, ⟨hy.step ha, htable'.trans htable, hpoll'.trans hpoll⟩, hlt⟩
  obtain ⟨x', hr, ⟨hx', htable, hpoll⟩, hzero⟩ := reaches_of_measure load hstep ⟨h, rfl, rfl⟩
  exact ⟨x', hr, hx', htable, hpoll, hzero⟩

/-! ## Iterations until the end of the table -/

/-- The poll loop gets to the end of its iteration. -/
theorem settle (h : Draining w W L x) (limit : ℤ) :
    ∃ x', Reaches step (Quiet limit) x x' ∧ Draining w W L x' ∧
      ∃ p, x'.hub.poll = some p ∧ p.stage = .waiting := by
  have hfilling : ∀ {x}, Draining w W L x → (∃ start rev skip n r, x.hub.poll = some ⟨start, rev, skip, .filling n r⟩) →
      ∃ x', Reaches step (Quiet limit) x x' ∧ Draining w W L x' ∧
        ∃ p, x'.hub.poll = some p ∧ p.stage = .waiting := by
    rintro x h ⟨start, rev, skip, n, r, hp⟩
    have ha : x.Quiet limit (.hub .fill) :=
      ⟨rfl, assumed_hub (Hub.noSkip_of_ne (by simp)) (by simp)⟩
    refine ⟨_, .single ha, h.step ha, ?_⟩
    show ∃ p, x.hub.fill.poll = some p ∧ _
    unfold Hub.fill
    rw [hp]
    exact Hub.publish_waiting _ _ _
  obtain ⟨⟨start, rev, skip, stage⟩, hp⟩ := Option.isSome_iff_exists.1 (h.ok.live (by rw [h.listed]; simp)).2
  cases stage with
  | waiting => exact ⟨x, .refl x, h, _, hp, rfl⟩
  | filling n r => exact hfilling h ⟨start, rev, skip, n, r, hp⟩
  | querying =>
    have ha : x.Quiet limit (.hub (.query limit false)) :=
      ⟨by simp [quiet], assumed_hub (x.hub.noSkip_false limit) (by simp)⟩
    have hquery : (∃ p, (x.step (.hub (.query limit false))).hub.poll = some p ∧ p.stage = .waiting) ∨
        ∃ start rev skip n r, (x.step (.hub (.query limit false))).hub.poll = some ⟨start, rev, skip, .filling n r⟩ := by
      show (∃ p, (x.hub.query limit false).poll = some p ∧ _) ∨
        ∃ start rev skip n r, (x.hub.query limit false).poll = some ⟨start, rev, skip, .filling n r⟩
      unfold Hub.query
      rw [hp]
      dsimp only
      split
      · exact .inl (Hub.publish_waiting _ _ _)
      · exact .inl (Hub.publish_waiting _ _ _)
      · exact .inr ⟨_, _, _, _, _, rfl⟩
    rcases hquery with hwait | hfill
    · exact ⟨_, .single ha, h.step ha, hwait⟩
    · obtain ⟨x', hr, hx', hwait⟩ := hfilling (h.step ha) hfill
      exact ⟨x', (Reaches.single ha).trans hr, hx', hwait⟩

/-- An iteration brings the poll loop closer to the end of the table. -/
theorem iteration (h : Draining w W L x) (limit : ℤ) {p : Poll} (hp : x.hub.poll = some p)
    (hwait : p.stage = .waiting) (hout : x.hub.outbox = none) (hlt : p.pollRevision < x.hub.table.currentRev.getD 0) :
    ∃ x', Reaches step (Quiet limit) x x' ∧ Draining w W L x' ∧
      ∃ p', x'.hub.poll = some p' ∧ p'.stage = .waiting ∧
        Hub.distance x'.hub.table p' < Hub.distance x.hub.table p := by
  obtain ⟨start, rev, skip, stage⟩ := p
  obtain rfl : stage = .waiting := hwait
  have hwake : x.Quiet limit (.hub .wake) :=
    ⟨rfl, assumed_hub (Hub.noSkip_of_ne (by simp)) (by simp)⟩
  have hhub : (x.step (.hub .wake)).hub =
      { x.hub with polledRev := rev, poll := some ⟨start, rev, skip, .querying⟩ } := by
    show x.hub.wake = _
    unfold Hub.wake
    rw [hp, hout]
    simp only [← hout]
  have h₁ := h.step hwake
  have htable : (x.step (.hub .wake)).hub.table = x.hub.table := by rw [hhub]
  have hpoll : (x.step (.hub .wake)).hub.poll = some ⟨start, rev, skip, .querying⟩ := by rw [hhub]
  have hquery : (x.step (.hub .wake)).Quiet limit (.hub (.query limit false)) :=
    ⟨by simp [quiet], assumed_hub (Hub.noSkip_false _ limit) (by simp)⟩
  have hr := (Reaches.single hwake).trans (Reaches.single hquery)
  have h₂ := h₁.step hquery
  have hcloser := Hub.query_closer h₁.ok.hub hpoll (by rw [htable]; exact hlt) h₁.own limit
  rw [htable] at hcloser
  rcases hcloser with hc | hc
  · obtain ⟨p', hp', hwait', -, hd⟩ := hc.poll
    exact ⟨_, hr, h₂, p', hp', hwait', hd⟩
  · have hfill : ((x.step (.hub .wake)).step (.hub (.query limit false))).Quiet limit (.hub .fill) :=
      ⟨rfl, assumed_hub (Hub.noSkip_of_ne (by simp)) (by simp)⟩
    obtain ⟨p', hp', hwait', -, hd⟩ := hc.poll
    exact ⟨_, hr.trans (Reaches.single hfill), h₂.step hfill, p', hp', hwait', hd⟩

theorem empty_of_load (hload : x.load = 0) :
    x.hub.transit = [] ∧ x.feed.sub = [] ∧ x.feed.filtered = none ∧ x.feed.res = [] ∧ x.feed.forwarded = none ∧
      x.feed.result = [] := by
  unfold load at hload
  have hout : x.hub.outbox.toList = [] := List.eq_nil_of_length_eq_zero (by omega)
  have hheld : x.hub.held.toList = [] := List.eq_nil_of_length_eq_zero (by omega)
  have hfiltered : x.feed.filtered.toList = [] := List.eq_nil_of_length_eq_zero (by omega)
  have hforwarded : x.feed.forwarded.toList = [] := List.eq_nil_of_length_eq_zero (by omega)
  refine ⟨?_, List.eq_nil_of_length_eq_zero (by omega), Option.toList_eq_nil_iff.1 hfiltered,
    List.eq_nil_of_length_eq_zero (by omega), Option.toList_eq_nil_iff.1 hforwarded,
    List.eq_nil_of_length_eq_zero (by omega)⟩
  unfold Hub.transit
  rw [hout, hheld]
  rfl

theorem unread_of_load (hload : x.load = 0) : x.hub.outbox = none ∧ x.onTheWay L = [] := by
  obtain ⟨htransit, hsub, hfiltered, hres, hforwarded, hresult⟩ := empty_of_load hload
  refine ⟨?_, ?_⟩
  · exact Option.toList_eq_nil_iff.1 (List.append_eq_nil_iff.1 htransit).2
  · unfold onTheWay Feed.unread Feed.unforwarded
    rw [htransit, hsub, hfiltered, hres, hforwarded, hresult]
    rfl

/-- **A watch delivers every wanted row of the table**, without another row becoming
visible. -/
theorem drain (h : Draining w W L x) (limit : ℤ) :
    ∃ x', Reaches step (Quiet limit) x x' ∧ Draining w W L x' ∧ x'.delivered.filter w = W := by
  -- between iterations, with empty channels
  let I : Stitch → Prop := fun x => Draining w W L x ∧ x.load = 0 ∧ ∃ p, x.hub.poll = some p ∧ p.stage = .waiting
  let μ : Stitch → ℕ := fun x => (x.hub.poll.map (Hub.distance x.hub.table)).getD 0
  have hflush : ∀ {x p}, Draining w W L x → x.hub.poll = some p → p.stage = .waiting →
      ∃ x', Reaches step (Quiet limit) x x' ∧ I x' ∧ μ x' = Hub.distance x.hub.table p := by
    intro x p hx hp hwait
    obtain ⟨x', hr, hx', htable, hpoll, hload⟩ := flush hx limit
    refine ⟨x', hr, ⟨hx', hload, p, hpoll.trans hp, hwait⟩, ?_⟩
    show (x'.hub.poll.map (Hub.distance x'.hub.table)).getD 0 = _
    rw [hpoll, htable, hp]
    rfl
  have hstep : ∀ x, I x → ¬ x.hub.table.currentRev.getD 0 ≤ x.hub.pollRevision →
      ∃ x', Reaches step (Quiet limit) x x' ∧ I x' ∧ μ x' < μ x := by
    rintro x ⟨hx, hload, p, hp, hwait⟩ hlt
    have hrev : x.hub.pollRevision = p.pollRevision := by
      unfold Hub.pollRevision
      rw [hp]
      rfl
    have hμ : μ x = Hub.distance x.hub.table p := by
      show (x.hub.poll.map (Hub.distance x.hub.table)).getD 0 = _
      rw [hp]
      rfl
    obtain ⟨x₁, hr₁, hx₁, p', hp', hwait', hd⟩ := iteration hx limit hp hwait (unread_of_load (L := L) hload).1 (by omega)
    obtain ⟨x₂, hr₂, hx₂, hμ₂⟩ := hflush hx₁ hp' hwait'
    exact ⟨x₂, hr₁.trans hr₂, hx₂, by omega⟩
  obtain ⟨x₁, hr₁, hx₁, p, hp, hwait⟩ := settle h limit
  obtain ⟨x₂, hr₂, hx₂, -⟩ := hflush hx₁ hp hwait
  obtain ⟨x₃, hr₃, ⟨hx₃, hload, -⟩, hend⟩ := reaches_of_measure μ hstep hx₂
  refine ⟨x₃, (hr₁.trans hr₂).trans hr₃, hx₃, ?_⟩
  -- nothing is on its way, and nothing is to come
  have hexact := hx₃.exactly L hx₃.listed
  have hcome : x₃.toCome L = [] := by
    have hnone : (x₃.hub.table.rows.filter fun y => decide (x₃.hub.pollRevision < y.id ∧ L < y.id)) = [] := by
      rw [List.filter_eq_nil_iff]
      intro y hy
      have := id_le_currentRev hy
      simp only [decide_eq_true_eq, not_and]
      omega
    unfold toCome
    rw [hnone]
    rfl
  rw [(unread_of_load hload).2, hcome, List.append_nil, List.append_nil, hx₃.wants, hx₃.rows] at hexact
  exact hexact.symm

/-! ## Runs -/

/-- **A watch loses no row, doubles none and keeps their order in exactly the runs without
rows that come too late**, and after such a run it can deliver every wanted row of the
table. -/
theorem watch_stitches_iff (key rangeEnd : Bytes) (start : ℤ) (selected : KeyValue → Bool) (acts : List Act)
    (hacts : Guarded step Assumed (init key rangeEnd start selected) acts) :
    (Always step Exactly (init key rangeEnd start selected) acts ↔
      Guarded step InTime (init key rangeEnd start selected) acts) ∧
    (Guarded step InTime (init key rangeEnd start selected) acts →
      ∀ (x : Stitch) (L limit : ℤ), exec step (init key rangeEnd start selected) acts = x → x.feed.stage = .listed L →
        x.hub.table.OwnFills → ∃ x', Reaches step (Quiet limit) x x' ∧
          x'.delivered.filter x.feed.wants = (x.hub.table.rows.map Row.event).filter x.feed.wants) := by
  have hok := ok_init key rangeEnd start selected
  have hexact : (init key rangeEnd start selected).Exactly := nofun
  have hiff := always_iff_guarded_of (I := OK) (P := Exactly) (G := InTime) (fun x a ha hx => step_ok hx ha)
    (fun x a ha hx he => step_exactly hx he ha) acts _ hok hexact hacts
  refine ⟨hiff, ?_⟩
  rintro hin x L limit rfl hL hown
  have hlast := (hiff.2 hin).last
  have hoks := (invariant_of_guarded (I := OK) (fun x a ha hx => step_ok hx ha) acts _ hok hacts).last
  obtain ⟨x', hr, -, hd⟩ := drain ⟨hoks, hlast, hL, hown, rfl, rfl⟩ limit
  exact ⟨x', hr, hd⟩

/-- Two creates, whose ids have been given in this order. -/
def earlier : Row := ⟨2, ascii "/a", [], true, false, 0, 0, 0, ascii "v", []⟩

def later : Row := ⟨3, ascii "/b", [], true, false, 0, 0, 0, ascii "v", []⟩

/-- The goroutines pass on what one iteration of the poll loop finds. -/
def passOn : List Act :=
  [.hub .wake, .hub (.query 500 false), .hub .receive, .hub .fanout, .feed .filter, .feed .send, .feed .forward,
    .feed .deliver, .read]

theorem assumed_passOn (hsub : (exec step x (passOn.take 3)).feed.sub.length < capacity) :
    Guarded step Assumed x passOn := by
  refine ⟨assumed_hub (Hub.noSkip_of_ne (by simp)) (by simp), assumed_hub (Hub.noSkip_false _ _) (by simp),
    assumed_hub (Hub.noSkip_of_ne (by simp)) (by simp), assumed_fanout hsub, ?_⟩
  exact ⟨assumed_of_ne (by simp), assumed_of_ne (by simp), assumed_of_ne (by simp), assumed_of_ne (by simp),
    assumed_of_ne (by simp), trivial⟩

theorem assumed_place (y : Row) : x.Assumed (.hub (.place y)) :=
  assumed_hub (Hub.noSkip_of_ne (by simp)) (by simp)

theorem inTime_place {y : Row} {s : ℤ} (hL : x.feed.stage = .listed L) (hp : x.hub.poll.map Poll.pollStart = some s)
    (hy : L < y.id ∧ s < y.id) : x.InTime (.hub (.place y)) := by
  rintro z L' p ⟨⟩ _ hL' hp' _
  obtain rfl := FeedStage.listed.inj (hL.symm.trans hL')
  rw [hp'] at hp
  rw [Option.some.inj hp]
  exact hy

/-- Every key that begins with a slash, from the first revision a client can have seen. -/
def start : Stitch := init (ascii "/") (ascii "0") 2 fun _ => true

/-- Both become visible after the backlog query: their order does not matter. -/
def inTimeRun : List Act :=
  [.feed .subscribe, .feed .list, .hub (.place later), .hub (.place earlier)] ++ passOn

theorem assumed_inTimeRun : Guarded step Assumed start inTimeRun :=
  ⟨assumed_of_ne (by simp), assumed_of_ne (by simp), assumed_place _, assumed_place _,
    assumed_passOn (by decide +kernel)⟩

theorem inTime_inTimeRun : Guarded step InTime start inTimeRun :=
  ⟨inTime_of_ne (by simp), inTime_of_ne (by simp), inTime_place (L := 1) (s := 1) (by decide +kernel) (by decide +kernel) (by decide),
    inTime_place (L := 1) (s := 1) (by decide +kernel) (by decide +kernel) (by decide), inTime_of_ne (by simp),
    inTime_of_ne (by simp), inTime_of_ne (by simp), inTime_of_ne (by simp), inTime_of_ne (by simp),
    inTime_of_ne (by simp), inTime_of_ne (by simp), inTime_of_ne (by simp), inTime_of_ne (by simp), trivial⟩

theorem watch_stitches_in_time : Always step Exactly start inTimeRun ∧
    (exec step start inTimeRun).delivered.map (fun e => e.kv.modRevision) = [2, 3] := by
  refine ⟨(watch_stitches_iff _ _ _ _ inTimeRun assumed_inTimeRun).1.2 inTime_inTimeRun, ?_⟩
  decide +kernel

/-- The second becomes visible before the backlog query, the first after it. -/
def lateRun : List Act :=
  [.feed .subscribe, .hub (.place later), .feed .list, .feed .deliver, .read, .hub (.place earlier)] ++ passOn

/-- The row that has come late is never delivered, although the poll loop has passed it
on: the filter of the watch takes it for a part of the backlog. -/
theorem watch_loses_late_row : Guarded step Assumed start lateRun ∧ ¬ (exec step start lateRun).Exactly ∧
    (exec step start lateRun).delivered.map (fun e => e.kv.modRevision) = [3] ∧
    (((exec step start lateRun).hub.table.rows.map Row.event).filter (exec step start lateRun).feed.wants).map
      (fun e => e.kv.modRevision) = [2, 3] ∧
    (exec step start lateRun).load = 0 ∧ (exec step start lateRun).hub.pollRevision = 3 := by
  have hrows : (((exec step start lateRun).hub.table.rows.map Row.event).filter
      (exec step start lateRun).feed.wants).map (fun e => e.kv.modRevision) = [2, 3] := by decide +kernel
  refine ⟨⟨assumed_of_ne (by simp), assumed_place _, assumed_of_ne (by simp), assumed_of_ne (by simp),
    assumed_of_ne (by simp), assumed_place _, assumed_passOn (by decide +kernel)⟩, fun hexact => ?_,
    by decide +kernel, hrows, by decide +kernel, by decide +kernel⟩
  rw [hexact 3 (by decide +kernel)] at hrows
  revert hrows
  decide +kernel

end Stitch

end Harikube
