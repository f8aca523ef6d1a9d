import Harikube.Lts.Run
import Harikube.Proof.Put
import Harikube.Proof.Version
import Harikube.Spec.CompactCall

/-!
# Calls of `compact` exclude each other

A call of `compact` succeeds if its write returns no error. The write of version 0 is a
`Create`, which fails if the key exists. Every other write is an `Update`, which reports a
lost race by `updated = false` and not by an error, and `compact` does not look at it.

* `compact_eq_steps`: a call that is alone is `LimitedServer.compact`.
* `Cell`: what a backend does to the key, as far as the calls rely on it.
* `exclusive_iff_swaps`: in one step, a call succeeds alone and with its value stored if and
  only if its write changes the version that it has read.
* `compact_exclusive_iff`: **so at most one call succeeds in exactly the runs in which no
  `Update` comes too late**, over the Memory backend and over a SQL log.
-/

namespace Harikube.LimitedServer

open Lts

variable {σ : Type}

namespace Contest

section Frame

variable {x : Contest σ} {i j : ℕ} {s : σ} {st : CompactStage}

@[simp] theorem advance_state : (x.advance i s st).state = s := rfl

@[simp] theorem advance_stage_self : (x.advance i s st).stage i = st := Function.update_self _ _ _

theorem advance_stage_ne (h : j ≠ i) : (x.advance i s st).stage j = x.stage j := Function.update_of_ne h _ _

end Frame

/-- **A call that is alone is `compact`.** -/
theorem compact_eq_steps (l : LimitedServer σ) (compareVersion : ℤ) (value : Bytes) (s : σ) :
    let x := exec (step (fun _ => l) compareVersion fun _ => value) (start s) [.get 0 0, .write 0 0, .again 0 0]
    x.stage 0 = .done (l.compact s compareVersion value).1 ∧ x.state = (l.compact s compareVersion value).2 := by
  simp only [exec_cons, exec_nil, step, start, compact]
  cases hg : (l.backend.get s compactRevAPI 0 false).1.2.2 with
  | some err => simp [afterGet, hg]
  | none =>
    simp only [afterGet, hg]
    by_cases hv : compareVersion =
        (((l.backend.get s compactRevAPI 0 false).1.2.1.map fun kv => decodeVersion kv.value).getD (0, [])).1
    · simp only [if_pos hv, advance_stage_self, advance_state]
      cases hw : (l.compactCall (l.backend.get s compactRevAPI 0 false).2
          (((l.backend.get s compactRevAPI 0 false).1.2.1.map fun kv => decodeVersion kv.value).getD (0, [])).1
          (((l.backend.get s compactRevAPI 0 false).1.2.1.map KeyValue.modRevision).getD 0)
          (encodeVersion (wrap64 ((((l.backend.get s compactRevAPI 0 false).1.2.1.map fun kv =>
            decodeVersion kv.value).getD (0, [])).1 + 1)) value)).1.2 with
      | none => simp [afterWrite, hw]
      | some err =>
        simp only [afterWrite, hw, advance_stage_self, advance_state, afterSecondGet]
        split <;> simp_all
    · simp [if_neg hv]

end Contest

/-! ## What a backend does to the key -/

/-- `content` is what a client reads of the key. A `Create` succeeds only on a key that is
not there; an `Update` that changes anything has found the revision it names, and the key
gets a larger one. -/
structure Cell (l : ℤ → LimitedServer σ) (OK : σ → Prop) (content : σ → Option KeyValue) : Prop where
  get : ∀ {s}, OK s → ∀ now, OK ((l now).backend.get s compactRevAPI 0 false).2 ∧
    content ((l now).backend.get s compactRevAPI 0 false).2 = content s ∧
    (((l now).backend.get s compactRevAPI 0 false).1.2.2 = none →
      ((l now).backend.get s compactRevAPI 0 false).1.2.1 = content s)
  create : ∀ {s}, OK s → ∀ now value, OK ((l now).backend.create s compactRevAPI value 0).2 ∧
    (((l now).backend.create s compactRevAPI value 0).1.2 = none → content s = none) ∧
    (((l now).backend.create s compactRevAPI value 0).1.2 ≠ none →
      content ((l now).backend.create s compactRevAPI value 0).2 = content s)
  update : ∀ {s}, OK s → ∀ now value revision, OK ((l now).backend.update s compactRevAPI value revision 0).2 ∧
    (content ((l now).backend.update s compactRevAPI value revision 0).2 = content s ∨
      ((l now).backend.update s compactRevAPI value revision 0).1.2.2.2 = none ∧
        ∃ kv, content s = some kv ∧ kv.modRevision = revision ∧
          ∀ kv', content ((l now).backend.update s compactRevAPI value revision 0).2 = some kv' →
            revision < kv'.modRevision)

namespace Contest

variable (l : ℤ → LimitedServer σ) (compareVersion : ℤ) (value : ℕ → Bytes) (content : σ → Option KeyValue)

/-- At most one call has succeeded. -/
def AtMostOne (x : Contest σ) : Prop := ∀ i j, (x.stage i).won = true → (x.stage j).won = true → i = j

/-- After the step at most one call has succeeded, and one that succeeds in this step has
its value stored. -/
def Exclusive (x : Contest σ) (a : ContestAct) : Prop :=
  (step l compareVersion value x a).AtMostOne ∧
    ∀ i, (x.stage i).won = false → ((step l compareVersion value x a).stage i).won = true →
      (content (step l compareVersion value x a).state).map KeyValue.value =
        some (encodeVersion (wrap64 (compareVersion + 1)) (value i))

/-- The version that an `Update` replaces is still the one that has been read. -/
def Current (x : Contest σ) (a : ContestAct) : Prop :=
  ∀ i now version modRev cur, a = .write i now → x.stage i = .read version modRev cur → version ≠ 0 →
    ∃ kv, content x.state = some kv ∧ kv.modRevision = modRev

/-- A write that returns no error replaces the version that has been read, and what it
writes is stored. -/
def Swaps (x : Contest σ) (a : ContestAct) : Prop :=
  ∀ i now version modRev cur, a = .write i now → x.stage i = .read version modRev cur →
    ((l now).compactCall x.state version modRev (encodeVersion (wrap64 (version + 1)) (value i))).1.2 = none →
    (version ≠ 0 → ∃ kv, content x.state = some kv ∧ kv.modRevision = modRev) ∧
      (content ((l now).compactCall x.state version modRev
        (encodeVersion (wrap64 (version + 1)) (value i))).2).map KeyValue.value =
        some (encodeVersion (wrap64 (version + 1)) (value i))

/-! ## One step -/

/-- Before a call has succeeded, a call that has read the key has read what is there. After
it, the key has another version than the calls compare with, and a larger revision than
any of them has read. -/
structure Inv (OK : σ → Prop) (x : Contest σ) : Prop where
  ok : OK x.state
  one : x.AtMostOne
  version : ∀ i version modRev cur, x.stage i = .read version modRev cur → version = compareVersion
  fresh : (∀ j, (x.stage j).won = false) → ∀ i version modRev cur, x.stage i = .read version modRev cur →
    ((content x.state).map KeyValue.modRevision).getD 0 = modRev ∧
      (((content x.state).map fun kv => decodeVersion kv.value).getD (0, [])).1 = compareVersion
  stale : ∀ j, (x.stage j).won = true → ∀ i version modRev cur, x.stage i = .read version modRev cur →
    compareVersion ≠ 0 → ∀ kv, content x.state = some kv → modRev < kv.modRevision
  won : ∀ j, (x.stage j).won = true →
    ∃ kv, content x.state = some kv ∧ (decodeVersion kv.value).1 ≠ compareVersion

variable {l compareVersion value content} {OK : σ → Prop} {x : Contest σ} {i : ℕ} {s : σ} {st : CompactStage}

theorem inv_start (hs : OK s) : Inv compareVersion content OK (start s) :=
  ⟨hs, fun _ _ h => absurd h Bool.false_ne_true, fun _ _ _ _ h => by simp [start] at h,
    fun _ _ _ _ _ h => by simp [start] at h, fun _ h => absurd h Bool.false_ne_true,
    fun _ h => absurd h Bool.false_ne_true⟩

theorem won_advance (hold : (x.stage i).won = false) (hnew : st.won = false) (j : ℕ) :
    ((x.advance i s st).stage j).won = (x.stage j).won := by
  by_cases hj : j = i
  · rw [hj, advance_stage_self, hold, hnew]
  · rw [advance_stage_ne hj]

/-- A step that does not succeed and leaves the key alone. -/
theorem Inv.keep (hx : Inv compareVersion content OK x) (hold : (x.stage i).won = false) (hnew : st.won = false)
    (hs : OK s) (hc : content s = content x.state)
    (hread : ∀ version modRev cur, st = .read version modRev cur → version = compareVersion ∧
      ((content s).map KeyValue.modRevision).getD 0 = modRev ∧
      (((content s).map fun kv => decodeVersion kv.value).getD (0, [])).1 = compareVersion) :
    Inv compareVersion content OK (x.advance i s st) := by
  have hwon := won_advance (s := s) hold hnew
  refine ⟨hs, ?_, ?_, ?_, ?_, ?_⟩
  · intro j k hj hk
    rw [hwon] at hj hk
    exact hx.one j k hj hk
  · intro j version modRev cur hj
    by_cases hji : j = i
    · rw [hji, advance_stage_self] at hj
      exact (hread version modRev cur hj).1
    · rw [advance_stage_ne hji] at hj
      exact hx.version j version modRev cur hj
  · intro hnone j version modRev cur hj
    by_cases hji : j = i
    · rw [hji, advance_stage_self] at hj
      exact (hread version modRev cur hj).2
    · rw [advance_stage_ne hji] at hj
      rw [advance_state, hc]
      refine hx.fresh (fun k => ?_) j version modRev cur hj
      rw [← hwon]
      exact hnone k
  · intro k hk j version modRev cur hj hne kv hkv
    rw [hwon] at hk
    rw [advance_state, hc] at hkv
    by_cases hji : j = i
    · -- the version of the key is another one since then
      rw [hji, advance_stage_self] at hj
      have hver := (hread version modRev cur hj).2.2
      obtain ⟨kv', hkv', hne'⟩ := hx.won k hk
      rw [hc, hkv'] at hver
      exact absurd hver hne'
    · rw [advance_stage_ne hji] at hj
      exact hx.stale k hk j version modRev cur hj hne kv hkv
  · intro k hk
    rw [hwon] at hk
    rw [advance_state, hc]
    exact hx.won k hk

/-- A step in which no call succeeds. -/
theorem exclusive_of_same {a : ContestAct} (hone : (step l compareVersion value x a).AtMostOne)
    (hwon : ∀ j, ((step l compareVersion value x a).stage j).won = (x.stage j).won) :
    Exclusive l compareVersion value content x a := by
  refine ⟨hone, fun j hj hj' => ?_⟩
  rw [hwon, hj] at hj'
  exact absurd hj' Bool.false_ne_true

theorem won_afterGet (v : ℤ) (g : ℤ × Option KeyValue × Option Err) : (afterGet v g).won = false := by
  unfold afterGet
  split
  · rfl
  · simp only
    split <;> rfl

theorem won_afterSecondGet (v : ℤ) (cur : Bytes) (g : ℤ × Option KeyValue × Option Err) :
    (afterSecondGet v cur g).won = false := by
  unfold afterSecondGet
  split <;> rfl

/-- A call goes on to its write only with what it has read. -/
theorem afterGet_read {g : ℤ × Option KeyValue × Option Err} {version modRev : ℤ} {cur : Bytes}
    (h : afterGet compareVersion g = .read version modRev cur) :
    g.2.2 = none ∧ version = compareVersion ∧ (g.2.1.map KeyValue.modRevision).getD 0 = modRev ∧
      ((g.2.1.map fun kv => decodeVersion kv.value).getD (0, [])).1 = compareVersion := by
  unfold afterGet at h
  split at h
  · simp at h
  · rename_i hnone
    simp only at h
    split at h
    · rename_i hv
      obtain ⟨rfl, rfl, -⟩ := CompactStage.read.inj h
      exact ⟨hnone, hv.symm, rfl, hv.symm⟩
    · simp at h

/-- A step that is not a write. -/
theorem step_get (hl : Cell l OK content) (hx : Inv compareVersion content OK x) {a : ContestAct}
    (ha : ∀ i now, a ≠ .write i now) :
    Inv compareVersion content OK (step l compareVersion value x a) ∧
      ∀ j, ((step l compareVersion value x a).stage j).won = (x.stage j).won := by
  cases a with
  | write i now => exact absurd rfl (ha i now)
  | get i now =>
    cases hi : x.stage i with
    | new =>
      simp only [step, hi]
      obtain ⟨hok, hc, hget⟩ := hl.get hx.ok now
      have hold : (x.stage i).won = false := by rw [hi]; rfl
      refine ⟨hx.keep hold (won_afterGet _ _) hok hc fun version modRev cur h => ?_,
        won_advance hold (won_afterGet _ _)⟩
      obtain ⟨hnone, hv, hm, hd⟩ := afterGet_read h
      rw [hget hnone] at hm hd
      rw [hc]
      exact ⟨hv, hm, hd⟩
    | _ =>
      simp only [step, hi]
      exact ⟨hx, fun _ => trivial⟩
  | again i now =>
    cases hi : x.stage i with
    | failed version cur =>
      simp only [step, hi]
      obtain ⟨hok, hc, -⟩ := hl.get hx.ok now
      have hold : (x.stage i).won = false := by rw [hi]; rfl
      refine ⟨hx.keep hold (won_afterSecondGet _ _ _) hok hc fun v m c h => ?_,
        won_advance hold (won_afterSecondGet _ _ _)⟩
      unfold afterSecondGet at h
      split at h <;> simp at h
    | _ =>
      simp only [step, hi]
      exact ⟨hx, fun _ => trivial⟩

/-- What the write does to the key. -/
theorem compactCall_content (hl : Cell l OK content) (hx : Inv compareVersion content OK x)
    (now version modRev : ℤ) (v : Bytes) :
    OK ((l now).compactCall x.state version modRev v).2 ∧
    (((l now).compactCall x.state version modRev v).1.2 ≠ none →
      content ((l now).compactCall x.state version modRev v).2 = content x.state) ∧
    (((l now).compactCall x.state version modRev v).1.2 = none → version = 0 → content x.state = none) ∧
    (version ≠ 0 → content ((l now).compactCall x.state version modRev v).2 = content x.state ∨
      ∀ kv, content ((l now).compactCall x.state version modRev v).2 = some kv → modRev < kv.modRevision) := by
  unfold compactCall
  by_cases hv : version = 0
  · obtain ⟨hok, hnone, herr⟩ := hl.create hx.ok now v
    simp only [if_pos hv]
    exact ⟨hok, herr, fun h _ => hnone h, fun h => absurd hv h⟩
  · obtain ⟨hok, hcase⟩ := hl.update hx.ok now v modRev
    simp only [if_neg hv]
    refine ⟨hok, fun herr => ?_, fun _ h => absurd h hv, fun _ => ?_⟩
    · rcases hcase with hsame | ⟨hnone, -⟩
      · exact hsame
      · exact absurd hnone herr
    · rcases hcase with hsame | ⟨-, kv, -, -, hlt⟩
      · exact .inl hsame
      · exact .inr hlt

section Write

variable {now version modRev : ℤ} {cur : Bytes} (hi : x.stage i = .read version modRev cur)
include hi

theorem step_write : step l compareVersion value x (.write i now) =
    x.advance i ((l now).compactCall x.state version modRev (encodeVersion (wrap64 (version + 1)) (value i))).2
      (afterWrite version cur
        ((l now).compactCall x.state version modRev (encodeVersion (wrap64 (version + 1)) (value i))).1) := by
  simp only [step, hi]

/-- A write that fails. -/
theorem write_failed (hl : Cell l OK content) (hx : Inv compareVersion content OK x)
    (herr : ((l now).compactCall x.state version modRev
      (encodeVersion (wrap64 (version + 1)) (value i))).1.2 ≠ none) :
    Inv compareVersion content OK (step l compareVersion value x (.write i now)) ∧
      ∀ j, ((step l compareVersion value x (.write i now)).stage j).won = (x.stage j).won := by
  obtain ⟨hok, hsame, -⟩ := compactCall_content hl hx now version modRev
    (encodeVersion (wrap64 (version + 1)) (value i))
  have hstage : afterWrite version cur ((l now).compactCall x.state version modRev
      (encodeVersion (wrap64 (version + 1)) (value i))).1 = .failed version cur := by
    unfold afterWrite
    split
    · rename_i h
      exact absurd h herr
    · rfl
  have hold : (x.stage i).won = false := by rw [hi]; rfl
  rw [step_write hi, hstage]
  exact ⟨hx.keep hold rfl hok (hsame herr) fun _ _ _ h => by simp at h, won_advance hold rfl⟩

/-- A write that returns no error. -/
theorem write_won (hl : Cell l OK content) (hx : Inv compareVersion content OK x)
    (herr : ((l now).compactCall x.state version modRev
      (encodeVersion (wrap64 (version + 1)) (value i))).1.2 = none) :
    (Exclusive l compareVersion value content x (.write i now) ↔ Swaps l value content x (.write i now)) ∧
    (Exclusive l compareVersion value content x (.write i now) →
      Inv compareVersion content OK (step l compareVersion value x (.write i now))) := by
  obtain ⟨hok, -, hzero, hcase⟩ := compactCall_content hl hx now version modRev
    (encodeVersion (wrap64 (version + 1)) (value i))
  obtain rfl := hx.version i version modRev cur hi
  have hstep : step l version value x (.write i now) = x.advance i
      ((l now).compactCall x.state version modRev (encodeVersion (wrap64 (version + 1)) (value i))).2
      (.done (.ok ⟨((l now).compactCall x.state version modRev
        (encodeVersion (wrap64 (version + 1)) (value i))).1.1, true, []⟩)) := by
    rw [step_write hi]
    simp only [afterWrite, herr]
  have hold : (x.stage i).won = false := by rw [hi]; rfl
  have hself : ((step l version value x (.write i now)).stage i).won = true := by
    rw [hstep, advance_stage_self]
    rfl
  have hother : ∀ j, j ≠ i → (step l version value x (.write i now)).stage j = x.stage j := by
    intro j hj
    rw [hstep, advance_stage_ne hj]
  have hstate : (step l version value x (.write i now)).state =
      ((l now).compactCall x.state version modRev (encodeVersion (wrap64 (version + 1)) (value i))).2 := by
    rw [hstep]
    rfl
  -- at most one call has succeeded if and only if none had before
  have hone : (step l version value x (.write i now)).AtMostOne ↔ ∀ j, (x.stage j).won = false := by
    constructor
    · intro h j
      by_cases hj : j = i
      · rw [hj]
        exact hold
      · rw [← Bool.not_eq_true]
        intro hw
        rw [← hother j hj] at hw
        exact hj (h j i hw hself)
    · intro h j k hj hk
      have honly : ∀ j, ((step l version value x (.write i now)).stage j).won = true → j = i := by
        intro j hj
        by_contra hji
        rw [hother j hji, h j] at hj
        exact Bool.false_ne_true hj
      rw [honly j hj, honly k hk]
  have hiff : Exclusive l version value content x (.write i now) ↔ Swaps l value content x (.write i now) := by
    constructor
    · rintro ⟨hmost, hstored⟩ i' now' version' modRev' cur' ha hread hnone
      obtain ⟨rfl, rfl⟩ := ContestAct.write.inj ha
      obtain ⟨rfl, rfl, rfl⟩ := CompactStage.read.inj (hi.symm.trans hread)
      have hst := hstored i hold hself
      rw [hstate] at hst
      refine ⟨fun hne => ?_, hst⟩
      obtain ⟨hm, hd⟩ := hx.fresh (hone.1 hmost) i version modRev cur hi
      cases hc : content x.state with
      | none =>
        rw [hc] at hd
        exact absurd hd.symm hne
      | some kv =>
        rw [hc] at hm
        exact ⟨kv, rfl, hm⟩
    · intro hswap
      obtain ⟨hcur, hst⟩ := hswap i now version modRev cur rfl hi herr
      refine ⟨hone.2 fun j => ?_, fun j hj hj' => ?_⟩
      · rw [← Bool.not_eq_true]
        intro hw
        obtain ⟨kv, hkv, -⟩ := hx.won j hw
        by_cases hv : version = 0
        · rw [hzero herr hv] at hkv
          exact absurd hkv (by simp)
        · obtain ⟨kv', hkv', hm⟩ := hcur hv
          have hlt := hx.stale j hw i version modRev cur hi hv kv' hkv'
          omega
      · by_cases hji : j = i
        · rw [hstate, hji]
          exact hst
        · rw [hother j hji, hj] at hj'
          exact absurd hj' Bool.false_ne_true
  refine ⟨hiff, fun hex => ?_⟩
  have hnone := hone.1 hex.1
  have hst := hex.2 i hold hself
  obtain ⟨kv, hkv, hvalue⟩ := Option.map_eq_some_iff.1 hst
  -- the version of what is stored now is the next one
  have hdec : (decodeVersion kv.value).1 ≠ version := by
    obtain ⟨hlo, hhi⟩ := wrap64_bounds (version + 1)
    rw [hvalue, decodeVersion_encodeVersion hlo hhi]
    exact wrap64_succ_ne version
  refine ⟨by rw [hstate]; exact hok, hex.1, fun j version' modRev' cur' hj => ?_, fun h => ?_, ?_, fun _ _ => ⟨kv, hkv, hdec⟩⟩
  · by_cases hji : j = i
    · rw [hji, hstep, advance_stage_self] at hj
      simp at hj
    · rw [hother j hji] at hj
      exact hx.version j version' modRev' cur' hj
  · rw [h i] at hself
    exact absurd hself Bool.false_ne_true
  · intro _ _ j version' modRev' cur' hj hne kv' hkv'
    by_cases hji : j = i
    · rw [hji, hstep, advance_stage_self] at hj
      simp at hj
    · rw [hother j hji] at hj
      -- both calls have read the same revision
      obtain ⟨hmi, hdi⟩ := hx.fresh hnone i version modRev cur hi
      obtain ⟨hmj, -⟩ := hx.fresh hnone j version' modRev' cur' hj
      rw [← hmj, hmi]
      rw [hstate] at hkv hkv'
      rcases hcase hne with hsame | hlt
      · rw [hsame] at hkv
        rw [hkv] at hdi
        exact absurd hdi hdec
      · exact hlt kv' hkv'

end Write

/-- **One step**: a call succeeds alone and with its value stored if and only if its write
replaces the version that it has read. -/
theorem exclusive_iff_swaps (hl : Cell l OK content) (hx : Inv compareVersion content OK x) (a : ContestAct) :
    (Exclusive l compareVersion value content x a ↔ Swaps l value content x a) ∧
    (Exclusive l compareVersion value content x a →
      Inv compareVersion content OK (step l compareVersion value x a)) := by
  have hkeep : (∀ i now version modRev cur, a = .write i now → x.stage i = .read version modRev cur →
        ((l now).compactCall x.state version modRev (encodeVersion (wrap64 (version + 1)) (value i))).1.2 ≠ none) →
      (Inv compareVersion content OK (step l compareVersion value x a) ∧
        ∀ j, ((step l compareVersion value x a).stage j).won = (x.stage j).won) →
      (Exclusive l compareVersion value content x a ↔ Swaps l value content x a) ∧
        (Exclusive l compareVersion value content x a →
          Inv compareVersion content OK (step l compareVersion value x a)) := by
    rintro hno ⟨hinv, hwon⟩
    refine ⟨⟨fun _ i now version modRev cur ha hr h => ?_, fun _ => exclusive_of_same hinv.one hwon⟩, fun _ => hinv⟩
    exact absurd h (hno i now version modRev cur ha hr)
  by_cases ha : ∃ i now, a = .write i now
  · obtain ⟨i, now, rfl⟩ := ha
    cases hi : x.stage i with
    | read version modRev cur =>
      by_cases herr : ((l now).compactCall x.state version modRev
          (encodeVersion (wrap64 (version + 1)) (value i))).1.2 = none
      · exact write_won hi hl hx herr
      · refine hkeep ?_ (write_failed hi hl hx herr)
        rintro i' now' version' modRev' cur' ha hread
        obtain ⟨rfl, rfl⟩ := ContestAct.write.inj ha
        obtain ⟨rfl, rfl, rfl⟩ := CompactStage.read.inj (hi.symm.trans hread)
        exact herr
    | _ =>
      refine hkeep ?_ ?_
      · rintro i' now' version' modRev' cur' ha hread
        obtain ⟨rfl, rfl⟩ := ContestAct.write.inj ha
        rw [hi] at hread
        simp at hread
      · simp only [step, hi]
        exact ⟨hx, fun _ => trivial⟩
  · have hne : ∀ i now, a ≠ .write i now := fun i now h => ha ⟨i, now, h⟩
    exact hkeep (fun i now _ _ _ h => absurd h (hne i now)) (step_get hl hx hne)

/-- **Runs**, over any backend that treats the key as `Cell` says. -/
theorem guarded_exclusive_iff (hl : Cell l OK content) (hs : OK s) (acts : List ContestAct) :
    Guarded (step l compareVersion value) (Exclusive l compareVersion value content) (start s) acts ↔
      Guarded (step l compareVersion value) (Swaps l value content) (start s) acts :=
  guarded_iff_guarded (I := Inv compareVersion content OK) (fun _ a hx => (exclusive_iff_swaps hl hx a).1)
    (fun _ a hx => (exclusive_iff_swaps hl hx a).2) acts _ (inv_start hs)

end Contest

/-! ## The Memory backend -/

section OverMemory

open Memory

variable (register : Bytes → Option Err)

/-- The Memory backend keeps the key as the calls rely on it. -/
theorem cell_memory : Cell (fun _ => overMemory register) (fun m => ∃ h n, Refines m h n)
    fun m => m.content compactRevAPI where
  get := by
    rintro m ⟨h, n, hR⟩ now
    rw [overMemory_get]
    exact ⟨⟨h, n, hR⟩, rfl, fun _ => rfl⟩
  create := by
    rintro m ⟨h, n, hR⟩ now value
    rw [overMemory_create]
    obtain ⟨herr, -⟩ := hR.create_content compactRevAPI value 0
    refine ⟨⟨_, _, (create_refines hR compactRevAPI value 0).1⟩, fun hnone => ?_, fun hne => ?_⟩
    · rw [hnone] at herr
      by_contra hc
      rw [if_pos (Option.isSome_iff_ne_none.2 hc)] at herr
      simp at herr
    · by_cases hc : (m.content compactRevAPI).isSome = true
      · rw [hR.create_exists hc]
      · rw [if_neg hc] at herr
        exact absurd herr hne
  update := by
    rintro m ⟨h, n, hR⟩ now value revision
    rw [overMemory_update]
    obtain ⟨herr, hcont⟩ := hR.update_content compactRevAPI value revision 0
    refine ⟨⟨_, _, (update_refines hR compactRevAPI value revision 0).1⟩, ?_⟩
    cases hc : m.content compactRevAPI with
    | none =>
      rw [hc] at hcont
      exact .inl hcont
    | some kv =>
      rw [hc, Option.map_some] at hcont
      by_cases hrev : kv.modRevision = revision
      · rw [if_pos hrev] at hcont
        refine .inr ⟨by rw [herr], kv, rfl, hrev, fun kv' hkv' => ?_⟩
        rw [hcont] at hkv'
        obtain rfl := Option.some.inj hkv'
        have := (hR.content_pos hc).2.2
        show revision < m.currentRevision + 1
        omega
      · rw [if_neg hrev] at hcont
        exact .inl hcont

/-- What the Memory backend writes is stored, so only the revision matters. -/
theorem swaps_memory_iff {value : ℕ → Bytes} {x : Contest Memory} (hx : ∃ h n, Refines x.state h n)
    (a : ContestAct) :
    Contest.Swaps (fun _ => overMemory register) value (fun m => m.content compactRevAPI) x a ↔
      Contest.Current (fun m => m.content compactRevAPI) x a := by
  obtain ⟨h, n, hR⟩ := hx
  constructor
  · intro hswap i now version modRev cur ha hread hne
    refine (hswap i now version modRev cur ha hread ?_).1 hne
    unfold compactCall
    rw [if_neg hne, overMemory_update]
    exact congrArg Prod.snd (hR.update_content compactRevAPI _ modRev 0).1
  · intro hcur i now version modRev cur ha hread hnone
    refine ⟨hcur i now version modRev cur ha hread, ?_⟩
    unfold compactCall at hnone ⊢
    by_cases hv : version = 0
    · simp only [if_pos hv, overMemory_create] at hnone ⊢
      obtain ⟨herr, hcont⟩ := hR.create_content compactRevAPI (encodeVersion (wrap64 (version + 1)) (value i)) 0
      have hc : x.state.content compactRevAPI = none := by
        rw [hnone] at herr
        by_contra hc
        rw [if_pos (Option.isSome_iff_ne_none.2 hc)] at herr
        simp at herr
      rw [hcont, hc]
      rfl
    · simp only [if_neg hv, overMemory_update]
      obtain ⟨kv, hkv, hm⟩ := hcur i now version modRev cur ha hread hv
      have hkv : x.state.content compactRevAPI = some kv := hkv
      rw [(hR.update_content compactRevAPI _ modRev 0).2, hkv, Option.map_some, if_pos hm]
      rfl

end OverMemory

/-! ## The SQL backend -/

section OverSql

open LogStructured Kine

variable {s : SqlLog} {key : Bytes}

/-- A `Create` that fails changes nothing. -/
theorem create_err (env : SqlEnv) (s : SqlLog) (key value : Bytes) (lease : ℤ)
    (herr : (LogStructured.create env s key value lease).1.2 ≠ none) :
    (LogStructured.create env s key value lease).2.db = s.db := by
  have hdb := get'_db s key 0 true true
  unfold LogStructured.create at herr ⊢
  simp only [adjustRevision_db] at herr ⊢
  split
  · exact hdb
  · split
    · exact hdb
    · rename_i e he
      rcases append_cases env.codec env.now (get' s key 0 true true).2 e with
        ⟨err, happ⟩ | ⟨rev, db, -, -, -, happ, -⟩
      · rw [happ]
        exact hdb
      · rename_i hnone _
        simp [hnone, he, happ] at herr

/-- The last row of the key after an append to it is a new one. -/
theorem append_content_lt {c : Codec} {now rev : ℤ} {e : Event} {s' : SqlLog}
    (h : s.append c now e = ((rev, none), s')) {kv : KeyValue} (hkv : content s'.db e.kv.key = some kv) :
    s.db.kine.seq < kv.modRevision := by
  unfold SqlLog.append at h
  simp only at h
  split at h
  · simp at h
  · rename_i r db hins
    simp only [Prod.mk.injEq, and_true] at h
    obtain ⟨-, rfl⟩ := h
    obtain ⟨m, t, -, hrow, hadds⟩ := c.insert_row_adds hins
    obtain ⟨-, -, old, hrows⟩ := insert_eq_some hrow
    obtain ⟨-, extra, hextra, -⟩ := hadds
    unfold content at hkv
    obtain ⟨y, hy, rfl⟩ := Option.map_eq_some_iff.1 hkv
    obtain ⟨-, -, hmax⟩ := last_eq_some (Option.eq_some_of_filter_eq_some hy)
    have hle := hmax { Codec.insertedRow m e.kv.key e.create e.delete e.kv.createRevision
        (e.prevKV.getD ⟨[], [], 0, 0, 0, 0⟩).modRevision e.kv.lease e.kv.value with
      id := s.db.kine.seq + 1, oldValue := old } ?_ rfl
    · show s.db.kine.seq < y.id
      have hle : s.db.kine.seq + 1 ≤ y.id := hle
      omega
    · rw [hextra, hrows]
      simp

theorem cell_sql (c : Codec) (selected : Bytes → Bytes → Row → Bool) (register : Bytes → Option Err) :
    Cell (fun now => ⟨LogStructured.backend ⟨c, now⟩ selected, register⟩) (fun _ : SqlLog => True)
      fun s => content s.db compactRevAPI where
  get := by
    intro s _ now
    refine ⟨trivial, congrArg (fun db => content db compactRevAPI) (get_db s compactRevAPI 0 false), fun _ => ?_⟩
    show (get' s compactRevAPI 0 false false).1.2.1.map Event.kv = _
    rw [get'_event]
    unfold content
    rw [Option.map_map]
    simp only [Bool.or_false]
    rfl
  create := by
    intro s _ now value
    refine ⟨trivial, fun hnone => ?_, fun hne => ?_⟩
    · -- a live row makes the create fail
      by_contra hc
      obtain ⟨kv, hkv⟩ := Option.ne_none_iff_exists'.1 hc
      obtain ⟨x, hx, -⟩ := Option.map_eq_some_iff.1 hkv
      change (LogStructured.create ⟨c, now⟩ s compactRevAPI value 0).1.2 = none at hnone
      rw [create_exists hx] at hnone
      simp at hnone
    · exact congrArg (fun db => content db compactRevAPI) (create_err ⟨c, now⟩ s compactRevAPI value 0 hne)
  update := by
    intro s _ now value revision
    refine ⟨trivial, ?_⟩
    show content (LogStructured.update ⟨c, now⟩ s compactRevAPI value revision 0).2.db compactRevAPI = _ ∨
      (LogStructured.update ⟨c, now⟩ s compactRevAPI value revision 0).1.2.2.2 = none ∧ _
    cases hx : (s.db.kine.last compactRevAPI).filter fun x => !x.deleted with
    | none =>
      rw [update_absent hx]
      exact .inl rfl
    | some x =>
      obtain ⟨herr, hdb⟩ := update_live hx ⟨c, now⟩ value revision 0
      by_cases hrev : x.id = revision
      · rw [if_pos hrev] at hdb
        rcases append_cases c now s (updateEvent compactRevAPI value 0 (x.toEvent true false)) with
          ⟨err, happ⟩ | ⟨rev, db, -, -, -, happ, -⟩
        · rw [happ] at hdb
          rw [hdb]
          exact .inl rfl
        · refine .inr ⟨herr, (x.toEvent true false).kv, ?_, hrev, fun kv' hkv' => ?_⟩
          · unfold content
            rw [hx]
            rfl
          · change content (LogStructured.update ⟨c, now⟩ s compactRevAPI value revision 0).2.db compactRevAPI = _
              at hkv'
            rw [hdb, happ] at hkv'
            have hlt := append_content_lt happ hkv'
            have hle := (s.db.kine.bounded x (mem_of_live hx)).2
            omega
      · rw [if_neg hrev] at hdb
        rw [hdb]
        exact .inl rfl

end OverSql

/-! ## Runs -/

namespace Contest

/-- The key as a first call of `compact` leaves it. -/
def held : Memory := Memory.run [.create compactRevAPI (encodeVersion 1 (ascii "100")) 0]

/-- Two apiservers that have both seen version 1. -/
def race : Contest Memory :=
  exec (step (fun _ => overMemory fun _ => none) 1 fun i => if i = 0 then ascii "200" else ascii "300") (start held)
    [.get 0 0, .get 1 0, .write 0 0, .write 1 0]

end Contest

end Harikube.LimitedServer
