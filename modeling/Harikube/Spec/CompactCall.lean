import Harikube.Spec.LogStructured

/-!
# Concurrent calls of `compact`

`LimitedServer.compact` (`pkg/server/compact.go`) is a `Get`, then a `Create` or an
`Update`, and another `Get` if that has failed. Several apiservers call it at once with the
version that they have all seen. Each call of the backend is atomic, and the calls of
`compact` interleave between them.
-/

namespace Harikube.LimitedServer

variable {σ : Type}

/-- How far a call of `compact` has got: to its `Get`; to its write, after it has found the
version that it compares with; to the second `Get`; or to its return. -/
inductive CompactStage
  | new
  | read (version modRev : ℤ) (curValue : Bytes)
  | failed (version : ℤ) (curValue : Bytes)
  | done (r : Except Err TxnResponse)

/-- The call has returned `Succeeded: true`. -/
def CompactStage.won : CompactStage → Bool
  | .done (.ok r) => r.succeeded
  | _ => false

/-- What the first `Get` leads to. -/
def afterGet (compareVersion : ℤ) (g : ℤ × Option KeyValue × Option Err) : CompactStage :=
  match g.2.2 with
  | some err => .done (.error err)
  | none =>
    let modRev := (g.2.1.map KeyValue.modRevision).getD 0
    let cur := (g.2.1.map fun kv => decodeVersion kv.value).getD (0, [])
    if compareVersion = cur.1 then .read cur.1 modRev cur.2 else .done (.ok (compactCurrent g.1 cur.1 cur.2))

/-- What the write leads to. -/
def afterWrite (version : ℤ) (curValue : Bytes) (w : ℤ × Option Err) : CompactStage :=
  match w.2 with
  | none => .done (.ok ⟨w.1, true, []⟩)
  | some _ => .failed version curValue

/-- What the second `Get` leads to. -/
def afterSecondGet (version : ℤ) (curValue : Bytes) (g : ℤ × Option KeyValue × Option Err) : CompactStage :=
  match g.2.2 with
  | some err => .done (.error err)
  | none =>
    let cur := (g.2.1.map fun kv => decodeVersion kv.value).getD (version, curValue)
    .done (.ok (compactCurrent g.1 cur.1 cur.2))

/-- The store and the calls on it. -/
structure Contest (σ : Type) where
  state : σ
  stage : ℕ → CompactStage

/-- The next backend call of a call of `compact`, at a time of the clock. -/
inductive ContestAct
  | get (i : ℕ) (now : ℤ)
  | write (i : ℕ) (now : ℤ)
  | again (i : ℕ) (now : ℤ)

namespace Contest

/-- Every call is still to begin. -/
def start (s : σ) : Contest σ := ⟨s, fun _ => .new⟩

/-- A call has got further, with a new state of the store. -/
def advance (x : Contest σ) (i : ℕ) (s : σ) (stage : CompactStage) : Contest σ :=
  ⟨s, Function.update x.stage i stage⟩

/-- A step. `l` is the server at a time of the clock; call `i` has the value `value i`. -/
def step (l : ℤ → LimitedServer σ) (compareVersion : ℤ) (value : ℕ → Bytes) (x : Contest σ) :
    ContestAct → Contest σ
  | .get i now =>
    match x.stage i with
    | .new =>
      let g := (l now).backend.get x.state compactRevAPI 0 false
      x.advance i g.2 (afterGet compareVersion g.1)
    | _ => x
  | .write i now =>
    match x.stage i with
    | .read version modRev curValue =>
      let w := (l now).compactCall x.state version modRev (encodeVersion (wrap64 (version + 1)) (value i))
      x.advance i w.2 (afterWrite version curValue w.1)
    | _ => x
  | .again i now =>
    match x.stage i with
    | .failed version curValue =>
      let g := (l now).backend.get x.state compactRevAPI 0 false
      x.advance i g.2 (afterSecondGet version curValue g.1)
    | _ => x

end Contest

end Harikube.LimitedServer
