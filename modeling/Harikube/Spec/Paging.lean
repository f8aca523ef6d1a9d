import Harikube.Spec.Server

/-!
# Following a list page by page

A client reads a range in pages of `LimitedServer.list` (`pkg/server/list.go`): the first
page at the current revision, and, as long as there is more, the next page at the revision
of the first one, from the last key followed by a zero byte.

`Shared` is a Memory backend that other clients call, too: each call of the backend is
followed by calls of others, so that their writes come between the pages and also between
the `List` and the `Count` of one page.
-/

namespace Harikube

/-- A backend in memory, and the calls of others that come after its next calls. -/
structure Shared where
  memory : Memory
  others : List (List Op)

namespace Shared

/-- Others call. -/
def advance (s : Shared) : Shared :=
  match s.others with
  | [] => s
  | ops :: others => ⟨ops.foldl Memory.step s.memory, others⟩

/-- A call, and then others call. -/
def call {α : Type} (f : Memory → α × Memory) (s : Shared) : α × Shared :=
  ((f s.memory).1, advance ⟨(f s.memory).2, s.others⟩)

def backend : Backend Shared where
  create s key value lease := s.call fun m => m.create key value lease
  update s key value revision lease := s.call fun m => m.update key value revision lease
  delete s key revision := s.call fun m => m.delete key revision
  get s key revision keysOnly := s.call fun m => Memory.backend.get m key revision keysOnly
  list s key rangeEnd limit revision keysOnly labelSelector fieldSelector :=
    s.call fun m => Memory.backend.list m key rangeEnd limit revision keysOnly labelSelector fieldSelector
  count s key rangeEnd revision labelSelector fieldSelector :=
    s.call fun m => Memory.backend.count m key rangeEnd revision labelSelector fieldSelector

/-- No call of others compacts past a revision. -/
def Retains (s : Shared) (revision : ℤ) : Prop :=
  ∀ ops ∈ s.others, ∀ op ∈ ops, ∀ r, op = .compact r → r ≤ revision

end Shared

/-- The request for the page after one that ends with `last`, with the revision of the
first page if that one did not ask for a revision. -/
def RangeRequest.after (r : RangeRequest) (last : Bytes) (revision : ℤ) : RangeRequest :=
  { r with key := last ++ [0], revision := if r.revision = 0 then revision else r.revision }

/-- Follow a list for at most `fuel` pages: each request with its response. -/
def LimitedServer.follow {σ : Type} (l : LimitedServer σ) :
    ℕ → σ → RangeRequest → List (RangeRequest × Except Err RangeResponse)
  | 0, _, _ => []
  | fuel + 1, s, r =>
    match l.list s r with
    | (.error err, _) => [(r, .error err)]
    | (.ok resp, s) =>
      (r, .ok resp) ::
        match resp.more, resp.kvs.getLast? with
        | true, some kv => l.follow fuel s (r.after kv.key resp.revision)
        | _, _ => []

end Harikube
