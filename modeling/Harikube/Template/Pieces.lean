import Mathlib

/-!
# Texts with holes

A statement with bound arguments is a text with holes, each with the argument that belongs there.
It is printed with a mark in the place of each hole, which may have the number of the hole.

* `print_congr`: the printed text does not depend on the arguments.
* `replaceMarks_print`: replacing the marks of a printed text one after another prints it with
  other marks.
* `filter_print`, `scanMarks_print`: **the marks that are found in a printed text are those of its
  holes**, if the text itself has no such marks.
-/

namespace Harikube.Template

/-- A piece of a text: letters, or a hole with its argument. -/
inductive Piece (α β : Type*)
  | text (s : List α)
  | hole (b : β)

variable {α β : Type*} {mark : ℕ → List α} {ps qs : List (Piece α β)} {q : α}

/-- The arguments, from left to right. -/
def holes : List (Piece α β) → List β
  | [] => []
  | .text _ :: ps => holes ps
  | .hole b :: ps => b :: holes ps

/-- The text with a mark for each hole, the first with the number `k`. -/
def print (mark : ℕ → List α) : ℕ → List (Piece α β) → List α
  | _, [] => []
  | k, .text s :: ps => s ++ print mark k ps
  | k, .hole _ :: ps => mark k ++ print mark (k + 1) ps

/-- The text without its arguments. -/
def skeleton : List (Piece α β) → List (Piece α Unit)
  | [] => []
  | .text s :: ps => .text s :: skeleton ps
  | .hole _ :: ps => .hole () :: skeleton ps

/-- The pieces of several texts with a text between them. -/
def joined (s : List α) : List (List (Piece α β)) → List (Piece α β)
  | [] => []
  | [ps] => ps
  | ps :: rest => ps ++ .text s :: joined s rest

@[simp] theorem holes_append (ps qs : List (Piece α β)) : holes (ps ++ qs) = holes ps ++ holes qs := by
  induction ps with
  | nil => rfl
  | cons p ps ih => cases p <;> simp [holes, ih]

theorem print_append (k : ℕ) (ps qs : List (Piece α β)) :
    print mark k (ps ++ qs) = print mark k ps ++ print mark (k + (holes ps).length) qs := by
  induction ps generalizing k with
  | nil => rfl
  | cons p ps ih =>
    cases p with
    | text s => simp [print, holes, ih]
    | hole b => simp [print, holes, ih, Nat.add_assoc, Nat.add_comm]

@[simp] theorem skeleton_append (ps qs : List (Piece α β)) : skeleton (ps ++ qs) = skeleton ps ++ skeleton qs := by
  induction ps with
  | nil => rfl
  | cons p ps ih => cases p <;> simp [skeleton, ih]

theorem print_skeleton (k : ℕ) (ps : List (Piece α β)) : print mark k (skeleton ps) = print mark k ps := by
  induction ps generalizing k with
  | nil => rfl
  | cons p ps ih => cases p <;> simp [skeleton, print, ih]

/-- **The printed text does not depend on the arguments.** -/
theorem print_congr (h : skeleton ps = skeleton qs) (k : ℕ) : print mark k ps = print mark k qs := by
  rw [← print_skeleton k ps, h, print_skeleton]

/-- A mark without a number. -/
theorem print_const (s : List α) (j k : ℕ) (ps : List (Piece α β)) :
    print (fun _ => s) j ps = print (fun _ => s) k ps := by
  induction ps generalizing j k with
  | nil => rfl
  | cons p ps ih =>
    cases p with
    | text t => simp only [print]; rw [ih j k]
    | hole b => simp only [print]; rw [ih (j + 1) (k + 1)]

theorem holes_joined (s : List α) (pss : List (List (Piece α β))) : holes (joined s pss) = pss.flatMap holes := by
  induction pss with
  | nil => rfl
  | cons ps rest ih =>
    cases rest with
    | nil => simp [joined]
    | cons qs rest =>
      show holes (ps ++ .text s :: joined s (qs :: rest)) = _
      rw [holes_append, List.flatMap_cons, ← ih]
      rfl

theorem skeleton_joined (s : List α) {pss qss : List (List (Piece α β))}
    (h : pss.map skeleton = qss.map skeleton) : skeleton (joined s pss) = skeleton (joined s qss) := by
  have hjoin : ∀ pss : List (List (Piece α β)), skeleton (joined s pss) = joined s (pss.map skeleton) := by
    intro pss
    induction pss with
    | nil => rfl
    | cons ps rest ih =>
      cases rest with
      | nil => rfl
      | cons qs rest =>
        show skeleton (ps ++ .text s :: joined s (qs :: rest)) = _
        rw [skeleton_append]
        show skeleton ps ++ .text s :: skeleton (joined s (qs :: rest)) = _
        rw [ih]
        rfl
  rw [hjoin, hjoin, h]

/-- A mark without a number is printed by joining the printed texts. -/
theorem print_joined (m s : List α) (k : ℕ) (pss : List (List (Piece α β))) :
    print (fun _ => m) k (joined s pss) = s.intercalate (pss.map (print (fun _ => m) k)) := by
  induction pss with
  | nil => rfl
  | cons ps rest ih =>
    cases rest with
    | nil => simp [joined]
    | cons qs rest =>
      show print (fun _ => m) k (ps ++ .text s :: joined s (qs :: rest)) = _
      rw [print_append]
      show _ ++ (s ++ print (fun _ => m) _ (joined s (qs :: rest))) = _
      rw [print_const m (k + (holes ps).length) k, ih]
      simp [List.intercalate]

/-! ## Marks -/

/-- The letters of the text, without the marks. -/
def letters : List (Piece α β) → List α
  | [] => []
  | .text s :: ps => s ++ letters ps
  | .hole _ :: ps => letters ps

@[simp] theorem letters_append (ps qs : List (Piece α β)) : letters (ps ++ qs) = letters ps ++ letters qs := by
  induction ps with
  | nil => rfl
  | cons p ps ih => cases p <;> simp [letters, ih]

theorem mem_letters_joined {s : List α} {pss : List (List (Piece α β))} {c : α} (hc : c ∈ letters (joined s pss)) :
    c ∈ s ∨ ∃ ps ∈ pss, c ∈ letters ps := by
  induction pss with
  | nil => exact absurd hc List.not_mem_nil
  | cons ps rest ih =>
    cases rest with
    | nil => exact .inr ⟨ps, List.mem_cons_self, hc⟩
    | cons qs rest =>
      rw [show joined s (ps :: qs :: rest) = ps ++ .text s :: joined s (qs :: rest) from rfl, letters_append] at hc
      rcases List.mem_append.1 hc with hc | hc
      · exact .inr ⟨ps, List.mem_cons_self, hc⟩
      · rcases List.mem_append.1 hc with hc | hc
        · exact .inl hc
        · rcases ih hc with hc | ⟨us, hus, hc⟩
          · exact .inl hc
          · exact .inr ⟨us, List.mem_cons_of_mem _ hus, hc⟩

variable {digit : α → Bool}

/-- Every hole is followed by a text that does not begin with a digit. -/
def closed (digit : α → Bool) : List (Piece α β) → Bool
  | [] => true
  | .text _ :: ps => closed digit ps
  | .hole _ :: .text (c :: _) :: ps => !digit c && closed digit ps
  | .hole _ :: _ => false

theorem closed_append (h : closed digit ps = true) (h' : closed digit qs = true) : closed digit (ps ++ qs) = true := by
  induction ps using closed.induct with
  | case1 => exact h'
  | case2 s ps ih => exact ih h
  | case3 b c s ps ih =>
    rw [closed, Bool.and_eq_true] at h
    show (!digit c && closed digit (ps ++ qs)) = true
    rw [Bool.and_eq_true]
    exact ⟨h.1, ih h.2⟩
  | case4 b ps hps =>
    rw [closed] at h
    · simp at h
    · exact hps

theorem closed_joined (s : List α) {pss : List (List (Piece α β))} (h : ∀ ps ∈ pss, closed digit ps = true) :
    closed digit (joined s pss) = true := by
  induction pss with
  | nil => rfl
  | cons ps rest ih =>
    have hrest := ih fun qs hqs => h qs (List.mem_cons_of_mem _ hqs)
    cases rest with
    | nil => exact h ps List.mem_cons_self
    | cons qs rest => exact closed_append (h ps List.mem_cons_self) hrest

variable [DecidableEq α]

/-- Each letter `q` is replaced, the first by the mark with the number `k`. -/
def replaceMarks (q : α) (mark : ℕ → List α) : ℕ → List α → List α
  | _, [] => []
  | k, c :: s => if c = q then mark k ++ replaceMarks q mark (k + 1) s else c :: replaceMarks q mark k s

theorem replaceMarks_append {s : List α} (hs : q ∉ s) (k : ℕ) (u : List α) :
    replaceMarks q mark k (s ++ u) = s ++ replaceMarks q mark k u := by
  induction s with
  | nil => rfl
  | cons c s ih =>
    have hc : c ≠ q := fun h => hs (h ▸ List.mem_cons_self)
    rw [List.cons_append, replaceMarks, if_neg hc, ih fun h => hs (List.mem_cons_of_mem _ h), List.cons_append]

/-- **Replacing the marks of a printed text prints it with other marks.** -/
theorem replaceMarks_print (h : q ∉ letters ps) (j k : ℕ) :
    replaceMarks q mark k (print (fun _ => [q]) j ps) = print mark k ps := by
  induction ps generalizing j k with
  | nil => rfl
  | cons p ps ih =>
    cases p with
    | text s =>
      rw [letters, List.mem_append, not_or] at h
      rw [print, replaceMarks_append h.1, ih h.2]
      rfl
    | hole b =>
      rw [print, List.singleton_append, replaceMarks, if_pos rfl, ih h]
      rfl

/-- The marks without a number in a printed text. -/
theorem filter_print (h : q ∉ letters ps) (k : ℕ) :
    (print (fun _ => [q]) k ps).filter (fun c => c = q) = (holes ps).map fun _ => q := by
  induction ps generalizing k with
  | nil => rfl
  | cons p ps ih =>
    cases p with
    | text s =>
      rw [letters, List.mem_append, not_or] at h
      have hs : s.filter (fun c => c = q) = [] := by
        rw [List.filter_eq_nil_iff]
        intro c hc heq
        exact h.1 (of_decide_eq_true heq ▸ hc)
      rw [print, List.filter_append, hs, ih h.2]
      rfl
    | hole b =>
      rw [print, List.singleton_append, List.filter_cons_of_pos (by simp), ih h]
      rfl

/-- The runs of digits that come after a letter `q`. -/
def scanMarks (q : α) (digit : α → Bool) : List α → List (List α)
  | [] => []
  | c :: s => if c = q ∧ s.head?.any digit then s.takeWhile digit :: scanMarks q digit s else scanMarks q digit s

theorem scanMarks_append {s : List α} (hs : q ∉ s) (u : List α) :
    scanMarks q digit (s ++ u) = scanMarks q digit u := by
  induction s with
  | nil => rfl
  | cons c s ih =>
    have hc : c ≠ q := fun h => hs (h ▸ List.mem_cons_self)
    rw [List.cons_append, scanMarks, if_neg fun h => hc h.1, ih fun h => hs (List.mem_cons_of_mem _ h)]

/-- A number is found as a whole if no digit comes after it. -/
theorem scanMarks_number {ds u : List α} (hne : ds ≠ []) (hds : ∀ d ∈ ds, digit d = true) (hq : digit q = false)
    (hu : u.head?.any digit = false) : scanMarks q digit (q :: ds ++ u) = ds :: scanMarks q digit u := by
  have hfree : q ∉ ds := fun h => by simp [hds q h] at hq
  have hhead : (ds ++ u).head?.any digit = true := by
    cases ds with
    | nil => exact absurd rfl hne
    | cons d ds => exact hds d List.mem_cons_self
  have htake : (ds ++ u).takeWhile digit = ds := by
    rw [List.takeWhile_append_of_pos hds]
    cases u with
    | nil => simp
    | cons c u => rw [List.takeWhile_cons_of_neg (by simpa using hu), List.append_nil]
  rw [List.cons_append, scanMarks, if_pos ⟨rfl, hhead⟩, htake, scanMarks_append hfree]

/-- **The numbers that are found in a printed text are those of its holes.** -/
theorem scanMarks_print {number : ℕ → List α} (hne : ∀ n, number n ≠ []) (hds : ∀ n, ∀ d ∈ number n, digit d = true)
    (hq : digit q = false) (hclosed : closed digit ps = true) (h : q ∉ letters ps) (k : ℕ) :
    scanMarks q digit (print (fun n => q :: number n) k ps) = (List.range' k (holes ps).length).map number := by
  induction ps using closed.induct generalizing k with
  | case1 => rfl
  | case2 s ps ih =>
    rw [letters, List.mem_append, not_or] at h
    rw [print, scanMarks_append h.1, ih hclosed h.2]
    rfl
  | case3 b c s ps ih =>
    rw [closed, Bool.and_eq_true, Bool.not_eq_true'] at hclosed
    rw [letters, letters, List.mem_append, not_or] at h
    rw [print, print, scanMarks_number (hne k) (hds k) hq (by simpa using hclosed.1), scanMarks_append h.1,
      ih hclosed.2 h.2]
    rfl
  | case4 b ps hps =>
    rw [closed] at hclosed
    · simp at hclosed
    · exact hps

end Harikube.Template
