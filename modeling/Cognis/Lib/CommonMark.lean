/-
  The part of CommonMark that tells headings from code: the lines of a text, the ATX
  headings and the fenced code blocks, as they stand on a line of its own.

  * `IsAtxHeading`, `OpensFence` and `ClosesFence` are the grammar of a line;
  * `nextOpen` is the open fence after a line, and `headingLines` the headings outside of the
    fences;
  * `leadingRun_eq_iff`: how a line is cut after the run of a character that it begins with.
-/
import Mathlib.Data.List.TakeWhile
import Mathlib.Tactic.Common

namespace Cognis

namespace CommonMark

/-! ## Lines -/

/-- The lines of a text. A line ends with a line feed, a carriage return, or the one after the
    other. -/
def lines : List Char → List (List Char)
  | [] => []
  | '\r' :: '\n' :: text => [] :: lines text
  | c :: text =>
    if c = '\n' ∨ c = '\r' then [] :: lines text else
      match lines text with
      | [] => [[c]]
      | line :: rest => (c :: line) :: rest

/-- A line feed follows every carriage return. -/
def NoLoneCr : List Char → Prop
  | [] => True
  | '\r' :: text => text.head? = some '\n' ∧ NoLoneCr text
  | _ :: text => NoLoneCr text

/-! ## The grammar of a line -/

/-- The run of a character after up to three blanks, and what stands after it. -/
def IndentedRun (line : List Char) (c : Char) (k : ℕ) (rest : List Char) : Prop :=
  ∃ n ≤ 3, line = List.replicate n ' ' ++ (List.replicate k c ++ rest)

/-- One to six `#`, and a blank, a tab or the end of the line after them. -/
def IsAtxHeading (line : List Char) : Prop :=
  ∃ k rest, IndentedRun line '#' k rest ∧ 1 ≤ k ∧ k ≤ 6 ∧
    ∀ c ∈ rest.head?, c = ' ' ∨ c = '\t'

/-- A fence: three or more backquotes or tildes. -/
structure Fence where
  char : Char
  len : ℕ
  isFence : (char = '\x60' ∨ char = '~') ∧ 3 ≤ len

/-- A fence with its info string, which has no backquote after backquotes. -/
def OpensFence (line : List Char) (fence : Fence) : Prop :=
  ∃ info, IndentedRun line fence.char fence.len info ∧ info.head? ≠ some fence.char ∧
    (fence.char = '\x60' → '\x60' ∉ info)

/-- A fence that is at least as long, with blanks and tabs after it. -/
def ClosesFence (line : List Char) (fence : Fence) : Prop :=
  ∃ k rest, fence.len ≤ k ∧ IndentedRun line fence.char k rest ∧ ∀ c ∈ rest, c = ' ' ∨ c = '\t'

/-- The fence that is open after a line. A line inside of a code block opens none. -/
inductive FenceStep : Option Fence → List Char → Option Fence → Prop
  | opens {line fence} : OpensFence line fence → FenceStep none line (some fence)
  | outside {line} : (∀ fence, ¬ OpensFence line fence) → FenceStep none line none
  | closes {line fence} : ClosesFence line fence → FenceStep (some fence) line none
  | inside {line fence} : ¬ ClosesFence line fence → FenceStep (some fence) line (some fence)

/-- The fence that is open after some lines. -/
inductive FenceRun : Option Fence → List (List Char) → Option Fence → Prop
  | nil {s} : FenceRun s [] s
  | cons {s line t lines u} : FenceStep s line t → FenceRun t lines u → FenceRun s (line :: lines) u

/-- The line with index `i` is a heading outside of the code blocks. A block that is not closed
    goes on to the end. -/
def IsHeadingAt (lines : List (List Char)) (i : ℕ) : Prop :=
  ∃ line, lines[i]? = some line ∧ IsAtxHeading line ∧ FenceRun none (lines.take i) none

/-! ## Runs of a character -/

/-- How many of `c` a line begins with. -/
def leadingRun (c : Char) (line : List Char) : ℕ := (line.takeWhile (· = c)).length

theorem leadingRun_replicate {c : Char} {rest : List Char} (h : rest.head? ≠ some c) (n : ℕ) :
    leadingRun c (List.replicate n c ++ rest) = n := by
  have htake : rest.takeWhile (· = c) = [] := by
    cases rest with
    | nil => rfl
    | cons d rest =>
      rw [List.takeWhile_cons_of_neg]
      rintro hd
      exact h (congrArg some (of_decide_eq_true hd))
  rw [leadingRun, List.takeWhile_append_of_pos (by simp), htake, List.append_nil,
    List.length_replicate]

/-- A line is the run that it begins with, and the rest. -/
theorem leadingRun_spec (c : Char) (line : List Char) :
    line = List.replicate (leadingRun c line) c ++ line.drop (leadingRun c line) ∧
      (line.drop (leadingRun c line)).head? ≠ some c := by
  induction line with
  | nil => exact ⟨rfl, by simp⟩
  | cons d line ih =>
    by_cases hd : d = c
    · subst hd
      have hrun : leadingRun d (d :: line) = leadingRun d line + 1 := by simp [leadingRun]
      rw [hrun, List.replicate_succ, List.drop_succ_cons, List.cons_append]
      exact ⟨congrArg _ ih.1, ih.2⟩
    · have hrun : leadingRun c (d :: line) = 0 := by simp [leadingRun, hd]
      rw [hrun]
      exact ⟨rfl, by simpa using hd⟩

/-- The one way to read a run after blanks. -/
theorem indentedRun_iff {line : List Char} {c : Char} (hc : c ≠ ' ') {k : ℕ} (hk : 1 ≤ k)
    {rest : List Char} (hrest : rest.head? ≠ some c) :
    IndentedRun line c k rest ↔ leadingRun ' ' line ≤ 3 ∧
      leadingRun c (line.drop (leadingRun ' ' line)) = k ∧
      (line.drop (leadingRun ' ' line)).drop k = rest := by
  constructor
  · rintro ⟨n, hn, rfl⟩
    have hhead : (List.replicate k c ++ rest).head? ≠ some ' ' := by
      obtain ⟨k, rfl⟩ := Nat.exists_eq_succ_of_ne_zero (by omega : k ≠ 0)
      simpa [List.replicate_succ] using hc
    rw [leadingRun_replicate hhead, List.drop_left' (List.length_replicate ..),
      leadingRun_replicate hrest, List.drop_left' (List.length_replicate ..)]
    exact ⟨hn, rfl, rfl⟩
  · rintro ⟨hn, rfl, rfl⟩
    refine ⟨_, hn, ?_⟩
    conv_lhs => rw [(leadingRun_spec ' ' line).1]
    conv_lhs => rw [(leadingRun_spec c (line.drop (leadingRun ' ' line))).1]

/-! ## The open fence -/

/-- The fence that a line opens. -/
def opening (line : List Char) : Option Fence :=
  let rest := line.drop (leadingRun ' ' line)
  match rest.head? with
  | none => none
  | some c =>
    if h : leadingRun ' ' line ≤ 3 ∧ ((c = '\x60' ∨ c = '~') ∧ 3 ≤ leadingRun c rest) ∧
        (c = '\x60' → '\x60' ∉ rest.drop (leadingRun c rest)) then
      some ⟨c, leadingRun c rest, h.2.1⟩
    else none

/-- The line closes the fence. -/
def closing (fence : Fence) (line : List Char) : Bool :=
  let rest := line.drop (leadingRun ' ' line)
  leadingRun ' ' line ≤ 3 && fence.len ≤ leadingRun fence.char rest &&
    (rest.drop (leadingRun fence.char rest)).all fun c => c = ' ' || c = '\t'

/-- The open fence after a line. -/
def nextOpen : Option Fence → List Char → Option Fence
  | none, line => opening line
  | some fence, line => if closing fence line then none else some fence

theorem Fence.char_ne_blank (fence : Fence) : fence.char ≠ ' ' := by
  rcases fence.isFence.1 with h | h <;> rw [h] <;> decide

theorem Fence.one_le_len (fence : Fence) : 1 ≤ fence.len := by
  have := fence.isFence.2
  omega

/-- A run that is not empty begins the line. -/
theorem head?_of_leadingRun {c : Char} {line : List Char} (h : 1 ≤ leadingRun c line) :
    line.head? = some c := by
  rw [(leadingRun_spec c line).1]
  obtain ⟨k, hk⟩ := Nat.exists_eq_succ_of_ne_zero (by omega : leadingRun c line ≠ 0)
  rw [hk, List.replicate_succ]
  rfl

theorem opening_eq_some_iff {line : List Char} {fence : Fence} :
    opening line = some fence ↔ OpensFence line fence := by
  constructor
  · intro h
    rw [opening] at h
    split at h
    · cases h
    · next c hc =>
      split at h
      · next hopen =>
        obtain rfl := Option.some.inj h
        have hrest := (leadingRun_spec c (line.drop (leadingRun ' ' line))).2
        refine ⟨_, (indentedRun_iff (Fence.char_ne_blank ⟨c, _, hopen.2.1⟩)
          (Fence.one_le_len ⟨c, _, hopen.2.1⟩) hrest).2 ⟨hopen.1, rfl, rfl⟩, hrest, hopen.2.2⟩
      · cases h
  · rintro ⟨info, hrun, hhead, hback⟩
    obtain ⟨hle, hlen, hdrop⟩ :=
      (indentedRun_iff fence.char_ne_blank fence.one_le_len hhead).1 hrun
    have hfirst : (line.drop (leadingRun ' ' line)).head? = some fence.char :=
      head?_of_leadingRun (by rw [hlen]; exact fence.one_le_len)
    obtain ⟨char, len, hfence⟩ := fence
    simp only at hlen hdrop hfirst hback
    rw [opening]
    simp only [hfirst]
    rw [dif_pos ⟨hle, by rw [hlen]; exact hfence, by rw [hlen, hdrop]; exact hback⟩]
    simp only [hlen]

theorem closing_iff {fence : Fence} {line : List Char} :
    closing fence line = true ↔ ClosesFence line fence := by
  have hlen := fence.one_le_len
  simp only [closing, Bool.and_eq_true, decide_eq_true_eq, List.all_eq_true, Bool.or_eq_true]
  constructor
  · rintro ⟨⟨hle, hlong⟩, hall⟩
    refine ⟨_, _, hlong, (indentedRun_iff fence.char_ne_blank (hlen.trans hlong)
      (leadingRun_spec _ _).2).2 ⟨hle, rfl, rfl⟩, hall⟩
  · rintro ⟨k, rest, hlong, hrun, hall⟩
    have hhead : rest.head? ≠ some fence.char := by
      intro hhead
      have hchar := fence.isFence.1
      rcases hall _ (List.mem_of_mem_head? hhead) with h | h
      · exact fence.char_ne_blank h
      · rw [h] at hchar
        exact absurd hchar (by decide)
    obtain ⟨hle, rfl, rfl⟩ :=
      (indentedRun_iff fence.char_ne_blank (hlen.trans hlong) hhead).1 hrun
    exact ⟨⟨hle, hlong⟩, hall⟩

theorem fenceStep_iff {s t : Option Fence} {line : List Char} :
    FenceStep s line t ↔ nextOpen s line = t := by
  constructor
  · intro h
    cases h with
    | opens h => exact opening_eq_some_iff.2 h
    | outside h =>
      rw [nextOpen, Option.eq_none_iff_forall_ne_some]
      exact fun fence hfence => h fence (opening_eq_some_iff.1 hfence)
    | closes h => rw [nextOpen, if_pos (closing_iff.2 h)]
    | inside h => rw [nextOpen, if_neg (h ∘ closing_iff.1)]
  · rintro rfl
    cases s with
    | none =>
      rw [nextOpen]
      cases hopen : opening line with
      | none =>
        refine .outside fun fence hfence => ?_
        rw [opening_eq_some_iff.2 hfence] at hopen
        cases hopen
      | some fence => exact .opens (opening_eq_some_iff.1 hopen)
    | some fence =>
      rw [nextOpen]
      split_ifs with hclose
      · exact .closes (closing_iff.1 hclose)
      · exact .inside (hclose ∘ closing_iff.2)

theorem fenceRun_iff {s t : Option Fence} {lines : List (List Char)} :
    FenceRun s lines t ↔ lines.foldl nextOpen s = t := by
  constructor
  · intro h
    induction h with
    | nil => rfl
    | cons hstep _ ih => rw [List.foldl_cons, fenceStep_iff.1 hstep, ih]
  · intro h
    induction lines generalizing s with
    | nil => exact h ▸ .nil
    | cons line lines ih => exact .cons (fenceStep_iff.2 rfl) (ih h)

end CommonMark

end Cognis
