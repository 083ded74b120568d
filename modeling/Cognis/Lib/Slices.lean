/-
  Slices of a text by bytes (`&s[a..b]`, `str::find`): a slice is there only if both of its
  ends are boundaries of characters.

  * `dropBytes_append`, `takeBytes_append`: the end of a part of the text is a boundary;
  * `findChar_eq`: what is found begins at a boundary.
-/
import Mathlib.Data.List.TakeWhile
import Mathlib.Tactic.Common

namespace Cognis.Slices

/-- `s.len()` -/
def utf8Len : List Char → ℕ
  | [] => 0
  | c :: cs => c.utf8Size + utf8Len cs

@[simp]
theorem utf8Len_nil : utf8Len [] = 0 := rfl

@[simp]
theorem utf8Len_cons (c : Char) (cs : List Char) : utf8Len (c :: cs) = c.utf8Size + utf8Len cs := rfl

@[simp]
theorem utf8Len_append (u v : List Char) : utf8Len (u ++ v) = utf8Len u + utf8Len v := by
  induction u with
  | nil => exact (Nat.zero_add _).symm
  | cons c cs ih => rw [List.cons_append, utf8Len_cons, ih, utf8Len_cons, Nat.add_assoc]

/-- A text of characters of one byte each. -/
theorem utf8Len_eq_length {text : List Char} (h : ∀ c ∈ text, c.utf8Size = 1) :
    utf8Len text = text.length := by
  induction text with
  | nil => rfl
  | cons c cs ih =>
    rw [List.forall_mem_cons] at h
    rw [utf8Len_cons, h.1, ih h.2, List.length_cons, Nat.add_comm]

/-- `&s[n..]` -/
def dropBytes : List Char → ℕ → Option (List Char)
  | text, 0 => some text
  | [], _ + 1 => none
  | c :: cs, n + 1 => if c.utf8Size ≤ n + 1 then dropBytes cs (n + 1 - c.utf8Size) else none

/-- `&s[..n]` -/
def takeBytes : List Char → ℕ → Option (List Char)
  | _, 0 => some []
  | [], _ + 1 => none
  | c :: cs, n + 1 =>
    if c.utf8Size ≤ n + 1 then (takeBytes cs (n + 1 - c.utf8Size)).map (c :: ·) else none

/-- `&s[a..b]` -/
def sliceBytes (text : List Char) (a b : ℕ) : Option (List Char) := do
  if a ≤ b then dropBytes (← takeBytes text b) a else none

/-- `s.find(c)` -/
def findChar (c : Char) : List Char → Option ℕ
  | [] => none
  | d :: ds => if d = c then some 0 else (findChar c ds).map (d.utf8Size + ·)

theorem dropBytes_append (u v : List Char) : dropBytes (u ++ v) (utf8Len u) = some v := by
  induction u with
  | nil => cases v <;> rfl
  | cons c cs ih =>
    obtain ⟨n, hn⟩ := Nat.exists_eq_succ_of_ne_zero c.utf8Size_pos.ne'
    have hsize : utf8Len (c :: cs) = (n + utf8Len cs) + 1 := by
      rw [utf8Len_cons, hn]
      omega
    have hrest : n + utf8Len cs + 1 - c.utf8Size = utf8Len cs := by omega
    rw [hsize, List.cons_append, dropBytes, if_pos (by omega), hrest, ih]

theorem takeBytes_append (u v : List Char) : takeBytes (u ++ v) (utf8Len u) = some u := by
  induction u with
  | nil => cases v <;> rfl
  | cons c cs ih =>
    obtain ⟨n, hn⟩ := Nat.exists_eq_succ_of_ne_zero c.utf8Size_pos.ne'
    have hsize : utf8Len (c :: cs) = (n + utf8Len cs) + 1 := by
      rw [utf8Len_cons, hn]
      omega
    have hrest : n + utf8Len cs + 1 - c.utf8Size = utf8Len cs := by omega
    rw [hsize, List.cons_append, takeBytes, if_pos (by omega), hrest, ih, Option.map_some]

theorem sliceBytes_append (u v w : List Char) :
    sliceBytes (u ++ (v ++ w)) (utf8Len u) (utf8Len u + utf8Len v) = some v := by
  rw [sliceBytes, if_pos (Nat.le_add_right _ _), ← utf8Len_append, ← List.append_assoc,
    takeBytes_append, Option.bind_eq_bind, Option.bind_some, dropBytes_append]

/-- The part before the character that is found. -/
theorem findChar_eq {c : Char} {text : List Char} :
    findChar c text = if c ∈ text then some (utf8Len (text.takeWhile (· ≠ c))) else none := by
  induction text with
  | nil => rfl
  | cons d ds ih =>
    rw [findChar, ih]
    by_cases hd : d = c
    · simp [hd]
    · by_cases hc : c ∈ ds
      · simp [hd, Ne.symm hd, hc]
      · simp [hd, Ne.symm hd, hc]

/-- A text around the first occurrence of a character. -/
theorem takeWhile_append_of_mem {c : Char} {text : List Char} (h : c ∈ text) :
    text = text.takeWhile (· ≠ c) ++ c :: (text.dropWhile (· ≠ c)).drop 1 := by
  induction text with
  | nil => cases h
  | cons d ds ih =>
    by_cases hd : d = c
    · simp [hd]
    · have hmem : c ∈ ds := (List.mem_cons.1 h).resolve_left (Ne.symm hd)
      rw [List.takeWhile_cons_of_pos (by simpa using hd), List.dropWhile_cons_of_pos (by simpa using hd),
        List.cons_append, ← ih hmem]

/-- The end of a slice, taken back to a boundary (`is_char_boundary`). -/
def boundaryBefore (text : List Char) : ℕ → ℕ
  | 0 => 0
  | n + 1 => if (takeBytes text (n + 1)).isSome then n + 1 else boundaryBefore text n

/-- Before the end of the first character there is only the beginning. -/
theorem boundaryBefore_cons (c : Char) (cs : List Char) (n : ℕ) :
    boundaryBefore (c :: cs) n =
      if c.utf8Size ≤ n then c.utf8Size + boundaryBefore cs (n - c.utf8Size) else 0 := by
  have hpos := c.utf8Size_pos
  induction n with
  | zero => rw [boundaryBefore, if_neg (by omega)]
  | succ n ih =>
    rw [boundaryBefore, takeBytes]
    by_cases hle : c.utf8Size ≤ n + 1
    · rw [if_pos hle, Option.isSome_map, if_pos hle, ih]
      cases hrest : n + 1 - c.utf8Size with
      | zero =>
        rw [if_pos (by cases cs <;> rfl), boundaryBefore]
        omega
      | succ m =>
        have hm : n - c.utf8Size = m := by omega
        rw [boundaryBefore, hm, if_pos (show c.utf8Size ≤ n by omega)]
        split_ifs
        · omega
        · rfl
    · have hn : ¬ c.utf8Size ≤ n := by omega
      simp only [hle, if_false, Option.isSome_none, Bool.false_eq_true, ih, hn]

end Cognis.Slices
