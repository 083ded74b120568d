/-
  The text scans of the indexer: the regular expressions of `resolver.rs` and
  `planner.rs`, and the normalisation of identifiers.

  Each expression is a scan over the characters. A match is consumed, so that the next
  one starts after it; `\b`, `\s` and the lower-case mapping are those of Unicode, of
  which `UnicodeTables` holds the part that is not spelled out.

  * `stripGroups_fixed`: the loop of `strip_groups` ends with no group left to strip.
-/
import Mathlib.Data.List.Infix
import Mathlib.Data.List.TakeWhile
import Mathlib.Tactic.Common

namespace Cognis

/-- `char::is_whitespace`, which is also `\s`. -/
def isWhitespace (c : Char) : Bool :=
  let n := c.toNat
  (9 ≤ n ∧ n ≤ 13) ∨ n = 32 ∨ n = 0x85 ∨ n = 0xA0 ∨ n = 0x1680 ∨ (0x2000 ≤ n ∧ n ≤ 0x200A) ∨
    n = 0x2028 ∨ n = 0x2029 ∨ n = 0x202F ∨ n = 0x205F ∨ n = 0x3000

/-- `haystack.contains(needle)` -/
def hasSubstring (haystack needle : String) : Bool := needle.toList <:+: haystack.toList

/-- A character below the lower-case letters is only mapped from itself. -/
theorem eq_of_toLower_eq {c d : Char} (h : c.toLower = d) (hd : d.val.toNat < 97) : c = d := by
  unfold Char.toLower at h
  split at h
  · next hc =>
    have hlow : 65 ≤ c.val.toNat := UInt32.le_iff_toNat_le.1 hc.1
    have hhigh : c.val.toNat ≤ 90 := UInt32.le_iff_toNat_le.1 hc.2
    have hval := congrArg (fun c => c.val.toNat) h
    simp only [UInt32.toNat_add] at hval
    change (c.val.toNat + 32) % 2 ^ 32 = _ at hval
    omega
  · exact h

theorem toLower_toLower (c : Char) : c.toLower.toLower = c.toLower := by
  rw [Char.toLower.eq_def c.toLower, dif_neg]
  rintro ⟨hlow, hhigh⟩
  have hlow : 65 ≤ c.toLower.val.toNat := UInt32.le_iff_toNat_le.1 hlow
  have hhigh : c.toLower.val.toNat ≤ 90 := UInt32.le_iff_toNat_le.1 hhigh
  by_cases hc : c.val ≥ 'A'.val ∧ c.val ≤ 'Z'.val
  · unfold Char.toLower at hlow hhigh
    rw [dif_pos hc] at hlow hhigh
    have hc₁ : 65 ≤ c.val.toNat := UInt32.le_iff_toNat_le.1 hc.1
    have hc₂ : c.val.toNat ≤ 90 := UInt32.le_iff_toNat_le.1 hc.2
    simp only [UInt32.toNat_add] at hhigh
    change (c.val.toNat + 32) % 2 ^ 32 ≤ 90 at hhigh
    omega
  · unfold Char.toLower at hlow hhigh
    rw [dif_neg hc] at hlow hhigh
    exact hc ⟨UInt32.le_iff_toNat_le.2 hlow, UInt32.le_iff_toNat_le.2 hhigh⟩

/-- The Unicode tables that the scans read. -/
structure UnicodeTables where
  /-- `\w` -/
  isWord : Char → Bool
  /-- `char::is_lowercase` -/
  isLowercase : Char → Bool
  /-- `str::to_lowercase` -/
  toLowercase : List Char → List Char

namespace Text

instance lawfulBEq : LawfulBEq (List Char) := inferInstance

/-- `[A-Za-z_]` -/
def isIdentStart (c : Char) : Bool := c.isAlpha || c = '_'

/-- `[A-Za-z0-9_]` -/
def isIdentChar (c : Char) : Bool := c.isAlphanum || c = '_'

/-- `str::trim` -/
def trim (text : List Char) : List Char :=
  ((text.dropWhile isWhitespace).reverse.dropWhile isWhitespace).reverse

/-- `s.trim().is_empty()` -/
def isBlank (text : String) : Bool := text.toList.all isWhitespace

/-- `str::split` at a character. -/
def splitOn (sep : Char) : List Char → List (List Char)
  | [] => [[]]
  | c :: cs =>
    match splitOn sep cs with
    | [] => [[c]]
    | part :: parts => if c = sep then [] :: part :: parts else (c :: part) :: parts

/-- `[..].join(sep)` -/
def join (sep : List Char) (parts : List (List Char)) : List Char := (parts.intersperse sep).flatten

/-- `str::lines`: a line ends with `\n` or `\r\n`, and the last one need not. -/
def lines (text : List Char) : List (List Char) :=
  let parts := splitOn '\n' text
  let stripCr (line : List Char) := if line.getLast? = some '\r' then line.dropLast else line
  parts.dropLast.map stripCr ++ parts.getLast?.toList.filter (· ≠ [])

/-- `to_ascii_uppercase` -/
def toAsciiUppercase (text : List Char) : List Char := text.map Char.toUpper

/-- `to_ascii_lowercase` -/
def toAsciiLowercase (text : List Char) : List Char := text.map Char.toLower

/-! ## Identifiers and calls -/

/-- The name of a call site that starts here: an identifier, `\s*` and `(`. -/
def callAt (text : List Char) : Option (List Char) :=
  match (text.dropWhile isIdentChar).dropWhile isWhitespace with
  | '(' :: _ => some (text.takeWhile isIdentChar)
  | _ => none

/-- `\b([A-Za-z_][A-Za-z0-9_]*)\s*\(`, `before` telling whether a word character
    precedes. No match starts inside another one, since `\b` fails there. -/
def callSites (unicode : UnicodeTables) (before : Bool) : List Char → List (List Char)
  | [] => []
  | c :: cs =>
    let rest := callSites unicode (unicode.isWord c) cs
    if !before && isIdentStart c then (callAt (c :: cs)).toList ++ rest else rest

/-- `[A-Za-z_][A-Za-z0-9_]*`, `inside` telling whether a match is under way. -/
def idents (inside : Bool) : List Char → List (List Char)
  | [] => []
  | c :: cs =>
    if inside && isIdentChar c then idents true cs
    else if isIdentStart c then (c :: cs.takeWhile isIdentChar) :: idents true cs
    else idents false cs

/-- `"([^"\\]*)"|'([^'\\]*)'|‹the same with backquotes›`, the next `skip` characters
    being part of a match. -/
def stringLiterals (skip : ℕ) : List Char → List (List Char)
  | [] => []
  | c :: cs =>
    match skip with
    | skip + 1 => stringLiterals skip cs
    | 0 =>
      if c = '"' ∨ c = '\'' ∨ c = '\x60' then
        let value := cs.takeWhile fun d => d ≠ c && d ≠ '\\'
        if (cs.drop value.length).head? = some c then
          value :: stringLiterals (value.length + 1) cs
        else stringLiterals 0 cs
      else stringLiterals 0 cs

/-- `\bword\b`: the text before and after the first match, `before` telling whether a
    word character precedes. -/
def findWord (unicode : UnicodeTables) (word : List Char) (before : Bool) :
    List Char → Option (List Char × List Char)
  | [] => none
  | c :: cs =>
    if !before && word.isPrefixOf (c :: cs) &&
        ((c :: cs).drop word.length).head?.all (!unicode.isWord ·) then
      some ([], (c :: cs).drop word.length)
    else
      (findWord unicode word (unicode.isWord c) cs).map fun (pre, post) => (c :: pre, post)

/-! ## Type headers -/

/-- A group `<[^<>]*>` or `\([^()]*\)` that starts here, by the length of its inside. -/
def groupAt (c : Char) (cs : List Char) : Option ℕ :=
  let close := if c = '<' then some '>' else if c = '(' then some ')' else none
  match close with
  | none => none
  | some close =>
    let inner := cs.takeWhile fun d => d ≠ c && d ≠ close
    if (cs.drop inner.length).head? = some close then some inner.length else none

/-- `replace_all` of the innermost groups by a blank. -/
def replaceGroups (skip : ℕ) : List Char → List Char
  | [] => []
  | c :: cs =>
    match skip with
    | skip + 1 => replaceGroups skip cs
    | 0 =>
      match groupAt c cs with
      | some inner => ' ' :: replaceGroups (inner + 1) cs
      | none => c :: replaceGroups 0 cs

/-- The loop of `strip_groups`. -/
def stripLoop : ℕ → List Char → List Char
  | 0, text => text
  | fuel + 1, text =>
    let next := replaceGroups 0 text
    if next = text then next else stripLoop fuel next

/-- `strip_groups`: every iteration but the last shortens the text. -/
def stripGroups (text : List Char) : List Char := stripLoop (text.length + 1) text

/-- `header`: everything before the body. -/
def header (text : List Char) : List Char := text.takeWhile (· ≠ '{')

/-- `trailing_name` -/
def trailingName (entry : List Char) : Option (List Char) := (idents false entry).getLast?

theorem replaceGroups_succ (skip : ℕ) (c : Char) (cs : List Char) :
    replaceGroups (skip + 1) (c :: cs) = replaceGroups skip cs := rfl

theorem replaceGroups_zero (c : Char) (cs : List Char) : replaceGroups 0 (c :: cs) =
    match groupAt c cs with
    | some inner => ' ' :: replaceGroups (inner + 1) cs
    | none => c :: replaceGroups 0 cs := rfl

theorem length_replaceGroups_le (skip : ℕ) (text : List Char) :
    (replaceGroups skip text).length ≤ text.length := by
  induction text generalizing skip with
  | nil => exact le_rfl
  | cons c cs ih =>
    cases skip with
    | succ skip =>
      have := ih skip
      rw [replaceGroups_succ, List.length_cons]
      omega
    | zero =>
      rw [replaceGroups_zero]
      split
      · rename_i inner _
        have := ih (inner + 1)
        simp only [List.length_cons]
        omega
      · have := ih 0
        simp only [List.length_cons]
        omega

/-- Characters still to be skipped are lost. -/
theorem length_replaceGroups_succ_lt (skip : ℕ) {text : List Char} (h : text ≠ []) :
    (replaceGroups (skip + 1) text).length < text.length := by
  cases text with
  | nil => exact absurd rfl h
  | cons c cs =>
    have := length_replaceGroups_le skip cs
    rw [replaceGroups_succ, List.length_cons]
    omega

theorem ne_nil_of_groupAt {c : Char} {cs : List Char} {n : ℕ} (h : groupAt c cs = some n) :
    cs ≠ [] := by
  rintro rfl
  simp [groupAt] at h
  split at h <;> cases h

/-- A pass that changes the text shortens it. -/
theorem length_replaceGroups_lt {text : List Char} (h : replaceGroups 0 text ≠ text) :
    (replaceGroups 0 text).length < text.length := by
  induction text with
  | nil => exact absurd rfl h
  | cons c cs ih =>
    rw [replaceGroups_zero] at h ⊢
    split at h
    · rename_i inner hg
      have := length_replaceGroups_succ_lt inner (ne_nil_of_groupAt hg)
      simp only [List.length_cons]
      omega
    · have := ih fun e => h (by rw [e])
      simp only [List.length_cons]
      omega

/-- **`strip_groups` ends at a text without groups.** -/
theorem stripGroups_fixed (text : List Char) :
    replaceGroups 0 (stripGroups text) = stripGroups text := by
  suffices h : ∀ fuel text, text.length < fuel →
      replaceGroups 0 (stripLoop fuel text) = stripLoop fuel text from h _ _ (Nat.lt_succ_self _)
  intro fuel
  induction fuel with
  | zero => intro text h; omega
  | succ fuel ih =>
    intro text hlen
    simp only [stripLoop]
    split
    · rename_i hfix
      rw [hfix, hfix]
    · rename_i hne
      have := length_replaceGroups_lt hne
      exact ih _ (by omega)

/-! ## Names -/

/-- Whether an upper-case letter starts a word: after a lower-case letter or a digit, or
    at the end of a run of upper-case letters. -/
def wordBoundary (unicode : UnicodeTables) (prev next : Option Char) : Bool :=
  match prev with
  | none => false
  | some p =>
    if unicode.isLowercase p || p.isDigit then true
    else if p.isUpper then next.any unicode.isLowercase
    else false

/-- The pass of `normalize_ident` that inserts the underscores. -/
def splitWords (unicode : UnicodeTables) (prev : Option Char) : List Char → List Char
  | [] => []
  | c :: cs =>
    let rest := splitWords unicode (some c) cs
    if c.isUpper then
      if wordBoundary unicode prev cs.head? then '_' :: c.toLower :: rest else c.toLower :: rest
    else c :: rest

/-- `normalize_ident` -/
def normalizeIdent (unicode : UnicodeTables) (ident : String) : String :=
  let parts := (splitOn '_' (splitWords unicode none ident.toList)).filter (!·.isEmpty)
  String.ofList (join ['_'] (parts.map unicode.toLowercase))

end Text

end Cognis
