/-
  What the artifact extractors share (`parser/artifact/mod.rs`, `parser/support.rs`): the
  output, the validation of a symbol, and the symbol of a whole file that stands in where
  nothing else is found.
-/
import Cognis.Indexer.Normalize
import Cognis.Indexer.Planner

namespace Cognis

/-! ## Symbols -/

/-- `Symbol::validate`, with the message of `CognisError::Model`. -/
def Symbol.validate (s : Symbol) : Except String Unit :=
  if s.id = "" then .error "symbol id must be non-empty"
  else if s.lineStart < 1 ∨ s.lineEnd < 1 then .error "line numbers are 1-based"
  else if s.lineEnd < s.lineStart then
    .error ("line_end (" ++ toString s.lineEnd.toNat ++ ") must be >= line_start (" ++
      toString s.lineStart.toNat ++ ")")
  else if s.riskScore < 0 ∨ 1 < s.riskScore then .error "risk_score must be in [0,1]"
  else .ok ()

/-- The lines of a symbol. -/
def Symbol.lineSpan (s : Symbol) : ℕ × ℕ := (s.lineStart.toNat, s.lineEnd.toNat)

namespace Artifact

/-- `ParseOutput`, with the flag that the planner does not read. -/
structure Output extends ParseOutput where
  fellBack : Bool

/-- `kind_label` -/
def kindLabel : ArtifactKind → List Char
  | .yaml => "yaml".toList
  | .toml => "toml".toList
  | .sql => "sql".toList
  | .html => "html".toList
  | .markdown => "markdown".toList

/-- `module_from_path` -/
def moduleFromPath (filePath : List Char) : List Char :=
  let norm := filePath.map fun c => if c = '\\' then '/' else c
  let parts := Text.splitOn '/' norm
  let last := parts.getLastD []
  let ext := last.rtakeWhile (· ≠ '.')
  -- the last dot begins the extension, unless it begins the name
  let stem := if ext.length + 1 < last.length then last.take (last.length - ext.length - 1) else last
  if 1 < parts.length then Text.join ['/'] parts.dropLast ++ '/' :: stem else stem

/-- `truncate_chars`: at most `max` bytes, and no part of a character. -/
def truncateChars : ℕ → List Char → List Char
  | _, [] => []
  | max, c :: cs => if c.utf8Size ≤ max then c :: truncateChars (max - c.utf8Size) cs else []

/-- `BODY_EXCERPT_LIMIT` -/
def bodyExcerptLimit : ℕ := 1500

/-- `body_excerpt` -/
def bodyExcerpt (text : List Char) : List Char := truncateChars bodyExcerptLimit text

/-- `TEXT_LIMIT`, and `SCALAR_LIMIT` -/
def textLimit : ℕ := 4096

/-- `truncate_text` -/
def truncateText (text : List Char) : List Char := text.take textLimit

/-- `char::is_alphabetic` and `char::is_alphanumeric`, with what the scanners rely on. -/
structure CharClasses where
  isAlphabetic : Char → Bool
  isAlphanumeric : Char → Bool
  alphabetic_ascii : ∀ c : Char, c.toNat < 128 → isAlphabetic c = c.isAlpha
  alphanumeric_ascii : ∀ c : Char, c.toNat < 128 → isAlphanumeric c = c.isAlphanum
  alphanumeric_of_alphabetic : ∀ c, isAlphabetic c → isAlphanumeric c
  not_whitespace : ∀ c, isAlphanumeric c → isWhitespace c = false

theorem isWhitespace_of_isAlphanum (c : Char) (h : c.isAlphanum = true) : isWhitespace c = false := by
  delta Char.isAlphanum Char.isAlpha Char.isUpper Char.isLower Char.isDigit at h
  simp only [Bool.or_eq_true, Bool.and_eq_true, decide_eq_true_eq, UInt32.le_iff_toNat_le,
    ge_iff_le] at h
  have hval : c.toNat = c.val.toNat := rfl
  have hdigits : '0'.val.toNat = 48 ∧ '9'.val.toNat = 57 := ⟨rfl, rfl⟩
  have hupper : 'A'.val.toNat = 65 ∧ 'Z'.val.toNat = 90 := ⟨rfl, rfl⟩
  have hlower : 'a'.val.toNat = 97 ∧ 'z'.val.toNat = 122 := ⟨rfl, rfl⟩
  simp only [isWhitespace, decide_eq_false_iff_not]
  omega

/-- The classes of the letters and digits of ASCII. -/
def asciiClasses : CharClasses where
  isAlphabetic := Char.isAlpha
  isAlphanumeric := Char.isAlphanum
  alphabetic_ascii _ _ := rfl
  alphanumeric_ascii _ _ := rfl
  alphanumeric_of_alphabetic c h := by
    rw [show c.isAlphanum = (c.isAlpha || c.isDigit) from rfl, h, Bool.true_or]
  not_whitespace := isWhitespace_of_isAlphanum

/-- `line_numbers`, from a line on. -/
def lineNumbers (cur : UInt32) : List Char → List UInt32
  | [] => []
  | c :: cs => cur :: lineNumbers (if c = '\n' then cur + 1 else cur) cs

theorem length_lineNumbers (cur : UInt32) (text : List Char) :
    (lineNumbers cur text).length = text.length := by
  induction text generalizing cur with
  | nil => rfl
  | cons c cs ih => exact congrArg (· + 1) (ih _)

/-- There is a first part. -/
theorem splitOn_eq_cons (sep : Char) (text : List Char) :
    ∃ part parts, Text.splitOn sep text = part :: parts := by
  cases text with
  | nil => exact ⟨[], [], rfl⟩
  | cons c text =>
    rw [Text.splitOn]
    split
    · exact ⟨_, _, rfl⟩
    · split_ifs
      · exact ⟨_, _, rfl⟩
      · exact ⟨_, _, rfl⟩

theorem lines_feed (text : List Char) : Text.lines ('\n' :: text) = [] :: Text.lines text := by
  obtain ⟨part, parts, hparts⟩ := splitOn_eq_cons '\n' text
  have hsplit : Text.splitOn '\n' ('\n' :: text) = [] :: part :: parts := by
    rw [Text.splitOn, hparts]
    rfl
  rw [Text.lines, Text.lines, hsplit, hparts]
  rfl

/-- A character that ends no line is on the first one. -/
theorem length_lines_cons {c : Char} (hfeed : c ≠ '\n') (text : List Char) :
    (Text.lines (c :: text)).length = max (Text.lines text).length 1 := by
  obtain ⟨part, parts, hparts⟩ := splitOn_eq_cons '\n' text
  have hsplit : Text.splitOn '\n' (c :: text) = (c :: part) :: parts := by
    rw [Text.splitOn, hparts]
    exact if_neg hfeed
  rw [Text.lines, Text.lines, hsplit, hparts]
  cases parts with
  | nil => cases part <;> rfl
  | cons next parts =>
    simp only [List.dropLast_cons_cons, List.getLast?_cons_cons, List.map_cons, List.cons_append,
      List.length_cons]
    omega

/-- The line of a character is one of the lines. -/
theorem mem_lineNumbers {cur line : UInt32} {text : List Char} (h : line ∈ lineNumbers cur text) :
    ∃ k < (Text.lines text).length, line = cur + UInt32.ofNat k := by
  induction text generalizing cur with
  | nil => cases h
  | cons c cs ih =>
    by_cases hfeed : c = '\n'
    · rw [lineNumbers, if_pos hfeed] at h
      rw [hfeed, lines_feed, List.length_cons]
      rcases List.mem_cons.1 h with rfl | h
      · exact ⟨0, Nat.succ_pos _, by simp⟩
      · obtain ⟨k, hk, rfl⟩ := ih h
        refine ⟨k + 1, Nat.succ_lt_succ hk, ?_⟩
        rw [UInt32.ofNat_add, UInt32.add_comm (UInt32.ofNat k), UInt32.add_assoc]
        rfl
    · rw [lineNumbers, if_neg hfeed] at h
      rw [length_lines_cons hfeed]
      rcases List.mem_cons.1 h with rfl | h
      · exact ⟨0, by omega, by simp⟩
      · obtain ⟨k, hk, rfl⟩ := ih h
        exact ⟨k, by omega, rfl⟩

/-- `as u32` -/
def toU32 (n : ℕ) : UInt32 := UInt32.ofNat n

/-- The `Symbol` that every extractor builds: `name` is the name, `idKey` the name in the
    id, `qualified` the name after the path. The span is clamped to begin at a line and not
    to end before that. -/
def buildSymbol (sha256 : List UInt8 → List UInt8) (label filePath module : List Char)
    (kind : SymbolKind) (name idKey qualified text : List Char) (lineStart lineEnd : UInt32) :
    Symbol where
  id := String.ofList (makeSymbolId sha256 label filePath idKey text)
  kind := kind
  name := String.ofList name
  qualifiedName := String.ofList (label ++ ':' :: filePath ++ ':' :: qualified)
  language := String.ofList label
  module := String.ofList module
  filePath := String.ofList filePath
  lineStart := max lineStart 1
  lineEnd := max lineEnd (max lineStart 1)
  contentHash := String.ofList (contentHash sha256 text)
  bodyExcerpt := some (String.ofList text)

theorem toNat_toU32_le (n : ℕ) : (toU32 n).toNat ≤ n := by
  rw [toU32, UInt32.toNat_ofNat']
  exact Nat.mod_le _ _

theorem toNat_toU32 {n : ℕ} (h : n < 2 ^ 32) : (toU32 n).toNat = n := UInt32.toNat_ofNat_of_lt' h

/-- The span of a symbol, clamped. -/
theorem buildSymbol_lineSpan (sha256 : List UInt8 → List UInt8)
    (label filePath module : List Char) (kind : SymbolKind) (name idKey qualified text : List Char)
    (lineStart lineEnd : UInt32) :
    (buildSymbol sha256 label filePath module kind name idKey qualified text lineStart
      lineEnd).lineSpan =
      (max lineStart.toNat 1, max lineEnd.toNat (max lineStart.toNat 1)) := by
  simp only [buildSymbol, Symbol.lineSpan, UInt32.toNat_max, UInt32.toNat_one]

/-- `textual_fallback` -/
def textualFallback (sha256 : List UInt8 → List UInt8) (kind : ArtifactKind)
    (filePath source : List Char) : Output :=
  let label := kindLabel kind
  if Text.trim source = [] then
    { symbols := [], status := .ok, language := some (String.ofList label), fellBack := true }
  else
    let module := moduleFromPath filePath
    let name := (Text.splitOn '/' module).getLastD module
    let lineCount := toU32 (max (Text.lines source).length 1)
    let symbol : Symbol :=
      { id := String.ofList (makeSymbolId sha256 label filePath name source)
        kind := .module
        name := String.ofList name
        qualifiedName := String.ofList (label ++ ':' :: filePath ++ ':' :: name)
        language := String.ofList label
        module := String.ofList module
        filePath := String.ofList filePath
        lineStart := 1
        lineEnd := lineCount
        contentHash := String.ofList (contentHash sha256 source)
        bodyExcerpt := some (String.ofList (bodyExcerpt source)) }
    { symbols := [symbol], status := .ok, language := some (String.ofList label), fellBack := true }

end Artifact

end Cognis
