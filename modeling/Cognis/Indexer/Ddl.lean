/-
  DDL as it may be written: the tokens of `CREATE TABLE` statements with blanks and comments
  before each of them, and the tables of a script with the positions of their text.

  * `Script.source` is the text, `Script.tableSpans` the tables that it declares;
  * `stripComments_sourceText`: comments become blanks of the same length, and the tokens
    stay.
-/
import Cognis.Indexer.Sql

namespace Cognis

open Cursor Text

namespace Artifact

namespace Sql

/-! ## Blanks -/

/-- A blank character or a comment. -/
inductive Blank where
  | space (c : Char) (blank : isWhitespace c = true)
  | lineComment (text : List Char) (noFeed : '\n' ∉ text)
  | blockComment (text : List Char) (noClose : ¬ ['*', '/'] <:+: text ++ ['*'])

/-- What a character of a block comment becomes. -/
def keepFeed (c : Char) : Char := if c = '\n' then '\n' else ' '

/-- The text of a blank. -/
def Blank.source : Blank → List Char
  | .space c _ => [c]
  | .lineComment text _ => '-' :: '-' :: (text ++ ['\n'])
  | .blockComment text _ => '/' :: '*' :: (text ++ ['*', '/'])

/-- A blank without its comment. -/
def Blank.clean : Blank → List Char
  | .space c _ => [c]
  | .lineComment text _ => ' ' :: ' ' :: (text.map (fun _ => ' ') ++ ['\n'])
  | .blockComment text _ => ' ' :: ' ' :: (text.map keepFeed ++ [' ', ' '])

/-- What may stand between two tokens. -/
abbrev Gap := List Blank

def Gap.source (gap : Gap) : List Char := gap.flatMap Blank.source

def Gap.clean (gap : Gap) : List Char := gap.flatMap Blank.clean

/-! ## Tokens -/

/-- A word, a quoted text by its opening quote, or another character. -/
inductive Token where
  | word (text : List Char)
  | quoted (opening : Char) (content : List Char)
  | punct (c : Char)

def Token.text : Token → List Char
  | .word text => text
  | .quoted opening content => opening :: (content ++ (closingOf opening).toList)
  | .punct c => [c]

section

variable (classes : CharClasses)

/-- The token is one that can be written. -/
def Token.Valid : Token → Prop
  | .word text => text ≠ [] ∧ ∀ c ∈ text, isIdentChar classes c = true
  | .quoted opening content => ∃ close, closingOf opening = some close ∧ close ∉ content
  | .punct c => isIdentChar classes c = false ∧ isWhitespace c = false ∧ closingOf c = none

/-- The token ends before this text: a word does not go on, and no comment begins with it. -/
def Token.Ends : Token → List Char → Prop
  | .word _, rest => ∀ c ∈ rest.head?, isIdentChar classes c = false
  | .quoted _ _, _ => True
  | .punct c, rest => ¬ (c = '-' ∧ rest.head? = some '-') ∧ ¬ (c = '/' ∧ rest.head? = some '*')

end

/-- A token with the gap before it. -/
abbrev Item := Gap × Token

/-- The text of the items, before `tail`. -/
def sourceText : List Item → List Char → List Char
  | [], tail => tail
  | (gap, token) :: items, tail => gap.source ++ (token.text ++ sourceText items tail)

/-- The text of the items without the comments. -/
def cleanText : List Item → List Char → List Char
  | [], tail => tail
  | (gap, token) :: items, tail => gap.clean ++ (token.text ++ cleanText items tail)

/-- Each token ends where the next item begins. -/
def Apart (classes : CharClasses) : List Item → List Char → Prop
  | [], _ => True
  | (_, token) :: items, tail => token.Ends classes (sourceText items tail) ∧ Apart classes items tail

instance decidableEnds (classes : CharClasses) :
    (token : Token) → (rest : List Char) → Decidable (token.Ends classes rest)
  | .word _, rest =>
    match h : rest.head? with
    | none => isTrue (by rw [Token.Ends, h]; exact nofun)
    | some c => decidable_of_iff (isIdentChar classes c = false) (by simp [Token.Ends, h])
  | .quoted _ _, _ => inferInstanceAs (Decidable True)
  | .punct c, rest =>
    inferInstanceAs (Decidable (¬ (c = '-' ∧ rest.head? = some '-') ∧ ¬ (c = '/' ∧ rest.head? = some '*')))

instance decidableApart (classes : CharClasses) :
    (items : List Item) → (tail : List Char) → Decidable (Apart classes items tail)
  | [], _ => inferInstanceAs (Decidable True)
  | (_, token) :: items, tail =>
    @instDecidableAnd (token.Ends classes (sourceText items tail)) _ inferInstance
      (decidableApart classes items tail)

/-- The parentheses are balanced, from a depth on, and the commas are in them. -/
def Nested : ℕ → List Item → Prop
  | depth, [] => depth = 0
  | depth, (_, .punct c) :: items =>
    if c = '(' then Nested (depth + 1) items
    else if c = ')' then 0 < depth ∧ Nested (depth - 1) items
    else if c = ',' then 0 < depth ∧ Nested depth items
    else Nested depth items
  | depth, _ :: items => Nested depth items

/-- The greatest depth. -/
def deepest : ℕ → List Item → ℕ
  | depth, [] => depth
  | depth, (_, .punct c) :: items =>
    max depth (deepest (if c = '(' then depth + 1 else if c = ')' then depth - 1 else depth) items)
  | depth, _ :: items => deepest depth items

/-! ## Statements -/

/-- A name, as a word or in quotes. -/
inductive Name where
  | plain (text : List Char)
  | quoted (opening : Char) (content : List Char)

/-- What the name is. -/
def Name.ident : Name → List Char
  | .plain text => text
  | .quoted _ content => content

/-- In quotes, the closing one is written twice. -/
def doubled (opening : Char) (content : List Char) : List Char :=
  content.flatMap fun c => if closingOf opening = some c then [c, c] else [c]

def Name.token : Name → Token
  | .plain text => .word text
  | .quoted opening content => .quoted opening (doubled opening content)

def Name.Valid (classes : CharClasses) : Name → Prop
  | .plain text => text ≠ [] ∧ ∀ c ∈ text, isIdentChar classes c = true
  | .quoted opening content => (nameClosing opening).isSome ∧ content ≠ []

/-- No closing quote is in the name. -/
def Name.Unescaped : Name → Prop
  | .plain _ => True
  | .quoted opening content => ∀ c ∈ content, closingOf opening ≠ some c

/-- How an entry of a table begins: with the name of a column, or with the keyword of a
    constraint. -/
inductive Head where
  | column (name : Name)
  | constraint (keyword : List Char)

def Head.token : Head → Token
  | .column name => name.token
  | .constraint keyword => .word keyword

def Head.Valid (classes : CharClasses) : Head → Prop
  | .column name => name.Valid classes
  | .constraint keyword =>
    (∀ c ∈ keyword, isIdentChar classes c = true) ∧ isConstraintKeyword keyword = true

/-- A column or a constraint, up to the gap before the comma or the parenthesis. -/
structure Entry where
  before : Gap
  head : Head
  definition : List Item
  after : Gap

def Entry.items (entry : Entry) : List Item := (entry.before, entry.head.token) :: entry.definition

structure Entry.Valid (classes : CharClasses) (entry : Entry) : Prop where
  head : entry.head.Valid classes
  definition : ∀ item ∈ entry.definition, item.2.Valid classes
  nested : Nested 0 entry.definition

/-- The entries, with the commas and the closing parenthesis. -/
def bodyItems : List Entry → List Item
  | [] => []
  | [entry] => entry.items ++ [(entry.after, .punct ')')]
  | entry :: entries => entry.items ++ (entry.after, .punct ',') :: bodyItems entries

/-- A `CREATE TABLE` statement. The words are in any case; the name has its schema before it. -/
structure Statement where
  create : Gap × List Char
  modifiers : List (Gap × List Char)
  table : Gap × List Char
  guard : List (Gap × List Char)
  first : Gap × Name
  more : List (Gap × Gap × Name)
  opening : Gap
  entries : List Entry
  semicolon : Option Gap

namespace Statement

variable (s : Statement)

/-- The words before the name. -/
def words : List (Gap × List Char) := s.create :: (s.modifiers ++ s.table :: s.guard)

/-- Words as items. -/
def wordItems (words : List (Gap × List Char)) : List Item :=
  words.map fun word => (word.1, .word word.2)

/-- The parts of the name after the first one. -/
def moreItems (more : List (Gap × Gap × Name)) : List Item :=
  more.flatMap fun part => [(part.1, .punct '.'), (part.2.1, part.2.2.token)]

/-- The statement up to its opening parenthesis. -/
def header : List Item :=
  wordItems s.words ++ (s.first.1, s.first.2.token) :: (moreItems s.more ++ [(s.opening, .punct '(')])

def items : List Item :=
  s.header ++ bodyItems s.entries ++ s.semicolon.toList.map (·, Token.punct ';')

/-- The last part of the name. -/
def ident : List Char := ((s.more.getLast?.map (·.2.2)).getD s.first.2).ident

/-- The names in the statement. -/
def names : List Name :=
  s.first.2 :: s.more.map (·.2.2) ++ s.entries.filterMap fun entry =>
    match entry.head with
    | .column name => some name
    | .constraint _ => none

structure Valid (classes : CharClasses) (s : Statement) : Prop where
  create : toAsciiLowercase s.create.2 = "create".toList
  modifiers : ∀ word ∈ s.modifiers, toAsciiLowercase word.2 ∈ tableModifiers
  table : toAsciiLowercase s.table.2 = "table".toList
  guard : s.guard = [] ∨
    s.guard.map (fun word => toAsciiLowercase word.2) = ["if".toList, "not".toList, "exists".toList]
  first : s.first.2.Valid classes
  more : ∀ part ∈ s.more, part.2.2.Valid classes
  nonempty : s.entries ≠ []
  entries : ∀ entry ∈ s.entries, entry.Valid classes

end Statement

/-- The statements, and what comes after the last one: the last comment may have no line feed. -/
structure Script where
  statements : List Statement
  trailing : Gap
  unended : Option (List Char)

namespace Script

variable (script : Script)

def items : List Item := script.statements.flatMap Statement.items

/-- The text after the last statement. -/
def tail : List Char :=
  script.trailing.source ++ (script.unended.map fun text => '-' :: '-' :: text).getD []

/-- The text of the script. -/
def source : List Char := sourceText script.items script.tail

structure Valid (classes : CharClasses) (script : Script) : Prop where
  statements : ∀ s ∈ script.statements, s.Valid classes
  apart : Apart classes script.items script.tail
  unended : ∀ text ∈ script.unended, '\n' ∉ text

end Script

/-! ## Positions -/

/-- A column, from its first character to its last. -/
structure ColumnSpan where
  name : List Char
  start : ℕ
  stop : ℕ

/-- A table, from `CREATE` to its closing parenthesis. -/
structure TableSpan where
  name : List Char
  columns : List ColumnSpan
  start : ℕ
  stop : ℕ

/-- The length of the text of the items. -/
def width (items : List Item) : ℕ := (sourceText items []).length

/-- The column of an entry that begins at a position. -/
def Entry.columnSpan (position : ℕ) (entry : Entry) : Option ColumnSpan :=
  match entry.head with
  | .column name =>
    some ⟨name.ident, position + entry.before.source.length, position + width entry.items - 1⟩
  | .constraint _ => none

/-- The columns of the entries, the first of which begins at a position. -/
def columnSpans : ℕ → List Entry → List ColumnSpan
  | _, [] => []
  | position, entry :: entries =>
    (entry.columnSpan position).toList ++
      columnSpans (position + width entry.items + entry.after.source.length + 1) entries

/-- The table of a statement that begins at a position. -/
def Statement.tableSpan (position : ℕ) (s : Statement) : TableSpan where
  name := s.ident
  columns := columnSpans (position + width s.header) s.entries
  start := position + s.create.1.source.length
  stop := position + width s.header + width (bodyItems s.entries) - 1

/-- The tables of the statements, the first of which begins at a position. -/
def tableSpans : ℕ → List Statement → List TableSpan
  | _, [] => []
  | position, s :: statements =>
    s.tableSpan position :: tableSpans (position + width s.items) statements

/-- The line of a position, from `1`. -/
def lineOf (source : List Char) (position : ℕ) : ℕ := 1 + (source.take position).count '\n'

/-- A column by its name and its lines. -/
structure ColumnView where
  name : List Char
  lineStart : ℕ
  lineEnd : ℕ
  deriving DecidableEq

/-- A table by its name, its columns and its lines. -/
structure TableView where
  name : List Char
  columns : List ColumnView
  lineStart : ℕ
  lineEnd : ℕ
  deriving DecidableEq

def ColumnSpan.view (source : List Char) (span : ColumnSpan) : ColumnView :=
  ⟨span.name, lineOf source span.start, lineOf source span.stop⟩

def TableSpan.view (source : List Char) (span : TableSpan) : TableView :=
  ⟨span.name, span.columns.map (·.view source), lineOf source span.start, lineOf source span.stop⟩

def Column.view (column : Column) : ColumnView :=
  ⟨column.name, column.lineStart.toNat, column.lineEnd.toNat⟩

def Table.view (table : Table) : TableView :=
  ⟨table.name, table.columns.map Column.view, table.lineStart.toNat, table.lineEnd.toNat⟩

/-- The tables of the script, with the lines of their text, are what `parse_ddl` returns. -/
def Mapped (classes : CharClasses) (script : Script) : Prop :=
  ∃ tables, parseDdl classes script.source = some tables ∧
    tables.map Table.view = (tableSpans 0 script.statements).map (·.view script.source)

/-! ## Comments become blanks -/

theorem closingOf_of_isWhitespace {c : Char} (h : isWhitespace c = true) : closingOf c = none := by
  have hne : c ≠ '\'' ∧ c ≠ '"' ∧ c ≠ '\x60' ∧ c ≠ '[' := by
    refine ⟨?_, ?_, ?_, ?_⟩
    all_goals
      rintro rfl
      revert h
      decide
  rw [closingOf, if_neg hne.1, if_neg hne.2.1, if_neg hne.2.2.1, if_neg hne.2.2.2]

/-- A character of code that begins neither a comment nor a quoted text. -/
theorem stripComments_code {c : Char} {rest : List Char} (hline : ¬ (c = '-' ∧ rest.head? = some '-'))
    (hblock : ¬ (c = '/' ∧ rest.head? = some '*')) :
    stripComments (.code none) (c :: rest) = c :: stripComments (.code (closingOf c)) rest := by
  rw [stripComments, if_neg hline, if_neg hblock]
  rfl

theorem stripComments_line (text : List Char) (h : '\n' ∉ text) (rest : List Char) :
    stripComments .line (text ++ '\n' :: rest) =
      text.map (fun _ => ' ') ++ '\n' :: stripComments (.code none) rest := by
  induction text with
  | nil => rfl
  | cons c text ih =>
    rw [List.mem_cons, not_or] at h
    rw [List.cons_append, stripComments, if_neg (Ne.symm h.1), ih h.2]
    rfl

theorem stripComments_block {text : List Char} (h : ¬ ['*', '/'] <:+: text ++ ['*'])
    (rest : List Char) : stripComments .block (text ++ '*' :: '/' :: rest) =
      text.map keepFeed ++ ' ' :: ' ' :: stripComments (.code none) rest := by
  induction text with
  | nil => rfl
  | cons c text ih =>
    have hstar : ¬ (c = '*' ∧ (text ++ '*' :: '/' :: rest).head? = some '/') := by
      rintro ⟨rfl, hslash⟩
      cases text with
      | nil => cases hslash
      | cons d text =>
        obtain rfl : d = '/' := Option.some_inj.1 hslash
        exact h ⟨[], text ++ ['*'], by simp⟩
    have htext : ¬ ['*', '/'] <:+: text ++ ['*'] := fun hin => h (hin.trans (List.infix_cons List.infix_rfl))
    rw [List.cons_append, stripComments, if_neg hstar, ih htext]
    rfl

theorem stripComments_blank (blank : Blank) (rest : List Char) :
    stripComments (.code none) (blank.source ++ rest) =
      blank.clean ++ stripComments (.code none) rest := by
  cases blank with
  | space c hblank =>
    rw [Blank.source, List.singleton_append, stripComments_code, closingOf_of_isWhitespace hblank]
    · rfl
    · rintro ⟨rfl, -⟩
      revert hblank
      decide
    · rintro ⟨rfl, -⟩
      revert hblank
      decide
  | lineComment text hfeed =>
    have hline := stripComments_line ('-' :: text) (by simpa using hfeed) rest
    rw [Blank.source, List.cons_append, List.cons_append, List.append_assoc, List.singleton_append,
      stripComments, if_pos ⟨rfl, rfl⟩, ← List.cons_append, hline]
    simp [Blank.clean]
  | blockComment text hclose =>
    rw [Blank.source, List.cons_append, List.cons_append, List.append_assoc, List.cons_append,
      List.singleton_append, stripComments, if_neg (fun h => absurd h.1 (by decide)), if_pos ⟨rfl, rfl⟩, stripComments,
      stripComments_block hclose]
    simp [Blank.clean]

theorem stripComments_gap (gap : Gap) (rest : List Char) :
    stripComments (.code none) (gap.source ++ rest) = gap.clean ++ stripComments (.code none) rest := by
  induction gap with
  | nil => rfl
  | cons blank gap ih =>
    rw [Gap.source, List.flatMap_cons, List.append_assoc, stripComments_blank]
    rw [Gap.source] at ih
    rw [ih, Gap.clean, Gap.clean, List.flatMap_cons, List.append_assoc]

section

variable {classes : CharClasses}

theorem isIdentChar_ascii {c : Char} (h : c.toNat < 128) :
    isIdentChar classes c = isIdentChar asciiClasses c := by
  rw [isIdentChar, isIdentChar, classes.alphanumeric_ascii c h, asciiClasses.alphanumeric_ascii c h]

/-- A character of ASCII that is not in names. -/
theorem ne_of_isIdentChar {c d : Char} (h : isIdentChar classes c = true) (hd : d.toNat < 128)
    (hnot : isIdentChar asciiClasses d = false) : c ≠ d := by
  rintro rfl
  rw [isIdentChar_ascii hd, hnot] at h
  cases h

theorem closingOf_of_isIdentChar {c : Char} (h : isIdentChar classes c = true) :
    closingOf c = none := by
  rw [closingOf, if_neg (ne_of_isIdentChar h (by decide) (by decide)),
    if_neg (ne_of_isIdentChar h (by decide) (by decide)),
    if_neg (ne_of_isIdentChar h (by decide) (by decide)),
    if_neg (ne_of_isIdentChar h (by decide) (by decide))]

/-- The characters in a word are kept. -/
theorem stripComments_word {text : List Char} (h : ∀ c ∈ text, isIdentChar classes c = true)
    (rest : List Char) : stripComments (.code none) (text ++ rest) =
      text ++ stripComments (.code none) rest := by
  induction text with
  | nil => rfl
  | cons c text ih =>
    rw [List.forall_mem_cons] at h
    have hdash : c ≠ '-' := ne_of_isIdentChar h.1 (by decide) (by decide)
    have hslash : c ≠ '/' := ne_of_isIdentChar h.1 (by decide) (by decide)
    rw [List.cons_append, stripComments_code (fun h => hdash h.1) (fun h => hslash h.1),
      closingOf_of_isIdentChar h.1, ih h.2, List.cons_append]

/-- A quoted text is kept up to its closing quote. -/
theorem stripComments_quoted {close : Char} {content : List Char} (h : close ∉ content)
    (rest : List Char) : stripComments (.code (some close)) (content ++ close :: rest) =
      content ++ close :: stripComments (.code none) rest := by
  induction content with
  | nil =>
    rw [List.nil_append, stripComments, QuoteState.step, if_pos rfl]
    rfl
  | cons c content ih =>
    rw [List.mem_cons, not_or] at h
    rw [List.cons_append, stripComments, QuoteState.step, if_neg (Ne.symm h.1), ih h.2]
    rfl

theorem stripComments_token {token : Token} (hvalid : token.Valid classes) {rest : List Char}
    (hends : token.Ends classes rest) : stripComments (.code none) (token.text ++ rest) =
      token.text ++ stripComments (.code none) rest := by
  cases token with
  | word text => exact stripComments_word hvalid.2 rest
  | quoted opening content =>
    obtain ⟨close, hclose, hnot⟩ := hvalid
    have hopening : opening ≠ '-' ∧ opening ≠ '/' := by
      constructor
      · rintro rfl
        rw [show closingOf '-' = none from by decide] at hclose
        cases hclose
      · rintro rfl
        rw [show closingOf '/' = none from by decide] at hclose
        cases hclose
    rw [Token.text, hclose, List.cons_append, List.append_assoc,
      stripComments_code (fun h => hopening.1 h.1) (fun h => hopening.2 h.1), hclose]
    exact congrArg _ ((stripComments_quoted hnot rest).trans (by simp))
  | punct c =>
    rw [Token.text, List.singleton_append, stripComments_code hends.1 hends.2, hvalid.2.2]
    rfl

/-- **Comments become blanks**, and the tokens stay. -/
theorem stripComments_sourceText {items : List Item} (hvalid : ∀ item ∈ items, item.2.Valid classes)
    {tail : List Char} (hapart : Apart classes items tail) :
    stripComments (.code none) (sourceText items tail) =
      cleanText items (stripComments (.code none) tail) := by
  induction items with
  | nil => rfl
  | cons item items ih =>
    obtain ⟨gap, token⟩ := item
    rw [List.forall_mem_cons] at hvalid
    rw [sourceText, stripComments_gap, stripComments_token hvalid.1 hapart.1, ih hvalid.2 hapart.2,
      cleanText]

/-- A comment without a line feed, at the end of the text. -/
theorem stripComments_unended {text : List Char} (h : '\n' ∉ text) :
    stripComments (.code none) ('-' :: '-' :: text) = ' ' :: ' ' :: text.map (fun _ => ' ') := by
  have hline : stripComments .line text = text.map (fun _ => ' ') := by
    induction text with
    | nil => rfl
    | cons c text ih =>
      rw [List.mem_cons, not_or] at h
      rw [stripComments, if_neg (Ne.symm h.1), ih h.2]
      rfl
  rw [stripComments, if_pos ⟨rfl, rfl⟩, stripComments, if_neg (by decide), hline]

end

/-! ## The cleaned text -/

theorem length_clean (gap : Gap) : gap.clean.length = gap.source.length := by
  induction gap with
  | nil => rfl
  | cons blank gap ih =>
    have hblank : blank.clean.length = blank.source.length := by
      cases blank <;> simp [Blank.clean, Blank.source]
    rw [Gap.clean, Gap.source, List.flatMap_cons, List.flatMap_cons, List.length_append,
      List.length_append, hblank]
    exact congrArg _ ih

theorem isWhitespace_clean {gap : Gap} : ∀ c ∈ gap.clean, isWhitespace c = true := by
  have hkeep : ∀ c, isWhitespace (keepFeed c) = true := by
    intro c
    rw [keepFeed]
    split_ifs
    · decide
    · decide
  have hspace : isWhitespace ' ' = true := by decide
  intro c hc
  obtain ⟨blank, -, hc⟩ := List.mem_flatMap.1 hc
  cases blank with
  | space d hd =>
    obtain rfl := List.mem_singleton.1 hc
    exact hd
  | lineComment text =>
    simp only [Blank.clean, List.mem_cons, List.mem_append, List.mem_map, List.not_mem_nil, or_false] at hc
    rcases hc with rfl | rfl | ⟨d, -, rfl⟩ | rfl
    · exact hspace
    · exact hspace
    · exact hspace
    · decide
  | blockComment text =>
    simp only [Blank.clean, List.mem_cons, List.mem_append, List.mem_map, List.not_mem_nil, or_false] at hc
    rcases hc with rfl | rfl | ⟨d, -, rfl⟩ | rfl | rfl
    · exact hspace
    · exact hspace
    · exact hkeep d
    · exact hspace
    · exact hspace

theorem cleanText_append (items more : List Item) (tail : List Char) :
    cleanText (items ++ more) tail = cleanText items (cleanText more tail) := by
  induction items with
  | nil => rfl
  | cons item items ih => rw [List.cons_append, cleanText, ih, cleanText]

theorem sourceText_append (items more : List Item) (tail : List Char) :
    sourceText (items ++ more) tail = sourceText items (sourceText more tail) := by
  induction items with
  | nil => rfl
  | cons item items ih => rw [List.cons_append, sourceText, ih, sourceText]

theorem cleanText_eq_append (items : List Item) (tail : List Char) :
    cleanText items tail = cleanText items [] ++ tail := by
  induction items with
  | nil => rfl
  | cons item items ih => rw [cleanText, ih, cleanText, List.append_assoc, List.append_assoc]

theorem width_cons (gap : Gap) (token : Token) (items : List Item) :
    width ((gap, token) :: items) = gap.source.length + token.text.length + width items := by
  rw [width, sourceText, List.length_append, List.length_append, ← Nat.add_assoc]
  rfl

theorem width_singleton (gap : Gap) (token : Token) :
    width [(gap, token)] = gap.source.length + token.text.length := width_cons gap token []

theorem width_append (items more : List Item) : width (items ++ more) = width items + width more := by
  induction items with
  | nil => exact (Nat.zero_add _).symm
  | cons item items ih =>
    rw [List.cons_append, width_cons, ih, width_cons]
    omega

theorem length_cleanText (items : List Item) : (cleanText items []).length = width items := by
  induction items with
  | nil => rfl
  | cons item items ih =>
    rw [width_cons, ← ih, cleanText, List.length_append, List.length_append, length_clean,
      Nat.add_assoc]

section

variable {classes : CharClasses}

theorem isIdentChar_of_isWhitespace {c : Char} (h : isWhitespace c = true) :
    isIdentChar classes c = false := by
  by_contra hident
  rw [Bool.not_eq_false, isIdentChar] at hident
  simp only [Bool.or_eq_true, decide_eq_true_eq] at hident
  rcases hident with ((halnum | rfl) | rfl) | rfl
  · rw [classes.not_whitespace c halnum] at h
    cases h
  · revert h
    decide
  · revert h
    decide
  · revert h
    decide

/-- The first character of a token. -/
theorem Token.Valid.exists_cons {token : Token} (h : token.Valid classes) :
    ∃ c text, token.text = c :: text ∧ isWhitespace c = false := by
  cases token with
  | word text =>
    obtain ⟨c, text, rfl⟩ := List.exists_cons_of_ne_nil h.1
    refine ⟨c, text, rfl, ?_⟩
    by_contra hblank
    have hident := h.2 c List.mem_cons_self
    rw [isIdentChar_of_isWhitespace (Bool.not_eq_false _ ▸ hblank)] at hident
    cases hident
  | quoted opening content =>
    obtain ⟨close, hclose, -⟩ := h
    refine ⟨opening, _, rfl, ?_⟩
    by_contra hblank
    rw [closingOf_of_isWhitespace (Bool.not_eq_false _ ▸ hblank)] at hclose
    cases hclose
  | punct c => exact ⟨c, [], rfl, h.2.1⟩

/-- Each token ends where the next item begins, without the comments. -/
def ApartClean (classes : CharClasses) : List Item → List Char → Prop
  | [], _ => True
  | (_, token) :: items, tail =>
    token.Ends classes (cleanText items tail) ∧ ApartClean classes items tail

theorem apartClean_append {items more : List Item} {tail : List Char} :
    ApartClean classes (items ++ more) tail ↔
      ApartClean classes items (cleanText more tail) ∧ ApartClean classes more tail := by
  induction items with
  | nil => exact (and_iff_right trivial).symm
  | cons item items ih =>
    rw [List.cons_append, ApartClean, ih, ApartClean, cleanText_append, and_assoc]

/-- The text begins as it did, or with a blank. -/
theorem head_cleanText {items : List Item} (hvalid : ∀ item ∈ items, item.2.Valid classes)
    (tail : List Char) {blanks : List Char} (hblanks : ∀ c ∈ blanks, isWhitespace c = true) :
    (cleanText items blanks).head? = (sourceText items tail).head? ∨
      ∀ c ∈ (cleanText items blanks).head?, isWhitespace c = true := by
  cases items with
  | nil =>
    right
    intro c hc
    exact hblanks c (List.mem_of_mem_head? hc)
  | cons item items =>
    obtain ⟨gap, token⟩ := item
    obtain ⟨d, text, htext, -⟩ := (List.forall_mem_cons.1 hvalid).1.exists_cons
    cases gap with
    | nil =>
      left
      rw [cleanText, sourceText, htext]
      rfl
    | cons blank gap =>
      right
      intro c hc
      refine isWhitespace_clean c (show c ∈ Gap.clean [blank] from List.mem_of_mem_head? ?_)
      rw [cleanText, Gap.clean, List.flatMap_cons] at hc
      rw [Gap.clean, List.flatMap_cons, List.flatMap_nil, List.append_nil]
      cases blank <;> exact hc

/-- **The tokens stay apart.** -/
theorem Apart.clean {items : List Item} {tail blanks : List Char} (h : Apart classes items tail)
    (hvalid : ∀ item ∈ items, item.2.Valid classes) (hblanks : ∀ c ∈ blanks, isWhitespace c = true) :
    ApartClean classes items blanks := by
  induction items with
  | nil => trivial
  | cons item items ih =>
    obtain ⟨gap, token⟩ := item
    rw [List.forall_mem_cons] at hvalid
    refine ⟨?_, ih h.2 hvalid.2⟩
    have hends := h.1
    rcases head_cleanText hvalid.2 tail hblanks with hhead | hhead
    · cases token with
      | word text => rwa [Token.Ends, hhead]
      | quoted opening content => trivial
      | punct c => rwa [Token.Ends, hhead]
    · cases token with
      | word text => exact fun c hc => isIdentChar_of_isWhitespace (hhead c hc)
      | quoted opening content => trivial
      | punct c =>
        constructor
        · rintro ⟨-, hc⟩
          have hblank := hhead '-' hc
          revert hblank
          decide
        · rintro ⟨-, hc⟩
          have hblank := hhead '*' hc
          revert hblank
          decide

end

end Sql

end Artifact

end Cognis
