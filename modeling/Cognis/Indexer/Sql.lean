/-
  The SQL extractor (`parser/artifact/sql.rs`): a symbol for each table that is created, and
  one for each of its columns.

  Comments become blanks first, so that positions and lines stay; the scanner then reads the
  cleaned text by positions, as the source does. `none` stands for an access that is out of
  range or a loop that has not finished.
-/
import Cognis.Indexer.Artifact
import Cognis.Lib.Cursor

namespace Cognis

open Cursor Text

namespace Artifact

namespace Sql

/-- `Column`, with its definition text. -/
structure Column where
  name : List Char
  defText : List Char
  lineStart : UInt32
  lineEnd : UInt32
  deriving DecidableEq, Repr

/-- `Table` -/
structure Table where
  name : List Char
  columns : List Column
  lineStart : UInt32
  lineEnd : UInt32
  deriving DecidableEq, Repr

/-! ## Lexical primitives -/

/-- `QuoteState`: the character that ends the quoted region, if there is one. Only one of the
    four flags is ever set. -/
abbrev QuoteState := Option Char

/-- The end of the region that a quote opens. -/
def closingOf (c : Char) : Option Char :=
  if c = '\'' then some '\'' else if c = '"' then some '"' else if c = '\x60' then some '\x60'
  else if c = '[' then some ']' else none

/-- `QuoteState::step`: whether the character is opaque, and the state after it. -/
def QuoteState.step (q : QuoteState) (c : Char) : Bool × QuoteState :=
  match q with
  | some close => (true, if c = close then none else some close)
  | none => ((closingOf c).isSome, closingOf c)

/-- Where `strip_comments` is: in code or in a quoted region, at the second character of a
    mark, or in a comment. -/
inductive CommentMode where
  | code (q : QuoteState)
  | line
  | opening
  | block
  | closing

/-- `strip_comments` -/
def stripComments : CommentMode → List Char → List Char
  | _, [] => []
  | .code (some close), c :: cs => c :: stripComments (.code (QuoteState.step (some close) c).2) cs
  | .code none, c :: cs =>
    if c = '-' ∧ cs.head? = some '-' then ' ' :: stripComments .line cs
    else if c = '/' ∧ cs.head? = some '*' then ' ' :: stripComments .opening cs
    else c :: stripComments (.code (QuoteState.step none c).2) cs
  | .line, c :: cs =>
    if c = '\n' then c :: stripComments (.code none) cs else ' ' :: stripComments .line cs
  | .opening, _ :: cs => ' ' :: stripComments .block cs
  | .block, c :: cs =>
    if c = '*' ∧ cs.head? = some '/' then ' ' :: stripComments .closing cs
    else (if c = '\n' then '\n' else ' ') :: stripComments .block cs
  | .closing, _ :: cs => ' ' :: stripComments (.code none) cs

section

variable (classes : CharClasses)

/-- `is_ident_char` -/
def isIdentChar (c : Char) : Bool :=
  classes.isAlphanumeric c || c = '_' || c = '$' || c = '#'

variable (cl : List Char)

/-- `skip_ws` -/
def skipWs (pos : ℕ) : Option ℕ := advanceWhile cl isWhitespace cl.length pos

/-- `read_word_at` -/
def readWordAt (pos : ℕ) : Option (Option (List Char × ℕ)) :=
  if pos < cl.length then do
    let c ← cl[pos]?
    if isIdentChar classes c then do
      let stop ← advanceWhile cl (isIdentChar classes) cl.length pos
      let word ← slice cl pos stop
      some (some (word, stop))
    else some none
  else some none

/-- The keywords in a row, or the position that was saved. -/
def skipKeywords (save : ℕ) : List (List Char) → ℕ → Option ℕ
  | [], pos => some pos
  | kw :: kws, pos => do
    match ← readWordAt classes cl (← skipWs cl pos) with
    | some (word, stop) =>
      if toAsciiLowercase word = kw then skipKeywords save kws stop else some save
    | none => some save

/-- `skip_ifnotexists` -/
def skipIfNotExists (pos : ℕ) : Option ℕ :=
  skipKeywords classes cl pos ["if".toList, "not".toList, "exists".toList] pos

/-- The quotes of names: not the single one. -/
def nameClosing (c : Char) : Option Char := if c = '\'' then none else closingOf c

/-- `read_name_part`: the name, and the position after it. -/
def readNamePart (pos : ℕ) : Option (Option (List Char) × ℕ) := do
  let pos ← skipWs cl pos
  if pos < cl.length then do
    let c ← cl[pos]?
    match nameClosing c with
    | some close => do
      let stop ← advanceWhile cl (· ≠ close) cl.length (pos + 1)
      let name ← slice cl (pos + 1) stop
      some (some name, if stop < cl.length then stop + 1 else stop)
    | none => do
      match ← readWordAt classes cl pos with
      | some (word, stop) => some (some word, stop)
      | none => some (none, pos)
  else some (none, pos)

/-- A turn of the loop of `read_qualified_name`: the part after a dot. -/
def namePartTurn (last : List Char) (save : ℕ) : Option (Move (List Char) (List Char × ℕ)) := do
  let pos ← skipWs cl save
  let c ← peek cl ' ' cl.length pos
  if c = '.' then do
    match ← readNamePart classes cl (pos + 1) with
    | (some part, pos) => some (.next part pos)
    | (none, _) => some (.stop (last, save))
  else some (.stop (last, save))

/-- `read_qualified_name` -/
def readQualifiedName (pos : ℕ) : Option (Option (List Char) × ℕ) := do
  match ← readNamePart classes cl pos with
  | (none, pos) => some (none, pos)
  | (some first, pos) => do
    let (last, pos) ← scan cl.length (namePartTurn classes cl) Prod.mk first pos
    some (if last = [] then none else some last, pos)

/-! ## The body of a table -/

/-- A turn of the loop of `match_paren`. -/
def parenTurn (state : Int32 × QuoteState) (j : ℕ) :
    Option (Move (Int32 × QuoteState) (Option ℕ)) := do
  let (depth, q) := state
  let c ← cl[j]?
  let (inside, q) := q.step c
  if inside then some (.next (depth, q) (j + 1))
  else if c = '(' then some (.next (depth + 1, q) (j + 1))
  else if c = ')' then
    if depth - 1 = 0 then some (.stop (some j)) else some (.next (depth - 1, q) (j + 1))
  else some (.next (depth, q) (j + 1))

/-- `match_paren` -/
def matchParen (bodyStart : ℕ) : Option (Option ℕ) :=
  scan cl.length (parenTurn cl) (fun _ _ => none) (1, none) bodyStart

/-- The segments that are complete, and the one that is under way. -/
structure Segments where
  done : List (ℕ × ℕ)
  start : ℕ
  depth : Int32 := 0
  quote : QuoteState := none

/-- A turn of the loop of `split_top_level`. -/
def segmentTurn (st : Segments) (j : ℕ) : Option (Move Segments (List (ℕ × ℕ))) := do
  let c ← cl[j]?
  let (inside, q) := st.quote.step c
  let st := { st with quote := q }
  if inside then some (.next st (j + 1))
  else if c = '(' then some (.next { st with depth := st.depth + 1 } (j + 1))
  else if c = ')' then some (.next { st with depth := st.depth - 1 } (j + 1))
  else if c = ',' ∧ st.depth = 0 then
    some (.next { st with done := st.done ++ [(st.start, j)], start := j + 1 } (j + 1))
  else some (.next st (j + 1))

/-- `split_top_level` -/
def splitTopLevel (bodyStart bodyEnd : ℕ) : Option (List (ℕ × ℕ)) :=
  scan bodyEnd (segmentTurn cl) (fun st _ => st.done ++ [(st.start, bodyEnd)])
    ⟨[], bodyStart, 0, none⟩ bodyStart

def constraintKeywords : List (List Char) :=
  ["primary", "foreign", "constraint", "unique", "check", "key", "index", "fulltext", "spatial",
    "exclude"].map String.toList

/-- `is_constraint_keyword` -/
def isConstraintKeyword (word : List Char) : Bool :=
  constraintKeywords.contains (toAsciiLowercase word)

/-- The segment begins with the keyword of a constraint. -/
def beginsConstraint (fnw : ℕ) : Option Bool := do
  let c ← cl[fnw]?
  if (closingOf c).isSome then some false
  else do
    match ← readWordAt classes cl fnw with
    | some (word, _) => some (isConstraintKeyword word)
    | none => some false

/-- `split_whitespace`, joined by blanks. -/
def squeeze (text : List Char) : List Char := join [' '] (words isWhitespace text)

variable (lineNo : List UInt32)

/-- `parse_column_segment` -/
def parseColumnSegment (start stop : ℕ) : Option (Option Column) := do
  let fnw ← advanceWhile cl isWhitespace stop start
  if stop ≤ fnw then some none
  else do
    let lnw ← retreatWhile cl isWhitespace fnw (stop - 1)
    if ← beginsConstraint classes cl fnw then some none
    else do
      match ← readNamePart classes cl fnw with
      | (none, _) => some none
      | (some name, _) =>
        if name = [] then some none
        else do
          let text ← slice cl fnw (lnw + 1)
          let lineStart := lineNo.getD fnw 1
          some (some ⟨name, squeeze text, lineStart, lineNo.getD lnw lineStart⟩)

/-- The loop of `parse_columns`. -/
def parseSegments : List (ℕ × ℕ) → Option (List Column)
  | [] => some []
  | (start, stop) :: segments => do
    let column ← parseColumnSegment classes cl lineNo start stop
    let columns ← parseSegments segments
    some (column.toList ++ columns)

/-- `parse_columns` -/
def parseColumns (bodyStart bodyEnd : ℕ) : Option (List Column) := do
  parseSegments classes cl lineNo (← splitTopLevel cl bodyStart bodyEnd)

/-! ## The scanner -/

def tableModifiers : List (List Char) :=
  ["temp", "temporary", "unlogged", "global", "local", "virtual"].map String.toList

/-- A turn of the loop over the words between `CREATE` and `TABLE`. -/
def modifierTurn (_ : Unit) (pos : ℕ) : Option (Move Unit (Bool × ℕ)) := do
  let pos ← skipWs cl pos
  match ← readWordAt classes cl pos with
  | none => some (.stop (false, pos))
  | some (word, stop) =>
    if toAsciiLowercase word = "table".toList then some (.stop (true, stop))
    else if toAsciiLowercase word ∈ tableModifiers then some (.next () stop)
    else some (.stop (false, pos))

/-- The words between `CREATE` and `TABLE`: whether `TABLE` comes, and the position. -/
def skipModifiers (pos : ℕ) : Option (Bool × ℕ) :=
  scan cl.length (modifierTurn classes cl) (fun _ pos => (false, pos)) () pos

/-- The body of a table after its name. -/
def parseTableBody (createStart : ℕ) (name : List Char) (pos : ℕ) : Option (Option Table × ℕ) := do
  let pos ← skipWs cl pos
  let c ← peek cl ' ' cl.length pos
  if c = '(' then do
    match ← matchParen cl (pos + 1) with
    | none => some (none, pos)
    | some close =>
      let columns ← parseColumns classes cl lineNo (pos + 1) close
      let lineStart := lineNo.getD createStart 1
      some (some ⟨name, columns, lineStart, lineNo.getD close lineStart⟩, close + 1)
  else some (none, pos)

/-- `try_parse_create_table` -/
def tryParseCreateTable (createStart pos : ℕ) : Option (Option Table × ℕ) := do
  match ← skipModifiers classes cl pos with
  | (false, pos) => some (none, pos)
  | (true, pos) => do
    match ← readQualifiedName classes cl (← skipIfNotExists classes cl pos) with
    | (none, pos) => some (none, pos)
    | (some name, pos) => parseTableBody classes cl lineNo createStart name pos

/-- A turn of the loop of `parse_ddl`. -/
def ddlTurn (tables : List Table) (pos : ℕ) : Option (Move (List Table) (List Table)) := do
  let pos ← skipWs cl pos
  if pos < cl.length then do
    match ← readWordAt classes cl pos with
    | some (word, stop) =>
      if toAsciiLowercase word = "create".toList then do
        let (table, pos) ← tryParseCreateTable classes cl lineNo pos stop
        some (.next (tables ++ table.toList) pos)
      else some (.next tables stop)
    | none => some (.next tables (pos + 1))
  else some (.stop tables)

end

/-- `parse_ddl` -/
def parseDdl (classes : CharClasses) (source : List Char) : Option (List Table) :=
  let cl := stripComments (.code none) source
  scan cl.length (ddlTurn classes cl (lineNumbers 1 source)) (fun tables _ => tables) [] 0

/-! ## What the scanner finds -/

/-- A column has a name, and its lines are lines of the text. -/
structure Column.Found (lineNo : List UInt32) (column : Column) : Prop where
  named : column.name ≠ []
  lineStart : column.lineStart ∈ lineNo
  lineEnd : column.lineEnd ∈ lineNo

/-- The lines of a table are lines of the text. -/
structure Table.Found (lineNo : List UInt32) (table : Table) : Prop where
  columns : ∀ column ∈ table.columns, column.Found lineNo
  lineStart : table.lineStart ∈ lineNo
  lineEnd : table.lineEnd ∈ lineNo

theorem length_stripComments (mode : CommentMode) (text : List Char) :
    (stripComments mode text).length = text.length := by
  fun_induction stripComments mode text with
  | case1 => rfl
  | _ => simp_all

section

variable {classes : CharClasses} {cl : List Char} {lineNo : List UInt32}

theorem skipWs_spec (pos : ℕ) : ∃ p, skipWs cl pos = some p ∧ pos ≤ p := by
  obtain ⟨p, hp, hadvanced⟩ := advanceWhile_spec (p := isWhitespace) (le_refl cl.length) pos
  exact ⟨p, hp, hadvanced.le⟩

theorem readWordAt_spec (classes : CharClasses) (cl : List Char) (pos : ℕ) :
    readWordAt classes cl pos = some none ∨
      ∃ word stop, readWordAt classes cl pos = some (some (word, stop)) ∧ pos < stop := by
  rw [readWordAt]
  split_ifs with hpos
  · obtain ⟨c, hc⟩ := exists_getElem? hpos
    rw [hc, Option.bind_eq_bind, Option.bind_some]
    split_ifs with hident
    · obtain ⟨stop, hstop, hadvanced⟩ :=
        advanceWhile_spec (p := isIdentChar classes) (le_refl cl.length) pos
      have hle := hadvanced.le_stop
      have hlt : pos < stop := by
        refine lt_of_le_of_ne hadvanced.le fun heq => ?_
        obtain ⟨d, hd, hnot⟩ := hadvanced.ended (heq ▸ hpos)
        rw [← heq, hc] at hd
        rw [← Option.some_inj.1 hd, hident] at hnot
        cases hnot
      simp only [hstop, slice_of_le hadvanced.le (show stop ≤ cl.length by omega),
        Option.bind_eq_bind, Option.bind_some]
      exact .inr ⟨_, _, rfl, hlt⟩
    · exact .inl rfl
  · exact .inl rfl

theorem skipKeywords_spec (kws : List (List Char)) {save pos : ℕ} (hsave : save ≤ pos) :
    ∃ p, skipKeywords classes cl save kws pos = some p ∧ save ≤ p := by
  induction kws generalizing pos with
  | nil => exact ⟨pos, rfl, hsave⟩
  | cons kw kws ih =>
    obtain ⟨p, hp, hle⟩ : ∃ p, skipWs cl pos = some p ∧ pos ≤ p := skipWs_spec pos
    rw [skipKeywords, hp, Option.bind_eq_bind, Option.bind_some]
    rcases readWordAt_spec classes cl p with hword | ⟨word, stop, hword, hlt⟩
    · rw [hword]
      exact ⟨save, rfl, le_rfl⟩
    · rw [hword, Option.bind_eq_bind, Option.bind_some]
      simp only
      split_ifs
      · exact ih (by omega)
      · exact ⟨save, rfl, le_rfl⟩

theorem readNamePart_spec (classes : CharClasses) (cl : List Char) (pos : ℕ) :
    ∃ name p, readNamePart classes cl pos = some (name, p) ∧ pos ≤ p := by
  obtain ⟨p, hp, hle⟩ : ∃ p, skipWs cl pos = some p ∧ pos ≤ p := skipWs_spec pos
  rw [readNamePart, hp, Option.bind_eq_bind, Option.bind_some]
  split_ifs with hlt
  · obtain ⟨c, hc⟩ := exists_getElem? hlt
    rw [hc, Option.bind_eq_bind, Option.bind_some]
    cases hclose : nameClosing c with
    | some close =>
      obtain ⟨stop, hstop, hadvanced⟩ : ∃ stop,
          advanceWhile cl (· ≠ close) cl.length (p + 1) = some stop ∧
            Advanced cl (· ≠ close) cl.length (p + 1) stop := advanceWhile_spec le_rfl (p + 1)
      have hstart := hadvanced.le
      have hend := hadvanced.le_stop
      simp only [hstop, slice_of_le hstart (show stop ≤ cl.length by omega), Option.bind_eq_bind,
        Option.bind_some]
      refine ⟨_, _, rfl, ?_⟩
      split_ifs <;> omega
    | none =>
      rcases readWordAt_spec classes cl p with hword | ⟨word, stop, hword, hstop⟩
      · simp only [hword, Option.bind_eq_bind, Option.bind_some]
        exact ⟨none, p, rfl, hle⟩
      · simp only [hword, Option.bind_eq_bind, Option.bind_some]
        exact ⟨some word, stop, rfl, by omega⟩
  · exact ⟨none, p, rfl, hle⟩

theorem readQualifiedName_spec (classes : CharClasses) (cl : List Char) (pos : ℕ) :
    ∃ name p, readQualifiedName classes cl pos = some (name, p) ∧ pos ≤ p := by
  obtain ⟨first, p, hfirst, hle⟩ := readNamePart_spec classes cl pos
  rw [readQualifiedName, hfirst, Option.bind_eq_bind, Option.bind_some]
  cases first with
  | none => exact ⟨none, p, rfl, hle⟩
  | some first =>
    obtain ⟨r, hr, hpos⟩ : ∃ r, scan cl.length (namePartTurn classes cl) Prod.mk first p = some r ∧
        pos ≤ r.2 := by
      refine scan_rule (I := fun _ i => pos ≤ i) (Q := fun (r : List Char × ℕ) => pos ≤ r.2) ?_
        (fun _ _ _ h => h) hle
      intro last save hsave hpos
      obtain ⟨q, hq, hsaveq⟩ : ∃ q, skipWs cl save = some q ∧ save ≤ q := skipWs_spec save
      obtain ⟨c, hc, -⟩ := peek_spec (le_refl cl.length) ' ' q
      simp only [namePartTurn, hq, hc, Option.bind_eq_bind, Option.bind_some]
      split_ifs
      · obtain ⟨part, r, hpart, hqr⟩ := readNamePart_spec classes cl (q + 1)
        rw [hpart, Option.bind_some]
        cases part with
        | none => exact ⟨_, rfl, .stop hpos⟩
        | some part => exact ⟨_, rfl, .next (by omega) (by omega)⟩
      · exact ⟨_, rfl, .stop hpos⟩
    simp only [hr]
    exact ⟨_, _, rfl, hpos⟩

theorem matchParen_spec (cl : List Char) (bodyStart : ℕ) :
    ∃ r, matchParen cl bodyStart = some r ∧ ∀ close ∈ r, bodyStart ≤ close ∧ close < cl.length := by
  refine scan_rule (I := fun _ i => bodyStart ≤ i) ?_ (fun _ _ _ _ _ h => by cases h) le_rfl
  rintro ⟨depth, q⟩ j hj hle
  obtain ⟨c, hc⟩ := exists_getElem? hj
  simp only [parenTurn, hc, Option.bind_eq_bind, Option.bind_some]
  split_ifs
  · exact ⟨_, rfl, .next (Nat.lt_succ_self j) (by omega)⟩
  · exact ⟨_, rfl, .next (Nat.lt_succ_self j) (by omega)⟩
  · refine ⟨_, rfl, .stop ?_⟩
    rintro close ⟨⟩
    exact ⟨hle, hj⟩
  · exact ⟨_, rfl, .next (Nat.lt_succ_self j) (by omega)⟩
  · exact ⟨_, rfl, .next (Nat.lt_succ_self j) (by omega)⟩

/-- The segments lie in the body. -/
theorem splitTopLevel_spec {bodyStart bodyEnd : ℕ} (hbody : bodyStart ≤ bodyEnd)
    (hend : bodyEnd ≤ cl.length) : ∃ segments, splitTopLevel cl bodyStart bodyEnd = some segments ∧
      ∀ segment ∈ segments, segment.2 ≤ bodyEnd := by
  refine scan_rule
    (I := fun (st : Segments) i => i ≤ bodyEnd ∧ ∀ segment ∈ st.done, segment.2 ≤ bodyEnd) ?_ ?_
    ⟨hbody, fun segment h => absurd h List.not_mem_nil⟩
  · rintro st j hj ⟨-, hdone⟩
    obtain ⟨c, hc⟩ := exists_getElem? (hj.trans_le hend)
    simp only [segmentTurn, hc, Option.bind_eq_bind, Option.bind_some]
    split_ifs
    · exact ⟨_, rfl, .next (Nat.lt_succ_self j) ⟨hj, hdone⟩⟩
    · exact ⟨_, rfl, .next (Nat.lt_succ_self j) ⟨hj, hdone⟩⟩
    · exact ⟨_, rfl, .next (Nat.lt_succ_self j) ⟨hj, hdone⟩⟩
    · refine ⟨_, rfl, .next (Nat.lt_succ_self j) ⟨hj, List.forall_mem_append.2 ⟨hdone, ?_⟩⟩⟩
      exact List.forall_mem_singleton.2 hj.le
    · exact ⟨_, rfl, .next (Nat.lt_succ_self j) ⟨hj, hdone⟩⟩
  · rintro st i - ⟨-, hdone⟩
    exact List.forall_mem_append.2 ⟨hdone, List.forall_mem_singleton.2 le_rfl⟩

/-- The line of a position of the text. -/
theorem getD_mem {i : ℕ} (hi : i < lineNo.length) (d : UInt32) : lineNo.getD i d ∈ lineNo := by
  rw [List.getD_eq_getElem?_getD, List.getElem?_eq_getElem hi, Option.getD_some]
  exact List.getElem_mem hi

theorem beginsConstraint_spec (classes : CharClasses) {fnw : ℕ} (hfnw : fnw < cl.length) :
    ∃ b, beginsConstraint classes cl fnw = some b := by
  obtain ⟨c, hc⟩ := exists_getElem? hfnw
  rw [beginsConstraint, hc, Option.bind_eq_bind, Option.bind_some]
  split_ifs
  · exact ⟨false, rfl⟩
  · rcases readWordAt_spec classes cl fnw with hword | ⟨word, stop, hword, -⟩
    · rw [hword]
      exact ⟨_, rfl⟩
    · rw [hword]
      exact ⟨_, rfl⟩

theorem parseColumnSegment_spec (classes : CharClasses) (hline : lineNo.length = cl.length)
    {stop : ℕ} (hstop : stop ≤ cl.length) (start : ℕ) :
    ∃ column, parseColumnSegment classes cl lineNo start stop = some column ∧
      ∀ c ∈ column, c.Found lineNo := by
  have hnone : ∀ c ∈ (none : Option Column), c.Found lineNo := fun c h => by cases h
  obtain ⟨fnw, hfnw, -⟩ := advanceWhile_spec (p := isWhitespace) hstop start
  rw [parseColumnSegment, hfnw, Option.bind_eq_bind, Option.bind_some]
  split_ifs with hle
  · exact ⟨none, rfl, hnone⟩
  · obtain ⟨lnw, hlnw, hretreated⟩ : ∃ lnw, retreatWhile cl isWhitespace fnw (stop - 1) = some lnw ∧
        Retreated cl isWhitespace fnw (stop - 1) lnw :=
      retreatWhile_spec (show stop - 1 < cl.length by omega) fnw
    have hlow := hretreated.start_le
    have hhigh := hretreated.le
    obtain ⟨begins, hbegins⟩ := beginsConstraint_spec classes (show fnw < cl.length by omega)
    obtain ⟨name, p, hname, -⟩ := readNamePart_spec classes cl fnw
    simp only [hlnw, hbegins, hname, Option.bind_eq_bind, Option.bind_some]
    split_ifs with hconstraint
    · exact ⟨none, rfl, hnone⟩
    · cases name with
      | none => exact ⟨none, rfl, hnone⟩
      | some name =>
        simp only
        split_ifs with hempty
        · exact ⟨none, rfl, hnone⟩
        · rw [slice_of_le (show fnw ≤ lnw + 1 by omega) (by omega), Option.bind_some]
          refine ⟨_, rfl, ?_⟩
          rintro c ⟨⟩
          exact ⟨hempty, getD_mem (by omega) 1, getD_mem (by omega) _⟩

theorem parseColumns_spec (classes : CharClasses) (hline : lineNo.length = cl.length)
    {bodyStart bodyEnd : ℕ} (hbody : bodyStart ≤ bodyEnd) (hend : bodyEnd ≤ cl.length) :
    ∃ columns, parseColumns classes cl lineNo bodyStart bodyEnd = some columns ∧
      ∀ column ∈ columns, column.Found lineNo := by
  obtain ⟨segments, hsegments, hbound⟩ := splitTopLevel_spec hbody hend
  rw [parseColumns, hsegments, Option.bind_eq_bind, Option.bind_some]
  clear hsegments
  induction segments with
  | nil => exact ⟨[], rfl, fun column h => absurd h List.not_mem_nil⟩
  | cons segment segments ih =>
    obtain ⟨start, stop⟩ := segment
    obtain ⟨hstop, hrest⟩ := List.forall_mem_cons.1 hbound
    obtain ⟨column, hcolumn, hfound⟩ :=
      parseColumnSegment_spec classes hline (show stop ≤ cl.length from hstop.trans hend) start
    obtain ⟨columns, hcolumns, hfounds⟩ := ih hrest
    simp only [parseSegments, hcolumn, hcolumns, Option.bind_eq_bind, Option.bind_some]
    refine ⟨_, rfl, List.forall_mem_append.2 ⟨fun c hc => hfound c (Option.mem_toList.1 hc), hfounds⟩⟩

theorem skipModifiers_spec (classes : CharClasses) (cl : List Char) (pos : ℕ) :
    ∃ r, skipModifiers classes cl pos = some r ∧ pos ≤ r.2 := by
  refine scan_rule (I := fun _ i => pos ≤ i) (Q := fun (r : Bool × ℕ) => pos ≤ r.2) ?_
    (fun _ _ _ h => h) le_rfl
  intro _ i hi hle
  obtain ⟨p, hp, hip⟩ : ∃ p, skipWs cl i = some p ∧ i ≤ p := skipWs_spec i
  rcases readWordAt_spec classes cl p with hword | ⟨word, stop, hword, hlt⟩
  · simp only [modifierTurn, hp, hword, Option.bind_eq_bind, Option.bind_some]
    exact ⟨_, rfl, .stop (by omega)⟩
  · simp only [modifierTurn, hp, hword, Option.bind_eq_bind, Option.bind_some]
    split_ifs
    · exact ⟨_, rfl, .stop (by simp only; omega)⟩
    · exact ⟨_, rfl, .next (by omega) (by omega)⟩
    · exact ⟨_, rfl, .stop (by simp only; omega)⟩

theorem parseTableBody_spec (classes : CharClasses) (hline : lineNo.length = cl.length)
    {createStart : ℕ} (hcreate : createStart < cl.length) (name : List Char) (pos : ℕ) :
    ∃ table p, parseTableBody classes cl lineNo createStart name pos = some (table, p) ∧ pos ≤ p ∧
      ∀ t ∈ table, t.Found lineNo := by
  have hnone : ∀ t ∈ (none : Option Table), t.Found lineNo := fun t h => by cases h
  obtain ⟨p, hp, hle⟩ : ∃ p, skipWs cl pos = some p ∧ pos ≤ p := skipWs_spec pos
  obtain ⟨c, hc, -⟩ := peek_spec (le_refl cl.length) ' ' p
  simp only [parseTableBody, hp, hc, Option.bind_eq_bind, Option.bind_some]
  split_ifs
  · obtain ⟨close, hclose, hbound⟩ := matchParen_spec cl (p + 1)
    rw [hclose, Option.bind_some]
    cases close with
    | none => exact ⟨none, p, rfl, hle, hnone⟩
    | some close =>
      obtain ⟨hstart, hlt⟩ := hbound close rfl
      obtain ⟨columns, hcolumns, hfounds⟩ := parseColumns_spec classes hline hstart hlt.le
      simp only [hcolumns, Option.bind_some]
      refine ⟨_, _, rfl, by omega, ?_⟩
      rintro t ⟨⟩
      exact ⟨hfounds, getD_mem (by omega) 1, getD_mem (by omega) _⟩
  · exact ⟨none, p, rfl, hle, hnone⟩

theorem tryParseCreateTable_spec (classes : CharClasses) (hline : lineNo.length = cl.length)
    {createStart : ℕ} (hcreate : createStart < cl.length) (pos : ℕ) :
    ∃ table p, tryParseCreateTable classes cl lineNo createStart pos = some (table, p) ∧ pos ≤ p ∧
      ∀ t ∈ table, t.Found lineNo := by
  have hnone : ∀ t ∈ (none : Option Table), t.Found lineNo := fun t h => by cases h
  obtain ⟨⟨isTable, p⟩, hmodifiers, hle⟩ := skipModifiers_spec classes cl pos
  rw [tryParseCreateTable, hmodifiers, Option.bind_eq_bind, Option.bind_some]
  cases isTable with
  | false => exact ⟨none, p, rfl, hle, hnone⟩
  | true =>
    obtain ⟨q, hq, hpq⟩ : ∃ q, skipIfNotExists classes cl p = some q ∧ p ≤ q :=
      skipKeywords_spec _ le_rfl
    obtain ⟨name, r, hname, hqr⟩ := readQualifiedName_spec classes cl q
    simp only [hq, hname, Option.bind_eq_bind, Option.bind_some]
    simp only at hle
    cases name with
    | none => exact ⟨none, r, rfl, by omega, hnone⟩
    | some name =>
      obtain ⟨table, s, htable, hrs, hfound⟩ := parseTableBody_spec classes hline hcreate name r
      exact ⟨table, s, htable, by omega, hfound⟩

/-- **The scanner finishes**, and reads nothing out of range. -/
theorem parseDdl_spec (classes : CharClasses) (source : List Char) :
    ∃ tables, parseDdl classes source = some tables ∧
      ∀ table ∈ tables, table.Found (lineNumbers 1 source) := by
  have hline : (lineNumbers 1 source).length = (stripComments (.code none) source).length := by
    rw [length_lineNumbers, length_stripComments]
  refine scan_rule
    (I := fun (tables : List Table) _ => ∀ table ∈ tables, table.Found (lineNumbers 1 source)) ?_
    (fun _ _ _ h => h) (fun table h => absurd h List.not_mem_nil)
  generalize stripComments (.code none) source = cl at hline ⊢
  intro tables i hi h
  obtain ⟨p, hp, hle⟩ : ∃ p, skipWs cl i = some p ∧ i ≤ p := skipWs_spec i
  rw [ddlTurn, hp, Option.bind_eq_bind, Option.bind_some]
  split_ifs with hlt
  · rcases readWordAt_spec classes cl p with hword | ⟨word, stop, hword, hstop⟩
    · rw [hword]
      exact ⟨_, rfl, .next (by omega) h⟩
    · simp only [hword, Option.bind_eq_bind, Option.bind_some]
      split_ifs
      · obtain ⟨table, q, htable, hq, hfound⟩ := tryParseCreateTable_spec classes hline hlt stop
        rw [htable, Option.bind_some]
        refine ⟨_, rfl, .next (by omega) (List.forall_mem_append.2 ⟨h, fun t ht => ?_⟩)⟩
        exact hfound t (Option.mem_toList.1 ht)
      · exact ⟨_, rfl, .next (by omega) h⟩
  · exact ⟨_, rfl, .stop h⟩

end

/-! ## The symbols -/

def label : List Char := "sql".toList

/-- The searchable text of a table. -/
def tableText (table : Table) : List Char :=
  truncateText ("table ".toList ++ table.name ++
    if table.columns = [] then []
    else " (".toList ++ join ", ".toList (table.columns.map Column.name) ++ [')'])

/-- `{table}.{column}` -/
def columnKey (table column : List Char) : List Char := table ++ '.' :: column

/-- The searchable text of a column. -/
def columnText (table : List Char) (column : Column) : List Char :=
  truncateText (table ++ ' ' :: column.name ++ ' ' :: column.defText)

section

variable (sha256 : List UInt8 → List UInt8) (filePath : List Char)

/-- `build_table_symbol` -/
def tableSymbol (table : Table) : Symbol :=
  buildSymbol sha256 label filePath (moduleFromPath filePath) .classDef table.name table.name
    table.name (tableText table) table.lineStart table.lineEnd

/-- `build_column_symbol` -/
def columnSymbol (table : List Char) (column : Column) : Symbol :=
  buildSymbol sha256 label filePath (moduleFromPath filePath) .var column.name
    (columnKey table column.name) (columnKey table column.name) (columnText table column)
    column.lineStart column.lineEnd

/-- The symbols of a table and of its columns. -/
def tableSymbols (table : Table) : List Symbol :=
  tableSymbol sha256 filePath table :: table.columns.map (columnSymbol sha256 filePath table.name)

/-- `extract` -/
def extract (classes : CharClasses) (source : List Char) : Option Output := do
  let tables ← parseDdl classes source
  if tables = [] then some (textualFallback sha256 .sql filePath source)
  else
    some { symbols := tables.flatMap (tableSymbols sha256 filePath)
           status := .ok
           language := some (String.ofList label)
           fellBack := false }

end

end Sql

end Artifact

end Cognis
