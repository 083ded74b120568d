/-
  DDL is mapped: what `parse_ddl` returns for a script of `CREATE TABLE` statements.

  A column with the keyword of a constraint as its plain name is taken for a constraint, and
  is lost; the other columns and all tables are found, with the lines of their text.

  * `parseDdl_script`: the tables that are found, for names without their closing quote;
  * `mapped_iff`: when these are the tables of the script.
-/
import Cognis.Indexer.DdlScan

namespace Cognis

open Cursor Text

namespace Artifact

namespace Sql

/-! ## What is read -/

/-- An entry whose name can be read, and whose parentheses can be counted. -/
structure Entry.Readable (classes : CharClasses) (entry : Entry) : Prop where
  valid : entry.Valid classes
  unescaped : ∀ name, entry.head = .column name → name.Unescaped
  shallow : deepest 0 entry.definition < 2 ^ 32

/-- The column has the keyword of a constraint as its plain name. -/
def Head.hidden : Head → Bool
  | .column (.plain word) => isConstraintKeyword word
  | .column (.quoted _ _) => false
  | .constraint _ => false

/-- The columns that are found. -/
def readColumnSpans : ℕ → List Entry → List ColumnSpan
  | _, [] => []
  | position, entry :: entries =>
    (if entry.head.hidden then [] else (entry.columnSpan position).toList) ++
      readColumnSpans (position + width entry.items + entry.after.source.length + 1) entries

/-- The table that is found for a statement. -/
def Statement.readSpan (position : ℕ) (s : Statement) : TableSpan where
  name := s.ident
  columns := readColumnSpans (position + width s.header) s.entries
  start := position + s.create.1.source.length
  stop := position + width s.header + width (bodyItems s.entries) - 1

/-- The tables that are found. -/
def readTableSpans : ℕ → List Statement → List TableSpan
  | _, [] => []
  | position, s :: statements =>
    s.readSpan position :: readTableSpans (position + width s.items) statements

section

variable (lineNo : List UInt32)

/-- A column with the lines that are noted for its positions. -/
def ColumnSpan.noted (span : ColumnSpan) : ColumnView :=
  ⟨span.name, (lineNo.getD span.start 1).toNat, (lineNo.getD span.stop 1).toNat⟩

/-- A table with the lines that are noted for its positions. -/
def TableSpan.noted (span : TableSpan) : TableView :=
  ⟨span.name, span.columns.map (·.noted lineNo), (lineNo.getD span.start 1).toNat,
    (lineNo.getD span.stop 1).toNat⟩

end

/-- The segments of the entries, the first of which begins at a position. -/
def entrySegments : ℕ → List Entry → List (ℕ × ℕ)
  | _, [] => []
  | i, entry :: entries =>
    (i, i + width entry.items + entry.after.source.length) ::
      entrySegments (i + width entry.items + entry.after.source.length + 1) entries

section

variable {classes : CharClasses} {cl rest tail : List Char} {items : List Item} {i : ℕ}
  {entry : Entry} {entries : List Entry}

/-! ## The body of a table -/

theorem mem_keywords_of_constraint {word : List Char} (h : isConstraintKeyword word = true) :
    toAsciiLowercase word ∈ keywords := by
  rw [isConstraintKeyword, List.contains_iff_mem] at h
  simp only [keywords, List.mem_cons, List.mem_append, h, or_true]

theorem Entry.Readable.valid_head (h : entry.Readable classes) : entry.head.token.Valid classes := by
  have hvalid := h.valid.head
  have hname := h.unescaped
  cases hhead : entry.head with
  | column name =>
    rw [hhead] at hvalid
    exact Name.Readable.valid_token ⟨hvalid, hname name hhead⟩
  | constraint keyword =>
    rw [hhead] at hvalid
    exact valid_of_keyword (mem_keywords_of_constraint hvalid.2)

theorem Entry.Readable.valid_items (h : entry.Readable classes) :
    ∀ item ∈ entry.items, item.2.Valid classes :=
  List.forall_mem_cons.2 ⟨h.valid_head, h.valid.definition⟩

/-- The first token changes no depth. -/
theorem Entry.nested_items (entry : Entry) :
    Nested 0 entry.items = Nested 0 entry.definition ∧
      deepest 0 entry.items = deepest 0 entry.definition := by
  rw [Entry.items]
  cases entry.head with
  | column name => cases name <;> exact ⟨rfl, rfl⟩
  | constraint keyword => exact ⟨rfl, rfl⟩

theorem valid_comma : (Token.punct ',').Valid classes :=
  valid_punct (by decide) (by decide) (by decide) (by decide)

theorem valid_closing : (Token.punct ')').Valid classes :=
  valid_punct (by decide) (by decide) (by decide) (by decide)

theorem valid_opening : (Token.punct '(').Valid classes :=
  valid_punct (by decide) (by decide) (by decide) (by decide)

section

variable {σ ρ : Type} {bound : ℕ} {turn : σ → ℕ → Option (Move σ ρ)} {state : ℕ → QuoteState → σ}
  {finish : σ → ℕ → ρ}

/-- A loop goes through an entry. -/
theorem Tracks.through (finish : σ → ℕ → ρ) (h : Tracks cl bound turn state) (hentry : entry.Readable classes)
    (hat : At cl i (cleanText entry.items (entry.after.clean ++ rest)))
    (hbound : i + width entry.items + entry.after.source.length ≤ bound) :
    scan bound turn finish (state 0 none) i =
      scan bound turn finish (state 0 none) (i + width entry.items + entry.after.source.length) := by
  obtain ⟨hnested, hdeep⟩ := entry.nested_items
  rw [h.nested hentry.valid_items (hnested ▸ hentry.valid.nested) (hdeep ▸ hentry.shallow) hat (by omega),
    h.blanks (at_items hat) hbound (by decide)]

end

theorem width_bodyItems_cons (entry : Entry) (entries : List Entry) (hne : entries ≠ []) :
    width (bodyItems (entry :: entries)) =
      width entry.items + entry.after.source.length + 1 + width (bodyItems entries) := by
  obtain ⟨next, entries, rfl⟩ := List.exists_cons_of_ne_nil hne
  rw [bodyItems, width_append, width_cons]
  · simp only [Token.text, List.length_singleton]
    omega
  · exact hne

theorem width_bodyItems_singleton (entry : Entry) :
    width (bodyItems [entry]) = width entry.items + entry.after.source.length + 1 := by
  rw [bodyItems, width_append, width_singleton]
  simp only [Token.text, List.length_singleton]
  omega

theorem width_bodyItems_pos (hne : entries ≠ []) : 0 < width (bodyItems entries) := by
  obtain ⟨entry, entries, rfl⟩ := List.exists_cons_of_ne_nil hne
  cases entries with
  | nil =>
    rw [width_bodyItems_singleton]
    omega
  | cons next entries =>
    rw [width_bodyItems_cons _ _ (List.cons_ne_nil _ _)]
    omega

/-- What follows the items of an entry. -/
theorem cleanText_bodyItems (entry : Entry) (entries : List Entry) (tail : List Char) :
    ∃ c text, (entries = [] → c = ')' ∧ text = tail) ∧
      (entries ≠ [] → c = ',' ∧ text = cleanText (bodyItems entries) tail) ∧
      cleanText (bodyItems (entry :: entries)) tail =
        cleanText entry.items (entry.after.clean ++ c :: text) := by
  cases entries with
  | nil =>
    refine ⟨')', tail, fun _ => ⟨rfl, rfl⟩, fun h => absurd rfl h, ?_⟩
    rw [bodyItems, cleanText_append]
    rfl
  | cons next entries =>
    refine ⟨',', _, fun h => absurd h (List.cons_ne_nil _ _), fun _ => ⟨rfl, rfl⟩, ?_⟩
    rw [bodyItems, cleanText_append]
    · rfl
    · exact List.cons_ne_nil _ _

/-- The parenthesis that ends the body is found. -/
theorem matchParen_body (hne : entries ≠ []) (hentries : ∀ e ∈ entries, e.Readable classes)
    (h : At cl i (cleanText (bodyItems entries) tail)) :
    matchParen cl i = some (some (i + width (bodyItems entries) - 1)) := by
  rw [matchParen]
  induction entries generalizing i with
  | nil => exact absurd rfl hne
  | cons entry entries ih =>
    rw [List.forall_mem_cons] at hentries
    obtain ⟨c, text, hlast, hmore, htext⟩ := cleanText_bodyItems entry entries tail
    rw [htext] at h
    have hmark : At cl (i + width entry.items + entry.after.source.length) (c :: text) :=
      at_gap (at_items h)
    have hlt := hmark.lt
    have hentry := (tracks_parenTurn cl).through (fun _ _ => none) hentries.1 h hlt.le
    refine (show _ = _ from hentry).trans ?_
    rcases eq_or_ne entries [] with rfl | hentriesne
    · obtain ⟨rfl, rfl⟩ := hlast rfl
      have hclose : i + width (bodyItems [entry]) - 1 =
          i + width entry.items + entry.after.source.length := by
        rw [width_bodyItems_singleton]
        omega
      rw [hclose]
      refine scan_stop hlt ?_
      simp only [parenTurn, hmark.getElem?, step_none_of_closingOf (show closingOf ')' = none from by decide),
        Option.bind_eq_bind, Option.bind_some, if_true, Bool.false_eq_true, if_false]
      rfl
    · obtain ⟨rfl, rfl⟩ := hmore hentriesne
      rw [width_bodyItems_cons _ _ hentriesne]
      have hcomma : parenTurn cl (Int32.ofNat (0 + 1), none)
          (i + width entry.items + entry.after.source.length) =
            some (.next (Int32.ofNat (0 + 1), none)
              (i + width entry.items + entry.after.source.length + 1)) := by
        simp only [parenTurn, hmark.getElem?, step_none_of_closingOf (show closingOf ',' = none from by decide),
          Option.bind_eq_bind, Option.bind_some, Bool.false_eq_true, if_false]
        rfl
      rw [scan_next (tracks_parenTurn cl).moving hlt hcomma]
      refine (ih hentriesne hentries.2 hmark.tail).trans ?_
      congr 2
      omega

/-- The body is split at the commas between the entries. -/
theorem splitTopLevel_body (hne : entries ≠ []) (hentries : ∀ e ∈ entries, e.Readable classes)
    (h : At cl i (cleanText (bodyItems entries) tail)) :
    splitTopLevel cl i (i + width (bodyItems entries) - 1) = some (entrySegments i entries) := by
  rw [splitTopLevel]
  generalize hbodyEnd : i + width (bodyItems entries) - 1 = bodyEnd
  suffices ∀ done : List (ℕ × ℕ), scan bodyEnd (segmentTurn cl)
      (fun st _ => st.done ++ [(st.start, bodyEnd)]) ⟨done, i, 0, none⟩ i =
        some (done ++ entrySegments i entries) from this []
  have hend := (at_items h).le
  have hpos := width_bodyItems_pos hne
  have hbound : bodyEnd ≤ cl.length := by omega
  clear hend hpos
  induction entries generalizing i with
  | nil => exact absurd rfl hne
  | cons entry entries ih =>
    intro done
    rw [List.forall_mem_cons] at hentries
    obtain ⟨c, text, hlast, hmore, htext⟩ := cleanText_bodyItems entry entries tail
    rw [htext] at h
    have htracks := tracks_segmentTurn cl bodyEnd hbound done i
    have hmark : At cl (i + width entry.items + entry.after.source.length) (c :: text) :=
      at_gap (at_items h)
    rcases eq_or_ne entries [] with rfl | hentriesne
    · have hclose : i + width entry.items + entry.after.source.length = bodyEnd := by
        rw [width_bodyItems_singleton] at hbodyEnd
        omega
      refine (show _ = _ from htracks.through _ hentries.1 h hclose.le).trans ?_
      rw [scan_finish hclose.ge, ← hclose]
      rfl
    · obtain ⟨rfl, rfl⟩ := hmore hentriesne
      have hpos := width_bodyItems_pos hentriesne
      rw [width_bodyItems_cons _ _ hentriesne] at hbodyEnd
      have hlt : i + width entry.items + entry.after.source.length < bodyEnd := by omega
      have hcomma : segmentTurn cl ⟨done, i, Int32.ofNat 0, none⟩
          (i + width entry.items + entry.after.source.length) =
            some (.next ⟨done ++ [(i, i + width entry.items + entry.after.source.length)],
              i + width entry.items + entry.after.source.length + 1, Int32.ofNat 0, none⟩
              (i + width entry.items + entry.after.source.length + 1)) := by
        simp only [segmentTurn, hmark.getElem?, step_none_of_closingOf (show closingOf ',' = none from by decide),
          Option.bind_eq_bind, Option.bind_some, Bool.false_eq_true, if_false]
        rfl
      refine (show _ = _ from htracks.through _ hentries.1 h hlt.le).trans ?_
      rw [scan_next htracks.moving hlt hcomma]
      refine (ih hentriesne hentries.2 hmark.tail (by omega) _).trans ?_
      rw [entrySegments, List.append_assoc]
      rfl

/-! ## Columns -/

theorem isWhitespace_closing {opening close : Char} (h : closingOf opening = some close) :
    isWhitespace close = false := by
  rw [closingOf] at h
  split_ifs at h
  · obtain rfl := Option.some_inj.1 h
    decide
  · obtain rfl := Option.some_inj.1 h
    decide
  · obtain rfl := Option.some_inj.1 h
    decide
  · obtain rfl := Option.some_inj.1 h
    decide

/-- The last character of a token. -/
theorem Token.Valid.exists_concat {token : Token} (h : token.Valid classes) :
    ∃ text c, token.text = text ++ [c] ∧ isWhitespace c = false := by
  cases token with
  | word text =>
    obtain ⟨front, c, rfl⟩ := (List.eq_nil_or_concat' text).resolve_left h.1
    refine ⟨front, c, rfl, ?_⟩
    by_contra hblank
    have hident := h.2 c (by simp)
    rw [isIdentChar_of_isWhitespace (Bool.not_eq_false _ ▸ hblank)] at hident
    cases hident
  | quoted opening content =>
    obtain ⟨close, hclose, -⟩ := h
    refine ⟨opening :: content, close, ?_, isWhitespace_closing hclose⟩
    rw [Token.text, hclose]
    rfl
  | punct c => exact ⟨[], c, rfl, h.2.1⟩

theorem exists_last (hne : items ≠ []) (hvalid : ∀ item ∈ items, item.2.Valid classes) :
    ∃ text c, cleanText items [] = text ++ [c] ∧ isWhitespace c = false := by
  obtain ⟨front, last, rfl⟩ := (List.eq_nil_or_concat' items).resolve_left hne
  obtain ⟨gap, token⟩ := last
  obtain ⟨text, c, htext, hblank⟩ := (hvalid (gap, token) (by simp)).exists_concat
  refine ⟨cleanText front (gap.clean ++ text), c, ?_, hblank⟩
  rw [cleanText_append, cleanText_eq_append front (gap.clean ++ text), cleanText_eq_append front,
    cleanText, cleanText, htext, List.append_nil, List.append_assoc, List.append_assoc]

/-- The first token of an entry decides whether it is a column. -/
theorem beginsConstraint_head (hentry : entry.Readable classes) {gap : Gap}
    (hapart : ApartClean classes ((gap, entry.head.token) :: items) tail)
    (h : At cl i (cleanText ((gap, entry.head.token) :: items) tail)) :
    ∃ begins, beginsConstraint classes cl (i + gap.source.length) = some begins ∧
      (begins = true ↔ entry.head.hidden = true ∨ ∃ keyword, entry.head = .constraint keyword) := by
  have hvalid := hentry.valid_head
  have hheadvalid := hentry.valid.head
  have htoken := at_token h
  cases hhead : entry.head with
  | constraint keyword =>
    rw [hhead] at hvalid hapart h htoken hheadvalid
    obtain ⟨-, hword⟩ := readWordAt_item hvalid hapart h
    obtain ⟨c, text, htext⟩ := List.exists_cons_of_ne_nil hvalid.1
    have hident := hheadvalid.1 c (by rw [htext]; exact List.mem_cons_self)
    rw [show (Head.constraint keyword).token.text = c :: text from htext] at htoken
    refine ⟨true, ?_, by simp⟩
    simp only [beginsConstraint, htoken.getElem?, closingOf_of_isIdentChar hident, hword,
      Option.bind_eq_bind, Option.bind_some, Option.isSome_none, Bool.false_eq_true, if_false,
      hheadvalid.2]
  | column name =>
    rw [hhead] at hvalid hapart h htoken hheadvalid
    cases name with
    | plain word =>
      obtain ⟨-, hword⟩ := readWordAt_item hvalid hapart h
      obtain ⟨c, text, htext⟩ := List.exists_cons_of_ne_nil hvalid.1
      have hident := hvalid.2 c (by rw [htext]; exact List.mem_cons_self)
      rw [show (Head.column (.plain word)).token.text = c :: text from htext] at htoken
      refine ⟨isConstraintKeyword word, ?_, by simp [Head.hidden]⟩
      simp only [beginsConstraint, htoken.getElem?, closingOf_of_isIdentChar hident, hword,
        Option.bind_eq_bind, Option.bind_some, Option.isSome_none, Bool.false_eq_true, if_false]
    | quoted opening content =>
      obtain ⟨close, hclose⟩ := Option.isSome_iff_exists.1 hheadvalid.1
      refine ⟨false, ?_, by simp [Head.hidden]⟩
      have hfirst : cl[i + gap.source.length]? = some opening := At.getElem? htoken
      simp only [beginsConstraint, hfirst, closingOf_of_nameClosing hclose, Option.bind_eq_bind,
        Option.bind_some, Option.isSome_some, if_true]

theorem getD_congr {lineNo : List UInt32} (h : i < lineNo.length) (d e : UInt32) :
    lineNo.getD i d = lineNo.getD i e := by
  rw [List.getD_eq_getElem?_getD, List.getD_eq_getElem?_getD, List.getElem?_eq_getElem h,
    Option.getD_some, Option.getD_some]

/-- An entry is read as its column, from its first character to its last. -/
theorem parseColumnSegment_entry {lineNo : List UInt32} (hline : lineNo.length = cl.length)
    (hentry : entry.Readable classes)
    (hapart : ApartClean classes entry.items (entry.after.clean ++ rest))
    (h : At cl i (cleanText entry.items (entry.after.clean ++ rest))) :
    ∃ column, parseColumnSegment classes cl lineNo i
        (i + width entry.items + entry.after.source.length) = some column ∧
      column.toList.map Column.view =
        (if entry.head.hidden then [] else (entry.columnSpan i).toList).map (·.noted lineNo) := by
  obtain ⟨d, word, hfirst, hdblank⟩ := hentry.valid_head.exists_cons
  obtain ⟨front, c, hlast, hcblank⟩ : ∃ text c, cleanText entry.items [] = text ++ [c] ∧
      isWhitespace c = false := exists_last (List.cons_ne_nil _ _) hentry.valid_items
  have hfrontwidth : width entry.items = front.length + 1 := by
    rw [← length_cleanText, hlast, List.length_append, List.length_singleton]
  have hheadwidth : width entry.items =
      entry.before.source.length + (word.length + 1) + width entry.definition := by
    rw [Entry.items, width_cons, hfirst, List.length_cons]
  have hend : i + width entry.items + entry.after.source.length ≤ cl.length := (at_gap (at_items h)).le
  -- the first and the last character that is no blank
  have hfnw : advanceWhile cl isWhitespace (i + width entry.items + entry.after.source.length) i =
      some (i + entry.before.source.length) := by
    have hbefore : At cl i (entry.before.clean ++ (entry.head.token.text ++
        cleanText entry.definition (entry.after.clean ++ rest))) := h
    rw [hfirst] at hbefore
    rw [← length_clean entry.before]
    refine advanceWhile_at hbefore isWhitespace_clean ?_ (.inr ⟨d, rfl, hdblank⟩)
    rw [length_clean]
    omega
  have hlnw : retreatWhile cl isWhitespace (i + entry.before.source.length)
      (i + width entry.items + entry.after.source.length - 1) = some (i + front.length) := by
    have hat := h
    rw [cleanText_eq_append, hlast, List.append_assoc, List.singleton_append] at hat
    have hretreat := retreatWhile_at hat.skip hcblank isWhitespace_clean
      (show i + entry.before.source.length ≤ i + front.length by omega)
    rw [length_clean] at hretreat
    rw [← hretreat]
    congr 1
    omega
  obtain ⟨begins, hbegins, hiff⟩ := beginsConstraint_head hentry hapart h
  rw [parseColumnSegment, hfnw, Option.bind_eq_bind, Option.bind_some, if_neg (by omega), hlnw,
    Option.bind_eq_bind, Option.bind_some, hbegins, Option.bind_some]
  cases begins with
  | true =>
    refine ⟨none, rfl, ?_⟩
    rcases hiff.1 rfl with hhidden | ⟨keyword, hkeyword⟩
    · rw [if_pos hhidden]
      rfl
    · rw [Entry.columnSpan, hkeyword]
      rfl
  | false =>
    have hhidden : entry.head.hidden = false := by
      by_contra hne
      exact Bool.false_ne_true (hiff.2 (.inl (Bool.not_eq_false _ ▸ hne)))
    cases hhead : entry.head with
    | constraint keyword => exact absurd (hiff.2 (.inr ⟨keyword, hhead⟩)) Bool.false_ne_true
    | column name =>
      have hreadable : name.Readable classes := by
        have hvalid := hentry.valid.head
        rw [hhead] at hvalid
        exact ⟨hvalid, hentry.unescaped name hhead⟩
      have hname : readNamePart classes cl (i + entry.before.source.length) =
          some (some name.ident, i + entry.before.source.length + width [([], name.token)]) := by
        have hat := at_token h
        have hends := hapart.1
        rw [hhead] at hat hends
        exact readNamePart_name hreadable (show ApartClean classes (([], _) :: _) _ from ⟨hends, hapart.2⟩) hat
      have hslice : slice cl (i + entry.before.source.length) (i + front.length + 1) = _ :=
        slice_of_le (by omega) (by omega)
      simp only [hname, hslice, Option.bind_eq_bind, Option.bind_some, Bool.false_eq_true, if_false,
        if_neg hreadable.ident_ne_nil]
      refine ⟨_, rfl, ?_⟩
      rw [hhead] at hhidden
      rw [if_neg (by rw [hhidden]; decide), Entry.columnSpan, hhead]
      simp only [Option.toList_some, List.map_cons, List.map_nil, Column.view, ColumnSpan.noted]
      rw [getD_congr (show i + front.length < lineNo.length by omega) _ 1,
        show i + width entry.items - 1 = i + front.length by omega]

/-- The entries are read as their columns. -/
theorem parseSegments_entries {lineNo : List UInt32} (hline : lineNo.length = cl.length)
    (hentries : ∀ e ∈ entries, e.Readable classes) (hapart : ApartClean classes (bodyItems entries) tail)
    (h : At cl i (cleanText (bodyItems entries) tail)) :
    ∃ columns, parseSegments classes cl lineNo (entrySegments i entries) = some columns ∧
      columns.map Column.view = (readColumnSpans i entries).map (·.noted lineNo) := by
  induction entries generalizing i with
  | nil => exact ⟨[], rfl, rfl⟩
  | cons entry entries ih =>
    rw [List.forall_mem_cons] at hentries
    obtain ⟨c, text, hlast, hmore, htext⟩ := cleanText_bodyItems entry entries tail
    have hentryapart : ApartClean classes entry.items (entry.after.clean ++ c :: text) := by
      cases entries with
      | nil =>
        obtain ⟨rfl, rfl⟩ := hlast rfl
        exact (apartClean_append.1 hapart).1
      | cons next entries =>
        obtain ⟨rfl, rfl⟩ := hmore (List.cons_ne_nil _ _)
        exact (apartClean_append.1 hapart).1
    rw [htext] at h
    obtain ⟨column, hcolumn, hview⟩ := parseColumnSegment_entry hline hentries.1 hentryapart h
    obtain ⟨columns, hcolumns, hviews⟩ : ∃ columns, parseSegments classes cl lineNo
        (entrySegments (i + width entry.items + entry.after.source.length + 1) entries) = some columns ∧
          columns.map Column.view = (readColumnSpans
            (i + width entry.items + entry.after.source.length + 1) entries).map (·.noted lineNo) := by
      cases entries with
      | nil => exact ⟨[], rfl, rfl⟩
      | cons next entries =>
        obtain ⟨rfl, rfl⟩ := hmore (List.cons_ne_nil _ _)
        exact ih hentries.2 (apartClean_append.1 hapart).2.2 (at_gap (at_items h)).tail
    simp only [entrySegments, parseSegments, hcolumn, hcolumns, Option.bind_eq_bind, Option.bind_some]
    refine ⟨_, rfl, ?_⟩
    rw [List.map_append, hview, hviews, readColumnSpans, List.map_append]

/-! ## Statements -/

/-- A statement whose names can be read, and whose parentheses can be counted. -/
structure Statement.Readable (classes : CharClasses) (s : Statement) : Prop where
  valid : s.Valid classes
  first : s.first.2.Readable classes
  more : ∀ part ∈ s.more, part.2.2.Readable classes
  entries : ∀ e ∈ s.entries, e.Readable classes

theorem wordItems_append (words more : List (Gap × List Char)) :
    Statement.wordItems (words ++ more) = Statement.wordItems words ++ Statement.wordItems more :=
  List.map_append

/-- The header by the functions that read it. -/
theorem Statement.header_eq (s : Statement) :
    s.header = [(s.create.1, .word s.create.2)] ++ (wordItems (s.modifiers ++ [s.table]) ++
      (wordItems s.guard ++ (((s.first.1, s.first.2.token) :: moreItems s.more) ++
        [(s.opening, .punct '(')]))) := by
  simp [header, words, wordItems]

theorem parseTableBody_entries {lineNo : List UInt32} (hline : lineNo.length = cl.length)
    {opening : Gap} (hne : entries ≠ []) (hentries : ∀ e ∈ entries, e.Readable classes)
    (hapart : ApartClean classes ((opening, .punct '(') :: (bodyItems entries ++ items)) tail)
    (h : At cl i (cleanText ((opening, .punct '(') :: (bodyItems entries ++ items)) tail))
    (createStart : ℕ) (name : List Char) :
    ∃ table, parseTableBody classes cl lineNo createStart name i =
        some (some table, i + opening.source.length + 1 + width (bodyItems entries)) ∧
      table.view = TableSpan.noted lineNo ⟨name,
        readColumnSpans (i + opening.source.length + 1) entries, createStart,
        i + opening.source.length + 1 + width (bodyItems entries) - 1⟩ := by
  have hopening : (Token.punct '(').Valid classes := valid_opening
  have hlt := lt_length_of_item hopening h
  have hpeek : peek cl ' ' cl.length (i + opening.source.length) = some '(' :=
    (at_token h).peek ' ' hlt
  have hbody : At cl (i + opening.source.length + 1)
      (cleanText (bodyItems entries) (cleanText items tail)) := by
    rw [← cleanText_append]
    exact (at_token h).tail
  have hend := (at_items hbody).le
  have hpos := width_bodyItems_pos hne
  obtain ⟨columns, hcolumns, hviews⟩ :=
    parseSegments_entries hline hentries (apartClean_append.1 hapart.2).1 hbody
  have hparse : parseColumns classes cl lineNo (i + opening.source.length + 1)
      (i + opening.source.length + 1 + width (bodyItems entries) - 1) = some columns := by
    rw [parseColumns, splitTopLevel_body hne hentries hbody, Option.bind_eq_bind, Option.bind_some,
      hcolumns]
  have hclose : i + opening.source.length + 1 + width (bodyItems entries) - 1 + 1 =
      i + opening.source.length + 1 + width (bodyItems entries) := by omega
  simp only [parseTableBody, skipWs_item h hopening, hpeek, matchParen_body hne hentries hbody,
    hparse, hclose, Option.bind_eq_bind, Option.bind_some, if_true]
  refine ⟨_, rfl, ?_⟩
  have hlast : i + opening.source.length + 1 + width (bodyItems entries) - 1 < lineNo.length := by
    omega
  rw [Table.view, TableSpan.noted, hviews]
  simp only
  rw [getD_congr hlast (lineNo.getD createStart 1) 1]

/-- After a name comes a dot or the opening parenthesis. -/
theorem moreItems_cons (classes : CharClasses) (more : List (Gap × Gap × Name)) (opening : Gap) (items : List Item) :
    ∃ next c items', (Token.punct c).Valid classes ∧
      Statement.moreItems more ++ (opening, .punct '(') :: items = (next, .punct c) :: items' := by
  cases more with
  | nil => exact ⟨opening, '(', items, valid_opening, rfl⟩
  | cons part more =>
    exact ⟨part.1, '.', _, valid_punct (by decide) (by decide) (by decide) (by decide), rfl⟩

/-- A guard is skipped, and a name is not taken for one. -/
theorem skipIfNotExists_guard {s : Statement} (hs : s.Readable classes)
    (hapart : ApartClean classes (Statement.wordItems s.guard ++ ((s.first.1, s.first.2.token) ::
      (Statement.moreItems s.more ++ (s.opening, .punct '(') :: items))) tail)
    (h : At cl i (cleanText (Statement.wordItems s.guard ++ ((s.first.1, s.first.2.token) ::
      (Statement.moreItems s.more ++ (s.opening, .punct '(') :: items))) tail)) :
    skipIfNotExists classes cl i = some (i + width (Statement.wordItems s.guard)) := by
  rcases hs.valid.guard with hguard | hguard
  · rw [hguard] at hapart h ⊢
    obtain ⟨next, c, items', hc, hitems⟩ := moreItems_cons classes s.more s.opening items
    rw [hitems] at hapart h
    exact skipIfNotExists_name hs.first.valid_token hc hapart h
  · exact skipKeywords_words hguard (by decide +kernel) hapart h i

/-- A statement is read as its table. -/
theorem tryParseCreateTable_statement {lineNo : List UInt32} (hline : lineNo.length = cl.length)
    {s : Statement} (hs : s.Readable classes)
    (hapart : ApartClean classes (s.header ++ (bodyItems s.entries ++ items)) tail)
    (h : At cl i (cleanText (s.header ++ (bodyItems s.entries ++ items)) tail)) :
    ∃ table, tryParseCreateTable classes cl lineNo (i + s.create.1.source.length)
        (i + width [(s.create.1, .word s.create.2)]) =
          some (some table, i + width s.header + width (bodyItems s.entries)) ∧
      table.view = (s.readSpan i).noted lineNo := by
  have hwidth : width s.header = width [(s.create.1, Token.word s.create.2)] +
      (width (Statement.wordItems (s.modifiers ++ [s.table])) + (width (Statement.wordItems s.guard) +
        (width ((s.first.1, s.first.2.token) :: Statement.moreItems s.more) +
          (s.opening.source.length + 1)))) := by
    rw [s.header_eq, width_append, width_append, width_append, width_append, width_singleton s.opening]
    rfl
  rw [s.header_eq] at hapart h
  simp only [List.append_assoc, List.cons_append, List.nil_append] at hapart h
  have hmodifiers := at_item h
  have hmodifiersApart := hapart.2
  have hguard := at_items (by rwa [cleanText_append] at hmodifiers)
  have hguardApart := (apartClean_append.1 hmodifiersApart).2
  have hname := at_items (by rwa [cleanText_append] at hguard)
  have hnameApart := (apartClean_append.1 hguardApart).2
  rw [← List.cons_append] at hnameApart
  have hbody := at_items (by rwa [← List.cons_append, cleanText_append] at hname)
  have hbodyApart : ApartClean classes ((s.opening, .punct '(') :: (bodyItems s.entries ++ items)) tail :=
    (apartClean_append.1 hnameApart).2
  obtain ⟨table, htable, hview⟩ := parseTableBody_entries hline hs.valid.nonempty hs.entries
    hbodyApart hbody (i + s.create.1.source.length) s.ident
  refine ⟨table, ?_, ?_⟩
  · simp only [tryParseCreateTable,
      skipModifiers_words hs.valid.modifiers hs.valid.table hmodifiersApart hmodifiers,
      skipIfNotExists_guard hs hguardApart hguard,
      readQualifiedName_parts hs.first hs.more hnameApart hname, Option.bind_eq_bind, Option.bind_some]
    rw [Statement.ident] at htable
    rw [htable, hwidth]
    simp only [Nat.add_assoc]
  · rw [hview, Statement.readSpan, hwidth]
    simp only [Nat.add_assoc]

theorem Statement.header_cons (s : Statement) :
    ∃ items, s.header = (s.create.1, .word s.create.2) :: items := ⟨_, s.header_eq⟩

/-- A statement takes one turn, up to the semicolon. -/
theorem ddlTurn_statement {lineNo : List UInt32} (hline : lineNo.length = cl.length)
    {s : Statement} (hs : s.Readable classes)
    (hapart : ApartClean classes (s.header ++ (bodyItems s.entries ++ items)) tail)
    (h : At cl i (cleanText (s.header ++ (bodyItems s.entries ++ items)) tail)) (tables : List Table) :
    ∃ table, ddlTurn classes cl lineNo tables i =
        some (.next (tables ++ [table]) (i + width s.header + width (bodyItems s.entries))) ∧
      table.view = (s.readSpan i).noted lineNo := by
  obtain ⟨table, htable, hview⟩ := tryParseCreateTable_statement hline hs hapart h
  refine ⟨table, ?_, hview⟩
  have hvalid : (Token.word s.create.2).Valid classes :=
    valid_of_keyword (by rw [hs.valid.create]; decide +kernel)
  obtain ⟨header, hheader⟩ := s.header_cons
  rw [hheader, List.cons_append] at hapart h
  obtain ⟨hws, hword⟩ := readWordAt_item hvalid hapart h
  simp only [ddlTurn, hws, if_pos (lt_length_of_item hvalid h), hword, htable,
    if_pos hs.valid.create, Option.bind_eq_bind, Option.bind_some]
  rfl

/-! ## Scripts -/

theorem moving_ddlTurn (classes : CharClasses) {lineNo : List UInt32} (hline : lineNo.length = cl.length) :
    Moving cl.length (ddlTurn classes cl lineNo) := by
  intro tables i tables' j hi h
  obtain ⟨p, hp, hip⟩ : ∃ p, skipWs cl i = some p ∧ i ≤ p := skipWs_spec i
  rw [ddlTurn, hp, Option.bind_eq_bind, Option.bind_some] at h
  split_ifs at h with hlt
  · rcases readWordAt_spec classes cl p with hword | ⟨word, stop, hword, hstop⟩
    · rw [hword] at h
      cases h
      omega
    · simp only [hword, Option.bind_eq_bind, Option.bind_some] at h
      split_ifs at h
      · obtain ⟨table, q, htable, hq, -⟩ := tryParseCreateTable_spec classes hline hlt stop
        rw [htable, Option.bind_some] at h
        cases h
        omega
      · cases h
        omega
  · cases h

/-- The semicolon, if there is one, is passed. -/
theorem scan_semicolon {lineNo : List UInt32} (hline : lineNo.length = cl.length)
    (semicolon : Option Gap)
    (h : At cl i (cleanText (semicolon.toList.map (·, Token.punct ';')) rest)) (tables : List Table) :
    scan cl.length (ddlTurn classes cl lineNo) (fun tables _ => tables) tables i =
      scan cl.length (ddlTurn classes cl lineNo) (fun tables _ => tables) tables
        (i + width (semicolon.toList.map (·, Token.punct ';'))) := by
  cases semicolon with
  | none => rfl
  | some gap =>
    have hvalid : (Token.punct ';').Valid classes :=
      valid_punct (by decide) (by decide) (by decide) (by decide)
    have hlt := lt_length_of_item hvalid h
    have hnone := readWordAt_other hvalid (fun c hc => by
      obtain rfl := Option.some_inj.1 hc
      exact hvalid.1) h
    refine scan_next (moving_ddlTurn classes hline) (by omega) ?_
    simp only [ddlTurn, skipWs_item h hvalid, if_pos hlt, hnone, Option.bind_eq_bind, Option.bind_some]
    rw [Option.toList_some, List.map_singleton, width_singleton, ← Nat.add_assoc]
    rfl

/-- After the last statement come blanks. -/
theorem scan_blanks {lineNo : List UInt32} {blanks : List Char} (h : At cl i blanks)
    (hblanks : ∀ c ∈ blanks, isWhitespace c = true) (tables : List Table) :
    scan cl.length (ddlTurn classes cl lineNo) (fun tables _ => tables) tables i = some tables := by
  rcases Nat.lt_or_ge i cl.length with hi | hi
  · have hws : skipWs cl i = some cl.length := by
      rw [← List.append_nil blanks] at h
      have hlength : i + blanks.length = cl.length := by
        obtain ⟨front, rfl, rfl⟩ := h
        rw [List.append_nil, List.length_append]
      rw [skipWs, advanceWhile_at h hblanks hlength.le (.inl hlength), hlength]
    refine scan_stop hi ?_
    rw [ddlTurn, hws, Option.bind_eq_bind, Option.bind_some, if_neg (Nat.lt_irrefl _)]
  · exact scan_finish hi

/-- The statements are read as their tables. -/
theorem scan_statements {lineNo : List UInt32} (hline : lineNo.length = cl.length)
    {statements : List Statement} (hstatements : ∀ s ∈ statements, s.Readable classes)
    {blanks : List Char} (hblanks : ∀ c ∈ blanks, isWhitespace c = true)
    (hapart : ApartClean classes (statements.flatMap Statement.items) blanks)
    (h : At cl i (cleanText (statements.flatMap Statement.items) blanks)) (tables : List Table) :
    ∃ found, scan cl.length (ddlTurn classes cl lineNo) (fun tables _ => tables) tables i =
        some (tables ++ found) ∧
      found.map Table.view = (readTableSpans i statements).map (·.noted lineNo) := by
  induction statements generalizing i tables with
  | nil => exact ⟨[], by rw [scan_blanks h hblanks, List.append_nil], rfl⟩
  | cons s statements ih =>
    rw [List.forall_mem_cons] at hstatements
    rw [List.flatMap_cons, Statement.items, List.append_assoc, List.append_assoc] at hapart h
    obtain ⟨table, hturn, hview⟩ := ddlTurn_statement hline hstatements.1 hapart h tables
    have hlt : i < cl.length := by
      obtain ⟨header, hheader⟩ := s.header_cons
      have hcreate : (Token.word s.create.2).Valid classes :=
        valid_of_keyword (by rw [hstatements.1.valid.create]; decide +kernel)
      rw [hheader, List.cons_append] at h
      have hpos := lt_length_of_item hcreate h
      omega
    have hsemicolon : At cl (i + width s.header + width (bodyItems s.entries))
        (cleanText (s.semicolon.toList.map (·, Token.punct ';'))
          (cleanText (statements.flatMap Statement.items) blanks)) := by
      rw [← cleanText_append, Nat.add_assoc, ← width_append]
      refine at_items ?_
      rwa [← cleanText_append, List.append_assoc]
    have hwidth : i + width s.header + width (bodyItems s.entries) +
        width (s.semicolon.toList.map (·, Token.punct ';')) = i + width s.items := by
      rw [Statement.items, width_append, width_append]
      omega
    have hrest := at_items hsemicolon
    rw [hwidth] at hrest
    obtain ⟨found, hscan, hviews⟩ := ih hstatements.2
      (apartClean_append.1 (apartClean_append.1 (apartClean_append.1 hapart).2).2).2 hrest
      (tables ++ [table])
    refine ⟨table :: found, ?_, ?_⟩
    · rw [scan_next (moving_ddlTurn classes hline) hlt hturn, scan_semicolon hline s.semicolon hsemicolon,
        hwidth, hscan, List.append_assoc]
      rfl
    · rw [List.map_cons, hview, hviews]
      rfl

end

section

variable {classes : CharClasses} {entries : List Entry}

namespace Script

variable (script : Script)

/-- No name has its closing quote. -/
def Unescaped : Prop := ∀ s ∈ script.statements, ∀ name ∈ s.names, name.Unescaped

/-- The parentheses in the definitions can be counted. -/
def Shallow : Prop :=
  ∀ s ∈ script.statements, ∀ entry ∈ s.entries, deepest 0 entry.definition < 2 ^ 32

/-- No column has the keyword of a constraint as its plain name. -/
def NoKeyword : Prop :=
  ∀ s ∈ script.statements, ∀ entry ∈ s.entries, entry.head.hidden = false

/-- The last lines of the tables can be counted. -/
def LinesFit : Prop :=
  ∀ span ∈ tableSpans 0 script.statements, lineOf script.source span.stop < 2 ^ 32

variable {script}

theorem readable (hvalid : script.Valid classes) (hunescaped : script.Unescaped)
    (hshallow : script.Shallow) : ∀ s ∈ script.statements, s.Readable classes := by
  intro s hs
  have hstatement := hvalid.statements s hs
  have hnames := hunescaped s hs
  simp only [Statement.names, List.mem_append, List.mem_cons, List.mem_map, List.mem_filterMap]
    at hnames
  refine ⟨hstatement, ⟨hstatement.first, hnames _ (.inl (.inl rfl))⟩, ?_, ?_⟩
  · intro part hpart
    exact ⟨hstatement.more part hpart, hnames _ (.inl (.inr ⟨part, hpart, rfl⟩))⟩
  · intro entry hentry
    refine ⟨hstatement.entries entry hentry, ?_, hshallow s hs entry hentry⟩
    intro name hname
    exact hnames name (.inr ⟨entry, hentry, by rw [hname]⟩)

end Script

/-- The tokens of the body of a table. -/
theorem valid_bodyItems (hentries : ∀ e ∈ entries, e.Readable classes) :
    ∀ item ∈ bodyItems entries, item.2.Valid classes := by
  induction entries with
  | nil => exact fun item h => absurd h List.not_mem_nil
  | cons entry entries ih =>
    rw [List.forall_mem_cons] at hentries
    cases entries with
    | nil =>
      rw [bodyItems, List.forall_mem_append, List.forall_mem_singleton]
      exact ⟨hentries.1.valid_items, valid_closing⟩
    | cons next entries =>
      rw [bodyItems, List.forall_mem_append, List.forall_mem_cons]
      · exact ⟨hentries.1.valid_items, valid_comma, ih hentries.2⟩
      · exact List.cons_ne_nil _ _

theorem valid_wordItems {words : List (Gap × List Char)}
    (hwords : ∀ word ∈ words, toAsciiLowercase word.2 ∈ keywords) :
    ∀ item ∈ Statement.wordItems words, item.2.Valid classes := by
  intro item hitem
  obtain ⟨word, hword, rfl⟩ := List.mem_map.1 hitem
  exact valid_of_keyword (hwords word hword)

theorem Statement.Readable.valid_items {s : Statement} (hs : s.Readable classes) :
    ∀ item ∈ s.items, item.2.Valid classes := by
  have hwords : ∀ word ∈ s.words, toAsciiLowercase word.2 ∈ keywords := by
    rw [Statement.words, List.forall_mem_cons, List.forall_mem_append, List.forall_mem_cons]
    refine ⟨?_, ?_, ?_, ?_⟩
    · rw [hs.valid.create]
      decide +kernel
    · intro word hword
      simp only [keywords, List.mem_cons, List.mem_append, hs.valid.modifiers word hword, true_or,
        or_true]
    · rw [hs.valid.table]
      decide +kernel
    · intro word hword
      rcases hs.valid.guard with hguard | hguard
      · rw [hguard] at hword
        exact absurd hword List.not_mem_nil
      · have hall : ∀ kw ∈ ["if".toList, "not".toList, "exists".toList], kw ∈ keywords := by
          decide +kernel
        rw [← hguard] at hall
        exact hall _ (List.mem_map_of_mem hword)
  have hmore : ∀ item ∈ Statement.moreItems s.more, item.2.Valid classes := by
    intro item hitem
    obtain ⟨part, hpart, hitem⟩ := List.mem_flatMap.1 hitem
    rw [List.mem_cons, List.mem_singleton] at hitem
    rcases hitem with rfl | rfl
    · exact valid_punct (by decide) (by decide) (by decide) (by decide)
    · exact (hs.more part hpart).valid_token
  rw [Statement.items, Statement.header, List.forall_mem_append, List.forall_mem_append,
    List.forall_mem_append, List.forall_mem_cons, List.forall_mem_append, List.forall_mem_singleton]
  refine ⟨⟨⟨valid_wordItems hwords, hs.first.valid_token, hmore, valid_opening⟩,
    valid_bodyItems hs.entries⟩, ?_⟩
  intro item hitem
  obtain ⟨gap, -, rfl⟩ := List.mem_map.1 hitem
  exact valid_punct (by decide) (by decide) (by decide) (by decide)

/-- The text after the last statement becomes blank. -/
theorem stripComments_tail {script : Script} (hvalid : script.Valid classes) :
    ∀ c ∈ stripComments (.code none) script.tail, isWhitespace c = true := by
  have hunended := hvalid.unended
  rw [Script.tail, stripComments_gap, List.forall_mem_append]
  refine ⟨isWhitespace_clean, ?_⟩
  cases htext : script.unended with
  | none => exact fun c hc => absurd hc List.not_mem_nil
  | some text =>
    rw [Option.map_some, Option.getD_some, stripComments_unended (hunended text htext)]
    intro c hc
    simp only [List.mem_cons, List.mem_map] at hc
    rcases hc with rfl | rfl | ⟨d, -, rfl⟩
    · decide
    · decide
    · decide

/-- **What `parse_ddl` returns**: the tables, less the columns that are hidden. -/
theorem parseDdl_script {script : Script} (hvalid : script.Valid classes)
    (hunescaped : script.Unescaped) (hshallow : script.Shallow) :
    ∃ tables, parseDdl classes script.source = some tables ∧
      tables.map Table.view =
        (readTableSpans 0 script.statements).map (·.noted (lineNumbers 1 script.source)) := by
  have hreadable := Script.readable hvalid hunescaped hshallow
  have hitems : ∀ item ∈ script.items, item.2.Valid classes := by
    intro item hitem
    obtain ⟨s, hs, hitem⟩ := List.mem_flatMap.1 hitem
    exact (hreadable s hs).valid_items item hitem
  have hclean : stripComments (.code none) script.source =
      cleanText script.items (stripComments (.code none) script.tail) :=
    stripComments_sourceText hitems hvalid.apart
  have hblanks := stripComments_tail hvalid
  have hline : (lineNumbers 1 script.source).length = (stripComments (.code none) script.source).length := by
    rw [length_lineNumbers, length_stripComments]
  have hat : At (stripComments (.code none) script.source) 0
      (cleanText script.items (stripComments (.code none) script.tail)) := by
    rw [← hclean]
    exact at_zero _
  obtain ⟨found, hscan, hviews⟩ := scan_statements hline hreadable hblanks
    (hvalid.apart.clean hitems hblanks) hat []
  exact ⟨found, hscan, hviews⟩

/-! ## Lines -/

theorem toNat_lineNumbers {source : List Char} (cur : UInt32) {i : ℕ} (hi : i < source.length) :
    ((lineNumbers cur source).getD i 1).toNat = (cur.toNat + (source.take i).count '\n') % 2 ^ 32 := by
  induction source generalizing cur i with
  | nil => exact absurd hi (Nat.not_lt_zero i)
  | cons c source ih =>
    rw [lineNumbers]
    cases i with
    | zero =>
      rw [List.getD_cons_zero, List.take_zero, List.count_nil, Nat.add_zero]
      exact (Nat.mod_eq_of_lt cur.toNat_lt).symm
    | succ i =>
      rw [List.getD_cons_succ, ih _ (Nat.lt_of_succ_lt_succ hi), List.take_succ_cons]
      by_cases hfeed : c = '\n'
      · rw [if_pos hfeed, hfeed, List.count_cons_self, UInt32.toNat_add]
        show ((cur.toNat + 1) % 2 ^ 32 + _) % 2 ^ 32 = _
        omega
      · rw [if_neg hfeed, List.count_cons_of_ne (by simpa using hfeed)]

/-- The line that is noted for a position. -/
theorem toNat_noted {source : List Char} {i : ℕ} (hi : i < source.length) :
    ((lineNumbers 1 source).getD i 1).toNat = lineOf source i % 2 ^ 32 := toNat_lineNumbers 1 hi

theorem lineOf_mono (source : List Char) {i j : ℕ} (h : i ≤ j) : lineOf source i ≤ lineOf source j :=
  Nat.add_le_add_left ((List.take_sublist_take_left h).count_le '\n') 1

theorem lineOf_noted {source : List Char} {i j : ℕ} (hij : i ≤ j) (hj : j < source.length)
    (hfit : lineOf source j < 2 ^ 32) :
    ((lineNumbers 1 source).getD i 1).toNat = lineOf source i := by
  rw [toNat_noted (hij.trans_lt hj), Nat.mod_eq_of_lt ((lineOf_mono source hij).trans_lt hfit)]

/-- The columns lie before the end of the body. -/
theorem columnSpans_within (hentries : ∀ e ∈ entries, e.Readable classes) {position : ℕ} :
    ∀ span ∈ columnSpans position entries, span.start ≤ position + width (bodyItems entries) - 1 ∧
      span.stop ≤ position + width (bodyItems entries) - 1 := by
  induction entries generalizing position with
  | nil => exact fun span h => absurd h List.not_mem_nil
  | cons entry entries ih =>
    rw [List.forall_mem_cons] at hentries
    have hwidth : width entry.items + entry.after.source.length + 1 ≤
        width (bodyItems (entry :: entries)) := by
      rcases eq_or_ne entries [] with rfl | hne
      · rw [width_bodyItems_singleton]
      · rw [width_bodyItems_cons _ _ hne]
        exact Nat.le_add_right _ _
    have hitems : entry.before.source.length ≤ width entry.items := by
      rw [Entry.items, width_cons]
      omega
    rw [columnSpans, List.forall_mem_append]
    constructor
    · intro span hspan
      rw [Entry.columnSpan] at hspan
      cases hhead : entry.head with
      | constraint keyword =>
        rw [hhead] at hspan
        exact absurd hspan List.not_mem_nil
      | column name =>
        rw [hhead] at hspan
        obtain rfl := List.mem_singleton.1 hspan
        simp only
        omega
    · intro span hspan
      have hne : entries ≠ [] := by
        rintro rfl
        exact absurd hspan List.not_mem_nil
      have hwithin := ih hentries.2 span hspan
      rw [width_bodyItems_cons _ _ hne]
      omega

/-! ## When the script is mapped -/

/-- Columns are lost, and none is added. -/
theorem length_readColumnSpans (position : ℕ) (entries : List Entry) :
    (readColumnSpans position entries).length ≤ (columnSpans position entries).length ∧
      ((readColumnSpans position entries).length = (columnSpans position entries).length →
        ∀ entry ∈ entries, entry.head.hidden = false) := by
  induction entries generalizing position with
  | nil => exact ⟨le_rfl, fun _ entry h => absurd h List.not_mem_nil⟩
  | cons entry entries ih =>
    obtain ⟨hle, heq⟩ := ih (position + width entry.items + entry.after.source.length + 1)
    rw [readColumnSpans, columnSpans, List.length_append, List.length_append]
    cases hhidden : entry.head.hidden with
    | false =>
      rw [if_neg Bool.false_ne_true]
      refine ⟨by omega, fun h => List.forall_mem_cons.2 ⟨hhidden, heq (by omega)⟩⟩
    | true =>
      have hcolumn : (entry.columnSpan position).toList.length = 1 := by
        rw [Entry.columnSpan]
        cases hhead : entry.head with
        | column name => rfl
        | constraint keyword =>
          rw [hhead] at hhidden
          cases hhidden
      rw [if_pos rfl, List.length_nil, hcolumn]
      refine ⟨by omega, fun h => ?_⟩
      omega

theorem readColumnSpans_eq (hentries : ∀ entry ∈ entries, entry.head.hidden = false) (position : ℕ) :
    readColumnSpans position entries = columnSpans position entries := by
  induction entries generalizing position with
  | nil => rfl
  | cons entry entries ih =>
    rw [List.forall_mem_cons] at hentries
    rw [readColumnSpans, columnSpans, ih hentries.2, hentries.1, if_neg Bool.false_ne_true]

/-- The tables that are found have their lines, if these can be counted. -/
theorem noted_readTableSpans {source : List Char} {statements : List Statement} {position : ℕ}
    (hstatements : ∀ s ∈ statements, s.Readable classes)
    (hshown : ∀ s ∈ statements, ∀ entry ∈ s.entries, entry.head.hidden = false)
    (hlength : position + width (statements.flatMap Statement.items) ≤ source.length)
    (hfit : ∀ span ∈ tableSpans position statements, lineOf source span.stop < 2 ^ 32) :
    (readTableSpans position statements).map (·.noted (lineNumbers 1 source)) =
      (tableSpans position statements).map (·.view source) := by
  induction statements generalizing position with
  | nil => rfl
  | cons s statements ih =>
    rw [List.forall_mem_cons] at hstatements hshown
    rw [tableSpans, List.forall_mem_cons] at hfit
    have hpos := width_bodyItems_pos hstatements.1.valid.nonempty
    have hitems : width s.header + width (bodyItems s.entries) ≤ width s.items := by
      rw [Statement.items, width_append, width_append]
      omega
    have hcreate : s.create.1.source.length ≤ width s.header := by
      rw [s.header_eq, width_append, width_singleton]
      omega
    rw [List.flatMap_cons, width_append, ← Nat.add_assoc] at hlength
    have hstop : position + width s.header + width (bodyItems s.entries) - 1 < source.length := by omega
    have hlast : lineOf source (position + width s.header + width (bodyItems s.entries) - 1) < 2 ^ 32 :=
      hfit.1
    rw [readTableSpans, tableSpans, List.map_cons, List.map_cons, ih hstatements.2 hshown.2 hlength hfit.2]
    congr 1
    rw [TableSpan.noted, TableSpan.view, Statement.readSpan, Statement.tableSpan]
    simp only [readColumnSpans_eq hshown.1]
    rw [lineOf_noted (show position + s.create.1.source.length ≤
        position + width s.header + width (bodyItems s.entries) - 1 by omega) hstop hlast,
      lineOf_noted le_rfl hstop hlast]
    congr 1
    refine List.map_congr_left fun span hspan => ?_
    obtain ⟨hstart, hend⟩ := columnSpans_within hstatements.1.entries span hspan
    rw [ColumnSpan.noted, ColumnSpan.view, lineOf_noted hstart hstop hlast, lineOf_noted hend hstop hlast]

/-- If the tables are those of the statements, no column is lost. -/
theorem shown_of_noted_eq {source : List Char} {lineNo : List UInt32} {statements : List Statement}
    {position : ℕ} (h : (readTableSpans position statements).map (·.noted lineNo) =
      (tableSpans position statements).map (·.view source)) :
    (∀ s ∈ statements, ∀ entry ∈ s.entries, entry.head.hidden = false) ∧
      ∀ span ∈ tableSpans position statements, lineOf source span.stop < 2 ^ 32 := by
  induction statements generalizing position with
  | nil => exact ⟨fun s h => absurd h List.not_mem_nil, fun span h => absurd h List.not_mem_nil⟩
  | cons s statements ih =>
    rw [readTableSpans, tableSpans, List.map_cons, List.map_cons] at h
    obtain ⟨htable, hrest⟩ := List.cons.inj h
    obtain ⟨hshown, hfit⟩ := ih hrest
    have hcolumns := congrArg (fun table => table.columns.length) htable
    have hlast := congrArg TableView.lineEnd htable
    simp only [TableSpan.noted, TableSpan.view, List.length_map] at hcolumns
    refine ⟨List.forall_mem_cons.2 ⟨(length_readColumnSpans _ _).2 hcolumns, hshown⟩, ?_⟩
    rw [tableSpans, List.forall_mem_cons]
    refine ⟨?_, hfit⟩
    have hnoted : lineOf source (s.tableSpan position).stop =
        (lineNo.getD (s.readSpan position).stop 1).toNat := hlast.symm
    rw [hnoted]
    exact UInt32.toNat_lt _

theorem width_eq_length {script : Script} :
    width script.items ≤ script.source.length := by
  have happend : ∀ items : List Item, ∀ tail, (sourceText items tail).length = width items + tail.length := by
    intro items tail
    induction items with
    | nil => exact (Nat.zero_add _).symm
    | cons item items ih =>
      obtain ⟨gap, token⟩ := item
      rw [sourceText, List.length_append, List.length_append, ih, width_cons]
      omega
  rw [Script.source, happend]
  exact Nat.le_add_right _ _

/-- **DDL is mapped** where no column is named by the keyword of a constraint, and the lines
    can be counted; the names have no closing quote, and the parentheses can be counted. -/
theorem mapped_iff {script : Script} (hvalid : script.Valid classes) :
    (script.Unescaped ∧ script.Shallow ∧ script.NoKeyword ∧ script.LinesFit → Mapped classes script) ∧
      (script.Unescaped ∧ script.Shallow → Mapped classes script →
        script.NoKeyword ∧ script.LinesFit) := by
  constructor
  · rintro ⟨hunescaped, hshallow, hkeyword, hfit⟩
    obtain ⟨tables, htables, hviews⟩ := parseDdl_script hvalid hunescaped hshallow
    refine ⟨tables, htables, hviews.trans ?_⟩
    refine noted_readTableSpans (Script.readable hvalid hunescaped hshallow) hkeyword ?_ hfit
    rw [Nat.zero_add]
    exact width_eq_length
  · rintro ⟨hunescaped, hshallow⟩ ⟨tables, htables, hmapped⟩
    obtain ⟨found, hfound, hviews⟩ := parseDdl_script hvalid hunescaped hshallow
    obtain rfl : tables = found := Option.some_inj.1 (htables.symm.trans hfound)
    exact shown_of_noted_eq (hviews.symm.trans hmapped)

/-- A space between two tokens. -/
def space : Gap := [.space ' ' (by decide)]

/-- `CREATE TABLE s (key TEXT, value TEXT)` -/
def keyStatement : Statement where
  create := ([], "CREATE".toList)
  modifiers := []
  table := (space, "TABLE".toList)
  guard := []
  first := (space, .plain "s".toList)
  more := []
  opening := space
  entries :=
    [⟨[], .column (.plain "key".toList), [(space, .word "TEXT".toList)], []⟩,
      ⟨space, .column (.plain "value".toList), [(space, .word "TEXT".toList)], []⟩]
  semicolon := none

def keyScript : Script := ⟨[keyStatement], [], none⟩

theorem keyScript_valid : keyScript.Valid asciiClasses where
  statements := by
    have hword : ∀ {text : List Char}, text.all (isIdentChar asciiClasses) = true →
        ∀ c ∈ text, isIdentChar asciiClasses c = true := List.all_eq_true.1
    refine List.forall_mem_singleton.2 ?_
    refine ⟨by decide, fun word h => absurd h List.not_mem_nil, by decide, .inl rfl, ?_,
      fun part h => absurd h List.not_mem_nil, List.cons_ne_nil _ _, ?_⟩
    · exact ⟨by decide, hword (by decide)⟩
    · intro entry hentry
      rw [keyStatement, List.mem_cons, List.mem_singleton] at hentry
      rcases hentry with rfl | rfl
      · exact ⟨⟨by decide, hword (by decide)⟩, List.forall_mem_singleton.2 ⟨by decide, hword (by decide)⟩, rfl⟩
      · exact ⟨⟨by decide, hword (by decide)⟩, List.forall_mem_singleton.2 ⟨by decide, hword (by decide)⟩, rfl⟩
  apart := by decide +kernel
  unended := by
    rintro text ⟨⟩

theorem mapped_keyScript :
    (keyScript.Unescaped ∧ keyScript.Shallow ∧ keyScript.NoKeyword ∧ keyScript.LinesFit →
      Mapped asciiClasses keyScript) ∧
    (keyScript.Unescaped ∧ keyScript.Shallow → Mapped asciiClasses keyScript →
      keyScript.NoKeyword ∧ keyScript.LinesFit) := mapped_iff keyScript_valid

/-- The column `key` is taken for a constraint. -/
theorem not_alwaysMapped : ¬ ∀ (classes : CharClasses) (script : Script), script.Valid classes →
    Mapped classes script := by
  intro h
  obtain ⟨tables, htables, hviews⟩ := h asciiClasses keyScript keyScript_valid
  have hparse : (parseDdl asciiClasses keyScript.source).map (·.map fun table => table.columns.length) =
      some [1] := by decide +kernel
  have hfound : tables.map (fun table => table.columns.length) = [2] := by
    have hlength := congrArg (List.map fun table : TableView => table.columns.length) hviews
    have hspans : ((tableSpans 0 keyScript.statements).map (·.view keyScript.source)).map
        (fun table => table.columns.length) = [2] := rfl
    rw [hspans, List.map_map] at hlength
    rw [← hlength]
    refine List.map_congr_left fun table _ => ?_
    exact (List.length_map _).symm
  rw [htables, Option.map_some, hfound] at hparse
  exact absurd hparse (by decide)

end

end Sql

end Artifact

end Cognis
