/-
  `extract_artifact` (`parser/artifact/mod.rs`): the extractor of each kind, as the
  occurrences that it finds in the text and the symbol that it builds of each.

  * `extractArtifact_eq`: the output is one symbol for each occurrence, in order, and the
    whole file where there are none.
-/
import Cognis.Indexer.Html
import Cognis.Indexer.Markdown
import Cognis.Indexer.Sql
import Cognis.Indexer.Toml

namespace Cognis

namespace Artifact

/-- `extract_artifact` -/
def extractArtifact (sha256 : List UInt8 → List UInt8) (classes : CharClasses) (kind : ArtifactKind)
    (filePath source : List Char) : Option Output :=
  match kind with
  | .yaml => some (Yaml.extract sha256 .yaml filePath source)
  | .toml => some (Yaml.extract sha256 .toml filePath source)
  | .sql => Sql.extract sha256 filePath classes source
  | .html => Html.extract sha256 filePath classes source
  | .markdown => some (Markdown.extract sha256 filePath source)

/-! ## Occurrences -/

/-- What an extractor has found: the symbol of it is built from this. -/
structure Occurrence where
  kind : SymbolKind
  name : List Char
  idKey : List Char
  qualified : List Char
  text : List Char
  lineStart : UInt32
  lineEnd : UInt32

/-- The symbol of an occurrence. -/
def Occurrence.symbol (sha256 : List UInt8 → List UInt8) (label filePath : List Char)
    (o : Occurrence) : Symbol :=
  buildSymbol sha256 label filePath (moduleFromPath filePath) o.kind o.name o.idKey o.qualified o.text
    o.lineStart o.lineEnd

/-- A leaf of YAML or TOML. -/
def Yaml.Leaf.occurrence (leaf : Yaml.Leaf) : Occurrence :=
  ⟨.var, leaf.path, leaf.path, leaf.path, Yaml.leafText leaf, leaf.lineStart, leaf.lineEnd⟩

/-- A column of a table. -/
def Sql.Column.occurrence (table : List Char) (column : Sql.Column) : Occurrence :=
  ⟨.var, column.name, Sql.columnKey table column.name, Sql.columnKey table column.name,
    Sql.columnText table column, column.lineStart, column.lineEnd⟩

/-- A table, and its columns. -/
def Sql.Table.occurrences (table : Sql.Table) : List Occurrence :=
  ⟨.classDef, table.name, table.name, table.name, Sql.tableText table, table.lineStart, table.lineEnd⟩ ::
    table.columns.map (Sql.Column.occurrence table.name)

/-- A route. -/
def Html.RouteOcc.occurrence (route : Html.RouteOcc) : Occurrence :=
  ⟨.route, route.value, route.value, route.value, Html.routeText route, route.lineStart, route.lineEnd⟩

/-- A function of a script. -/
def Html.Func.occurrence (func : Html.Func) : Occurrence :=
  ⟨.function, func.name, Html.funcKey func, func.name, Html.funcText func, func.lineStart, func.lineEnd⟩

namespace Markdown

/-- A section. -/
def sectionOccurrence (name idKey text : List Char) (lineStart lineEnd : UInt32) : Occurrence :=
  ⟨.module, name, idKey, name, truncateText text, lineStart, lineEnd⟩

/-- The section before the first heading. -/
def preambleOccurrence (lines : List (List Char)) (first : ℕ) : List Occurrence :=
  if 0 < first ∧ hasContent (lines.take first) then
    [sectionOccurrence preambleName (preambleName ++ "@1".toList)
      (Text.join ['\n'] (lines.take first)) 1 (toU32 first)]
  else []

/-- The section of a heading. -/
def headingOccurrence (lines : List (List Char)) (heading : Heading) (endIdx : ℕ) : Occurrence :=
  let startIdx := heading.lineIdx
  let lineStart := toU32 (startIdx + 1)
  let lineEnd := toU32 (max endIdx (startIdx + 1))
  let bodyLines := (lines.take (max endIdx (startIdx + 1))).drop (startIdx + 1)
  let text := if bodyLines = [] then heading.text
    else heading.text ++ '\n' :: Text.join ['\n'] bodyLines
  let name := if Text.trim heading.text = [] then "heading-".toList ++ lineText lineStart
    else heading.text
  sectionOccurrence name (name ++ '@' :: lineText lineStart) text lineStart lineEnd

/-- The sections of the headings. -/
def headingOccurrences (lines : List (List Char)) : List Heading → List Occurrence
  | [] => []
  | heading :: headings =>
    headingOccurrence lines heading ((headings.head?.map (·.lineIdx)).getD lines.length) ::
      headingOccurrences lines headings

/-- The sections of a text. -/
def occurrences (source : List Char) : List Occurrence :=
  let lines := Text.lines source
  match scanHeadings lines with
  | [] => []
  | heading :: headings =>
    preambleOccurrence lines heading.lineIdx ++ headingOccurrences lines (heading :: headings)

end Markdown

/-- The leaves, if there are not too many of them. -/
def Yaml.occurrences (kind : ArtifactKind) (source : List Char) : List Occurrence :=
  if Yaml.Structured (Yaml.leaves kind source) then
    (Yaml.leaves kind source).map Yaml.Leaf.occurrence
  else []

/-- The tables and the columns of the DDL. -/
def Sql.occurrences (classes : CharClasses) (source : List Char) : Option (List Occurrence) :=
  (Sql.parseDdl classes source).map fun tables => tables.flatMap Sql.Table.occurrences

/-- The routes and the functions of a document. -/
def Html.occurrences (classes : CharClasses) (source : List Char) : Option (List Occurrence) :=
  (Html.declarations classes source).map fun found =>
    found.1.map Html.RouteOcc.occurrence ++ found.2.map Html.Func.occurrence

/-- What the extractor of a kind finds in a text. -/
def occurrences (classes : CharClasses) (kind : ArtifactKind) (source : List Char) :
    Option (List Occurrence) :=
  match kind with
  | .yaml => some (Yaml.occurrences .yaml source)
  | .toml => some (Yaml.occurrences .toml source)
  | .sql => Sql.occurrences classes source
  | .html => Html.occurrences classes source
  | .markdown => some (Markdown.occurrences source)

/-- The output for the occurrences of a file. -/
def output (sha256 : List UInt8 → List UInt8) (kind : ArtifactKind) (filePath source : List Char)
    (found : List Occurrence) : Output :=
  if found = [] then textualFallback sha256 kind filePath source
  else
    { symbols := found.map (Occurrence.symbol sha256 (kindLabel kind) filePath)
      status := .ok
      language := some (String.ofList (kindLabel kind))
      fellBack := false }

section

variable (sha256 : List UInt8 → List UInt8) (filePath : List Char)

theorem Yaml.extract_eq (kind : ArtifactKind) (hkind : kind = .yaml ∨ kind = .toml)
    (source : List Char) : Yaml.extract sha256 kind filePath source =
      output sha256 kind filePath source (Yaml.occurrences kind source) := by
  have hlabel : leafLabel kind = kindLabel kind := by rcases hkind with rfl | rfl <;> rfl
  rw [extract, output, occurrences, hlabel]
  by_cases hstructured : Structured (leaves kind source)
  · rw [if_pos hstructured, if_pos hstructured, if_neg (by simpa using hstructured.1), List.map_map]
    rfl
  · rw [if_neg hstructured, if_neg hstructured, if_pos rfl]

theorem Sql.extract_eq (classes : CharClasses) (source : List Char) :
    Sql.extract sha256 filePath classes source =
      (Sql.occurrences classes source).map (output sha256 .sql filePath source) := by
  rw [extract, occurrences]
  cases parseDdl classes source with
  | none => rfl
  | some tables =>
    rw [Option.bind_eq_bind, Option.bind_some, Option.map_some, Option.map_some, output]
    cases tables with
    | nil => rfl
    | cons table tables =>
      rw [if_neg (List.cons_ne_nil _ _), if_neg (by simp [Table.occurrences]), List.map_flatMap]
      have htable : tableSymbols sha256 filePath =
          fun table => table.occurrences.map (Occurrence.symbol sha256 (kindLabel .sql) filePath) := by
        funext table
        rw [tableSymbols, Table.occurrences, List.map_cons, List.map_map]
        rfl
      rw [htable]
      rfl

theorem Html.extract_eq (classes : CharClasses) (source : List Char) :
    Html.extract sha256 filePath classes source =
      (Html.occurrences classes source).map (output sha256 .html filePath source) := by
  rw [extract, occurrences]
  cases declarations classes source with
  | none => rfl
  | some found =>
    obtain ⟨routes, funcs⟩ := found
    rw [Option.bind_eq_bind, Option.bind_some, Option.map_some, Option.map_some, output]
    by_cases hnil : routes = [] ∧ funcs = []
    · obtain ⟨rfl, rfl⟩ := hnil
      rfl
    · rw [if_neg (by simpa using hnil), List.map_append, List.map_map, List.map_map]
      simp only [if_neg hnil]
      rfl

theorem Markdown.headingSections_eq (lines : List (List Char)) (headings : List Heading) :
    headingSections sha256 filePath lines headings =
      (headingOccurrences lines headings).map
        (Occurrence.symbol sha256 (kindLabel .markdown) filePath) := by
  induction headings with
  | nil => rfl
  | cons heading headings ih =>
    rw [headingSections, headingOccurrences, List.map_cons, ih]
    rfl

theorem Markdown.preamble_eq (lines : List (List Char)) (first : ℕ) :
    preamble sha256 filePath lines first =
      (preambleOccurrence lines first).map
        (Occurrence.symbol sha256 (kindLabel .markdown) filePath) := by
  rw [preamble, preambleOccurrence]
  split_ifs <;> rfl

theorem Markdown.extract_eq (source : List Char) : Markdown.extract sha256 filePath source =
    output sha256 .markdown filePath source (Markdown.occurrences source) := by
  rw [extract, occurrences, output]
  cases scanHeadings (Text.lines source) with
  | nil => rfl
  | cons heading headings =>
    simp only [preamble_eq, headingSections_eq, List.map_append, headingOccurrences,
      List.append_eq_nil_iff, List.cons_ne_nil, and_false, if_false]

/-- **An extraction is one symbol for each occurrence.** -/
theorem extractArtifact_eq (classes : CharClasses) (kind : ArtifactKind) (source : List Char) :
    extractArtifact sha256 classes kind filePath source =
      (occurrences classes kind source).map (output sha256 kind filePath source) := by
  cases kind with
  | yaml => exact congrArg some (Yaml.extract_eq sha256 filePath .yaml (.inl rfl) source)
  | toml => exact congrArg some (Yaml.extract_eq sha256 filePath .toml (.inr rfl) source)
  | sql => exact Sql.extract_eq sha256 filePath classes source
  | html => exact Html.extract_eq sha256 filePath classes source
  | markdown => exact congrArg some (Markdown.extract_eq sha256 filePath source)

end

end Artifact

end Cognis
