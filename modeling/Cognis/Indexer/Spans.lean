/-
  The spans of the symbols of an artifact file: the extractors finish on every text, and read
  and slice nothing out of range; their line numbers are numbers of lines, but for two places.

  * A value of TOML that is not complete takes the empty piece after the last line feed too.
  * The symbol of a whole file has the number of lines cut to 32 bits, which may be zero.

  * `Occurrence.validSpan_iff`: what a symbol's span is checked for;
  * `validExtraction_iff`: the spans are valid exactly when neither happens (`SpansFit`).
-/
import Cognis.Indexer.Extraction
import Cognis.Indexer.Slices

namespace Cognis

open Text

namespace Artifact

/-- `source.lines().count()` -/
def lineCount (source : List Char) : ℕ := (lines source).length

/-- A span within a text of so many lines, of a valid symbol. -/
structure ValidSpan (count : ℕ) (s : Symbol) : Prop where
  start_pos : 1 ≤ s.lineStart.toNat
  start_le : s.lineStart.toNat ≤ s.lineEnd.toNat
  end_le : s.lineEnd.toNat ≤ count
  valid : s.validate = .ok ()

/-- The lines of an occurrence are within a text of so many lines. -/
def Occurrence.Fits (count : ℕ) (o : Occurrence) : Prop :=
  o.lineStart.toNat ≤ count ∧ o.lineEnd.toNat ≤ count

theorem symbolId_ne_nil (sha256 : List UInt8 → List UInt8) (lang filePath name body : List Char) :
    makeSymbolId sha256 lang filePath name body ≠ [] := by
  simp [makeSymbolId]

/-- A symbol of this id and of this span is valid, unless it ends before it begins. -/
theorem validate_eq_ok {s : Symbol} (hid : s.id ≠ "") (hrisk : s.riskScore = 0)
    (hstart : 1 ≤ s.lineStart.toNat) (hend : s.lineStart.toNat ≤ s.lineEnd.toNat) :
    s.validate = .ok () := by
  have hone : (1 : UInt32).toNat = 1 := rfl
  rw [Symbol.validate, if_neg hid, if_neg, if_neg, if_neg]
  · rw [hrisk]
    exact not_or.2 ⟨lt_irrefl 0, not_lt.2 zero_le_one⟩
  · rw [UInt32.lt_iff_toNat_lt]
    omega
  · rw [UInt32.lt_iff_toNat_lt, UInt32.lt_iff_toNat_lt, hone]
    omega

section

variable (sha256 : List UInt8 → List UInt8) (filePath : List Char)

/-- The span of a symbol is clamped, so that only its lines can be out of the text. -/
theorem Occurrence.validSpan_iff (label : List Char) {count : ℕ} (hcount : 1 ≤ count)
    (o : Occurrence) : ValidSpan count (o.symbol sha256 label filePath) ↔ o.Fits count := by
  have hspan := buildSymbol_lineSpan sha256 label filePath (moduleFromPath filePath) o.kind o.name
    o.idKey o.qualified o.text o.lineStart o.lineEnd
  obtain ⟨hstart, hend⟩ := Prod.mk.inj hspan
  constructor
  · rintro ⟨-, hle, hcount', -⟩
    rw [Occurrence.symbol] at hle hcount'
    rw [Occurrence.Fits]
    omega
  · rintro ⟨hstartfits, hendfits⟩
    have hstart_pos : 1 ≤ (o.symbol sha256 label filePath).lineStart.toNat := by
      rw [Occurrence.symbol]
      omega
    have hstart_le : (o.symbol sha256 label filePath).lineStart.toNat ≤
        (o.symbol sha256 label filePath).lineEnd.toNat := by
      rw [Occurrence.symbol]
      omega
    refine ⟨hstart_pos, hstart_le, ?_, validate_eq_ok ?_ rfl hstart_pos hstart_le⟩
    · rw [Occurrence.symbol]
      omega
    · exact fun h => symbolId_ne_nil sha256 label filePath o.idKey o.text (String.ofList_inj.1 h)

theorem lineCount_pos {source : List Char} (h : source ≠ []) : 1 ≤ lineCount source := by
  obtain ⟨c, cs, rfl⟩ := List.exists_cons_of_ne_nil h
  by_cases hfeed : c = '\n'
  · rw [lineCount, hfeed, lines_feed, List.length_cons]
    omega
  · rw [lineCount, length_lines_cons hfeed]
    omega

/-- The symbol of a whole file has the lines of it, as far as they fit. -/
theorem textualFallback_validSpan_iff (kind : ArtifactKind) (source : List Char) :
    (∀ s ∈ (textualFallback sha256 kind filePath source).symbols, ValidSpan (lineCount source) s) ↔
      (trim source ≠ [] → lineCount source % 2 ^ 32 ≠ 0) := by
  rw [textualFallback]
  split_ifs with hblank
  · exact iff_of_true (fun s hs => absurd hs List.not_mem_nil) fun h => absurd hblank h
  · have hne : source ≠ [] := by
      rintro rfl
      exact hblank rfl
    have hpos := lineCount_pos hne
    have hmax : max (lines source).length 1 = lineCount source := max_eq_left hpos
    have htoNat : (toU32 (lineCount source)).toNat = lineCount source % 2 ^ 32 :=
      UInt32.toNat_ofNat'
    have hone : (1 : UInt32).toNat = 1 := rfl
    rw [List.forall_mem_singleton, hmax]
    constructor
    · rintro ⟨-, hle, -, -⟩ -
      simp only [htoNat, hone] at hle
      omega
    · intro h
      have hfits := h hblank
      refine ⟨le_rfl, ?_, toNat_toU32_le _, validate_eq_ok ?_ rfl le_rfl ?_⟩
      · simp only [htoNat, hone]
        omega
      · exact fun h => symbolId_ne_nil sha256 _ filePath _ source (String.ofList_inj.1 h)
      · simp only [htoNat, hone]
        omega

end

/-! ## The lines of the occurrences -/

theorem toNat_le_lineCount {source : List Char} {line : UInt32} (h : line ∈ lineNumbers 1 source) :
    line.toNat ≤ lineCount source := by
  obtain ⟨k, hk, rfl⟩ := mem_lineNumbers h
  have hmod := Nat.mod_le (1 + k % 2 ^ 32) (2 ^ 32)
  have hk' := Nat.mod_le k (2 ^ 32)
  have htoNat : (1 + UInt32.ofNat k).toNat = (1 + k % 2 ^ 32) % 2 ^ 32 := by
    rw [UInt32.toNat_add, UInt32.toNat_ofNat']
    rfl
  rw [htoNat, lineCount]
  omega

/-- Nothing comes after the last line feed. -/
def EndsWithFeed (source : List Char) : Prop := (splitOn '\n' source).getLast? = some []

instance decidableEndsWithFeed (source : List Char) : Decidable (EndsWithFeed source) :=
  inferInstanceAs (Decidable (_ = _))

/-- The pieces between the line feeds: the last one is no line if it is empty. -/
theorem length_splitOn (source : List Char) :
    (splitOn '\n' source).length = lineCount source + if EndsWithFeed source then 1 else 0 := by
  obtain ⟨part, parts, hparts⟩ := splitOn_eq_cons '\n' source
  obtain ⟨front, last, hsplit⟩ : ∃ front last, splitOn '\n' source = front ++ [last] := by
    rw [hparts]
    exact ⟨_, _, (List.dropLast_append_getLast (List.cons_ne_nil part parts)).symm⟩
  have hfeed : EndsWithFeed source ↔ last = [] := by
    rw [EndsWithFeed, hsplit, List.getLast?_concat, Option.some_inj]
  rw [lineCount, lines, hsplit, List.dropLast_concat, List.getLast?_concat]
  split_ifs with h
  · simp [hfeed.1 h]
  · simp [mt hfeed.2 h]

namespace Yaml

theorem length_numbered (source : List Char) :
    (numbered source).length = lineCount source + if EndsWithFeed source then 1 else 0 := by
  rw [numbered, List.length_map, List.length_zipIdx, length_splitOn]

/-- A piece that is not empty is a line. -/
theorem NonEmpty.le_lineCount {source : List Char} {n : ℕ} (h : NonEmpty (numbered source) n) :
    n ≤ lineCount source := by
  obtain ⟨line, hline, hne⟩ := h
  obtain ⟨⟨piece, i⟩, hmem, heq⟩ := List.mem_map.1 hline
  obtain ⟨rfl, rfl⟩ := Prod.mk.inj heq
  obtain ⟨hfirst, hlast, hpiece⟩ := List.mem_zipIdx hmem
  have hlength := length_splitOn source
  split_ifs at hlength with hfeed
  · by_contra hlt
    have hi : i - 1 = (splitOn '\n' source).length - 1 := by
      simp only at hlt hlast
      omega
    rw [EndsWithFeed, List.getLast?_eq_getElem?, ← hi, List.getElem?_eq_getElem (by omega)] at hfeed
    exact hne (hpiece.trans (Option.some_inj.1 hfeed))
  · simp only at hlast ⊢
    omega

theorem Leaf.OnLines.fits {source : List Char} {leaf : Leaf} (h : leaf.OnLines (numbered source)) :
    leaf.occurrence.Fits (lineCount source) := by
  obtain ⟨m, n, hm, hn, hstart, hend⟩ := h
  constructor
  · rw [show leaf.occurrence.lineStart = toU32 m from hstart]
    exact (toNat_toU32_le m).trans hm.le_lineCount
  · rw [show leaf.occurrence.lineEnd = toU32 n from hend]
    exact (toNat_toU32_le n).trans hn.le_lineCount

/-- A value with leaves is not complete at the end of a text that ends with a line feed. -/
def LeftOpen (source : List Char) : Prop :=
  EndsWithFeed source ∧ takesRest 0 (numbered source) = true ∧ (numbered source).length < 2 ^ 32

/-- The leaves of TOML are within the text, unless a value is left open. -/
theorem parseToml_fits_iff (source : List Char) :
    (∀ leaf ∈ parseToml source, leaf.occurrence.Fits (lineCount source)) ↔ ¬ LeftOpen source := by
  have hlast := numbered_numberedTo source
  have hlength := length_numbered source
  constructor
  · rintro h ⟨hfeed, htakes, hfits⟩
    obtain ⟨leaf, hleaf, hend⟩ : ∃ leaf ∈ parseToml source,
      leaf.lineEnd = toU32 (numbered source).length := exists_mem_parseTomlLines hlast htakes
    have hle : leaf.lineEnd.toNat ≤ lineCount source := (h leaf hleaf).2
    rw [if_pos hfeed] at hlength
    rw [hend, toNat_toU32 hfits] at hle
    omega
  · intro h leaf hleaf
    obtain ⟨⟨m, hm, hstart⟩, n, hend, hn⟩ := mem_parseTomlLines List.suffix_rfl hlast hleaf
    constructor
    · rw [show leaf.occurrence.lineStart = toU32 m from hstart]
      exact (toNat_toU32_le m).trans hm.le_lineCount
    · rw [show leaf.occurrence.lineEnd = toU32 n from hend]
      rcases hn with hn | hn | ⟨hn, htakes⟩
      · exact (toNat_toU32_le n).trans hn.le_lineCount
      · refine (toNat_toU32_le n).trans ?_
        split_ifs at hlength <;> omega
      · split_ifs at hlength with hfeed
        · have hwide : 2 ^ 32 ≤ (numbered source).length :=
            Nat.le_of_not_lt fun hfits => h ⟨hfeed, htakes, hfits⟩
          have hmod : (toU32 n).toNat = n % 2 ^ 32 := UInt32.toNat_ofNat'
          omega
        · exact (toNat_toU32_le n).trans (by omega)

end Yaml

/-- The sections of Markdown are within the text. -/
theorem Markdown.occurrences_fit (source : List Char) :
    ∀ o ∈ Markdown.occurrences source, o.Fits (lineCount source) := by
  have hsection : ∀ (name idKey text : List Char) {m n : ℕ}, m ≤ lineCount source →
      n ≤ lineCount source → (sectionOccurrence name idKey text (toU32 m) (toU32 n)).Fits
        (lineCount source) := fun _ _ _ _ _ hm hn =>
    ⟨(toNat_toU32_le _).trans hm, (toNat_toU32_le _).trans hn⟩
  have hheadings : ∀ headings : List Heading,
      (∀ h ∈ headings, h.lineIdx < lineCount source) →
        ∀ o ∈ headingOccurrences (lines source) headings, o.Fits (lineCount source) := by
    intro headings
    induction headings with
    | nil => exact fun _ o ho => absurd ho List.not_mem_nil
    | cons heading headings ih =>
      intro hbound o ho
      have hheading := hbound heading List.mem_cons_self
      rcases List.mem_cons.1 ho with rfl | ho
      · refine hsection _ _ _ hheading (max_le ?_ hheading)
        cases headings with
        | nil => exact le_rfl
        | cons next headings => exact (hbound next (by simp)).le
      · exact ih (fun h hh => hbound h (.tail _ hh)) o ho
  have hbound : ∀ h ∈ scanHeadings (lines source), h.lineIdx < lineCount source := by
    intro h hh
    have := (mem_scanFrom hh).2
    rwa [Nat.zero_add] at this
  intro o ho
  rw [occurrences] at ho
  cases hscan : scanHeadings (lines source) with
  | nil =>
    rw [hscan] at ho
    exact absurd ho List.not_mem_nil
  | cons heading headings =>
    simp only [hscan] at ho
    rw [hscan] at hbound
    rcases List.mem_append.1 ho with ho | ho
    · rw [preambleOccurrence] at ho
      split_ifs at ho
      · obtain rfl := List.mem_singleton.1 ho
        have hfirst := hbound heading List.mem_cons_self
        exact hsection _ _ _ (m := 1) (by omega) hfirst.le
      · exact absurd ho List.not_mem_nil
    · exact hheadings _ hbound o ho

/-- A text that ends with a line feed has no TOML value that is left open. -/
def ClosesValues (kind : ArtifactKind) (source : List Char) : Prop :=
  kind = .toml → Yaml.Structured (Yaml.parseToml source) → ¬ Yaml.LeftOpen source

/-- The extractor finishes, and its occurrences are within the text exactly when no value is
    left open. -/
theorem occurrences_spec (classes : CharClasses) (kind : ArtifactKind) (source : List Char) :
    ∃ found, occurrences classes kind source = some found ∧
      ((∀ o ∈ found, o.Fits (lineCount source)) ↔ ClosesValues kind source) := by
  have hclosed : ∀ {kind : ArtifactKind}, kind ≠ .toml → ClosesValues kind source :=
    fun hne heq => absurd heq hne
  cases kind with
  | yaml =>
    refine ⟨_, rfl, iff_of_true ?_ (hclosed (by decide))⟩
    rw [Yaml.occurrences]
    split_ifs
    · refine List.forall_mem_map.2 fun leaf hleaf => ?_
      exact (Yaml.parseYaml_onLines source leaf hleaf).fits
    · exact fun o ho => absurd ho List.not_mem_nil
  | toml =>
    refine ⟨_, rfl, ?_⟩
    rw [Yaml.occurrences, show Yaml.leaves .toml source = Yaml.parseToml source from rfl]
    split_ifs with hstructured
    · rw [List.forall_mem_map, Yaml.parseToml_fits_iff]
      exact ⟨fun h _ _ => h, fun h => h rfl hstructured⟩
    · exact iff_of_true (fun o ho => absurd ho List.not_mem_nil) fun _ h => absurd h hstructured
  | sql =>
    obtain ⟨tables, htables, hfound⟩ := Sql.parseDdl_spec classes source
    refine ⟨_, by rw [occurrences, Sql.occurrences, htables, Option.map_some],
      iff_of_true ?_ (hclosed (by decide))⟩
    intro o ho
    obtain ⟨table, htable, ho⟩ := List.mem_flatMap.1 ho
    rcases List.mem_cons.1 ho with rfl | ho
    · exact ⟨toNat_le_lineCount (hfound table htable).lineStart,
        toNat_le_lineCount (hfound table htable).lineEnd⟩
    · obtain ⟨column, hcolumn, rfl⟩ := List.mem_map.1 ho
      have hcolumnfound := (hfound table htable).columns column hcolumn
      exact ⟨toNat_le_lineCount hcolumnfound.lineStart, toNat_le_lineCount hcolumnfound.lineEnd⟩
  | html =>
    obtain ⟨routes, funcs, hdecl, hroutes, -, hfuncs⟩ := Html.declarations_spec classes source
    refine ⟨_, by rw [occurrences, Html.occurrences, hdecl, Option.map_some],
      iff_of_true ?_ (hclosed (by decide))⟩
    refine List.forall_mem_append.2 ⟨List.forall_mem_map.2 fun route hroute => ?_,
      List.forall_mem_map.2 fun func hfunc => ?_⟩
    · exact ⟨toNat_le_lineCount (hroutes route hroute).lineStart,
        toNat_le_lineCount (hroutes route hroute).lineEnd⟩
    · exact ⟨toNat_le_lineCount (hfuncs func hfunc).lineStart,
        toNat_le_lineCount (hfuncs func hfunc).lineEnd⟩
  | markdown =>
    exact ⟨_, rfl, iff_of_true (Markdown.occurrences_fit source) (hclosed (by decide))⟩

/-! ## Extraction -/

/-- The extractor finishes on a text, takes no slice out of range, and its symbols are valid and
    within the text. -/
structure ValidExtraction (sha256 : List UInt8 → List UInt8) (classes : CharClasses)
    (kind : ArtifactKind) (filePath source : List Char) : Prop where
  slices : SlicesInside
  walk : ∀ indent, (Yaml.parseYamlBlock (Yaml.walkFuel (Yaml.numbered source)) indent []
    (Yaml.numbered source)).isSome
  symbols : ∃ out, extractArtifact sha256 classes kind filePath source = some out ∧
    ∀ s ∈ out.symbols, ValidSpan (lineCount source) s

/-- No TOML value is left open, and a text that is extracted as a whole, but for blank ones, has
    a number of lines that is not zero in 32 bits. -/
structure SpansFit (classes : CharClasses) (kind : ArtifactKind) (source : List Char) : Prop where
  closed : ClosesValues kind source
  counted : occurrences classes kind source = some [] → trim source ≠ [] →
    lineCount source % 2 ^ 32 ≠ 0

/-- The spans of an output. -/
theorem output_validSpan_iff (sha256 : List UInt8 → List UInt8) (kind : ArtifactKind)
    (filePath source : List Char) (found : List Occurrence) (hne : found ≠ [] → source ≠ []) :
    (∀ s ∈ (output sha256 kind filePath source found).symbols, ValidSpan (lineCount source) s) ↔
      (∀ o ∈ found, o.Fits (lineCount source)) ∧
        (found = [] → trim source ≠ [] → lineCount source % 2 ^ 32 ≠ 0) := by
  rw [output]
  split_ifs with hnil
  · rw [textualFallback_validSpan_iff, hnil, and_iff_right fun o ho => absurd ho List.not_mem_nil]
    exact ⟨fun h _ => h, fun h => h rfl⟩
  · have hcount := lineCount_pos (hne hnil)
    rw [List.forall_mem_map, and_iff_left fun h => absurd h hnil]
    exact forall₂_congr fun o _ => o.validSpan_iff sha256 filePath _ hcount

/-- Nothing is found in the empty text. -/
theorem occurrences_nil (classes : CharClasses) (kind : ArtifactKind) :
    occurrences classes kind [] = some [] := by
  cases kind <;> rfl

/-- **Where the spans are valid**: exactly where no value of TOML is left open, and the number
    of lines is not cut to zero. -/
theorem validExtraction_iff (sha256 : List UInt8 → List UInt8) (classes : CharClasses)
    (kind : ArtifactKind) (filePath source : List Char) :
    ValidExtraction sha256 classes kind filePath source ↔ SpansFit classes kind source := by
  obtain ⟨found, hfound, hfits⟩ := occurrences_spec classes kind source
  have hne : found ≠ [] → source ≠ [] := by
    rintro hne rfl
    rw [occurrences_nil, Option.some_inj] at hfound
    exact hne hfound.symm
  have hextract : extractArtifact sha256 classes kind filePath source =
      some (output sha256 kind filePath source found) := by
    rw [extractArtifact_eq, hfound, Option.map_some]
  constructor
  · rintro ⟨-, -, out, hout, hspans⟩
    rw [hextract, Option.some_inj] at hout
    subst hout
    obtain ⟨hall, hcounted⟩ := (output_validSpan_iff sha256 kind filePath source found hne).1 hspans
    refine ⟨hfits.1 hall, fun hnil => hcounted ?_⟩
    rwa [hfound, Option.some_inj] at hnil
  · rintro ⟨hclosed, hcounted⟩
    refine ⟨slicesInside, fun indent => ?_, _, hextract, ?_⟩
    · obtain ⟨leaves, rest, hwalk, -⟩ :=
        Yaml.parseYamlBlock_finishes indent [] (Yaml.numbered source)
      rw [hwalk]
      rfl
    · refine (output_validSpan_iff sha256 kind filePath source found hne).2 ⟨hfits.2 hclosed, ?_⟩
      exact fun hnil => hcounted (hnil ▸ hfound)

/-! ## A value that is left open -/

/-- The spans of every extraction are valid. -/
def AlwaysValid : Prop :=
  ∀ (sha256 : List UInt8 → List UInt8) (classes : CharClasses) (kind : ArtifactKind)
    (filePath source : List Char), ValidExtraction sha256 classes kind filePath source

/-- An array that is never closed, on the only line. -/
def openArray : List Char := "a = [\n".toList

/-- The leaf of `openArray` ends on line `2`. -/
theorem not_alwaysValid : ¬ AlwaysValid := by
  intro h
  obtain ⟨out, hout, hspans⟩ := (h (fun _ => []) asciiClasses .toml [] openArray).symbols
  have hspan : (2 : UInt32) ∈ out.symbols.map Symbol.lineEnd := by
    rw [← Option.some_inj.1 hout]
    decide +kernel
  obtain ⟨s, hs, hend⟩ := List.mem_map.1 hspan
  have hle := (hspans s hs).end_le
  rw [hend] at hle
  exact absurd hle (by decide +kernel)

end Artifact

end Cognis
