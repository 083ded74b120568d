/-
  The Markdown extractor (`parser/artifact/markdown.rs`): a symbol for each section, from a
  heading to the line before the next one, and one for what stands before the first.

  The scan of the lines carries the open code fence along; a heading is only looked for
  outside of a fence.

  * `scanHeadings_sorted`: the headings are found in the order of the lines;
  * `sectionsPartition_iff`: the sections partition the file exactly when it has fewer than
    `2 ^ 32` lines, so that the line numbers fit.
-/
import Cognis.Indexer.Artifact
import Cognis.Lib.Tiling

namespace Cognis

namespace Artifact

namespace Markdown

/-! ## The scanner -/

/-- `Heading`: the index of the line, and the cleaned text. -/
structure Heading where
  lineIdx : ℕ
  text : List Char
  deriving DecidableEq, Repr

/-- An open fence: its character, and how many there are. -/
abbrev Fence := Char × ℕ

/-- `fence_marker`: the fence, and whether nothing follows it. -/
def fenceMarker (line : List Char) : Option (Fence × Bool) :=
  let leading := (line.takeWhile (· = ' ')).length
  if 3 < leading then none else
    let rest := line.drop leading
    match rest with
    | [] => none
    | first :: _ =>
      if first ≠ '\x60' ∧ first ≠ '~' then none else
        let run := (rest.takeWhile (· = first)).length
        if run < 3 then none else some ((first, run), (rest.drop run).all isWhitespace)

/-- `clean_heading_text` -/
def cleanHeadingText (text : List Char) : List Char :=
  let stripped := text.rdropWhile (· = '#')
  if stripped.length ≠ text.length ∧
      (stripped = [] ∨ stripped.getLast? = some ' ' ∨ stripped.getLast? = some '\t') then
    stripped.rdropWhile isWhitespace
  else text

/-- `parse_atx_heading` -/
def parseAtxHeading (line : List Char) : Option (List Char) :=
  let leading := (line.takeWhile (· = ' ')).length
  if 3 < leading then none else
    let rest := line.drop leading
    let hashes := (rest.takeWhile (· = '#')).length
    if hashes = 0 ∨ 6 < hashes then none else
      let after := rest.drop hashes
      if after.head?.any fun next => next ≠ ' ' ∧ next ≠ '\t' then none
      else some (cleanHeadingText (Text.trim after))

/-- The open fence after a line. -/
def nextFence (fence : Option Fence) (line : List Char) : Option Fence :=
  match fence, fenceMarker line with
  | some (ch, len), some ((fch, frun), onlyFence) =>
    if fch = ch ∧ len ≤ frun ∧ onlyFence then none else some (ch, len)
  | some fence, none => some fence
  | none, some (fence, _) => some fence
  | none, none => none

/-- The heading on a line. -/
def headingOn (fence : Option Fence) (line : List Char) : Option (List Char) :=
  match fence, fenceMarker line with
  | none, none => parseAtxHeading line
  | _, _ => none

/-- The loop of `scan_headings`. -/
def scanFrom (idx : ℕ) (fence : Option Fence) : List (List Char) → List Heading
  | [] => []
  | line :: lines =>
    ((headingOn fence line).map fun text => ⟨idx, text⟩).toList ++
      scanFrom (idx + 1) (nextFence fence line) lines

/-- `scan_headings` -/
def scanHeadings (lines : List (List Char)) : List Heading := scanFrom 0 none lines

/-! ## The sections -/

/-- `has_content` -/
def hasContent (lines : List (List Char)) : Bool := lines.any fun l => !l.all isWhitespace

def preambleName : List Char := "preamble".toList

/-- The decimal digits of a line number. -/
def lineText (line : UInt32) : List Char := Nat.toDigits 10 line.toNat

section
variable (sha256 : List UInt8 → List UInt8) (filePath : List Char)

/-- `build_symbol` -/
def buildSection (name idKey text : List Char) (lineStart lineEnd : UInt32) : Symbol :=
  buildSymbol sha256 (kindLabel .markdown) filePath (moduleFromPath filePath) .module name idKey name
    (truncateText text) lineStart lineEnd

/-- The section before the first heading, which is on the line with index `first`. -/
def preamble (lines : List (List Char)) (first : ℕ) : List Symbol :=
  if 0 < first ∧ hasContent (lines.take first) then
    [buildSection sha256 filePath preambleName (preambleName ++ "@1".toList)
      (Text.join ['\n'] (lines.take first)) 1 (toU32 first)]
  else []

/-- The section of a heading, up to the line with index `endIdx`. -/
def headingSection (lines : List (List Char)) (heading : Heading) (endIdx : ℕ) : Symbol :=
  let startIdx := heading.lineIdx
  let lineStart := toU32 (startIdx + 1)
  let lineEnd := toU32 (max endIdx (startIdx + 1))
  let bodyLines := (lines.take (max endIdx (startIdx + 1))).drop (startIdx + 1)
  let text := if bodyLines = [] then heading.text
    else heading.text ++ '\n' :: Text.join ['\n'] bodyLines
  let name := if Text.trim heading.text = [] then "heading-".toList ++ lineText lineStart
    else heading.text
  buildSection sha256 filePath name (name ++ '@' :: lineText lineStart) text lineStart lineEnd

/-- The sections of the headings: each ends where the next one begins, the last one with
    the file. -/
def headingSections (lines : List (List Char)) : List Heading → List Symbol
  | [] => []
  | heading :: headings =>
    headingSection sha256 filePath lines heading ((headings.head?.map (·.lineIdx)).getD lines.length) ::
      headingSections lines headings

/-- `extract` -/
def extract (source : List Char) : Output :=
  let lines := Text.lines source
  match scanHeadings lines with
  | [] => textualFallback sha256 .markdown filePath source
  | heading :: headings =>
    { symbols := preamble sha256 filePath lines heading.lineIdx ++
        headingSections sha256 filePath lines (heading :: headings)
      status := .ok
      language := some (String.ofList (kindLabel .markdown))
      fellBack := false }

end

/-! ## The partition -/

/-- The first line of the sections: the one of the first heading, unless there is content
    before it. -/
def firstLine (lines : List (List Char)) (first : ℕ) : ℕ :=
  if 0 < first ∧ hasContent (lines.take first) then 1 else first + 1

/-- The lines of a span. -/
def spanLines (lines : List (List Char)) (span : LineSpan) : List (List Char) :=
  (lines.take span.2).drop (span.1 - 1)

/-- The lines of a section: those of its span, the first one with the text of the heading
    that it is. -/
def sectionLines (lines : List (List Char)) (headings : List Heading) (span : LineSpan) :
    List (List Char) :=
  match headings.find? fun h => h.lineIdx + 1 = span.1 with
  | some heading => heading.text :: (spanLines lines span).tail
  | none => spanLines lines span

/-- The sections partition the lines from `first` on, and each has the text of its lines. -/
structure Partition (lines : List (List Char)) (headings : List Heading) (first : ℕ)
    (symbols : List Symbol) : Prop where
  tiles : Tiles first lines.length (symbols.map Symbol.lineSpan)
  heading : ∀ h ∈ headings, ∃ s ∈ symbols, s.lineSpan.1 = h.lineIdx + 1
  text : ∀ s ∈ symbols, s.bodyExcerpt = some (String.ofList
    (truncateText (Text.join ['\n'] (sectionLines lines headings s.lineSpan))))

/-- The sections of a text with a heading partition it. -/
def SectionsPartition (sha256 : List UInt8 → List UInt8) (filePath source : List Char) : Prop :=
  ∀ heading headings, scanHeadings (Text.lines source) = heading :: headings →
    Partition (Text.lines source) (heading :: headings)
      (firstLine (Text.lines source) heading.lineIdx) (extract sha256 filePath source).symbols

/-! ## The headings -/

theorem mem_scanFrom {idx : ℕ} {fence : Option Fence} {lines : List (List Char)} {h : Heading}
    (hmem : h ∈ scanFrom idx fence lines) : idx ≤ h.lineIdx ∧ h.lineIdx < idx + lines.length := by
  induction lines generalizing idx fence with
  | nil => exact absurd hmem List.not_mem_nil
  | cons line lines ih =>
    rw [scanFrom, List.mem_append] at hmem
    rw [List.length_cons]
    rcases hmem with hmem | hmem
    · obtain ⟨text, -, rfl⟩ := Option.map_eq_some_iff.1 (Option.mem_toList.1 hmem)
      exact ⟨le_rfl, by simp only; omega⟩
    · have := ih hmem
      omega

/-- The headings are in the order of the lines. -/
theorem scanFrom_sorted (idx : ℕ) (fence : Option Fence) (lines : List (List Char)) :
    (scanFrom idx fence lines).Pairwise fun h h' => h.lineIdx < h'.lineIdx := by
  induction lines generalizing idx fence with
  | nil => exact .nil
  | cons line lines ih =>
    rw [scanFrom, List.pairwise_append]
    refine ⟨?_, ih _ _, fun h hh h' hh' => ?_⟩
    · cases headingOn fence line <;> simp
    · obtain ⟨text, -, rfl⟩ := Option.map_eq_some_iff.1 (Option.mem_toList.1 hh)
      have := (mem_scanFrom hh').1
      simp only
      omega

theorem scanHeadings_sorted (lines : List (List Char)) :
    (scanHeadings lines).Pairwise fun h h' => h.lineIdx < h'.lineIdx := scanFrom_sorted _ _ _

/-! ## The spans -/

section
variable (sha256 : List UInt8 → List UInt8) (filePath : List Char) (lines : List (List Char))

/-- The section of a heading has the lines up to the next one. -/
theorem headingSection_lineSpan {heading : Heading} {endIdx : ℕ} (hstart : heading.lineIdx < endIdx)
    (hend : endIdx < 2 ^ 32) :
    (headingSection sha256 filePath lines heading endIdx).lineSpan = (heading.lineIdx + 1, endIdx) := by
  rw [headingSection, buildSection, buildSymbol_lineSpan, Nat.max_eq_left hstart,
    toNat_toU32 hend, toNat_toU32 (by omega)]
  simp only [Prod.mk.injEq]
  omega

theorem headingSection_text {heading : Heading} {endIdx : ℕ} (hstart : heading.lineIdx < endIdx) :
    (headingSection sha256 filePath lines heading endIdx).bodyExcerpt =
      some (String.ofList (truncateText (Text.join ['\n']
        (heading.text :: (lines.take endIdx).drop (heading.lineIdx + 1))))) := by
  rw [headingSection, buildSection, buildSymbol, Nat.max_eq_left hstart]
  cases hbody : (lines.take endIdx).drop (heading.lineIdx + 1) with
  | nil => simp [Text.join]
  | cons line rest => simp [Text.join, List.intersperse]

/-- The sections of the headings tile the lines from the first of them on. -/
theorem headingSections_tiles (hlen : lines.length < 2 ^ 32) {heading : Heading}
    {headings : List Heading}
    (hsorted : (heading :: headings).Pairwise fun h h' => h.lineIdx < h'.lineIdx)
    (hbound : ∀ h ∈ heading :: headings, h.lineIdx < lines.length) :
    Tiles (heading.lineIdx + 1) lines.length
      ((headingSections sha256 filePath lines (heading :: headings)).map Symbol.lineSpan) := by
  induction headings generalizing heading with
  | nil =>
    have hlast := hbound heading List.mem_cons_self
    rw [headingSections, headingSections, List.map_cons, List.head?_nil, Option.map_none,
      Option.getD_none, headingSection_lineSpan _ _ _ hlast hlen]
    exact ⟨rfl, hlast, rfl⟩
  | cons next headings ih =>
    have hnext : heading.lineIdx < next.lineIdx := (List.pairwise_cons.1 hsorted).1 _ List.mem_cons_self
    have hin := hbound next (by simp)
    rw [headingSections, List.map_cons, List.head?_cons, Option.map_some, Option.getD_some,
      headingSection_lineSpan _ _ _ hnext (by omega)]
    exact ⟨rfl, hnext, ih (List.pairwise_cons.1 hsorted).2 fun h hh => hbound h (by simp [hh])⟩

/-- Each section is that of a heading. -/
theorem mem_headingSections {headings : List Heading}
    (hsorted : headings.Pairwise fun h h' => h.lineIdx < h'.lineIdx)
    (hbound : ∀ h ∈ headings, h.lineIdx < lines.length) {s : Symbol}
    (hs : s ∈ headingSections sha256 filePath lines headings) :
    ∃ h ∈ headings, ∃ endIdx, h.lineIdx < endIdx ∧ endIdx ≤ lines.length ∧
      s = headingSection sha256 filePath lines h endIdx := by
  induction headings with
  | nil => exact absurd hs List.not_mem_nil
  | cons heading headings ih =>
    rcases List.mem_cons.1 hs with rfl | hs
    · refine ⟨heading, List.mem_cons_self, _, ?_, ?_, rfl⟩
      · cases headings with
        | nil => exact hbound heading List.mem_cons_self
        | cons next rest => exact (List.pairwise_cons.1 hsorted).1 next List.mem_cons_self
      · cases headings with
        | nil => exact le_rfl
        | cons next rest => exact (hbound next (by simp)).le
    · obtain ⟨h, hh, rest⟩ :=
        ih (List.pairwise_cons.1 hsorted).2 (fun h hh => hbound h (List.mem_cons_of_mem _ hh)) hs
      exact ⟨h, List.mem_cons_of_mem _ hh, rest⟩

/-- A section begins at each heading. -/
theorem exists_headingSection (hlen : lines.length < 2 ^ 32) {headings : List Heading}
    (hsorted : headings.Pairwise fun h h' => h.lineIdx < h'.lineIdx)
    (hbound : ∀ h ∈ headings, h.lineIdx < lines.length) {h : Heading} (hh : h ∈ headings) :
    ∃ s ∈ headingSections sha256 filePath lines headings, s.lineSpan.1 = h.lineIdx + 1 := by
  induction headings with
  | nil => exact absurd hh List.not_mem_nil
  | cons heading headings ih =>
    rcases List.mem_cons.1 hh with rfl | hh
    · refine ⟨_, List.mem_cons_self, ?_⟩
      cases headings with
      | nil =>
        have hlast := hbound h List.mem_cons_self
        exact congrArg Prod.fst (headingSection_lineSpan sha256 filePath lines hlast hlen)
      | cons next rest =>
        have hnext := (List.pairwise_cons.1 hsorted).1 next List.mem_cons_self
        have hin := hbound next (by simp)
        exact congrArg Prod.fst (headingSection_lineSpan sha256 filePath lines hnext (by omega))
    · obtain ⟨s, hs, hstart⟩ := ih (List.pairwise_cons.1 hsorted).2
        (fun h hh => hbound h (List.mem_cons_of_mem _ hh)) hh
      exact ⟨s, List.mem_cons_of_mem _ hs, hstart⟩

end

/-- The heading that a section begins with. -/
theorem find_heading {headings : List Heading}
    (hsorted : headings.Pairwise fun h h' => h.lineIdx < h'.lineIdx) {h : Heading}
    (hh : h ∈ headings) : (headings.find? fun h' => h'.lineIdx + 1 = h.lineIdx + 1) = some h := by
  induction headings with
  | nil => exact absurd hh List.not_mem_nil
  | cons heading headings ih =>
    rcases List.mem_cons.1 hh with rfl | hh
    · simp
    · have hlt := (List.pairwise_cons.1 hsorted).1 h hh
      rw [List.find?_cons_of_neg (by simp; omega)]
      exact ih (List.pairwise_cons.1 hsorted).2 hh

theorem sectionLines_heading {lines : List (List Char)} {headings : List Heading}
    (hsorted : headings.Pairwise fun h h' => h.lineIdx < h'.lineIdx) {h : Heading}
    (hh : h ∈ headings) (endIdx : ℕ) :
    sectionLines lines headings (h.lineIdx + 1, endIdx) =
      h.text :: (lines.take endIdx).drop (h.lineIdx + 1) := by
  simp only [sectionLines, find_heading hsorted hh, spanLines, Nat.add_sub_cancel, List.tail_drop]

/-- No heading begins the preamble. -/
theorem sectionLines_preamble {lines : List (List Char)} {headings : List Heading} {first : ℕ}
    (hfirst : 0 < first) (hle : ∀ h ∈ headings, first ≤ h.lineIdx) :
    sectionLines lines headings (1, first) = lines.take first := by
  have hnone : (headings.find? fun h => h.lineIdx + 1 = 1) = none := by
    rw [List.find?_eq_none]
    intro h hh
    have := hle h hh
    simp
    omega
  simp only [sectionLines, hnone, spanLines, Nat.sub_self, List.drop_zero]

theorem preamble_lineSpan (sha256 : List UInt8 → List UInt8) (filePath name idKey text : List Char)
    {first : ℕ} (hpos : 0 < first) (hfirst : first < 2 ^ 32) :
    (buildSection sha256 filePath name idKey text 1 (toU32 first)).lineSpan = (1, first) := by
  rw [buildSection, buildSymbol_lineSpan, toNat_toU32 hfirst, UInt32.toNat_one]
  simp only [Prod.mk.injEq]
  omega

theorem extract_symbols (sha256 : List UInt8 → List UInt8) (filePath : List Char)
    {source : List Char} {heading : Heading} {headings : List Heading}
    (hscan : scanHeadings (Text.lines source) = heading :: headings) :
    (extract sha256 filePath source).symbols =
      preamble sha256 filePath (Text.lines source) heading.lineIdx ++
        headingSections sha256 filePath (Text.lines source) (heading :: headings) := by
  rw [extract, hscan]

/-- The preamble, if there is one, is before the first heading. -/
theorem preamble_tiles (sha256 : List UInt8 → List UInt8) (filePath : List Char)
    (lines : List (List Char)) {first : ℕ} (hfirst : first < 2 ^ 32) :
    Tiles (firstLine lines first) first
      ((preamble sha256 filePath lines first).map Symbol.lineSpan) := by
  rw [firstLine, preamble]
  split_ifs with hcontent
  · rw [List.map_singleton, preamble_lineSpan _ _ _ _ _ hcontent.1 hfirst]
    exact ⟨rfl, hcontent.1, rfl⟩
  · rfl

theorem mem_preamble {sha256 : List UInt8 → List UInt8} {filePath : List Char}
    {lines : List (List Char)} {first : ℕ} {s : Symbol}
    (hs : s ∈ preamble sha256 filePath lines first) (hfirst : first < 2 ^ 32) :
    0 < first ∧ s.lineSpan = (1, first) ∧
      s.bodyExcerpt = some (String.ofList (truncateText (Text.join ['\n'] (lines.take first)))) := by
  rw [preamble] at hs
  split_ifs at hs with hcontent
  · obtain rfl := List.mem_singleton.1 hs
    exact ⟨hcontent.1, preamble_lineSpan _ _ _ _ _ hcontent.1 hfirst, rfl⟩
  · exact absurd hs List.not_mem_nil

/-- **The sections partition the file** as long as the line numbers fit. -/
theorem partition_of_length_lt (sha256 : List UInt8 → List UInt8) (filePath source : List Char)
    (hlen : (Text.lines source).length < 2 ^ 32) : SectionsPartition sha256 filePath source := by
  intro heading headings hscan
  have hsorted := scanHeadings_sorted (Text.lines source)
  have hbound : ∀ h ∈ heading :: headings, h.lineIdx < (Text.lines source).length := by
    intro h hh
    have := (mem_scanFrom (hscan ▸ hh : h ∈ scanHeadings (Text.lines source))).2
    omega
  rw [hscan] at hsorted
  rw [extract_symbols _ _ hscan]
  generalize Text.lines source = lines at *
  have hfirst : heading.lineIdx < 2 ^ 32 := (hbound heading List.mem_cons_self).trans hlen
  refine ⟨?_, fun h hh => ?_, fun s hs => ?_⟩
  · rw [List.map_append]
    exact (preamble_tiles sha256 filePath lines hfirst).append
      (headingSections_tiles sha256 filePath lines hlen hsorted hbound)
  · obtain ⟨s, hs, hstart⟩ :=
      exists_headingSection sha256 filePath lines hlen hsorted hbound hh
    exact ⟨s, List.mem_append_right _ hs, hstart⟩
  · rcases List.mem_append.1 hs with hs | hs
    · obtain ⟨hpos, hspan, htext⟩ := mem_preamble hs hfirst
      have hle : ∀ h ∈ heading :: headings, heading.lineIdx ≤ h.lineIdx := by
        intro h hh
        rcases List.mem_cons.1 hh with rfl | hh
        · exact le_rfl
        · exact ((List.pairwise_cons.1 hsorted).1 h hh).le
      rw [hspan, sectionLines_preamble hpos hle, htext]
    · obtain ⟨h, hh, endIdx, hstart, hend, rfl⟩ :=
        mem_headingSections sha256 filePath lines hsorted hbound hs
      rw [headingSection_lineSpan _ _ _ hstart (by omega), sectionLines_heading hsorted hh,
        headingSection_text _ _ _ hstart]

/-- A line number has 32 bits. -/
theorem length_lt_of_partition {sha256 : List UInt8 → List UInt8} {filePath source : List Char}
    (h : SectionsPartition sha256 filePath source)
    (hne : scanHeadings (Text.lines source) ≠ []) : (Text.lines source).length < 2 ^ 32 := by
  obtain ⟨heading, headings, hscan⟩ := List.exists_cons_of_ne_nil hne
  have hspans : (extract sha256 filePath source).symbols.map Symbol.lineSpan ≠ [] := by
    rw [extract_symbols _ _ hscan]
    simp [headingSections]
  obtain ⟨span, hspan, hlast⟩ := (h heading headings hscan).tiles.last hspans
  obtain ⟨s, -, rfl⟩ := List.mem_map.1 hspan
  rw [← hlast]
  exact s.lineEnd.toNat_lt

/-- **Where the sections partition the file**: exactly when there is no heading, or fewer than
    `2 ^ 32` lines. -/
theorem sectionsPartition_iff (sha256 : List UInt8 → List UInt8) (filePath source : List Char) :
    SectionsPartition sha256 filePath source ↔
      scanHeadings (Text.lines source) = [] ∨ (Text.lines source).length < 2 ^ 32 := by
  constructor
  · intro h
    by_cases hnil : scanHeadings (Text.lines source) = []
    · exact .inl hnil
    · exact .inr (length_lt_of_partition h hnil)
  · rintro (hnil | hlen)
    · intro heading headings hscan
      rw [hnil] at hscan
      cases hscan
    · exact partition_of_length_lt sha256 filePath source hlen

/-- A heading and `n` empty lines. -/
def longFile (n : ℕ) : List Char := '#' :: '\n' :: List.replicate n '\n'

theorem lines_longFile (n : ℕ) : Text.lines (longFile n) = ['#'] :: List.replicate n [] := by
  have hsplit : Text.splitOn '\n' (List.replicate n '\n') = List.replicate (n + 1) [] := by
    induction n with
    | zero => rfl
    | succ n ih =>
      rw [List.replicate_succ, Text.splitOn, ih, List.replicate_succ]
      rfl
  have hparts : Text.splitOn '\n' (longFile n) = (['#'] :: List.replicate n []) ++ [[]] := by
    rw [List.cons_append, ← List.replicate_succ']
    rw [longFile, Text.splitOn, Text.splitOn, hsplit, List.replicate_succ]
    rfl
  rw [Text.lines, hparts, List.dropLast_concat, List.getLast?_concat]
  simp

/-- The sections of every text with a heading partition it. -/
def AlwaysPartition : Prop :=
  ∀ (sha256 : List UInt8 → List UInt8) (filePath source : List Char),
    SectionsPartition sha256 filePath source

/-- The last line of a file of `2 ^ 32` lines has no number. -/
theorem not_alwaysPartition : ¬ AlwaysPartition := by
  intro h
  have hlines := lines_longFile (2 ^ 32 - 1)
  have hne : scanHeadings (Text.lines (longFile (2 ^ 32 - 1))) ≠ [] := by
    rw [hlines, scanHeadings, scanFrom]
    exact List.append_ne_nil_of_left_ne_nil (by decide) _
  have hlt := length_lt_of_partition (h (fun _ => []) [] (longFile (2 ^ 32 - 1))) hne
  rw [hlines, List.length_cons, List.length_replicate] at hlt
  omega

end Markdown

end Artifact

end Cognis
