/-
  The walker over block YAML (`parser/artifact/yaml.rs`): the leaves of a document, each with
  its dotted path, its scalar and its lines.

  The lines from `*i` on are passed along with their numbers. The mutual recursion is bounded
  by fuel.
-/
import Cognis.Indexer.Artifact

namespace Cognis

open Text

namespace Artifact

namespace Yaml

/-! ## Leaves and scalars -/

/-- `Leaf` -/
structure Leaf where
  path : List Char
  value : List Char
  lineStart : UInt32
  lineEnd : UInt32
  deriving DecidableEq, Repr

/-- `str::trim_start` -/
def trimStart (text : List Char) : List Char := text.dropWhile isWhitespace

/-- `str::trim_end` -/
def trimEnd (text : List Char) : List Char := text.rdropWhile isWhitespace

/-- `join_key` -/
def joinKey (pre key : List Char) : List Char := if pre = [] then key else pre ++ '.' :: key

/-- `{prefix}[{index}]` -/
def elemPath (pre : List Char) (index : ℕ) : List Char := pre ++ '[' :: Nat.toDigits 10 index ++ [']']

/-- `unquote`: one layer of the same quotes at both ends. -/
def unquote (text : List Char) : List Char :=
  let t := trim text
  if 2 ≤ t.length ∧ (t.head? = some '"' ∧ t.getLast? = some '"' ∨
      t.head? = some '\'' ∧ t.getLast? = some '\'') then
    (t.drop 1).dropLast
  else t

/-- The tokens of a null. -/
def nullTokens : List (List Char) :=
  [[], "~".toList, "null".toList, "Null".toList, "NULL".toList]

/-- `scalar_value` -/
def scalarValue (valuePart : List Char) : List Char :=
  let t := trim valuePart
  if t ∈ nullTokens then [] else unquote t

/-- A quote is open: the single one, the double one. -/
structure Quoting where
  single : Bool := false
  double : Bool := false
  deriving DecidableEq, Repr

/-- No quote is open. -/
def Quoting.outside (q : Quoting) : Bool := !q.single && !q.double

/-- The quotes after a character. -/
def Quoting.after (q : Quoting) (c : Char) : Quoting :=
  if c = '\'' ∧ q.double = false then { q with single := !q.single }
  else if c = '"' ∧ q.single = false then { q with double := !q.double }
  else q

/-! ## Lines -/

/-- `leading_indent` -/
def leadingIndent (line : List Char) : ℕ := (line.takeWhile fun c => c = ' ' || c = '\t').length

/-- `strip_yaml_comment`, with the open quotes and `prev_ws`. -/
def stripYamlComment (q : Quoting) (prevWs : Bool) : List Char → List Char
  | [] => []
  | c :: cs =>
    if q.after c ≠ q then c :: stripYamlComment (q.after c) false cs
    else if c = '#' ∧ q.outside ∧ prevWs then []
    else c :: stripYamlComment q (c = ' ' || c = '\t') cs

/-- `yaml_significant` -/
def yamlSignificant (line : List Char) : Option (List Char) :=
  let trimmed := (stripYamlComment {} true line).rdropWhile fun c => c = '\r' || c = ' ' || c = '\t'
  let body := trimStart trimmed
  if body = [] ∨ body = "---".toList ∨ body = "...".toList then none else some trimmed

/-- The lines that are still to be read, with their numbers. -/
abbrev Lines := List (ℕ × List Char)

/-- A significant line: its number, its indentation and its text after that. -/
structure YamlLine where
  number : ℕ
  indent : ℕ
  entry : List Char
  deriving DecidableEq, Repr

/-- `next_yaml_significant`: the line, and the lines after it. -/
def nextYamlSignificant : Lines → Option (YamlLine × Lines)
  | [] => none
  | (number, line) :: rest =>
    match yamlSignificant line with
    | some content => some (⟨number, leadingIndent line, trimStart content⟩, rest)
    | none => nextYamlSignificant rest

/-- `is_seq_item` -/
def isSeqItem (entry : List Char) : Bool :=
  entry = ['-'] || decide (['-', ' '] <+: entry) || decide (['-', '\t'] <+: entry)

/-- `find_kv_colon`: what comes before the colon, and after it. -/
def findKvColon (q : Quoting) : List Char → Option (List Char × List Char)
  | [] => none
  | c :: cs =>
    if c = ':' ∧ q.outside ∧ (cs = [] ∨ cs.head? = some ' ' ∨ cs.head? = some '\t') then some ([], cs)
    else (findKvColon (q.after c) cs).map fun (before, rest) => (c :: before, rest)

/-- A quoted key: the key, and the text after the closing quote. -/
def quotedKey : List Char → Option (List Char × List Char)
  | [] => none
  | q :: cs =>
    if (q = '"' ∨ q = '\'') ∧ q ∈ cs then
      some (cs.takeWhile (· ≠ q), (cs.dropWhile (· ≠ q)).drop 1)
    else none

/-- `split_kv` -/
def splitKv (entry : List Char) : Option (List Char × List Char) :=
  match quotedKey entry with
  | some (key, rest) =>
    let rest := trimStart rest
    some (key, trimStart (if rest.head? = some ':' then rest.drop 1 else rest))
  | none =>
    match findKvColon {} entry with
    | some (key, value) => some (trim key, trimStart value)
    | none => if entry.getLast? = some ':' then some (trim entry.dropLast, []) else none

/-- `is_block_scalar` -/
def isBlockScalar (valuePart : List Char) : Bool :=
  match trim valuePart with
  | [] => false
  | c :: cs => (c = '|' || c = '>') && cs.all fun c => c = '+' || c = '-' || c.isDigit

/-! ## The walker -/

/-- The loop of `consume_block_scalar`: the lines collected, the last line with content, and
    what is left. -/
def collectBlock (keyIndent : ℕ) (endLine : UInt32) : Lines → List (List Char) × UInt32 × Lines
  | [] => ([], endLine, [])
  | (number, raw) :: rest =>
    let noCr := raw.rdropWhile (· = '\r')
    if trim noCr = [] then
      let (collected, endLine, left) := collectBlock keyIndent endLine rest
      ([] :: collected, endLine, left)
    else if leadingIndent noCr ≤ keyIndent then ([], endLine, (number, raw) :: rest)
    else
      let (collected, endLine, left) := collectBlock keyIndent (toU32 number) rest
      (trimStart noCr :: collected, endLine, left)

/-- `consume_block_scalar` -/
def consumeBlockScalar (lines : Lines) (keyIndent : ℕ) (keyLine : UInt32) :
    List Char × UInt32 × Lines :=
  let (collected, endLine, left) := collectBlock keyIndent keyLine lines
  (join ['\n'] (collected.rdropWhile (· = [])), endLine, left)

/-- The bytes of a text. -/
def byteLength (text : List Char) : ℕ := (text.map Char.utf8Size).sum

/-- The text after the dash of a sequence item. -/
def afterDash (entry : List Char) : List Char := trimStart (entry.drop 1)

/-- The column where the text after the dash begins. -/
def keyColumn (indent : ℕ) (entry : List Char) : ℕ :=
  indent + 1 + (byteLength entry - 1 - byteLength (afterDash entry))

/-- `is_inline_mapping` -/
def isInlineMapping (afterDash : List Char) : Bool := (splitKv afterDash).isSome

/-- A leaf on one line. -/
def lineLeaf (path value : List Char) (number : ℕ) : Leaf := ⟨path, value, toU32 number, toU32 number⟩

/-- The leaves that a walk has found, and the lines that it leaves; `none` without fuel. -/
abbrev Walk := Option (List Leaf × Lines)

mutual

/-- `parse_yaml_mapping` -/
def parseYamlMapping (fuel indent : ℕ) (pre : List Char) (lines : Lines) : Walk :=
  match fuel with
  | 0 => none
  | fuel + 1 =>
    match nextYamlSignificant lines with
    | none => some ([], [])
    | some (line, rest) =>
      if line.indent ≠ indent ∨ isSeqItem line.entry then some ([], lines)
      else do
        let (leaves, rest) ← parseYamlEntry fuel indent pre line.entry line.number rest
        let (more, rest) ← parseYamlMapping fuel indent pre rest
        return (leaves ++ more, rest)
termination_by structural fuel

/-- `parse_yaml_entry` -/
def parseYamlEntry (fuel indent : ℕ) (pre entry : List Char) (number : ℕ) (lines : Lines) : Walk :=
  match fuel with
  | 0 => none
  | fuel + 1 =>
    match splitKv entry with
    | none => some ([], lines)
    | some (key, valuePart) =>
      let path := joinKey pre (unquote key)
      if isBlockScalar valuePart then
        let (value, endLine, rest) := consumeBlockScalar lines indent (toU32 number)
        some ([⟨path, value, toU32 number, endLine⟩], rest)
      else if trim valuePart = [] then parseYamlChild fuel indent path number lines
      else some ([lineLeaf path (scalarValue valuePart) number], lines)
termination_by structural fuel

/-- The block below a key or a dash without a value, or a leaf without one. -/
def parseYamlChild (fuel indent : ℕ) (path : List Char) (number : ℕ) (lines : Lines) : Walk :=
  match fuel with
  | 0 => none
  | fuel + 1 =>
    match nextYamlSignificant lines with
    | none => some ([lineLeaf path [] number], lines)
    | some (child, _) =>
      if child.indent ≤ indent then some ([lineLeaf path [] number], lines)
      else if isSeqItem child.entry then parseYamlSequence fuel child.indent path 0 lines
      else parseYamlMapping fuel child.indent path lines
termination_by structural fuel

/-- `parse_yaml_sequence` -/
def parseYamlSequence (fuel indent : ℕ) (pre : List Char) (index : ℕ) (lines : Lines) : Walk :=
  match fuel with
  | 0 => none
  | fuel + 1 =>
    match nextYamlSignificant lines with
    | none => some ([], [])
    | some (line, rest) =>
      if line.indent ≠ indent ∨ !isSeqItem line.entry then some ([], lines)
      else do
        let (leaves, rest) ← parseYamlItem fuel indent (elemPath pre index) line rest
        let (more, rest) ← parseYamlSequence fuel indent pre (index + 1) rest
        return (leaves ++ more, rest)
termination_by structural fuel

/-- One turn of the loop of `parse_yaml_sequence`, on the line of an item. -/
def parseYamlItem (fuel indent : ℕ) (path : List Char) (line : YamlLine) (rest : Lines) : Walk :=
  match fuel with
  | 0 => none
  | fuel + 1 =>
    if afterDash line.entry = [] then parseYamlChild fuel indent path line.number rest
    else if isInlineMapping (afterDash line.entry) then do
      let column := keyColumn indent line.entry
      let (leaves, rest) ← parseYamlEntry fuel column path (afterDash line.entry) line.number rest
      let (more, rest) ← parseYamlMapping fuel column path rest
      return (leaves ++ more, rest)
    else some ([lineLeaf path (scalarValue (afterDash line.entry)) line.number], rest)
termination_by structural fuel

end

/-- `parse_yaml_block` -/
def parseYamlBlock (fuel indent : ℕ) (pre : List Char) (lines : Lines) : Walk :=
  match nextYamlSignificant lines with
  | none => some ([], [])
  | some (line, _) =>
    if line.indent ≠ indent then some ([], lines)
    else if isSeqItem line.entry then parseYamlSequence fuel indent pre 0 lines
    else parseYamlMapping fuel indent pre lines

/-- The lines of a text, numbered from `1`. -/
def numbered (source : List Char) : Lines := (splitOn '\n' source).zipIdx 1 |>.map Prod.swap

/-- More calls than a walk over the lines can be deep. -/
def walkFuel (lines : Lines) : ℕ := 4 * lines.length + 4

/-- `parse_yaml` -/
def parseYaml (source : List Char) : List Leaf :=
  let lines := numbered source
  match nextYamlSignificant lines with
  | none => []
  | some (first, _) => ((parseYamlBlock (walkFuel lines) first.indent [] lines).getD ([], [])).1

/-! ## What the walker finds -/

/-- The line of this number is not empty. -/
def NonEmpty (all : Lines) (number : ℕ) : Prop := ∃ line, (number, line) ∈ all ∧ line ≠ []

/-- A leaf begins and ends on lines that are not empty. -/
def Leaf.OnLines (all : Lines) (leaf : Leaf) : Prop :=
  ∃ m n, NonEmpty all m ∧ NonEmpty all n ∧ leaf.lineStart = toU32 m ∧ leaf.lineEnd = toU32 n

theorem yamlSignificant_nil : yamlSignificant [] = none := rfl

/-- The significant line is one of the lines, and the others come after it. -/
theorem nextYamlSignificant_spec {lines rest : Lines} {line : YamlLine}
    (h : nextYamlSignificant lines = some (line, rest)) :
    rest <:+ lines ∧ rest.length < lines.length ∧ NonEmpty lines line.number := by
  fun_induction nextYamlSignificant lines with
  | case1 => cases h
  | case2 number raw rest' content hcontent =>
    obtain ⟨rfl, rfl⟩ := Prod.mk.inj (Option.some_inj.1 h)
    refine ⟨List.suffix_cons _ _, Nat.lt_succ_self _, raw, List.mem_cons_self, ?_⟩
    rintro rfl
    rw [yamlSignificant_nil] at hcontent
    cases hcontent
  | case3 number raw rest' _ ih =>
    obtain ⟨hsuffix, hlength, line, hline, hne⟩ := ih h
    exact ⟨hsuffix.trans (List.suffix_cons _ _), Nat.lt_succ_of_lt hlength, line,
      List.mem_cons_of_mem _ hline, hne⟩

section

variable {all : Lines}

theorem NonEmpty.of_suffix {lines : Lines} {number : ℕ} (h : NonEmpty lines number)
    (hsuffix : lines <:+ all) : NonEmpty all number := by
  obtain ⟨line, hline, hne⟩ := h
  exact ⟨line, hsuffix.subset hline, hne⟩

theorem lineLeaf_onLines {number : ℕ} (h : NonEmpty all number) (path value : List Char) :
    (lineLeaf path value number).OnLines all := ⟨number, number, h, h, rfl, rfl⟩

/-- A block scalar ends on its key's line or on a line of its own. -/
theorem collectBlock_spec (keyIndent : ℕ) (endLine : UInt32) {lines : Lines}
    (hsuffix : lines <:+ all) (hend : ∃ n, NonEmpty all n ∧ endLine = toU32 n) :
    (collectBlock keyIndent endLine lines).2.2 <:+ lines ∧
      ∃ n, NonEmpty all n ∧ (collectBlock keyIndent endLine lines).2.1 = toU32 n := by
  fun_induction collectBlock keyIndent endLine lines with
  | case1 => exact ⟨List.suffix_rfl, hend⟩
  | case2 endLine number raw rest noCr hblank collected endLine' left heq ih =>
    obtain ⟨hleft, hn⟩ := ih ((List.suffix_cons _ _).trans hsuffix) hend
    rw [heq] at hleft hn
    exact ⟨hleft.trans (List.suffix_cons _ _), hn⟩
  | case3 => exact ⟨List.suffix_rfl, hend⟩
  | case4 endLine number raw rest noCr hblank hindent collected endLine' left heq ih =>
    have hne : raw ≠ [] := by
      rintro rfl
      exact hblank rfl
    obtain ⟨hleft, hn⟩ := ih ((List.suffix_cons _ _).trans hsuffix)
      ⟨number, ⟨raw, hsuffix.subset List.mem_cons_self, hne⟩, rfl⟩
    rw [heq] at hleft hn
    exact ⟨hleft.trans (List.suffix_cons _ _), hn⟩

/-- The walk has fuel enough: it leaves some of the lines, and its leaves are on lines that are
    not empty. -/
def Finishes (all lines : Lines) (walk : Walk) : Prop :=
  ∃ leaves rest, walk = some (leaves, rest) ∧ rest <:+ lines ∧ ∀ leaf ∈ leaves, leaf.OnLines all

theorem finishes_stop {lines rest : Lines} (hrest : rest <:+ lines) :
    Finishes all lines (some ([], rest)) := ⟨[], rest, rfl, hrest, fun _ h => absurd h List.not_mem_nil⟩

theorem finishes_leaf {lines rest : Lines} {leaf : Leaf} (hrest : rest <:+ lines)
    (hleaf : leaf.OnLines all) : Finishes all lines (some ([leaf], rest)) :=
  ⟨[leaf], rest, rfl, hrest, List.forall_mem_singleton.2 hleaf⟩

/-- One walk, then another one over the lines that it leaves. -/
theorem Finishes.andThen {lines : Lines} {walk : Walk} {next : Lines → Walk}
    (hwalk : Finishes all lines walk)
    (hnext : ∀ rest, rest <:+ lines → Finishes all rest (next rest)) :
    Finishes all lines (do
      let (leaves, rest) ← walk
      let (more, rest) ← next rest
      return (leaves ++ more, rest)) := by
  obtain ⟨leaves, rest, rfl, hrest, hleaves⟩ := hwalk
  obtain ⟨more, rest', heq, hrest', hmore⟩ := hnext rest hrest
  refine ⟨leaves ++ more, rest', ?_, hrest'.trans hrest, List.forall_mem_append.2 ⟨hleaves, hmore⟩⟩
  simp only [Option.bind_eq_bind, Option.bind_some, heq]
  rfl

theorem Finishes.mono {lines lines' : Lines} {walk : Walk} (h : Finishes all lines walk)
    (hsuffix : lines <:+ lines') : Finishes all lines' walk := by
  obtain ⟨leaves, rest, heq, hrest, hleaves⟩ := h
  exact ⟨leaves, rest, heq, hrest.trans hsuffix, hleaves⟩

/-- What fuel is enough for, by the number of the lines. -/
structure Fueled (all : Lines) (fuel : ℕ) : Prop where
  mapping : ∀ indent pre lines, lines <:+ all → 4 * lines.length + 1 ≤ fuel →
    Finishes all lines (parseYamlMapping fuel indent pre lines)
  entry : ∀ indent pre entry number lines, lines <:+ all → NonEmpty all number →
    4 * lines.length + 3 ≤ fuel → Finishes all lines (parseYamlEntry fuel indent pre entry number lines)
  child : ∀ indent path number lines, lines <:+ all → NonEmpty all number →
    4 * lines.length + 2 ≤ fuel → Finishes all lines (parseYamlChild fuel indent path number lines)
  sequence : ∀ indent pre index lines, lines <:+ all → 4 * lines.length + 1 ≤ fuel →
    Finishes all lines (parseYamlSequence fuel indent pre index lines)
  item : ∀ indent path line rest, rest <:+ all → NonEmpty all line.number →
    4 * rest.length + 4 ≤ fuel → Finishes all rest (parseYamlItem fuel indent path line rest)

section

variable {fuel : ℕ} (h : Fueled all fuel)
include h

theorem mapping_finishes (indent : ℕ) (pre : List Char) {lines : Lines} (hlines : lines <:+ all)
    (hfuel : 4 * lines.length + 1 ≤ fuel + 1) :
    Finishes all lines (parseYamlMapping (fuel + 1) indent pre lines) := by
  rw [parseYamlMapping]
  cases hnext : nextYamlSignificant lines with
  | none => exact finishes_stop (List.nil_suffix)
  | some found =>
    obtain ⟨line, rest⟩ := found
    obtain ⟨hrest, hlength, hnumber⟩ := nextYamlSignificant_spec hnext
    simp only
    split_ifs
    · exact finishes_stop List.suffix_rfl
    · have hentry := h.entry indent pre line.entry line.number rest (hrest.trans hlines)
        (hnumber.of_suffix hlines) (by omega)
      refine (hentry.andThen fun left hleft => ?_).mono hrest
      have hle := hleft.length_le
      exact h.mapping indent pre left (hleft.trans (hrest.trans hlines)) (by omega)

theorem sequence_finishes (indent : ℕ) (pre : List Char) (index : ℕ) {lines : Lines}
    (hlines : lines <:+ all) (hfuel : 4 * lines.length + 1 ≤ fuel + 1) :
    Finishes all lines (parseYamlSequence (fuel + 1) indent pre index lines) := by
  rw [parseYamlSequence]
  cases hnext : nextYamlSignificant lines with
  | none => exact finishes_stop (List.nil_suffix)
  | some found =>
    obtain ⟨line, rest⟩ := found
    obtain ⟨hrest, hlength, hnumber⟩ := nextYamlSignificant_spec hnext
    simp only
    split_ifs
    · exact finishes_stop List.suffix_rfl
    · have hitem := h.item indent (elemPath pre index) line rest (hrest.trans hlines)
        (hnumber.of_suffix hlines) (by omega)
      refine (hitem.andThen fun left hleft => ?_).mono hrest
      have hle := hleft.length_le
      exact h.sequence indent pre (index + 1) left (hleft.trans (hrest.trans hlines)) (by omega)

theorem child_finishes (indent : ℕ) (path : List Char) {number : ℕ} {lines : Lines}
    (hlines : lines <:+ all) (hnumber : NonEmpty all number)
    (hfuel : 4 * lines.length + 2 ≤ fuel + 1) :
    Finishes all lines (parseYamlChild (fuel + 1) indent path number lines) := by
  have hleaf := finishes_leaf (List.suffix_refl lines) (lineLeaf_onLines hnumber path [])
  rw [parseYamlChild]
  cases nextYamlSignificant lines with
  | none => exact hleaf
  | some found =>
    simp only
    split_ifs
    · exact hleaf
    · exact h.sequence _ path 0 lines hlines (by omega)
    · exact h.mapping _ path lines hlines (by omega)

theorem entry_finishes (indent : ℕ) (pre entry : List Char) {number : ℕ} {lines : Lines}
    (hlines : lines <:+ all) (hnumber : NonEmpty all number)
    (hfuel : 4 * lines.length + 3 ≤ fuel + 1) :
    Finishes all lines (parseYamlEntry (fuel + 1) indent pre entry number lines) := by
  rw [parseYamlEntry]
  cases splitKv entry with
  | none => exact finishes_stop List.suffix_rfl
  | some kv =>
    obtain ⟨key, valuePart⟩ := kv
    simp only
    split_ifs
    · obtain ⟨hleft, n, hn, hend⟩ :=
        collectBlock_spec indent (toU32 number) hlines ⟨number, hnumber, rfl⟩
      exact finishes_leaf hleft ⟨number, n, hnumber, hn, rfl, hend⟩
    · exact h.child indent _ number lines hlines hnumber (by omega)
    · exact finishes_leaf List.suffix_rfl (lineLeaf_onLines hnumber _ _)

theorem item_finishes (indent : ℕ) (path : List Char) {line : YamlLine} {rest : Lines}
    (hrest : rest <:+ all) (hnumber : NonEmpty all line.number)
    (hfuel : 4 * rest.length + 4 ≤ fuel + 1) :
    Finishes all rest (parseYamlItem (fuel + 1) indent path line rest) := by
  rw [parseYamlItem]
  split_ifs
  · exact h.child indent path line.number rest hrest hnumber (by omega)
  · have hentry := h.entry (keyColumn indent line.entry) path (afterDash line.entry) line.number rest
      hrest hnumber (by omega)
    refine hentry.andThen fun left hleft => ?_
    have hle := hleft.length_le
    exact h.mapping _ path left (hleft.trans hrest) (by omega)
  · exact finishes_leaf List.suffix_rfl (lineLeaf_onLines hnumber _ _)

end

/-- A call takes one of the fuel, and a line takes four. -/
theorem fueled (all : Lines) (fuel : ℕ) : Fueled all fuel := by
  induction fuel with
  | zero =>
    constructor
    all_goals intros; omega
  | succ fuel ih =>
    constructor
    · intro indent pre lines hlines hfuel
      exact mapping_finishes ih indent pre hlines hfuel
    · intro indent pre entry number lines hlines hnumber hfuel
      exact entry_finishes ih indent pre entry hlines hnumber hfuel
    · intro indent path number lines hlines hnumber hfuel
      exact child_finishes ih indent path hlines hnumber hfuel
    · intro indent pre index lines hlines hfuel
      exact sequence_finishes ih indent pre index hlines hfuel
    · intro indent path line rest hrest hnumber hfuel
      exact item_finishes ih indent path hrest hnumber hfuel

end

/-- **The walk finishes**, and each leaf is on lines of the text that are not empty. -/
theorem parseYamlBlock_finishes (indent : ℕ) (pre : List Char) (lines : Lines) :
    Finishes lines lines (parseYamlBlock (walkFuel lines) indent pre lines) := by
  have hfueled := fueled lines (walkFuel lines)
  rw [parseYamlBlock]
  cases nextYamlSignificant lines with
  | none => exact finishes_stop (List.nil_suffix)
  | some found =>
    simp only
    split_ifs
    · exact finishes_stop List.suffix_rfl
    · exact hfueled.sequence indent pre 0 lines List.suffix_rfl (by rw [walkFuel]; omega)
    · exact hfueled.mapping indent pre lines List.suffix_rfl (by rw [walkFuel]; omega)

theorem parseYaml_onLines (source : List Char) :
    ∀ leaf ∈ parseYaml source, leaf.OnLines (numbered source) := by
  intro leaf hleaf
  simp only [parseYaml] at hleaf
  split at hleaf
  · exact absurd hleaf List.not_mem_nil
  · next first rest hnext =>
    obtain ⟨leaves, left, hwalk, -, hleaves⟩ :=
      parseYamlBlock_finishes first.indent [] (numbered source)
    rw [hwalk] at hleaf
    exact hleaves leaf hleaf

end Yaml

end Artifact

end Cognis
