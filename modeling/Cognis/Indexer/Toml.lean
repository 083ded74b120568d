/-
  The walker over TOML, and the symbols of the leaves of both formats
  (`parser/artifact/yaml.rs`).
-/
import Cognis.Indexer.Yaml
import Mathlib.Logic.Function.Basic

namespace Cognis

open Text

namespace Artifact

namespace Yaml

/-! ## Values -/

/-- `strip_prefix(opening)`, then `strip_suffix(close)` -/
def stripAround (opening close text : List Char) : Option (List Char) :=
  let inner := text.drop opening.length
  if opening <+: text ∧ close <:+ inner then some (inner.take (inner.length - close.length)) else none

/-- `strip_toml_comment` -/
def stripTomlComment (q : Quoting) : List Char → List Char
  | [] => []
  | c :: cs =>
    if c = '#' ∧ q.outside then [] else c :: stripTomlComment (q.after c) cs

/-- `find_toml_eq`: what comes before the sign, and after it. -/
def findTomlEq (q : Quoting) : List Char → Option (List Char × List Char)
  | [] => none
  | c :: cs =>
    if c = '=' ∧ q.outside then some ([], cs)
    else (findTomlEq (q.after c) cs).map fun (before, rest) => (c :: before, rest)

/-- `count_occurrences`; the next `skip` characters belong to the last one. -/
def countOccurrences (needle : List Char) : ℕ → List Char → ℕ
  | _, [] => 0
  | skip + 1, _ :: cs => countOccurrences needle skip cs
  | 0, c :: cs =>
    if needle <+: c :: cs then 1 + countOccurrences needle (needle.length - 1) cs
    else countOccurrences needle 0 cs

def tripleDouble : List Char := ['"', '"', '"']

def tripleSingle : List Char := ['\'', '\'', '\'']

/-- The open brackets and braces, and the open quotes. -/
structure Nesting where
  bracket : Int32 := 0
  brace : Int32 := 0
  quoting : Quoting := {}
  deriving DecidableEq

/-- The nesting after a character. -/
def Nesting.after (n : Nesting) (c : Char) : Nesting :=
  if n.quoting.after c ≠ n.quoting then { n with quoting := n.quoting.after c }
  else if n.quoting.outside then
    if c = '[' then { n with bracket := n.bracket + 1 }
    else if c = ']' then { n with bracket := n.bracket - 1 }
    else if c = '{' then { n with brace := n.brace + 1 }
    else if c = '}' then { n with brace := n.brace - 1 }
    else n
  else n

/-- `toml_value_complete` -/
def tomlValueComplete (text : List Char) : Bool :=
  if countOccurrences tripleDouble 0 text % 2 ≠ 0 ∨ countOccurrences tripleSingle 0 text % 2 ≠ 0 then
    false
  else
    let n := text.foldl Nesting.after {}
    n.bracket ≤ 0 ∧ n.brace ≤ 0 ∧ n.quoting.outside

/-- `collect_toml_value`: the value, and how many lines it goes on for. -/
def collectTomlValue (acc : List Char) : Lines → List Char × ℕ
  | [] => (trim acc, 0)
  | (_, line) :: rest =>
    if tomlValueComplete acc then (trim acc, 0)
    else
      let (value, more) :=
        collectTomlValue (acc ++ '\n' :: trimEnd (stripTomlComment {} line)) rest
      (value, more + 1)

/-- `toml_scalar` -/
def tomlScalar (text : List Char) : List Char :=
  let t := trim text
  if 6 ≤ t.length ∧ tripleDouble <+: t ∧ tripleDouble <:+ t then trim ((t.drop 3).take (t.length - 6))
  else if 6 ≤ t.length ∧ tripleSingle <+: t ∧ tripleSingle <:+ t then
    trim ((t.drop 3).take (t.length - 6))
  else unquote t

/-- The loop of `split_top_level`, with the element that is under way; one without text at
    the end is dropped. -/
def splitElements (depth : Int32) (q : Quoting) (cur : List Char) : List Char → List (List Char)
  | [] => if trim cur = [] then [] else [trim cur]
  | c :: cs =>
    if q.after c ≠ q then splitElements depth (q.after c) (cur ++ [c]) cs
    else if (c = '[' ∨ c = '{') ∧ q.outside then splitElements (depth + 1) q (cur ++ [c]) cs
    else if (c = ']' ∨ c = '}') ∧ q.outside then splitElements (depth - 1) q (cur ++ [c]) cs
    else if c = ',' ∧ depth = 0 ∧ q.outside then trim cur :: splitElements depth q [] cs
    else splitElements depth q (cur ++ [c]) cs

/-- `split_top_level` -/
def splitTopLevel (text : List Char) : List (List Char) :=
  (splitElements 0 {} [] text).filter (· ≠ [])

/-- The leaf of an entry of an inline table. -/
def inlineLeaf (path entry : List Char) (lineStart lineEnd : UInt32) : Option Leaf :=
  (findTomlEq {} entry).map fun (key, value) =>
    ⟨joinKey path (unquote (trim key)), tomlScalar (trim value), lineStart, lineEnd⟩

/-- `push_toml_value` -/
def tomlLeaves (path valueStr : List Char) (lineStart lineEnd : UInt32) : List Leaf :=
  let v := trim valueStr
  match stripAround ['['] [']'] v with
  | some inner =>
    let elems := splitTopLevel inner
    if elems = [] then [⟨path, [], lineStart, lineEnd⟩]
    else elems.mapIdx fun idx e => ⟨elemPath path idx, tomlScalar e, lineStart, lineEnd⟩
  | none =>
    match stripAround ['{'] ['}'] v with
    | some inner =>
      let entries := splitTopLevel inner
      if entries = [] then [⟨path, [], lineStart, lineEnd⟩]
      else entries.filterMap fun e => inlineLeaf path e lineStart lineEnd
    | none => [⟨path, tomlScalar v, lineStart, lineEnd⟩]

/-! ## The walker -/

/-- What a line of TOML is. -/
inductive TomlLine where
  | blank
  | arrayTable (name : List Char)
  | table (name : List Char)
  | assign (key firstPart : List Char)
  | other

/-- The branches of the loop of `parse_toml`. -/
def tomlLine (line : List Char) : TomlLine :=
  let trimmed := trim (stripTomlComment {} line)
  if trimmed = [] then .blank
  else
    match stripAround ['[', '['] [']', ']'] trimmed with
    | some inner => .arrayTable (trim inner)
    | none =>
      match stripAround ['['] [']'] trimmed with
      | some inner => .table (trim inner)
      | none =>
        match findTomlEq {} trimmed with
        | some (key, value) => .assign (unquote (trim key)) (trim value)
        | none => .other

/-- The loop of `parse_toml`: the current table, how often each array of tables has been
    opened, and how many lines the last value has taken already. -/
def parseTomlLines (table : List Char) (aot : List Char → ℕ) : ℕ → Lines → List Leaf
  | _, [] => []
  | skip + 1, _ :: rest => parseTomlLines table aot skip rest
  | 0, (number, line) :: rest =>
    match tomlLine line with
    | .arrayTable name =>
      parseTomlLines (elemPath name (aot name)) (Function.update aot name (aot name + 1)) 0 rest
    | .table name => parseTomlLines name aot 0 rest
    | .assign key firstPart =>
      let (value, more) := collectTomlValue firstPart rest
      tomlLeaves (joinKey table key) value (toU32 number) (toU32 (number + more)) ++
        parseTomlLines table aot more rest
    | _ => parseTomlLines table aot 0 rest

/-- `parse_toml` -/
def parseToml (source : List Char) : List Leaf := parseTomlLines [] (fun _ => 0) 0 (numbered source)

/-! ## The lines of the leaves -/

/-- A value with leaves takes the lines that follow, up to the last one. -/
def takesRest : ℕ → Lines → Bool
  | _, [] => false
  | skip + 1, _ :: rest => takesRest skip rest
  | 0, (_, line) :: rest =>
    match tomlLine line with
    | .assign _ firstPart =>
      let (value, more) := collectTomlValue firstPart rest
      (0 < more && more = rest.length && tomlLeaves [] value 0 0 ≠ []) || takesRest more rest
    | _ => takesRest 0 rest

/-- The lines are numbered up to `last`. -/
def NumberedTo (last : ℕ) : Lines → Prop
  | [] => True
  | (number, _) :: rest => number + rest.length = last ∧ NumberedTo last rest

theorem numbered_numberedTo (source : List Char) :
    NumberedTo (numbered source).length (numbered source) := by
  have hzip : ∀ (parts : List (List Char)) (first last : ℕ), last + 1 = first + parts.length →
      NumberedTo last ((parts.zipIdx first).map Prod.swap) := by
    intro parts
    induction parts with
    | nil =>
      intro first last _
      trivial
    | cons part parts ih =>
      intro first last hlast
      rw [List.length_cons] at hlast
      refine ⟨?_, ih (first + 1) last (by omega)⟩
      simp only [List.length_map, List.length_zipIdx]
      omega
  refine hzip _ 1 _ ?_
  simp only [numbered, List.length_map, List.length_zipIdx]
  omega

theorem collectTomlValue_le (acc : List Char) (rest : Lines) :
    (collectTomlValue acc rest).2 ≤ rest.length := by
  induction rest generalizing acc with
  | nil => exact le_rfl
  | cons line rest ih =>
    obtain ⟨number, line⟩ := line
    rw [collectTomlValue]
    split_ifs
    · exact Nat.zero_le _
    · exact Nat.succ_le_succ (ih _)

/-- The leaves of a value have its lines. -/
theorem tomlLeaves_lines {path value : List Char} {lineStart lineEnd : UInt32} {leaf : Leaf}
    (h : leaf ∈ tomlLeaves path value lineStart lineEnd) :
    leaf.lineStart = lineStart ∧ leaf.lineEnd = lineEnd := by
  simp only [tomlLeaves] at h
  split at h
  · split_ifs at h
    · obtain rfl := List.mem_singleton.1 h
      exact ⟨rfl, rfl⟩
    · obtain ⟨i, -, rfl⟩ := List.mem_mapIdx.1 h
      exact ⟨rfl, rfl⟩
  · split at h
    · split_ifs at h
      · obtain rfl := List.mem_singleton.1 h
        exact ⟨rfl, rfl⟩
      · obtain ⟨entry, -, hentry⟩ := List.mem_filterMap.1 h
        obtain ⟨kv, -, rfl⟩ := Option.map_eq_some_iff.1 hentry
        exact ⟨rfl, rfl⟩
    · obtain rfl := List.mem_singleton.1 h
      exact ⟨rfl, rfl⟩

/-- Whether a value has leaves is a matter of the value. -/
theorem tomlLeaves_eq_nil_iff (path path' value : List Char) (a b a' b' : UInt32) :
    tomlLeaves path value a b = [] ↔ tomlLeaves path' value a' b' = [] := by
  simp only [tomlLeaves]
  split
  · split_ifs with h <;> simp [h]
  · split
    · split_ifs <;> simp [inlineLeaf]
    · simp

theorem takesRest_of_ne_assign {number : ℕ} {line : List Char} {rest : Lines}
    (h : ∀ key firstPart, tomlLine line ≠ .assign key firstPart) :
    takesRest 0 ((number, line) :: rest) = takesRest 0 rest := by
  rw [takesRest]
  split
  · next key firstPart hline => exact absurd hline (h key firstPart)
  · rfl

theorem takesRest_assign {number : ℕ} {line : List Char} {rest : Lines} {key firstPart : List Char}
    (h : tomlLine line = .assign key firstPart) :
    takesRest 0 ((number, line) :: rest) =
      ((0 < (collectTomlValue firstPart rest).2 && (collectTomlValue firstPart rest).2 = rest.length &&
        tomlLeaves [] (collectTomlValue firstPart rest).1 0 0 ≠ []) ||
          takesRest (collectTomlValue firstPart rest).2 rest) := by
  simp only [takesRest, h]

section

variable {all : Lines}

/-- The last line that a leaf takes: one that is not empty, one before the last, or the last
    one of a value that takes the rest. -/
theorem mem_parseTomlLines {table : List Char} {aot : List Char → ℕ} {skip last : ℕ} {lines : Lines}
    (hsuffix : lines <:+ all) (hlast : NumberedTo last lines) {leaf : Leaf}
    (h : leaf ∈ parseTomlLines table aot skip lines) :
    (∃ m, NonEmpty all m ∧ leaf.lineStart = toU32 m) ∧
      ∃ n, leaf.lineEnd = toU32 n ∧ (NonEmpty all n ∨ n < last ∨ n = last ∧ takesRest skip lines = true) := by
  fun_induction parseTomlLines table aot skip lines with
  | case1 => exact absurd h List.not_mem_nil
  | case2 table aot skip line rest ih =>
    exact ih ((List.suffix_cons _ _).trans hsuffix) hlast.2 h
  | case3 table aot number line rest name hline ih =>
    rw [takesRest_of_ne_assign (by simp [hline])]
    exact ih ((List.suffix_cons _ _).trans hsuffix) hlast.2 h
  | case4 table aot number line rest name hline ih =>
    rw [takesRest_of_ne_assign (by simp [hline])]
    exact ih ((List.suffix_cons _ _).trans hsuffix) hlast.2 h
  | case5 table aot number line rest key firstPart hline value more hcollect ih =>
    rw [takesRest_assign hline, hcollect]
    rcases List.mem_append.1 h with h | h
    · have hnumber : NonEmpty all number := by
        refine ⟨line, hsuffix.subset List.mem_cons_self, ?_⟩
        rintro rfl
        cases hline
      obtain ⟨hstart, hend⟩ := tomlLeaves_lines h
      refine ⟨⟨number, hnumber, hstart⟩, number + more, hend, ?_⟩
      have hmore : more ≤ rest.length := by
        have := collectTomlValue_le firstPart rest
        rwa [hcollect] at this
      have hnumbered := hlast.1
      by_cases hzero : more = 0
      · rw [hzero]
        exact .inl hnumber
      · by_cases hrest : more = rest.length
        · refine .inr (.inr ⟨by omega, ?_⟩)
          have hleaves : tomlLeaves [] value 0 0 ≠ [] :=
            mt (tomlLeaves_eq_nil_iff (joinKey table key) [] value _ _ 0 0).2 (List.ne_nil_of_mem h)
          simp only [← hrest, Nat.pos_of_ne_zero hzero, hleaves, ne_eq, not_false_eq_true,
            decide_true, Bool.and_self, Bool.true_or]
        · exact .inr (.inl (by omega))
    · obtain ⟨hstart, n, hend, hn⟩ := ih ((List.suffix_cons _ _).trans hsuffix) hlast.2 h
      refine ⟨hstart, n, hend, hn.imp_right (Or.imp_right fun hn => ⟨hn.1, ?_⟩)⟩
      rw [hn.2, Bool.or_true]
  | case6 table aot number line rest harray htable hassign ih =>
    rw [takesRest_of_ne_assign hassign]
    exact ih ((List.suffix_cons _ _).trans hsuffix) hlast.2 h

/-- The leaves of a value that takes the rest end on the last line. -/
theorem exists_mem_parseTomlLines {table : List Char} {aot : List Char → ℕ} {skip last : ℕ}
    {lines : Lines} (hlast : NumberedTo last lines) (h : takesRest skip lines = true) :
    ∃ leaf ∈ parseTomlLines table aot skip lines, leaf.lineEnd = toU32 last := by
  fun_induction parseTomlLines table aot skip lines with
  | case1 => cases h
  | case2 table aot skip line rest ih => exact ih hlast.2 h
  | case3 table aot number line rest name hline ih =>
    rw [takesRest_of_ne_assign (by simp [hline])] at h
    exact ih hlast.2 h
  | case4 table aot number line rest name hline ih =>
    rw [takesRest_of_ne_assign (by simp [hline])] at h
    exact ih hlast.2 h
  | case5 table aot number line rest key firstPart hline value more hcollect ih =>
    rw [takesRest_assign hline, hcollect, Bool.or_eq_true] at h
    rcases h with h | h
    · simp only [Bool.and_eq_true, decide_eq_true_eq] at h
      obtain ⟨⟨-, hmore⟩, hleaves⟩ := h
      obtain ⟨leaf, hleaf⟩ := List.exists_mem_of_ne_nil _
        (mt (tomlLeaves_eq_nil_iff (joinKey table key) [] value (toU32 number)
          (toU32 (number + more)) 0 0).1 hleaves)
      refine ⟨leaf, List.mem_append_left _ hleaf, ?_⟩
      rw [(tomlLeaves_lines hleaf).2, hmore, hlast.1]
    · obtain ⟨leaf, hleaf, hend⟩ := ih hlast.2 h
      exact ⟨leaf, List.mem_append_right _ hleaf, hend⟩
  | case6 table aot number line rest harray htable hassign ih =>
    rw [takesRest_of_ne_assign hassign] at h
    exact ih hlast.2 h

end

/-! ## The symbols -/

/-- `MAX_LEAVES` -/
def maxLeaves : ℕ := 10000

/-- The searchable text of a leaf. -/
def leafText (leaf : Leaf) : List Char :=
  let scalar := truncateText leaf.value
  if scalar = [] then leaf.path else leaf.path ++ ' ' :: scalar

/-- `build_symbol` -/
def leafSymbol (sha256 : List UInt8 → List UInt8) (label filePath : List Char) (leaf : Leaf) :
    Symbol :=
  buildSymbol sha256 label filePath (moduleFromPath filePath) .var leaf.path leaf.path leaf.path
    (leafText leaf) leaf.lineStart leaf.lineEnd

/-- The label of a document. -/
def leafLabel (kind : ArtifactKind) : List Char :=
  if kind = .toml then "toml".toList else "yaml".toList

/-- The leaves of a document. -/
def leaves (kind : ArtifactKind) (source : List Char) : List Leaf :=
  if kind = .toml then parseToml source else parseYaml source

/-- There are leaves, and not too many of them. -/
def Structured (leaves : List Leaf) : Prop := leaves ≠ [] ∧ leaves.length ≤ maxLeaves

instance decidableStructured (leaves : List Leaf) : Decidable (Structured leaves) :=
  inferInstanceAs (Decidable (_ ∧ _))

/-- `extract` -/
def extract (sha256 : List UInt8 → List UInt8) (kind : ArtifactKind)
    (filePath source : List Char) : Output :=
  let found := leaves kind source
  let label := leafLabel kind
  if Structured found then
    { symbols := found.map (leafSymbol sha256 label filePath)
      status := .ok
      language := some (String.ofList label)
      fellBack := false }
  else textualFallback sha256 kind filePath source

end Yaml

end Artifact

end Cognis
