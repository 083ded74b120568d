/-
  The slices of the artifact extractors by bytes (`parser/artifact/yaml.rs`, `markdown.rs`,
  `parser/support.rs`): the positions come from a search or from characters of one byte, so
  that each slice is there and is what the extractors read.
-/
import Cognis.Indexer.Markdown
import Cognis.Indexer.Toml
import Cognis.Lib.Slices

namespace Cognis

open Slices Text

namespace Artifact

namespace Yaml

/-- `unquote`, by bytes. -/
def unquoteBytes (text : List Char) : Option (List Char) :=
  let t := trim text
  if 2 ≤ utf8Len t ∧ (t.head? = some '"' ∧ t.getLast? = some '"' ∨
      t.head? = some '\'' ∧ t.getLast? = some '\'') then
    sliceBytes t 1 (utf8Len t - 1)
  else some t

/-- `find_kv_colon`, by bytes. -/
def findKvColonByte (q : Quoting) : List Char → Option ℕ
  | [] => none
  | c :: cs =>
    if c = ':' ∧ q.outside ∧ (cs = [] ∨ cs.head? = some ' ' ∨ cs.head? = some '\t') then some 0
    else (findKvColonByte (q.after c) cs).map (c.utf8Size + ·)

/-- The branch of `split_kv` on a quoted key, by bytes. -/
def quotedKeyBytes (entry : List Char) : Option (Option (List Char × List Char)) :=
  match entry.head? with
  | none => some none
  | some q =>
    if q = '"' ∨ q = '\'' then do
      let inner ← dropBytes entry 1
      match findChar q inner with
      | some close => do
        let key ← sliceBytes entry 1 (1 + close)
        let rest ← dropBytes entry (1 + close + 1)
        some (some (key, rest))
      | none => some none
    else some none

/-- `split_kv`, by bytes. -/
def splitKvBytes (entry : List Char) : Option (Option (List Char × List Char)) := do
  match ← quotedKeyBytes entry with
  | some (key, rest) =>
    let rest := trimStart rest
    some (some (key, trimStart (if rest.head? = some ':' then rest.drop 1 else rest)))
  | none =>
    match findKvColonByte {} entry with
    | some pos => do
      let key ← takeBytes entry pos
      let value ← dropBytes entry (pos + 1)
      some (some (trim key, trimStart value))
    | none => some (if entry.getLast? = some ':' then some (trim entry.dropLast, []) else none)

/-- `is_block_scalar`, by bytes. -/
def isBlockScalarBytes (valuePart : List Char) : Option Bool :=
  let v := trim valuePart
  if v.head? = some '|' ∨ v.head? = some '>' then
    (dropBytes v 1).map fun cs => cs.all fun c => c = '+' || c = '-' || c.isDigit
  else some false

/-- `find_toml_eq`, by bytes. -/
def findTomlEqByte (q : Quoting) : List Char → Option ℕ
  | [] => none
  | c :: cs =>
    if c = '=' ∧ q.outside then some 0
    else (findTomlEqByte (q.after c) cs).map (c.utf8Size + ·)

/-- What comes before the sign of an assignment and after it, by bytes. -/
def splitTomlEqBytes (text : List Char) : Option (Option (List Char × List Char)) :=
  match findTomlEqByte {} text with
  | some eq => do
    let key ← takeBytes text eq
    let value ← dropBytes text (eq + 1)
    some (some (key, value))
  | none => some none

/-- `str::find` of a text. -/
def findText (needle : List Char) : List Char → Option ℕ
  | [] => none
  | c :: cs => if needle <+: c :: cs then some 0 else (findText needle cs).map (c.utf8Size + ·)

/-- The loop of `count_occurrences`, by bytes, for so many turns. -/
def countOccurrencesBytes (needle : List Char) : ℕ → List Char → Option ℕ
  | 0, _ => none
  | turns + 1, rest =>
    match findText needle rest with
    | some pos => do
      let rest ← dropBytes rest (pos + utf8Len needle)
      (countOccurrencesBytes needle turns rest).map (1 + ·)
    | none => some 0

/-- `toml_scalar`, by bytes. -/
def tomlScalarBytes (text : List Char) : Option (List Char) :=
  let t := trim text
  if 2 * utf8Len tripleDouble ≤ utf8Len t ∧ tripleDouble <+: t ∧ tripleDouble <:+ t then
    (sliceBytes t (utf8Len tripleDouble) (utf8Len t - utf8Len tripleDouble)).map trim
  else if 2 * utf8Len tripleSingle ≤ utf8Len t ∧ tripleSingle <+: t ∧ tripleSingle <:+ t then
    (sliceBytes t (utf8Len tripleSingle) (utf8Len t - utf8Len tripleSingle)).map trim
  else unquoteBytes t

/-! ## The slices are there -/

/-- The slice between two characters of one byte. -/
theorem sliceBytes_between {a b : Char} (ha : a.utf8Size = 1) (hb : b.utf8Size = 1) (text : List Char) :
    sliceBytes (a :: (text ++ [b])) 1 (utf8Len (a :: (text ++ [b])) - 1) = some text := by
  have hslice := sliceBytes_append [a] text [b]
  have hsize : utf8Len (a :: (text ++ [b])) - 1 = utf8Len [a] + utf8Len text := by
    simp only [utf8Len_cons, utf8Len_append, utf8Len_nil, ha, hb]
    omega
  rw [utf8Len_cons, utf8Len_nil, ha] at hslice
  rw [hsize, utf8Len_cons, utf8Len_nil, ha]
  exact hslice

/-- A text with the same characters at its ends is one character, or has an inside. -/
theorem eq_or_between {q : Char} {t : List Char} (hhead : t.head? = some q)
    (hlast : t.getLast? = some q) : t = [q] ∨ ∃ inner, t = q :: (inner ++ [q]) := by
  obtain ⟨rest, rfl⟩ : ∃ rest, t = q :: rest := by
    cases t with
    | nil => cases hhead
    | cons c cs => exact ⟨cs, by rw [Option.some_inj.1 hhead]⟩
  cases hrest : rest.getLast? with
  | none =>
    rw [List.getLast?_eq_none_iff.1 hrest]
    exact .inl rfl
  | some d =>
    obtain ⟨inner, rfl⟩ := List.getLast?_eq_some_iff.1 hrest
    rw [← List.cons_append, List.getLast?_concat] at hlast
    exact .inr ⟨inner, by rw [Option.some_inj.1 hlast]⟩

theorem unquoteBytes_eq (text : List Char) : unquoteBytes text = some (unquote text) := by
  have hends : ∀ (q : Char) (t : List Char), q.utf8Size = 1 → t.head? = some q → t.getLast? = some q →
      (2 ≤ utf8Len t ↔ 2 ≤ t.length) ∧
        (2 ≤ t.length → sliceBytes t 1 (utf8Len t - 1) = some (t.drop 1).dropLast) := by
    intro q t hq hhead hlast
    rcases eq_or_between hhead hlast with rfl | ⟨inner, rfl⟩
    · simp [hq]
    · refine ⟨iff_of_true ?_ ?_, fun _ => ?_⟩
      · simp only [utf8Len_cons, utf8Len_append, utf8Len_nil, hq]
        omega
      · simp
      · rw [sliceBytes_between hq hq, List.drop_one, List.tail_cons, List.dropLast_concat]
  simp only [unquoteBytes, unquote]
  generalize trim text = t
  by_cases hquoted : t.head? = some '"' ∧ t.getLast? = some '"' ∨
      t.head? = some '\'' ∧ t.getLast? = some '\''
  · have hboth : (2 ≤ utf8Len t ↔ 2 ≤ t.length) ∧
        (2 ≤ t.length → sliceBytes t 1 (utf8Len t - 1) = some (t.drop 1).dropLast) := by
      rcases hquoted with ⟨hhead, hlast⟩ | ⟨hhead, hlast⟩
      · exact hends '"' t rfl hhead hlast
      · exact hends '\'' t rfl hhead hlast
    simp only [hboth.1, and_iff_left hquoted]
    split_ifs with hlen
    · exact hboth.2 hlen
    · rfl
  · simp only [hquoted, and_false, if_false]

theorem quotedKeyBytes_eq (entry : List Char) : quotedKeyBytes entry = some (quotedKey entry) := by
  cases entry with
  | nil => rfl
  | cons q cs =>
    rw [quotedKeyBytes, List.head?_cons, quotedKey]
    simp only
    by_cases hq : q = '"' ∨ q = '\''
    · have hsize : q.utf8Size = 1 := by rcases hq with rfl | rfl <;> rfl
      have hdrop : dropBytes (q :: cs) 1 = some cs := by
        have := dropBytes_append [q] cs
        rwa [utf8Len_cons, utf8Len_nil, hsize] at this
      rw [if_pos hq, hdrop, Option.bind_eq_bind, Option.bind_some, findChar_eq]
      by_cases hmem : q ∈ cs
      · have hsplit := takeWhile_append_of_mem hmem
        have hkey := sliceBytes_append [q] (cs.takeWhile (· ≠ q)) (q :: (cs.dropWhile (· ≠ q)).drop 1)
        have hrest := dropBytes_append (q :: (cs.takeWhile (· ≠ q) ++ [q])) ((cs.dropWhile (· ≠ q)).drop 1)
        rw [← hsplit, utf8Len_cons, utf8Len_nil, hsize, List.singleton_append] at hkey
        rw [List.cons_append, List.append_assoc, List.singleton_append, ← hsplit, utf8Len_cons,
          utf8Len_append, utf8Len_cons, utf8Len_nil, hsize, ← Nat.add_assoc] at hrest
        simp only [if_pos hmem, if_pos (show (q = '"' ∨ q = '\'') ∧ q ∈ cs from ⟨hq, hmem⟩)]
        rw [hkey, Option.bind_some, hrest, Option.bind_some]
      · simp only [if_neg hmem, if_neg (show ¬ ((q = '"' ∨ q = '\'') ∧ q ∈ cs) from fun h => hmem h.2)]
    · rw [if_neg hq, if_neg fun h => hq h.1]

/-- A colon that is found is a character of the text. -/
theorem findKvColonByte_eq (q : Quoting) (entry : List Char) :
    (findKvColonByte q entry = none ∧ findKvColon q entry = none) ∨
      ∃ before rest, entry = before ++ ':' :: rest ∧ findKvColon q entry = some (before, rest) ∧
        findKvColonByte q entry = some (utf8Len before) := by
  induction entry generalizing q with
  | nil => exact .inl ⟨rfl, rfl⟩
  | cons c cs ih =>
    rw [findKvColonByte, findKvColon]
    split_ifs with hcolon
    · exact .inr ⟨[], cs, by rw [hcolon.1]; rfl, rfl, rfl⟩
    · rcases ih (q.after c) with ⟨hbyte, hchar⟩ | ⟨before, rest, heq, hchar, hbyte⟩
      · rw [hbyte, hchar]
        exact .inl ⟨rfl, rfl⟩
      · rw [hbyte, hchar]
        exact .inr ⟨c :: before, rest, by rw [heq]; rfl, rfl, rfl⟩

/-- What comes before a character of one byte, and after it. -/
theorem around_char {c : Char} (hc : c.utf8Size = 1) (before rest : List Char) :
    takeBytes (before ++ c :: rest) (utf8Len before) = some before ∧
      dropBytes (before ++ c :: rest) (utf8Len before + 1) = some rest := by
  refine ⟨takeBytes_append before (c :: rest), ?_⟩
  have hdrop := dropBytes_append (before ++ [c]) rest
  rwa [List.append_assoc, List.singleton_append, utf8Len_append, utf8Len_cons, utf8Len_nil,
    hc] at hdrop

theorem splitKvBytes_eq (entry : List Char) : splitKvBytes entry = some (splitKv entry) := by
  rw [splitKvBytes, quotedKeyBytes_eq, Option.bind_eq_bind, Option.bind_some, splitKv]
  cases quotedKey entry with
  | some kv => rfl
  | none =>
    rcases findKvColonByte_eq {} entry with ⟨hbyte, hchar⟩ | ⟨before, rest, heq, hchar, hbyte⟩
    · simp only [hbyte, hchar]
    · obtain ⟨htake, hdrop⟩ := around_char (c := ':') rfl before rest
      rw [← heq] at htake hdrop
      simp only [hbyte, hchar, htake, hdrop, Option.bind_eq_bind, Option.bind_some]

theorem isBlockScalarBytes_eq (valuePart : List Char) :
    isBlockScalarBytes valuePart = some (isBlockScalar valuePart) := by
  simp only [isBlockScalarBytes, isBlockScalar]
  cases trim valuePart with
  | nil => rfl
  | cons c cs =>
    simp only [List.head?_cons, Option.some_inj]
    split_ifs with hc
    · have hsize : c.utf8Size = 1 := by rcases hc with rfl | rfl <;> rfl
      have hdrop := dropBytes_append [c] cs
      rw [utf8Len_cons, utf8Len_nil, hsize] at hdrop
      rw [show c :: cs = [c] ++ cs from rfl, hdrop]
      rcases hc with rfl | rfl <;> rfl
    · obtain ⟨hbar, hangle⟩ := not_or.1 hc
      simp [hbar, hangle]

/-- The dash of an item is one byte. -/
theorem dropBytes_dash {entry : List Char} (h : isSeqItem entry = true) :
    dropBytes entry 1 = some (entry.drop 1) := by
  obtain ⟨rest, rfl⟩ : ∃ rest, entry = '-' :: rest := by
    simp only [isSeqItem, Bool.or_eq_true, decide_eq_true_eq] at h
    rcases h with (rfl | h) | h
    · exact ⟨[], rfl⟩
    · obtain ⟨rest, rfl⟩ := h
      exact ⟨_, rfl⟩
    · obtain ⟨rest, rfl⟩ := h
      exact ⟨_, rfl⟩
  exact dropBytes_append ['-'] rest

theorem splitTomlEqBytes_eq (text : List Char) : splitTomlEqBytes text = some (findTomlEq {} text) := by
  have hbyte : ∀ q : Quoting, (findTomlEqByte q text = none ∧ findTomlEq q text = none) ∨
      ∃ before rest, text = before ++ '=' :: rest ∧ findTomlEq q text = some (before, rest) ∧
        findTomlEqByte q text = some (utf8Len before) := by
    induction text with
    | nil => exact fun _ => .inl ⟨rfl, rfl⟩
    | cons c cs ih =>
      intro q
      rw [findTomlEqByte, findTomlEq]
      split_ifs with hsign
      · exact .inr ⟨[], cs, by rw [hsign.1]; rfl, rfl, rfl⟩
      · rcases ih (q.after c) with ⟨hbyte, hchar⟩ | ⟨before, rest, heq, hchar, hbyte⟩
        · rw [hbyte, hchar]
          exact .inl ⟨rfl, rfl⟩
        · rw [hbyte, hchar]
          exact .inr ⟨c :: before, rest, by rw [heq]; rfl, rfl, rfl⟩
  rcases hbyte {} with ⟨hbyte, hchar⟩ | ⟨before, rest, heq, hchar, hbyte⟩
  · simp only [splitTomlEqBytes, hbyte, hchar]
  · obtain ⟨htake, hdrop⟩ := around_char (c := '=') rfl before rest
    rw [← heq] at htake hdrop
    simp only [splitTomlEqBytes, hbyte, hchar, htake, hdrop, Option.bind_eq_bind, Option.bind_some]

/-- The rest of an occurrence does not count. -/
theorem countOccurrences_skip (needle u v : List Char) :
    countOccurrences needle u.length (u ++ v) = countOccurrences needle 0 v := by
  induction u with
  | nil => rfl
  | cons c cs ih => exact ih

/-- The first occurrence, and the text after it. -/
theorem findText_spec {needle : List Char} (hne : needle ≠ []) (text : List Char) :
    (findText needle text = none ∧ countOccurrences needle 0 text = 0) ∨
      ∃ u v, text = u ++ (needle ++ v) ∧ findText needle text = some (utf8Len u) ∧
        countOccurrences needle 0 text = 1 + countOccurrences needle 0 v := by
  obtain ⟨n, ns, rfl⟩ := List.exists_cons_of_ne_nil hne
  induction text with
  | nil => exact .inl ⟨rfl, rfl⟩
  | cons c cs ih =>
    rw [findText, countOccurrences]
    split_ifs with hbegins
    · obtain ⟨v, hv⟩ := hbegins
      refine .inr ⟨[], v, hv.symm, rfl, ?_⟩
      rw [(List.cons.inj hv).2.symm, List.length_cons, Nat.add_sub_cancel]
      exact congrArg (1 + ·) (countOccurrences_skip _ ns v)
    · rcases ih with ⟨hfind, hcount⟩ | ⟨u, v, heq, hfind, hcount⟩
      · rw [hfind, hcount]
        exact .inl ⟨rfl, rfl⟩
      · rw [hfind, hcount]
        exact .inr ⟨c :: u, v, by rw [heq]; rfl, rfl, rfl⟩

theorem countOccurrencesBytes_eq {needle : List Char} (hne : needle ≠ []) {turns : ℕ}
    {text : List Char} (hturns : text.length < turns) :
    countOccurrencesBytes needle turns text = some (countOccurrences needle 0 text) := by
  induction turns generalizing text with
  | zero => cases hturns
  | succ turns ih =>
    rw [countOccurrencesBytes]
    rcases findText_spec hne text with ⟨hfind, hcount⟩ | ⟨u, v, rfl, hfind, hcount⟩
    · rw [hfind, hcount]
    · have hdrop := dropBytes_append (u ++ needle) v
      rw [List.append_assoc, utf8Len_append] at hdrop
      have hpos := List.length_pos_of_ne_nil hne
      rw [List.length_append, List.length_append] at hturns
      simp only [hfind, hdrop, hcount, Option.bind_eq_bind, Option.bind_some,
        ih (show v.length < turns by omega), Option.map_some]

/-- A text that begins and ends with three quotes has an inside if it is long enough, and is
    made of quotes otherwise. -/
theorem triple_slice {q : Char} (hq : q.utf8Size = 1) {t : List Char} (hstart : [q, q, q] <+: t)
    (hend : [q, q, q] <:+ t) : (6 ≤ utf8Len t ↔ 6 ≤ t.length) ∧
      (6 ≤ t.length → sliceBytes t 3 (utf8Len t - 3) = some ((t.drop 3).take (t.length - 6))) := by
  have htriple : utf8Len [q, q, q] = 3 := by simp [hq]
  obtain ⟨u, rfl⟩ := hstart
  by_cases hlen : 3 ≤ u.length
  · obtain ⟨mid, rfl⟩ : [q, q, q] <:+ u :=
      List.suffix_of_suffix_length_le hend (List.suffix_append _ _) hlen
    have hslice := sliceBytes_append [q, q, q] mid [q, q, q]
    rw [htriple] at hslice
    refine ⟨iff_of_true ?_ ?_, fun _ => ?_⟩
    · rw [utf8Len_append, utf8Len_append, htriple]
      omega
    · simp only [List.length_append, List.length_cons, List.length_nil]
      omega
    · have hsize : utf8Len ([q, q, q] ++ (mid ++ [q, q, q])) - 3 = 3 + utf8Len mid := by
        rw [utf8Len_append, utf8Len_append, htriple]
        omega
      rw [hsize, hslice]
      simp
  · have hquotes : ∀ c ∈ [q, q, q] ++ u, c.utf8Size = 1 := by
      have hu : u <:+ [q, q, q] := List.suffix_of_suffix_length_le (List.suffix_append _ _) hend
        (by simp only [List.length_cons, List.length_nil]; omega)
      intro c hc
      have hmem : c ∈ [q, q, q] := by
        rcases List.mem_append.1 hc with hc | hc
        · exact hc
        · exact hu.subset hc
      have hcq : c = q := by simpa using hmem
      rw [hcq, hq]
    rw [utf8Len_eq_length hquotes]
    refine ⟨Iff.rfl, fun h => ?_⟩
    simp only [List.length_append, List.length_cons, List.length_nil] at h
    omega

theorem tomlScalarBytes_eq (text : List Char) : tomlScalarBytes text = some (tomlScalar text) := by
  simp only [tomlScalarBytes, tomlScalar]
  generalize trim text = t
  have hdouble : utf8Len tripleDouble = 3 := rfl
  have hsingle : utf8Len tripleSingle = 3 := rfl
  have hd : 6 ≤ utf8Len t ∧ tripleDouble <+: t ∧ tripleDouble <:+ t ↔
      6 ≤ t.length ∧ tripleDouble <+: t ∧ tripleDouble <:+ t :=
    and_congr_left fun h => (triple_slice (q := '"') rfl h.1 h.2).1
  have hs : 6 ≤ utf8Len t ∧ tripleSingle <+: t ∧ tripleSingle <:+ t ↔
      6 ≤ t.length ∧ tripleSingle <+: t ∧ tripleSingle <:+ t :=
    and_congr_left fun h => (triple_slice (q := '\'') rfl h.1 h.2).1
  simp only [hdouble, hsingle, Nat.reduceMul, hd, hs]
  split_ifs with hdouble hsingle
  · rw [(triple_slice (q := '"') rfl hdouble.2.1 hdouble.2.2).2 hdouble.1, Option.map_some]
  · rw [(triple_slice (q := '\'') rfl hsingle.2.1 hsingle.2.2).2 hsingle.1, Option.map_some]
  · rw [unquoteBytes_eq]

end Yaml

/-- The blanks at the start of a line of Markdown are one byte each. -/
theorem Markdown.dropBytes_leading (line : List Char) :
    dropBytes line (line.takeWhile (· = ' ')).length =
      some (line.drop (line.takeWhile (· = ' ')).length) := by
  have hblanks : utf8Len (line.takeWhile (· = ' ')) = (line.takeWhile (· = ' ')).length := by
    refine utf8Len_eq_length fun c hc => ?_
    have hblank : c = ' ' := by simpa using List.mem_takeWhile_imp hc
    rw [hblank]
    rfl
  have hdrop := dropBytes_append (line.takeWhile (· = ' ')) (line.dropWhile (· = ' '))
  have hrest : line.drop (line.takeWhile (· = ' ')).length = line.dropWhile (· = ' ') := by
    have hsplit : (line.takeWhile (· = ' ') ++ line.dropWhile (· = ' ')).drop
        (line.takeWhile (· = ' ')).length = line.dropWhile (· = ' ') := List.drop_left
    rwa [List.takeWhile_append_dropWhile] at hsplit
  rw [List.takeWhile_append_dropWhile, hblanks] at hdrop
  rw [hdrop, hrest]

/-- `str::rfind` -/
def rfindChar (c : Char) : List Char → Option ℕ
  | [] => none
  | d :: ds =>
    match rfindChar c ds with
    | some pos => some (d.utf8Size + pos)
    | none => if d = c then some 0 else none

/-- The stem of a file name (`module_from_path`), by bytes. -/
def stemBytes (last : List Char) : Option (List Char) :=
  match rfindChar '.' last with
  | some idx => if 0 < idx then takeBytes last idx else some last
  | none => some last

/-- The stem of a file name. -/
def stem (last : List Char) : List Char :=
  let ext := last.rtakeWhile (· ≠ '.')
  if ext.length + 1 < last.length then last.take (last.length - ext.length - 1) else last

theorem rfindChar_eq_none {c : Char} {text : List Char} (h : c ∉ text) : rfindChar c text = none := by
  induction text with
  | nil => rfl
  | cons d ds ih =>
    rw [List.mem_cons, not_or] at h
    rw [rfindChar, ih h.2]
    exact if_neg (Ne.symm h.1)

theorem rfindChar_append {c : Char} {v : List Char} (h : c ∉ v) (u : List Char) :
    rfindChar c (u ++ c :: v) = some (utf8Len u) := by
  induction u with
  | nil =>
    rw [List.nil_append, rfindChar, rfindChar_eq_none h]
    exact if_pos rfl
  | cons d ds ih => rw [List.cons_append, rfindChar, ih, utf8Len_cons]

theorem stemBytes_eq (last : List Char) : stemBytes last = some (stem last) := by
  by_cases hdot : '.' ∈ last
  · obtain ⟨u, v, rfl, hv⟩ : ∃ u v, last = u ++ '.' :: v ∧ '.' ∉ v := by
      obtain ⟨v', u', hsplit, hv⟩ := List.eq_append_cons_of_mem (List.mem_reverse.2 hdot)
      refine ⟨u'.reverse, v'.reverse, ?_, fun h => hv (List.mem_reverse.1 h)⟩
      rw [← List.reverse_reverse last, hsplit]
      simp
    have hext : (u ++ '.' :: v).rtakeWhile (· ≠ '.') = v := afterLast_append hv u
    have hlength : (u ++ '.' :: v).length = u.length + 1 + v.length := by
      rw [List.length_append, List.length_cons]
      omega
    simp only [stemBytes, rfindChar_append hv, stem, hext, hlength]
    cases u with
    | nil =>
      rw [utf8Len_nil, if_neg (lt_irrefl 0), if_neg (by rw [List.length_nil]; omega)]
    | cons d ds =>
      have hpos := d.utf8Size_pos
      rw [if_pos (by rw [utf8Len_cons]; omega), if_pos (by rw [List.length_cons]; omega),
        takeBytes_append, List.take_left' (by omega)]
  · have hext : last.rtakeWhile (· ≠ '.') = last := by
      rw [List.rtakeWhile_eq_self_iff]
      intro c hc
      simpa using ne_of_mem_of_not_mem hc hdot
    simp only [stemBytes, rfindChar_eq_none hdot, stem, hext]
    rw [if_neg (by omega)]

/-- `truncate_chars`, by bytes. -/
def truncateBytes (max : ℕ) (text : List Char) : Option (List Char) :=
  if utf8Len text ≤ max then some text else takeBytes text (boundaryBefore text max)

theorem truncateChars_of_le {max : ℕ} {text : List Char} (h : utf8Len text ≤ max) :
    truncateChars max text = text := by
  induction text generalizing max with
  | nil => rfl
  | cons c cs ih =>
    rw [utf8Len_cons] at h
    rw [truncateChars, if_pos (by omega), ih (by omega)]

theorem truncateBytes_eq (max : ℕ) (text : List Char) :
    truncateBytes max text = some (truncateChars max text) := by
  have htake : ∀ max, takeBytes text (boundaryBefore text max) = some (truncateChars max text) := by
    induction text with
    | nil =>
      intro max
      have hzero : boundaryBefore [] max = 0 := by
        induction max with
        | zero => rfl
        | succ n ih => exact ih
      rw [hzero]
      rfl
    | cons c cs ih =>
      intro max
      rw [boundaryBefore_cons, truncateChars]
      split_ifs with hle
      · obtain ⟨n, hn⟩ := Nat.exists_eq_succ_of_ne_zero c.utf8Size_pos.ne'
        generalize hsum : boundaryBefore cs (max - c.utf8Size) = b
        have hstep : c.utf8Size + b = (n + b) + 1 := by omega
        rw [hstep, takeBytes, if_pos (by omega), show n + b + 1 - c.utf8Size = b by omega, ← hsum, ih,
          Option.map_some]
      · rfl
  rw [truncateBytes]
  split_ifs with hle
  · rw [truncateChars_of_le hle]
  · exact htake max

/-- Every slice of a text that the extractors take is there, and is what they read. -/
structure SlicesInside : Prop where
  unquote : ∀ text, Yaml.unquoteBytes text = some (Yaml.unquote text)
  splitKv : ∀ entry, Yaml.splitKvBytes entry = some (Yaml.splitKv entry)
  isBlockScalar : ∀ valuePart, Yaml.isBlockScalarBytes valuePart = some (Yaml.isBlockScalar valuePart)
  dash : ∀ entry, Yaml.isSeqItem entry = true → dropBytes entry 1 = some (entry.drop 1)
  tomlEq : ∀ text, Yaml.splitTomlEqBytes text = some (Yaml.findTomlEq {} text)
  countOccurrences : ∀ needle text, needle ≠ [] →
    Yaml.countOccurrencesBytes needle (text.length + 1) text = some (Yaml.countOccurrences needle 0 text)
  tomlScalar : ∀ text, Yaml.tomlScalarBytes text = some (Yaml.tomlScalar text)
  leading : ∀ line : List Char, dropBytes line (line.takeWhile (· = ' ')).length =
    some (line.drop (line.takeWhile (· = ' ')).length)
  headings : ∀ lines : List (List Char), ∀ h ∈ Markdown.scanHeadings lines, h.lineIdx < lines.length
  stem : ∀ last, stemBytes last = some (stem last)
  truncate : ∀ max text, truncateBytes max text = some (truncateChars max text)

theorem slicesInside : SlicesInside where
  unquote := Yaml.unquoteBytes_eq
  splitKv := Yaml.splitKvBytes_eq
  isBlockScalar := Yaml.isBlockScalarBytes_eq
  dash _ := Yaml.dropBytes_dash
  tomlEq := Yaml.splitTomlEqBytes_eq
  countOccurrences _ text hne := Yaml.countOccurrencesBytes_eq hne (Nat.lt_succ_self text.length)
  tomlScalar := Yaml.tomlScalarBytes_eq
  leading := Markdown.dropBytes_leading
  headings lines h hh := by
    have := (Markdown.mem_scanFrom hh).2
    rwa [Nat.zero_add] at this
  stem := stemBytes_eq
  truncate := truncateBytes_eq

end Artifact

end Cognis
