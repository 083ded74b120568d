/-
  Identifiers in the conventions that `normalize_ident` brings together: a list of words in
  `snake_case`, `camelCase` or `PascalCase`, in which a word may be written as an acronym.

  * `splitWords_word`: the underscores that are inserted at a word;
  * `normalizeIdent_canonical`: an ASCII identifier is normalised once and for all, and the
    conventions of a list of words have one normal form.
-/
import Cognis.Indexer.Text
import Mathlib.Data.List.Chain

namespace Cognis

/-- What the tables say of ASCII. -/
structure UnicodeTables.OnAscii (unicode : UnicodeTables) : Prop where
  isLowercase : ∀ c : Char, c.toNat < 128 → unicode.isLowercase c = c.isLower
  toLowercase : ∀ text : List Char, (∀ c ∈ text, c.toNat < 128) →
    unicode.toLowercase text = text.map Char.toLower

namespace Text

/-! ## Conventions -/

/-- How a word is written. -/
inductive Style where
  | lower
  | capital
  | acronym
  deriving DecidableEq, Repr

/-- A lower-case word in a style. -/
def Style.render : Style → List Char → List Char
  | .lower, word => word
  | .capital, [] => []
  | .capital, c :: cs => c.toUpper :: cs
  | .acronym, word => word.map Char.toUpper

/-- A lower-case word of at least two letters. -/
structure IsWord (word : List Char) : Prop where
  letters : ∀ c ∈ word, c.isLower = true
  two : 2 ≤ word.length

/-- The words with underscores between them. -/
def snake (styled : List (Style × List Char)) : List Char :=
  join ['_'] (styled.map fun word => word.1.render word.2)

/-- The words one after the other: `camelCase` if the first one is in lower case and the
    others are not, and `PascalCase` if none is. -/
def cased (styled : List (Style × List Char)) : List Char :=
  (styled.map fun word => word.1.render word.2).flatten

/-- No two acronyms stand side by side. -/
def Separated (styled : List (Style × List Char)) : Prop :=
  styled.IsChain fun word next => ¬ (word.1 = .acronym ∧ next.1 = .acronym)

/-! ## Letters -/

/-- What is used of a lower-case letter and of its upper-case letter. -/
structure Letter (c : Char) : Prop where
  ascii : c.toNat < 128
  notUpper : c.isUpper = false
  notUnderscore : c ≠ '_'
  toLower : c.toLower = c
  upperAscii : c.toUpper.toNat < 128
  upper : c.toUpper.isUpper = true
  upperNotLower : c.toUpper.isLower = false
  upperNotDigit : c.toUpper.isDigit = false
  upperToLower : c.toUpper.toLower = c

theorem letter_of_isLower {c : Char} (h : c.isLower = true) : Letter c := by
  have hletters : ∀ n ∈ List.range' 97 26, (Char.ofNat n).toNat < 128 ∧
      (Char.ofNat n).isUpper = false ∧ Char.ofNat n ≠ '_' ∧ (Char.ofNat n).toLower = Char.ofNat n ∧
      (Char.ofNat n).toUpper.toNat < 128 ∧ (Char.ofNat n).toUpper.isUpper = true ∧
      (Char.ofNat n).toUpper.isLower = false ∧ (Char.ofNat n).toUpper.isDigit = false ∧
      (Char.ofNat n).toUpper.toLower = Char.ofNat n := by decide +kernel
  have hrange : c.toNat ∈ List.range' 97 26 := by
    have hbounds : (decide (c.val ≥ 'a'.val) && decide (c.val ≤ 'z'.val)) = true := h
    rw [Bool.and_eq_true, decide_eq_true_eq, decide_eq_true_eq] at hbounds
    have hlow : 97 ≤ c.toNat := UInt32.le_iff_toNat_le.1 hbounds.1
    have hhigh : c.toNat ≤ 122 := UInt32.le_iff_toNat_le.1 hbounds.2
    rw [List.mem_range'_1]
    omega
  obtain ⟨h₁, h₂, h₃, h₄, h₅, h₆, h₇, h₈, h₉⟩ := Char.ofNat_toNat c ▸ hletters c.toNat hrange
  exact ⟨h₁, h₂, h₃, h₄, h₅, h₆, h₇, h₈, h₉⟩

section

variable {unicode : UnicodeTables} {word rest : List Char} {prev : Option Char}

/-! ## The underscores -/

/-- In lower case nothing is inserted. -/
theorem splitWords_lower (hword : ∀ c ∈ word, c.isLower = true) :
    splitWords unicode prev (word ++ rest) =
      word ++ splitWords unicode (word.getLast?.or prev) rest := by
  induction word generalizing prev with
  | nil => rfl
  | cons c word ih =>
    rw [List.forall_mem_cons] at hword
    rw [List.cons_append, splitWords, (letter_of_isLower hword.1).notUpper, ih hword.2,
      List.getLast?_cons]
    cases word.getLast? <;> rfl

/-- Inside an acronym nothing is inserted. -/
theorem splitWords_upper (hascii : unicode.OnAscii) (hword : ∀ c ∈ word, c.isLower = true)
    (hrest : ∀ c ∈ rest.head?, unicode.isLowercase c = false) {first : Char}
    (hfirst : first.isLower = true) :
    splitWords unicode (some first.toUpper) (word.map Char.toUpper ++ rest) =
      word ++ splitWords unicode (some (word.getLast?.getD first).toUpper) rest := by
  induction word generalizing first with
  | nil => rfl
  | cons c word ih =>
    rw [List.forall_mem_cons] at hword
    have hletter := letter_of_isLower hword.1
    have hprev := letter_of_isLower hfirst
    have hnext : (word.map Char.toUpper ++ rest).head?.any unicode.isLowercase = false := by
      cases word with
      | nil =>
        cases rest with
        | nil => rfl
        | cons d rest => exact hrest d rfl
      | cons d word =>
        have hd := letter_of_isLower (List.forall_mem_cons.1 hword.2).1
        exact (hascii.isLowercase _ hd.upperAscii).trans hd.upperNotLower
    have hboundary : wordBoundary unicode (some first.toUpper)
        (word.map Char.toUpper ++ rest).head? = false := by
      rw [wordBoundary, hascii.isLowercase _ hprev.upperAscii, hprev.upperNotLower,
        hprev.upperNotDigit, hprev.upper]
      exact hnext
    rw [List.map_cons, List.cons_append, splitWords, hletter.upper, if_pos rfl, hboundary,
      if_neg Bool.false_ne_true, hletter.upperToLower, ih hword.2 hword.1, List.getLast?_cons]
    rfl

/-- A letter of a word is followed by the letters of the word. -/
theorem IsWord.exists_cons (h : IsWord word) : ∃ c d cs, word = c :: d :: cs ∧ c.isLower = true ∧
    d.isLower = true ∧ ∀ e ∈ d :: cs, e.isLower = true := by
  have htwo := h.two
  cases word with
  | nil => simp at htwo
  | cons c word =>
    cases word with
    | nil => simp at htwo
    | cons d cs =>
      obtain ⟨hc, hrest⟩ := List.forall_mem_cons.1 h.letters
      exact ⟨c, d, cs, rfl, hc, hrest d List.mem_cons_self, hrest⟩

/-- The last letter of a word as it is written. -/
def Style.last (style : Style) (c : Char) : Char := if style = .acronym then c.toUpper else c

theorem getLast?_isLower {letters : List Char} (h : ∀ c ∈ letters, c.isLower = true) {first : Char}
    (hfirst : first.isLower = true) : (letters.getLast?.getD first).isLower = true := by
  cases hlast : letters.getLast? with
  | none => exact hfirst
  | some c => exact h c (List.mem_of_getLast? hlast)

/-- A word that begins with a capital letter: the underscore is inserted by its boundary. -/
theorem splitWords_cons {c : Char} (hc : c.isLower = true) (text : List Char) :
    splitWords unicode prev (c.toUpper :: text) =
      (if wordBoundary unicode prev text.head? then ['_'] else []) ++
        c :: splitWords unicode (some c.toUpper) text := by
  rw [splitWords, (letter_of_isLower hc).upper, if_pos rfl, (letter_of_isLower hc).upperToLower]
  split_ifs <;> rfl

/-- **The underscore of a word**, given whether its first letter starts a word. -/
theorem splitWords_word (prev : Option Char) (style : Style) (starts : Bool)
    (hascii : unicode.OnAscii) (hword : IsWord word)
    (hrest : ∀ c ∈ rest.head?, unicode.isLowercase c = false)
    (hlower : style = .lower → starts = false)
    (hcapital : style = .capital → ∀ c : Char, c.isLower = true →
      wordBoundary unicode prev (some c) = starts)
    (hacronym : style = .acronym → ∀ next, wordBoundary unicode prev next = starts) :
    ∃ c : Char, c.isLower = true ∧ splitWords unicode prev (style.render word ++ rest) =
      (if starts then ['_'] else []) ++ word ++ splitWords unicode (some (style.last c)) rest := by
  obtain ⟨c, d, cs, rfl, hc, hd, hletters⟩ := hword.exists_cons
  have hlast := getLast?_isLower hletters hc
  refine ⟨(d :: cs).getLast?.getD c, hlast, ?_⟩
  cases style with
  | lower =>
    rw [hlower rfl, Style.render, splitWords_lower hword.letters, List.getLast?_cons]
    rfl
  | capital =>
    have hboundary := hcapital rfl d hd
    rw [Style.render, List.cons_append, splitWords_cons hc, splitWords_lower hletters]
    rw [List.cons_append, List.head?_cons, hboundary, List.append_assoc, List.getLast?_cons]
    rfl
  | acronym =>
    rw [Style.render, List.map_cons, List.cons_append, splitWords_cons hc, hacronym rfl,
      splitWords_upper hascii hletters hrest hc, List.append_assoc]
    rfl

theorem join_cons (part : List Char) (parts : List (List Char)) :
    join ['_'] (part :: parts) = part ++ parts.flatMap ('_' :: ·) := by
  induction parts generalizing part with
  | nil => simp [join]
  | cons next parts ih =>
    have hjoin : join ['_'] (part :: next :: parts) = part ++ '_' :: join ['_'] (next :: parts) := rfl
    rw [hjoin, ih, List.flatMap_cons, List.cons_append]

/-- What stands before a word that follows another one decides on an underscore. -/
theorem wordBoundary_last (hascii : unicode.OnAscii) {style : Style} {c : Char} (hc : c.isLower = true)
    {next : Option Char} (hnext : style = .acronym → ∃ d : Char, next = some d ∧ d.isLower = true) :
    wordBoundary unicode (some (style.last c)) next = true := by
  have hletter := letter_of_isLower hc
  rw [wordBoundary, Style.last]
  by_cases hstyle : style = .acronym
  · obtain ⟨d, rfl, hd⟩ := hnext hstyle
    have hlower : unicode.isLowercase d = true :=
      (hascii.isLowercase d (letter_of_isLower hd).ascii).trans hd
    rw [if_pos hstyle, hascii.isLowercase _ hletter.upperAscii, hletter.upperNotLower,
      hletter.upperNotDigit, hletter.upper]
    exact hlower
  · rw [if_neg hstyle, hascii.isLowercase c hletter.ascii, hc]
    rfl

/-- A text of words begins with no lower-case letter, if its first word does not. -/
theorem head_cased (hascii : unicode.OnAscii) {styled : List (Style × List Char)}
    (hwords : ∀ word ∈ styled, IsWord word.2) (hcased : ∀ word ∈ styled, word.1 ≠ .lower) :
    ∀ c ∈ (cased styled).head?, unicode.isLowercase c = false := by
  cases styled with
  | nil =>
    rintro c ⟨⟩
  | cons word styled =>
    obtain ⟨style, word⟩ := word
    obtain ⟨c, d, cs, hcons, hc, -, -⟩ := (List.forall_mem_cons.1 hwords).1.exists_cons
    have hstyle := (List.forall_mem_cons.1 hcased).1
    have hletter := letter_of_isLower hc
    have hupper : unicode.isLowercase c.toUpper = false :=
      (hascii.isLowercase _ hletter.upperAscii).trans hletter.upperNotLower
    simp only at hcons hstyle
    subst hcons
    cases style with
    | lower => exact absurd rfl hstyle
    | capital =>
      rintro e ⟨⟩
      exact hupper
    | acronym =>
      rintro e ⟨⟩
      exact hupper

/-- Words after a word, in `camelCase` or `PascalCase`. -/
theorem splitWords_cased_tail (hascii : unicode.OnAscii) {styled : List (Style × List Char)}
    (hwords : ∀ word ∈ styled, IsWord word.2) (hcased : ∀ word ∈ styled, word.1 ≠ .lower)
    {before : Style × List Char} (hseparated : Separated (before :: styled)) {c : Char}
    (hc : c.isLower = true) : splitWords unicode (some (before.1.last c)) (cased styled) =
      styled.flatMap fun word => '_' :: word.2 := by
  induction styled generalizing before c with
  | nil => rfl
  | cons word styled ih =>
    rw [List.forall_mem_cons] at hwords hcased
    rw [Separated, List.isChain_cons_cons] at hseparated
    obtain ⟨d, hd, hsplit⟩ := splitWords_word _ word.1 true hascii hwords.1
      (head_cased hascii hwords.2 hcased.2) (fun h => absurd h hcased.1)
      (fun _ d hd => wordBoundary_last hascii hc fun _ => ⟨d, rfl, hd⟩)
      (fun h next => wordBoundary_last hascii hc fun hbefore => absurd ⟨hbefore, h⟩ hseparated.1)
    have hcons : cased (word :: styled) = word.1.render word.2 ++ cased styled := rfl
    rw [hcons, hsplit, ih hwords.2 hcased.2 hseparated.2 hd, List.flatMap_cons, if_pos rfl,
      List.append_assoc, List.singleton_append, List.cons_append]

/-- **`camelCase` and `PascalCase`** become `snake_case`. -/
theorem splitWords_cased (hascii : unicode.OnAscii) {styled : List (Style × List Char)}
    (hwords : ∀ word ∈ styled, IsWord word.2) (hcased : ∀ word ∈ styled.tail, word.1 ≠ .lower)
    (hseparated : Separated styled) :
    splitWords unicode none (cased styled) = join ['_'] (styled.map Prod.snd) := by
  cases styled with
  | nil => rfl
  | cons word styled =>
    rw [List.forall_mem_cons] at hwords
    obtain ⟨d, hd, hsplit⟩ := splitWords_word none word.1 false hascii hwords.1
      (head_cased hascii hwords.2 hcased) (fun _ => rfl) (fun _ _ _ => rfl) (fun _ _ => rfl)
    have hcons : cased (word :: styled) = word.1.render word.2 ++ cased styled := rfl
    rw [hcons, hsplit, splitWords_cased_tail hascii hwords.2 hcased hseparated hd, List.map_cons,
      join_cons, List.flatMap_map]
    rfl

/-- **`snake_case`** stays, with its acronyms in lower case. -/
theorem splitWords_snake (hascii : unicode.OnAscii) {styled : List (Style × List Char)}
    (hwords : ∀ word ∈ styled, IsWord word.2) (hprev : ∀ next, wordBoundary unicode prev next = false) :
    splitWords unicode prev (snake styled) = join ['_'] (styled.map Prod.snd) := by
  induction styled generalizing prev with
  | nil => rfl
  | cons word styled ih =>
    rw [List.forall_mem_cons] at hwords
    have hunderscore : ∀ next, wordBoundary unicode (some '_') next = false := by
      intro next
      rw [wordBoundary, hascii.isLowercase '_' (by decide)]
      rfl
    have hsplit : ∀ rest : List Char, (∀ c ∈ rest.head?, unicode.isLowercase c = false) →
        ∃ c : Char, c.isLower = true ∧ splitWords unicode prev (word.1.render word.2 ++ rest) =
          word.2 ++ splitWords unicode (some (word.1.last c)) rest := by
      intro rest hrest
      exact splitWords_word _ _ false hascii hwords.1 hrest (fun _ => rfl)
        (fun _ _ _ => hprev _) (fun _ => hprev)
    cases styled with
    | nil =>
      obtain ⟨c, -, hword⟩ := hsplit [] (by rintro c ⟨⟩)
      have hsnake : snake [word] = word.1.render word.2 ++ [] := by simp [snake, join]
      rw [hsnake, hword]
      simp [join, splitWords]
    | cons next styled =>
      have hsnake : snake (word :: next :: styled) =
          word.1.render word.2 ++ '_' :: snake (next :: styled) := rfl
      obtain ⟨c, -, hword⟩ := hsplit ('_' :: snake (next :: styled)) (by
        rintro c ⟨⟩
        exact hascii.isLowercase '_' (by decide))
      rw [hsnake, hword, splitWords, show '_'.isUpper = false from rfl, if_neg Bool.false_ne_true,
        ih hwords.2 hunderscore]
      rfl

/-! ## The normal form -/

/-- The splitting of the standard library. -/
theorem splitOn_eq (sep : Char) (text : List Char) : splitOn sep text = text.splitOn sep := by
  induction text with
  | nil => rfl
  | cons c text ih =>
    rw [splitOn, ih, List.splitOn_cons_eq_if_modifyHead]
    cases hparts : text.splitOn sep with
    | nil => exact absurd hparts (List.splitOn_ne_nil _ _)
    | cons part parts =>
      by_cases hc : c = sep
      · simp [hc]
      · simp [hc]

theorem splitOn_join {sep : Char} {parts : List (List Char)} (hne : parts ≠ [])
    (hparts : ∀ part ∈ parts, sep ∉ part) : splitOn sep (join [sep] parts) = parts := by
  rw [splitOn_eq]
  exact List.splitOn_intercalate sep hparts hne

/-- What is joined from parts that are not empty has these parts. -/
theorem filter_splitOn_join {parts : List (List Char)} (hparts : ∀ part ∈ parts, '_' ∉ part ∧ part ≠ []) :
    (splitOn '_' (join ['_'] parts)).filter (!·.isEmpty) = parts := by
  rcases eq_or_ne parts [] with rfl | hne
  · rfl
  · rw [splitOn_join hne fun part hpart => (hparts part hpart).1, List.filter_eq_self]
    intro part hpart
    rw [Bool.not_eq_true', List.isEmpty_eq_false_iff]
    exact (hparts part hpart).2

/-- The normal form of a text that splits into lower-case parts. -/
theorem normalizeIdent_of_splitWords (hascii : unicode.OnAscii) {ident : String}
    {parts : List (List Char)} (hsplit : splitWords unicode none ident.toList = join ['_'] parts)
    (hparts : ∀ part ∈ parts, '_' ∉ part ∧ part ≠ [])
    (hlower : ∀ part ∈ parts, ∀ c ∈ part, c.toNat < 128 ∧ c.toLower = c) :
    normalizeIdent unicode ident = String.ofList (join ['_'] parts) := by
  have hmap : parts.map unicode.toLowercase = parts := by
    refine List.map_congr_left (fun part hpart => ?_) |>.trans (List.map_id parts)
    rw [hascii.toLowercase part fun c hc => (hlower part hpart c hc).1]
    exact (List.map_congr_left fun c hc => (hlower part hpart c hc).2).trans (List.map_id part)
  rw [normalizeIdent, hsplit, filter_splitOn_join hparts, hmap]

/-- The parts of a text have no separator. -/
theorem mem_splitOn {sep : Char} {text part : List Char} (h : part ∈ splitOn sep text) :
    sep ∉ part ∧ ∀ c ∈ part, c ∈ text := by
  induction text generalizing part with
  | nil =>
    obtain rfl := List.mem_singleton.1 h
    exact ⟨List.not_mem_nil, fun c hc => absurd hc List.not_mem_nil⟩
  | cons c text ih =>
    rw [splitOn] at h
    cases hparts : splitOn sep text with
    | nil =>
      rw [splitOn_eq] at hparts
      exact absurd hparts (List.splitOn_ne_nil _ _)
    | cons first parts =>
      rw [hparts] at h ih
      have hkeep : ∀ part ∈ first :: parts, sep ∉ part ∧ ∀ d ∈ part, d ∈ c :: text := by
        intro part hpart
        exact ⟨(ih hpart).1, fun d hd => List.mem_cons_of_mem _ ((ih hpart).2 d hd)⟩
      simp only at h
      split_ifs at h with hc
      · rcases List.mem_cons.1 h with rfl | h
        · exact ⟨List.not_mem_nil, fun d hd => absurd hd List.not_mem_nil⟩
        · exact hkeep part h
      · rcases List.mem_cons.1 h with rfl | h
        · obtain ⟨hsep, hmem⟩ := hkeep first List.mem_cons_self
          refine ⟨?_, List.forall_mem_cons.2 ⟨List.mem_cons_self, hmem⟩⟩
          rw [List.mem_cons, not_or]
          exact ⟨Ne.symm hc, hsep⟩
        · exact hkeep part (List.mem_cons_of_mem _ h)

/-- What is used of an ASCII character in lower case. -/
theorem toLower_ascii {c : Char} (h : c.toNat < 128) :
    c.toLower.toNat < 128 ∧ c.toLower.isUpper = false ∧ (c.toLower = '_' → c = '_') := by
  have hall : ∀ n ∈ List.range 128, (Char.ofNat n).toLower.toNat < 128 ∧
      (Char.ofNat n).toLower.isUpper = false ∧
        ((Char.ofNat n).toLower = '_' → Char.ofNat n = '_') := by decide +kernel
  exact Char.ofNat_toNat c ▸ hall c.toNat (List.mem_range.2 h)

theorem splitWords_ascii {text : List Char} (h : ∀ c ∈ text, c.toNat < 128) :
    ∀ c ∈ splitWords unicode prev text, c.toNat < 128 := by
  induction text generalizing prev with
  | nil => exact fun c hc => absurd hc List.not_mem_nil
  | cons c text ih =>
    rw [List.forall_mem_cons] at h
    have hlower := (toLower_ascii h.1).1
    rw [splitWords]
    split_ifs
    · exact List.forall_mem_cons.2 ⟨by decide, List.forall_mem_cons.2 ⟨hlower, ih h.2⟩⟩
    · exact List.forall_mem_cons.2 ⟨hlower, ih h.2⟩
    · exact List.forall_mem_cons.2 ⟨h.1, ih h.2⟩

/-- A text without upper-case letters is not split. -/
theorem splitWords_of_notUpper {text : List Char} (h : ∀ c ∈ text, c.isUpper = false) :
    splitWords unicode prev text = text := by
  induction text generalizing prev with
  | nil => rfl
  | cons c text ih =>
    rw [List.forall_mem_cons] at h
    rw [splitWords, h.1, if_neg Bool.false_ne_true, ih h.2]

theorem mem_join {parts : List (List Char)} {c : Char} (h : c ∈ join ['_'] parts) :
    c = '_' ∨ ∃ part ∈ parts, c ∈ part := by
  cases parts with
  | nil => exact absurd h List.not_mem_nil
  | cons part parts =>
    rw [join_cons, List.mem_append, List.mem_flatMap] at h
    rcases h with h | ⟨next, hnext, h⟩
    · exact .inr ⟨part, List.mem_cons_self, h⟩
    · rcases List.mem_cons.1 h with rfl | h
      · exact .inl rfl
      · exact .inr ⟨next, List.mem_cons_of_mem _ hnext, h⟩

/-- The normal form of an ASCII identifier is its own normal form. -/
theorem normalizeIdent_idem (hascii : unicode.OnAscii) {ident : String}
    (hident : ∀ c ∈ ident.toList, c.toNat < 128) :
    normalizeIdent unicode (normalizeIdent unicode ident) = normalizeIdent unicode ident := by
  let parts := (splitOn '_' (splitWords unicode none ident.toList)).filter (!·.isEmpty)
  have hpart : ∀ part ∈ parts, '_' ∉ part ∧ part ≠ [] ∧ ∀ c ∈ part, c.toNat < 128 := by
    intro part hpart
    obtain ⟨hmem, hne⟩ := List.mem_filter.1 hpart
    obtain ⟨hsep, htext⟩ := mem_splitOn hmem
    refine ⟨hsep, ?_, fun c hc => splitWords_ascii hident c (htext c hc)⟩
    rintro rfl
    cases hne
  have hlower : parts.map unicode.toLowercase = parts.map (·.map Char.toLower) :=
    List.map_congr_left fun part h => hascii.toLowercase part (hpart part h).2.2
  have hform : ∀ part ∈ parts.map (·.map Char.toLower), ('_' ∉ part ∧ part ≠ []) ∧
      ∀ c ∈ part, (c.toNat < 128 ∧ c.toLower = c) ∧ c.isUpper = false := by
    intro part hmem
    obtain ⟨part, h, rfl⟩ := List.mem_map.1 hmem
    obtain ⟨hsep, hne, hchars⟩ := hpart part h
    refine ⟨⟨?_, fun hnil => hne (List.map_eq_nil_iff.1 hnil)⟩, ?_⟩
    · intro hmem
      obtain ⟨c, hc, heq⟩ := List.mem_map.1 hmem
      exact hsep ((toLower_ascii (hchars c hc)).2.2 heq ▸ hc)
    · intro d hd
      obtain ⟨c, hc, rfl⟩ := List.mem_map.1 hd
      obtain ⟨hlt, hupper, -⟩ := toLower_ascii (hchars c hc)
      exact ⟨⟨hlt, toLower_toLower c⟩, hupper⟩
  have hnormal : normalizeIdent unicode ident =
      String.ofList (join ['_'] (parts.map (·.map Char.toLower))) := by
    rw [← hlower]
    rfl
  rw [hnormal]
  refine normalizeIdent_of_splitWords hascii ?_ (fun part h => (hform part h).1)
    (fun part h c hc => ((hform part h).2 c hc).1)
  rw [String.toList_ofList]
  refine splitWords_of_notUpper fun c hc => ?_
  rcases mem_join hc with rfl | ⟨part, h, hc⟩
  · rfl
  · exact ((hform part h).2 c hc).2

/-- The normal form of words is the words joined by underscores. -/
theorem normalizeIdent_of_words (hascii : unicode.OnAscii) {words : List (List Char)}
    (hwords : ∀ word ∈ words, IsWord word) {text : List Char}
    (hsplit : splitWords unicode none text = join ['_'] words) :
    normalizeIdent unicode (String.ofList text) = String.ofList (join ['_'] words) := by
  refine normalizeIdent_of_splitWords hascii (by rwa [String.toList_ofList]) ?_ ?_
  · intro word h
    constructor
    · intro hmem
      exact (letter_of_isLower ((hwords word h).letters _ hmem)).notUnderscore rfl
    · rintro rfl
      have htwo := (hwords [] h).two
      simp at htwo
  · intro word h c hc
    have hletter := letter_of_isLower ((hwords word h).letters c hc)
    exact ⟨hletter.ascii, hletter.toLower⟩

/-- **Normalisation is canonical**: it is idempotent on ASCII, and the conventions of a list of
    words have one normal form, the words joined by underscores. -/
theorem normalizeIdent_canonical (hascii : unicode.OnAscii) :
    (∀ ident : String, (∀ c ∈ ident.toList, c.toNat < 128) →
      normalizeIdent unicode (normalizeIdent unicode ident) = normalizeIdent unicode ident) ∧
    ∀ styled : List (Style × List Char), (∀ word ∈ styled, IsWord word.2) → Separated styled →
      normalizeIdent unicode (String.ofList (snake styled)) =
          String.ofList (join ['_'] (styled.map Prod.snd)) ∧
        ((∀ word ∈ styled.tail, word.1 ≠ .lower) →
          normalizeIdent unicode (String.ofList (cased styled)) =
            String.ofList (join ['_'] (styled.map Prod.snd))) := by
  refine ⟨fun ident => normalizeIdent_idem hascii, fun styled hwords hseparated => ?_⟩
  have hmap : ∀ word ∈ styled.map Prod.snd, IsWord word := by
    intro word hword
    obtain ⟨styledWord, h, rfl⟩ := List.mem_map.1 hword
    exact hwords styledWord h
  constructor
  · exact normalizeIdent_of_words hascii hmap (splitWords_snake hascii hwords fun next => rfl)
  · intro hcased
    exact normalizeIdent_of_words hascii hmap (splitWords_cased hascii hwords hcased hseparated)

/-- The tables of ASCII. -/
def asciiUnicode : UnicodeTables where
  isWord c := c.isAlphanum || c = '_'
  isLowercase := Char.isLower
  toLowercase := toAsciiLowercase

theorem asciiUnicode_onAscii : asciiUnicode.OnAscii := ⟨fun _ _ => rfl, fun _ _ => rfl⟩

/-- `HTTPServer`, and `httpServer` -/
theorem normalizeIdent_canonical_http :
    normalizeIdent asciiUnicode (normalizeIdent asciiUnicode "HTTPServer") =
        normalizeIdent asciiUnicode "HTTPServer" ∧
      normalizeIdent asciiUnicode
          (String.ofList (cased [(.acronym, "http".toList), (.capital, "server".toList)])) =
        String.ofList (join ['_'] ["http".toList, "server".toList]) ∧
      normalizeIdent asciiUnicode
          (String.ofList (cased [(.lower, "http".toList), (.capital, "server".toList)])) =
        String.ofList (join ['_'] ["http".toList, "server".toList]) := by
  have hhttp : IsWord "http".toList := ⟨by simp, by decide⟩
  have hserver : IsWord "server".toList := ⟨by simp, by decide⟩
  obtain ⟨hidem, hwords⟩ := normalizeIdent_canonical asciiUnicode_onAscii
  refine ⟨hidem "HTTPServer" (by simp), ?_, ?_⟩
  · refine (hwords [(.acronym, "http".toList), (.capital, "server".toList)] ?_ ?_).2 (by decide)
    · exact List.forall_mem_cons.2 ⟨hhttp, List.forall_mem_singleton.2 hserver⟩
    · simp [Separated]
  · refine (hwords [(.lower, "http".toList), (.capital, "server".toList)] ?_ ?_).2 (by decide)
    · exact List.forall_mem_cons.2 ⟨hhttp, List.forall_mem_singleton.2 hserver⟩
    · simp [Separated]

end

end Text

end Cognis
