/-
  The scanner of the DDL over the items of a text: each function of the scanner finds what
  stands at its position.

  * `skipWs_gap`, `readWordAt_word`, `readNamePart_name`: a gap, a word and a name;
  * `Tracks.nested`: a loop that counts the parentheses goes through balanced items.
-/
import Cognis.Indexer.Ddl

namespace Cognis

open Cursor Text

namespace Artifact

namespace Sql

section

variable {classes : CharClasses} {cl rest tail : List Char} {gap : Gap} {token : Token}
  {items : List Item} {i : ℕ}

/-! ## Places -/

theorem at_gap (h : At cl i (gap.clean ++ rest)) : At cl (i + gap.source.length) rest := by
  rw [← length_clean]
  exact h.skip

theorem at_items (h : At cl i (cleanText items tail)) : At cl (i + width items) tail := by
  rw [← length_cleanText]
  rw [cleanText_eq_append] at h
  exact h.skip

theorem at_item (h : At cl i (cleanText ((gap, token) :: items) tail)) :
    At cl (i + width [(gap, token)]) (cleanText items tail) := by
  rw [← List.singleton_append, cleanText_append] at h
  exact at_items h

theorem at_token (h : At cl i (cleanText ((gap, token) :: items) tail)) :
    At cl (i + gap.source.length) (token.text ++ cleanText items tail) := at_gap h

/-! ## Gaps and words -/

theorem skipWs_gap (h : At cl i (gap.clean ++ rest)) (hrest : ∀ c ∈ rest.head?, isWhitespace c = false) :
    skipWs cl i = some (i + gap.source.length) := by
  rw [← length_clean, skipWs, advanceWhile_at h isWhitespace_clean h.le_of_append]
  cases rest with
  | nil =>
    left
    obtain ⟨front, rfl, rfl⟩ := h
    rw [List.append_nil, List.length_append]
  | cons c rest => exact .inr ⟨c, rfl, hrest c rfl⟩

/-- The gap before a token is skipped. -/
theorem skipWs_item (h : At cl i (cleanText ((gap, token) :: items) tail))
    (hvalid : token.Valid classes) : skipWs cl i = some (i + gap.source.length) := by
  refine skipWs_gap h ?_
  obtain ⟨c, text, htext, hblank⟩ := hvalid.exists_cons
  rw [htext]
  rintro d ⟨⟩
  exact hblank

theorem readWordAt_word {word : List Char} (hvalid : (Token.word word).Valid classes)
    (hends : (Token.word word).Ends classes rest) (h : At cl i (word ++ rest)) :
    readWordAt classes cl i = some (some (word, i + word.length)) := by
  have hstop : advanceWhile cl (isIdentChar classes) cl.length i = some (i + word.length) := by
    refine advanceWhile_at h hvalid.2 h.le_of_append ?_
    cases rest with
    | nil =>
      left
      obtain ⟨front, rfl, rfl⟩ := h
      rw [List.append_nil, List.length_append]
    | cons c rest => exact .inr ⟨c, rfl, hends c rfl⟩
  have hslice := h.slice
  obtain ⟨c, text, rfl⟩ := List.exists_cons_of_ne_nil hvalid.1
  rw [readWordAt, if_pos h.lt, At.getElem? h, Option.bind_eq_bind, Option.bind_some,
    if_pos (hvalid.2 c List.mem_cons_self)]
  simp only [hstop, hslice, Option.bind_eq_bind, Option.bind_some]

theorem readWordAt_none (hrest : ∀ c ∈ rest.head?, isIdentChar classes c = false) (h : At cl i rest) :
    readWordAt classes cl i = some none := by
  rw [readWordAt]
  split_ifs with hi
  · cases rest with
    | nil =>
      obtain ⟨front, rfl, rfl⟩ := h
      rw [List.append_nil] at hi
      exact absurd hi (Nat.lt_irrefl _)
    | cons c rest =>
      rw [h.getElem?, Option.bind_eq_bind, Option.bind_some, hrest c rfl]
      rfl
  · rfl

/-! ## Keywords -/

theorem isIdentChar_of_toLower {c : Char} (h : isIdentChar classes c.toLower = true) :
    isIdentChar classes c = true := by
  by_cases hupper : c.val ≥ 'A'.val ∧ c.val ≤ 'Z'.val
  · have hascii : c.toNat < 128 := Nat.lt_of_le_of_lt (UInt32.le_iff_toNat_le.1 hupper.2) (by decide)
    have halnum : c.isAlphanum = true := by
      have hisUpper : c.isUpper = true := decide_eq_true hupper
      show (c.isUpper || c.isLower || c.isDigit) = true
      rw [hisUpper]
      rfl
    rw [isIdentChar, classes.alphanumeric_ascii c hascii, halnum]
    rfl
  · unfold Char.toLower at h
    rwa [dif_neg hupper] at h

/-- The words that the scanner knows. -/
def keywords : List (List Char) :=
  "create".toList :: "table".toList :: "if".toList :: "not".toList :: "exists".toList ::
    (tableModifiers ++ constraintKeywords)

/-- A keyword, in any case, is a word. -/
theorem valid_of_keyword {word : List Char} (h : toAsciiLowercase word ∈ keywords) :
    (Token.word word).Valid classes := by
  have hall : ∀ kw ∈ keywords, kw ≠ [] ∧
      kw.all (fun c => decide (c.toNat < 128) && isIdentChar asciiClasses c) = true := by
    decide +kernel
  obtain ⟨hne, hword⟩ := hall _ h
  rw [List.all_eq_true] at hword
  constructor
  · rintro rfl
    exact hne rfl
  · intro c hc
    obtain ⟨hascii, hident⟩ := Bool.and_eq_true_iff.1 (hword c.toLower (List.mem_map_of_mem hc))
    exact isIdentChar_of_toLower ((isIdentChar_ascii (of_decide_eq_true hascii)).trans hident)

/-- A word in the items. -/
theorem readWordAt_item {word : List Char} (hvalid : (Token.word word).Valid classes)
    (hapart : ApartClean classes ((gap, .word word) :: items) tail)
    (h : At cl i (cleanText ((gap, .word word) :: items) tail)) :
    skipWs cl i = some (i + gap.source.length) ∧
      readWordAt classes cl (i + gap.source.length) =
        some (some (word, i + width [(gap, .word word)])) := by
  refine ⟨skipWs_item h hvalid, ?_⟩
  rw [readWordAt_word hvalid hapart.1 (at_token h), width_singleton, ← Nat.add_assoc]
  rfl

/-- No word stands before another token. -/
theorem readWordAt_other (hvalid : token.Valid classes)
    (hother : ∀ c ∈ token.text.head?, isIdentChar classes c = false)
    (h : At cl i (cleanText ((gap, token) :: items) tail)) :
    readWordAt classes cl (i + gap.source.length) = some none := by
  refine readWordAt_none ?_ (at_token h)
  obtain ⟨c, text, htext, -⟩ := hvalid.exists_cons
  rw [htext] at hother ⊢
  exact hother

theorem lt_length_of_item (hvalid : token.Valid classes)
    (h : At cl i (cleanText ((gap, token) :: items) tail)) : i + gap.source.length < cl.length := by
  obtain ⟨c, text, htext, -⟩ := hvalid.exists_cons
  have htoken := at_token h
  rw [htext] at htoken
  exact htoken.lt

/-! ## The words of a statement -/

theorem moving_modifierTurn (classes : CharClasses) (cl : List Char) :
    Moving cl.length (modifierTurn classes cl) := by
  intro s i s' j hi h
  obtain ⟨p, hp, hip⟩ : ∃ p, skipWs cl i = some p ∧ i ≤ p := skipWs_spec i
  rcases readWordAt_spec classes cl p with hword | ⟨word, stop, hword, hlt⟩
  · simp only [modifierTurn, hp, hword, Option.bind_eq_bind, Option.bind_some] at h
    cases h
  · simp only [modifierTurn, hp, hword, Option.bind_eq_bind, Option.bind_some] at h
    split_ifs at h
    · cases h
    · cases h
      omega
    · cases h

/-- The modifiers are skipped, and `TABLE` is found. -/
theorem skipModifiers_words {modifiers : List (Gap × List Char)} {table : Gap × List Char}
    (hmodifiers : ∀ word ∈ modifiers, toAsciiLowercase word.2 ∈ tableModifiers)
    (htable : toAsciiLowercase table.2 = "table".toList)
    (hapart : ApartClean classes (Statement.wordItems (modifiers ++ [table]) ++ items) tail)
    (h : At cl i (cleanText (Statement.wordItems (modifiers ++ [table]) ++ items) tail)) :
    skipModifiers classes cl i =
      some (true, i + width (Statement.wordItems (modifiers ++ [table]))) := by
  rw [skipModifiers]
  induction modifiers generalizing i with
  | nil =>
    have hvalid : (Token.word table.2).Valid classes :=
      valid_of_keyword (by rw [htable]; decide +kernel)
    obtain ⟨hws, hword⟩ := readWordAt_item hvalid hapart h
    refine scan_stop ?_ ?_
    · have hlt := lt_length_of_item hvalid h
      omega
    · simp only [modifierTurn, hws, hword, Option.bind_eq_bind, Option.bind_some, if_pos htable]
      rfl
  | cons word modifiers ih =>
    rw [List.forall_mem_cons] at hmodifiers
    have hkeyword : toAsciiLowercase word.2 ∈ keywords := by
      simp only [keywords, List.mem_cons, List.mem_append, hmodifiers.1, true_or, or_true]
    have hvalid : (Token.word word.2).Valid classes := valid_of_keyword hkeyword
    have hne : toAsciiLowercase word.2 ≠ "table".toList := by
      intro heq
      have hmem := hmodifiers.1
      rw [heq] at hmem
      revert hmem
      decide +kernel
    obtain ⟨hws, hword⟩ := readWordAt_item hvalid hapart h
    have hitems : Statement.wordItems (word :: modifiers ++ [table]) =
        [(word.1, .word word.2)] ++ Statement.wordItems (modifiers ++ [table]) := rfl
    rw [scan_next (moving_modifierTurn classes cl) (j := i + width [(word.1, .word word.2)]) ?_ ?_]
    · rw [ih hmodifiers.2 hapart.2 (at_item h), hitems, width_append,
        Nat.add_assoc]
    · have hlt := lt_length_of_item hvalid h
      omega
    · simp only [modifierTurn, hws, hword, Option.bind_eq_bind, Option.bind_some, if_neg hne,
        if_pos hmodifiers.1]

/-- `IF NOT EXISTS` is skipped. -/
theorem skipKeywords_words {guard : List (Gap × List Char)} {kws : List (List Char)}
    (hguard : guard.map (fun word => toAsciiLowercase word.2) = kws) (hkws : ∀ kw ∈ kws, kw ∈ keywords)
    (hapart : ApartClean classes (Statement.wordItems guard ++ items) tail)
    (h : At cl i (cleanText (Statement.wordItems guard ++ items) tail)) (save : ℕ) :
    skipKeywords classes cl save kws i = some (i + width (Statement.wordItems guard)) := by
  induction guard generalizing kws i with
  | nil =>
    obtain rfl : [] = kws := hguard
    rfl
  | cons word guard ih =>
    obtain rfl : toAsciiLowercase word.2 :: guard.map (fun word => toAsciiLowercase word.2) = kws :=
      hguard
    rw [List.forall_mem_cons] at hkws
    obtain ⟨hws, hword⟩ := readWordAt_item (valid_of_keyword hkws.1) hapart h
    have hitems : Statement.wordItems (word :: guard) =
        [(word.1, .word word.2)] ++ Statement.wordItems guard := rfl
    simp only [skipKeywords, hws, hword, Option.bind_eq_bind, Option.bind_some, if_true]
    rw [ih rfl hkws.2 hapart.2 (at_item h), hitems, width_append,
      Nat.add_assoc]

/-- A name is not `IF NOT EXISTS`: after it comes no word. -/
theorem skipIfNotExists_name {name : Name} {next : Gap} {c : Char} (hname : name.token.Valid classes)
    (hc : (Token.punct c).Valid classes)
    (hapart : ApartClean classes ((gap, name.token) :: (next, .punct c) :: items) tail)
    (h : At cl i (cleanText ((gap, name.token) :: (next, .punct c) :: items) tail)) :
    skipIfNotExists classes cl i = some i := by
  cases name with
  | plain word =>
    obtain ⟨hws, hword⟩ := readWordAt_item hname hapart h
    have hnext := at_item (show At cl i (cleanText ((gap, .word word) :: _) tail) from h)
    have hws' := skipWs_item hnext hc
    have hnone := readWordAt_other hc (fun d hd => by
      obtain rfl := Option.some_inj.1 hd
      exact hc.1) hnext
    simp only [skipIfNotExists, skipKeywords, hws, hword, hws', hnone, Option.bind_eq_bind,
      Option.bind_some]
    split_ifs
    · rfl
    · rfl
  | quoted opening content =>
    have hclosing : ∃ close, closingOf opening = some close ∧ close ∉ doubled opening content := hname
    obtain ⟨close, hclose, -⟩ := hclosing
    have hopening : isIdentChar classes opening = false := by
      by_contra hident
      rw [closingOf_of_isIdentChar (Bool.not_eq_false _ ▸ hident)] at hclose
      cases hclose
    have hws := skipWs_item h hname
    have hnone := readWordAt_other hname (fun d hd => by
      obtain rfl := Option.some_inj.1 hd
      exact hopening) h
    simp only [skipIfNotExists, skipKeywords, hws, hnone, Option.bind_eq_bind, Option.bind_some]

/-! ## Names -/

/-- A name that can be read: it is not empty, and it has no closing quote. -/
structure Name.Readable (classes : CharClasses) (name : Name) : Prop where
  valid : name.Valid classes
  unescaped : name.Unescaped

theorem doubled_of_unescaped {opening : Char} {content : List Char}
    (h : ∀ c ∈ content, closingOf opening ≠ some c) : doubled opening content = content := by
  induction content with
  | nil => rfl
  | cons c content ih =>
    rw [List.forall_mem_cons] at h
    rw [doubled, List.flatMap_cons, if_neg h.1]
    exact congrArg _ (ih h.2)

theorem closingOf_of_nameClosing {opening close : Char} (h : nameClosing opening = some close) :
    closingOf opening = some close := by
  rw [nameClosing] at h
  split_ifs at h
  exact h

theorem Name.Readable.valid_token {name : Name} (h : name.Readable classes) : name.token.Valid classes := by
  cases name with
  | plain word => exact h.valid
  | quoted opening content =>
    obtain ⟨close, hclose⟩ := Option.isSome_iff_exists.1 h.valid.1
    refine ⟨close, closingOf_of_nameClosing hclose, ?_⟩
    rw [doubled_of_unescaped h.unescaped]
    intro hmem
    exact h.unescaped close hmem (closingOf_of_nameClosing hclose)

theorem Name.Readable.ident_ne_nil {name : Name} (h : name.Readable classes) : name.ident ≠ [] := by
  cases name with
  | plain word => exact h.valid.1
  | quoted opening content => exact h.valid.2

/-- A name is read. -/
theorem readNamePart_name {name : Name} (hname : name.Readable classes)
    (hapart : ApartClean classes ((gap, name.token) :: items) tail)
    (h : At cl i (cleanText ((gap, name.token) :: items) tail)) :
    readNamePart classes cl i = some (some name.ident, i + width [(gap, name.token)]) := by
  have hws := skipWs_item h hname.valid_token
  have hlt := lt_length_of_item hname.valid_token h
  cases name with
  | plain word =>
    obtain ⟨-, hword⟩ := readWordAt_item hname.valid_token hapart h
    obtain ⟨c, text, hcons⟩ := List.exists_cons_of_ne_nil hname.valid.1
    have hclosing : nameClosing c = none := by
      have hident := hname.valid.2 c (by rw [hcons]; exact List.mem_cons_self)
      rw [nameClosing, closingOf_of_isIdentChar hident, ite_self]
    have hfirst : cl[i + gap.source.length]? = some c := by
      have htoken : At cl (i + gap.source.length) (word ++ cleanText items tail) := at_token h
      rw [hcons] at htoken
      exact htoken.getElem?
    simp only [readNamePart, hws, if_pos hlt, hfirst, hclosing, hword, Option.bind_eq_bind,
      Option.bind_some]
    rfl
  | quoted opening content =>
    obtain ⟨close, hclose⟩ := Option.isSome_iff_exists.1 hname.valid.1
    have hclosing := closingOf_of_nameClosing hclose
    have htoken : At cl (i + gap.source.length)
        (opening :: (content ++ close :: cleanText items tail)) := by
      have htoken := at_token h
      rwa [Name.token, Token.text, doubled_of_unescaped hname.unescaped, hclosing, List.cons_append,
        List.append_assoc] at htoken
    have hcontent := htoken.tail
    have hend := hcontent.skip
    have hstop : advanceWhile cl (fun c => decide (c ≠ close)) cl.length (i + gap.source.length + 1) =
        some (i + gap.source.length + 1 + content.length) := by
      refine advanceWhile_at hcontent ?_ hcontent.le_of_append (.inr ⟨close, rfl, by simp⟩)
      intro c hc
      rw [decide_eq_true_eq]
      rintro rfl
      exact hname.unescaped c hc hclosing
    have hwidth : i + width [(gap, (Name.quoted opening content).token)] =
        i + gap.source.length + 1 + content.length + 1 := by
      rw [width_singleton, Name.token, Token.text, doubled_of_unescaped hname.unescaped, hclosing,
        List.length_cons, List.length_append, Option.toList_some, List.length_singleton]
      omega
    simp only [readNamePart, hws, if_pos hlt, htoken.getElem?, hclose, hstop, hcontent.slice,
      if_pos hend.lt, hwidth, Option.bind_eq_bind, Option.bind_some]
    rfl

theorem moving_namePartTurn (classes : CharClasses) (cl : List Char) :
    Moving cl.length (namePartTurn classes cl) := by
  intro s i s' j hi h
  obtain ⟨p, hp, hip⟩ : ∃ p, skipWs cl i = some p ∧ i ≤ p := skipWs_spec i
  obtain ⟨c, hc, -⟩ := peek_spec (le_refl cl.length) ' ' p
  obtain ⟨part, q, hpart, hpq⟩ := readNamePart_spec classes cl (p + 1)
  simp only [namePartTurn, hp, hc, hpart, Option.bind_eq_bind, Option.bind_some] at h
  split_ifs at h
  · cases part with
    | none => cases h
    | some part =>
      cases h
      omega
  · cases h

theorem valid_punct {c : Char} (hc : c.toNat < 128) (hident : isIdentChar asciiClasses c = false)
    (hblank : isWhitespace c = false) (hclose : closingOf c = none) :
    (Token.punct c).Valid classes := ⟨(isIdentChar_ascii hc).trans hident, hblank, hclose⟩

/-- The parts after the dots are read, up to the parenthesis. -/
theorem scan_nameParts {more : List (Gap × Gap × Name)} {opening : Gap} (first : Name)
    (hmore : ∀ part ∈ more, part.2.2.Readable classes)
    (hapart : ApartClean classes (Statement.moreItems more ++ (opening, .punct '(') :: items) tail)
    (h : At cl i (cleanText (Statement.moreItems more ++ (opening, .punct '(') :: items) tail)) :
    scan cl.length (namePartTurn classes cl) Prod.mk first.ident i =
      some (((more.getLast?.map (·.2.2)).getD first).ident, i + width (Statement.moreItems more)) := by
  induction more generalizing first i with
  | nil =>
    have hparen : (Token.punct '(').Valid classes :=
      valid_punct (by decide) (by decide) (by decide) (by decide)
    have hlt := lt_length_of_item hparen h
    have hpeek : peek cl ' ' cl.length (i + opening.source.length) = some '(' :=
      (at_token h).peek ' ' hlt
    refine scan_stop (by omega) ?_
    simp only [namePartTurn, skipWs_item h hparen, hpeek, Option.bind_eq_bind, Option.bind_some]
    rfl
  | cons part more ih =>
    obtain ⟨before, after, name⟩ := part
    rw [List.forall_mem_cons] at hmore
    have hdot : (Token.punct '.').Valid classes :=
      valid_punct (by decide) (by decide) (by decide) (by decide)
    have hlt := lt_length_of_item hdot h
    have hpeek : peek cl ' ' cl.length (i + before.source.length) = some '.' :=
      (at_token h).peek ' ' hlt
    have hname : At cl (i + before.source.length + 1)
        (cleanText ((after, name.token) :: (Statement.moreItems more ++ (opening, .punct '(') :: items)) tail) :=
      (at_token h).tail
    have hitems : Statement.moreItems ((before, after, name) :: more) =
        [(before, Token.punct '.')] ++ ([(after, name.token)] ++ Statement.moreItems more) := rfl
    have hwidth : i + width (Statement.moreItems ((before, after, name) :: more)) =
        i + before.source.length + 1 + width [(after, name.token)] + width (Statement.moreItems more) := by
      rw [hitems, width_append, width_append, width_singleton]
      simp only [Token.text, List.length_singleton]
      omega
    rw [scan_next (moving_namePartTurn classes cl) (by omega)
      (j := i + before.source.length + 1 + width [(after, name.token)]) (t := name.ident) ?_]
    · rw [ih name hmore.2 hapart.2.2 (at_item hname), hwidth,
        List.getLast?_cons]
      cases more.getLast? <;> rfl
    · simp only [namePartTurn, skipWs_item h hdot, hpeek, readNamePart_name hmore.1 hapart.2 hname,
        Option.bind_eq_bind, Option.bind_some]
      rfl

/-- The name of the table is read. -/
theorem readQualifiedName_parts {first : Gap × Name} {more : List (Gap × Gap × Name)} {opening : Gap}
    (hfirst : first.2.Readable classes) (hmore : ∀ part ∈ more, part.2.2.Readable classes)
    (hapart : ApartClean classes ((first.1, first.2.token) ::
      (Statement.moreItems more ++ (opening, .punct '(') :: items)) tail)
    (h : At cl i (cleanText ((first.1, first.2.token) ::
      (Statement.moreItems more ++ (opening, .punct '(') :: items)) tail)) :
    readQualifiedName classes cl i =
      some (some ((more.getLast?.map (·.2.2)).getD first.2).ident,
        i + width ((first.1, first.2.token) :: Statement.moreItems more)) := by
  have hlast : ((more.getLast?.map (·.2.2)).getD first.2).ident ≠ [] := by
    cases hl : more.getLast? with
    | none => exact hfirst.ident_ne_nil
    | some part => exact (hmore part (List.mem_of_getLast? hl)).ident_ne_nil
  have hscan := scan_nameParts first.2 hmore hapart.2 (at_item h)
  simp only [readQualifiedName, readNamePart_name hfirst hapart h, hscan, Option.bind_eq_bind,
    Option.bind_some, if_neg hlast]
  rw [width_cons first.1 first.2.token (Statement.moreItems more), width_singleton, Nat.add_assoc]

/-! ## Parentheses -/

/-- A loop that counts the parentheses outside the quoted texts. -/
structure Tracks {σ ρ : Type} (cl : List Char) (bound : ℕ) (turn : σ → ℕ → Option (Move σ ρ))
    (state : ℕ → QuoteState → σ) : Prop where
  moving : Moving bound turn
  inside : ∀ d q c j, cl[j]? = some c → (QuoteState.step q c).1 = true →
    turn (state d q) j = some (.next (state d (QuoteState.step q c).2) (j + 1))
  quiet : ∀ d c j, d < 2 ^ 32 → cl[j]? = some c → closingOf c = none → c ≠ '(' → c ≠ ')' →
    (c = ',' → 0 < d) → turn (state d none) j = some (.next (state d none) (j + 1))
  opened : ∀ d j, cl[j]? = some '(' →
    turn (state d none) j = some (.next (state (d + 1) none) (j + 1))
  closed : ∀ d j, 0 < d → d < 2 ^ 32 → cl[j]? = some ')' →
    turn (state d none) j = some (.next (state (d - 1) none) (j + 1))

theorem depth_succ (d : ℕ) : Int32.ofNat (d + 1) = Int32.ofNat d + 1 := Int32.ofNat_add d 1

theorem depth_pred {d : ℕ} (h : 0 < d) : Int32.ofNat d - 1 = Int32.ofNat (d - 1) := by
  obtain ⟨d, rfl⟩ := Nat.exists_eq_succ_of_ne_zero h.ne'
  rw [Nat.succ_eq_add_one, depth_succ, Int32.add_sub_cancel, Nat.add_sub_cancel]

theorem depth_ne_zero {d : ℕ} (h : 0 < d) (hbound : d < 2 ^ 32) : Int32.ofNat d ≠ 0 := by
  intro heq
  have hnat : d % 2 ^ 32 = 0 := congrArg (fun n => n.toUInt32.toNat) heq
  omega

theorem step_none_of_closingOf {c : Char} (h : closingOf c = none) :
    QuoteState.step none c = (false, none) := by
  rw [QuoteState.step, h]
  rfl

theorem tracks_parenTurn (cl : List Char) :
    Tracks cl cl.length (parenTurn cl) fun d q => (Int32.ofNat (d + 1), q) where
  moving := by
    rintro ⟨depth, q⟩ i s' j hi h
    obtain ⟨c, hc⟩ := exists_getElem? hi
    simp only [parenTurn, hc, Option.bind_eq_bind, Option.bind_some] at h
    split_ifs at h
    · cases h
      exact Nat.lt_succ_self i
    · cases h
      exact Nat.lt_succ_self i
    · cases h
    · cases h
      exact Nat.lt_succ_self i
    · cases h
      exact Nat.lt_succ_self i
  inside := by
    intro d q c j hc hinside
    simp only [parenTurn, hc, hinside, Option.bind_eq_bind, Option.bind_some, if_true]
  quiet := by
    intro d c j _ hc hclose hopen hclosed _
    simp only [parenTurn, hc, step_none_of_closingOf hclose, Option.bind_eq_bind, Option.bind_some,
      if_neg hopen, if_neg hclosed, Bool.false_eq_true, if_false]
  opened := by
    intro d j hc
    simp only [parenTurn, hc, step_none_of_closingOf (show closingOf '(' = none from by decide),
      Option.bind_eq_bind, Option.bind_some, if_true, Bool.false_eq_true, if_false, depth_succ]
  closed := by
    intro d j hd hbound hc
    have hne : Int32.ofNat d ≠ 0 := depth_ne_zero hd hbound
    have hpred : Int32.ofNat (d + 1) - 1 = Int32.ofNat d := depth_pred (Nat.succ_pos d)
    simp only [parenTurn, hc, step_none_of_closingOf (show closingOf ')' = none from by decide),
      Option.bind_eq_bind, Option.bind_some, if_true, Bool.false_eq_true, if_false, hpred,
      if_neg hne, Nat.sub_add_cancel hd]
    rfl

theorem tracks_segmentTurn (cl : List Char) (bound : ℕ) (hbound : bound ≤ cl.length)
    (done : List (ℕ × ℕ)) (start : ℕ) :
    Tracks cl bound (segmentTurn cl) fun d q => ⟨done, start, Int32.ofNat d, q⟩ where
  moving := by
    intro st i s' j hi h
    obtain ⟨c, hc⟩ := exists_getElem? (hi.trans_le hbound)
    simp only [segmentTurn, hc, Option.bind_eq_bind, Option.bind_some] at h
    split_ifs at h
    all_goals
      cases h
      exact Nat.lt_succ_self i
  inside := by
    intro d q c j hc hinside
    simp only [segmentTurn, hc, hinside, Option.bind_eq_bind, Option.bind_some, if_true]
  quiet := by
    intro d c j hd hc hclose hopen hclosed hcomma
    have hnot : ¬ (c = ',' ∧ Int32.ofNat d = 0) := fun h => depth_ne_zero (hcomma h.1) hd h.2
    simp only [segmentTurn, hc, step_none_of_closingOf hclose, Option.bind_eq_bind, Option.bind_some,
      if_neg hopen, if_neg hclosed, if_neg hnot, Bool.false_eq_true, if_false]
  opened := by
    intro d j hc
    simp only [segmentTurn, hc, step_none_of_closingOf (show closingOf '(' = none from by decide),
      Option.bind_eq_bind, Option.bind_some, if_true, Bool.false_eq_true, if_false, depth_succ]
  closed := by
    intro d j hd _ hc
    simp only [segmentTurn, hc, step_none_of_closingOf (show closingOf ')' = none from by decide),
      Option.bind_eq_bind, Option.bind_some, if_true, Bool.false_eq_true, if_false, depth_pred hd]
    rfl

section

variable {σ ρ : Type} {bound : ℕ} {turn : σ → ℕ → Option (Move σ ρ)} {state : ℕ → QuoteState → σ}
  {finish : σ → ℕ → ρ} {d : ℕ}

/-- Characters that are neither quotes, parentheses nor commas. -/
theorem Tracks.skip (h : Tracks cl bound turn state) {run : List Char} (hat : At cl i (run ++ rest))
    (hbound : i + run.length ≤ bound) (hd : d < 2 ^ 32)
    (hrun : ∀ c ∈ run, closingOf c = none ∧ c ≠ '(' ∧ c ≠ ')' ∧ c ≠ ',') :
    scan bound turn finish (state d none) i =
      scan bound turn finish (state d none) (i + run.length) := by
  refine scan_skip h.moving hat hbound ?_
  intro c hc k hk
  obtain ⟨hclose, hopen, hclosed, hcomma⟩ := hrun c hc
  exact h.quiet d c k hd hk hclose hopen hclosed fun heq => absurd heq hcomma

theorem Tracks.blanks (h : Tracks cl bound turn state) (hat : At cl i (gap.clean ++ rest))
    (hbound : i + gap.source.length ≤ bound) (hd : d < 2 ^ 32) :
    scan bound turn finish (state d none) i =
      scan bound turn finish (state d none) (i + gap.source.length) := by
  rw [← length_clean] at hbound ⊢
  refine h.skip hat hbound hd ?_
  intro c hc
  have hblank := isWhitespace_clean c hc
  have hne : ∀ d, isWhitespace d = false → c ≠ d := by
    rintro d hd rfl
    rw [hblank] at hd
    cases hd
  exact ⟨closingOf_of_isWhitespace hblank, hne _ (by decide), hne _ (by decide), hne _ (by decide)⟩

theorem Tracks.word (h : Tracks cl bound turn state) {word : List Char}
    (hword : ∀ c ∈ word, isIdentChar classes c = true) (hat : At cl i (word ++ rest))
    (hbound : i + word.length ≤ bound) (hd : d < 2 ^ 32) :
    scan bound turn finish (state d none) i =
      scan bound turn finish (state d none) (i + word.length) := by
  refine h.skip hat hbound hd ?_
  intro c hc
  exact ⟨closingOf_of_isIdentChar (hword c hc), ne_of_isIdentChar (hword c hc) (by decide) (by decide),
    ne_of_isIdentChar (hword c hc) (by decide) (by decide),
    ne_of_isIdentChar (hword c hc) (by decide) (by decide)⟩

theorem Tracks.quoted (h : Tracks cl bound turn state) {opening close : Char} {content : List Char}
    (hclose : closingOf opening = some close) (hnot : close ∉ content)
    (hat : At cl i (opening :: (content ++ close :: rest))) (hbound : i + content.length + 2 ≤ bound) :
    scan bound turn finish (state d none) i =
      scan bound turn finish (state d none) (i + content.length + 2) := by
  have hopening : QuoteState.step none opening = (true, some close) := by
    rw [QuoteState.step, hclose]
    rfl
  have hinside : ∀ c, c ≠ close → QuoteState.step (some close) c = (true, some close) := by
    intro c hne
    rw [QuoteState.step, if_neg hne]
  have hclosing : QuoteState.step (some close) close = (true, none) := by
    rw [QuoteState.step, if_pos rfl]
  have hfirst : turn (state d none) i = some (.next (state d (some close)) (i + 1)) := by
    have hturn := h.inside d none opening i hat.getElem? (by rw [hopening])
    rwa [hopening] at hturn
  have hlast : turn (state d (some close)) (i + 1 + content.length) =
      some (.next (state d none) (i + 1 + content.length + 1)) := by
    have hturn := h.inside d (some close) close (i + 1 + content.length) hat.tail.skip.getElem?
      (by rw [hclosing])
    rwa [hclosing] at hturn
  rw [scan_next h.moving (by omega) hfirst,
    scan_skip h.moving hat.tail (by omega) ?_, scan_next h.moving (by omega) hlast]
  · congr 1
    omega
  · intro c hc k hk
    have hne : c ≠ close := by
      rintro rfl
      exact hnot hc
    have hturn := h.inside d (some close) c k hk (by rw [hinside c hne])
    rwa [hinside c hne] at hturn

theorem le_deepest (d : ℕ) (items : List Item) : d ≤ deepest d items := by
  induction items with
  | nil => exact le_rfl
  | cons item items ih =>
    obtain ⟨gap, token⟩ := item
    cases token with
    | word text => exact ih
    | quoted opening content => exact ih
    | punct c => exact le_max_left _ _

/-- **Balanced items**: the loop goes through them, to the depth `0`. -/
theorem Tracks.nested (h : Tracks cl bound turn state) (hvalid : ∀ item ∈ items, item.2.Valid classes)
    (hnested : Nested d items) (hdeep : deepest d items < 2 ^ 32) (hat : At cl i (cleanText items tail))
    (hbound : i + width items ≤ bound) :
    scan bound turn finish (state d none) i =
      scan bound turn finish (state 0 none) (i + width items) := by
  induction items generalizing d i with
  | nil =>
    obtain rfl : d = 0 := hnested
    rfl
  | cons item items ih =>
    obtain ⟨gap, token⟩ := item
    rw [List.forall_mem_cons] at hvalid
    rw [width_cons] at hbound ⊢
    have hd : d < 2 ^ 32 := (le_deepest d _).trans_lt hdeep
    rw [h.blanks hat (by omega) hd]
    have htoken := at_token hat
    cases token with
    | word text =>
      have hrest : At cl (i + gap.source.length + text.length) (cleanText items tail) := htoken.skip
      rw [Token.text] at hbound ⊢
      rw [h.word hvalid.1.2 htoken (by omega) hd, ih hvalid.2 hnested hdeep hrest (by omega)]
      congr 1
      omega
    | quoted opening content =>
      obtain ⟨close, hclose, hnot⟩ := hvalid.1
      have hlength : (Token.quoted opening content).text.length = content.length + 2 := by
        rw [Token.text, hclose, List.length_cons, List.length_append]
        rfl
      have hcontent : At cl (i + gap.source.length)
          (opening :: (content ++ close :: cleanText items tail)) := by
        rwa [Token.text, hclose, List.cons_append, List.append_assoc] at htoken
      have hrest : At cl (i + gap.source.length + content.length + 2) (cleanText items tail) := by
        have hskip := htoken.skip
        rwa [hlength, ← Nat.add_assoc] at hskip
      rw [hlength] at hbound ⊢
      rw [h.quoted hclose hnot hcontent (by omega), ih hvalid.2 hnested hdeep hrest (by omega)]
      congr 1
      omega
    | punct c =>
      have hrest : At cl (i + gap.source.length + 1) (cleanText items tail) := htoken.tail
      have hlt : i + gap.source.length < bound := by
        simp only [Token.text, List.length_singleton] at hbound
        omega
      have hwidth : i + gap.source.length + 1 + width items ≤ bound := by
        simp only [Token.text, List.length_singleton] at hbound
        omega
      have hgoal : ∀ e, Nested e items → deepest e items < 2 ^ 32 →
          turn (state d none) (i + gap.source.length) =
            some (.next (state e none) (i + gap.source.length + 1)) →
          scan bound turn finish (state d none) (i + gap.source.length) =
            scan bound turn finish (state 0 none)
              (i + (gap.source.length + (Token.punct c).text.length + width items)) := by
        intro e hnestede hdeepe hturn
        rw [scan_next h.moving hlt hturn, ih hvalid.2 hnestede hdeepe hrest hwidth]
        congr 1
        simp only [Token.text, List.length_singleton]
        omega
      have hc : cl[i + gap.source.length]? = some c := At.getElem? htoken
      have hdeeps := (le_max_right _ _).trans_lt hdeep
      rw [Nested] at hnested
      by_cases hopen : c = '('
      · rw [if_pos hopen] at hnested hdeeps
        subst hopen
        exact hgoal (d + 1) hnested hdeeps (h.opened d _ hc)
      · rw [if_neg hopen] at hnested hdeeps
        by_cases hclosed : c = ')'
        · rw [if_pos hclosed] at hnested hdeeps
          subst hclosed
          exact hgoal (d - 1) hnested.2 hdeeps (h.closed d _ hnested.1 hd hc)
        · rw [if_neg hclosed] at hnested hdeeps
          by_cases hcomma : c = ','
          · rw [if_pos hcomma] at hnested
            exact hgoal d hnested.2 hdeeps
              (h.quiet d c _ hd hc hvalid.1.2.2 hopen hclosed fun _ => hnested.1)
          · rw [if_neg hcomma] at hnested
            exact hgoal d hnested hdeeps
              (h.quiet d c _ hd hc hvalid.1.2.2 hopen hclosed fun heq => absurd heq hcomma)

end

end

end Sql

end Artifact

end Cognis
