/-
  The base types that the header of a type names (`bases` of `resolver.rs`), among the
  identifiers of its text.

  * `idents_append`: a text is cut before a character that is not of an identifier;
  * `mem_idents_of_mem_bases`: the pieces of a header are cut there, so that the bases are
    identifiers of the text.
-/
import Cognis.Indexer.Resolver

namespace Cognis

namespace Text

theorem isIdentChar_of_start {c : Char} (h : isIdentStart c = true) : isIdentChar c = true := by
  simp only [isIdentStart, isIdentChar, Char.isAlphanum, Bool.or_eq_true] at h ⊢
  exact h.imp_left .inl

/-! ## Cutting a text -/

/-- No identifier goes on here. -/
def Cuts (c : Option Char) : Prop := ∀ d ∈ c, isIdentChar d = false

theorem takeWhile_append_of_cuts {l r : List Char} (h : Cuts r.head?) :
    (l ++ r).takeWhile isIdentChar = l.takeWhile isIdentChar := by
  induction l with
  | nil =>
    cases r with
    | nil => rfl
    | cons c r => simp [h c rfl]
  | cons c l ih => simp only [List.cons_append, List.takeWhile_cons, ih]

theorem idents_of_cuts {r : List Char} (h : Cuts r.head?) (inside : Bool) :
    idents inside r = idents false r := by
  cases r with
  | nil => rfl
  | cons c r => simp only [idents, h c rfl, Bool.and_false, Bool.false_eq_true, if_false]

/-- **A text is cut** before a character that no identifier has. -/
theorem idents_append {l r : List Char} (h : Cuts r.head?) (inside : Bool) :
    idents inside (l ++ r) = idents inside l ++ idents false r := by
  induction l generalizing inside with
  | nil => exact idents_of_cuts h inside
  | cons c l ih =>
    simp only [List.cons_append, idents, takeWhile_append_of_cuts h, ih]
    split_ifs <;> rfl

theorem idents_cons_cut {c : Char} (h : isIdentChar c = false) (inside : Bool) (r : List Char) :
    idents inside (c :: r) = idents false r := by
  have hstart : isIdentStart c = false := by
    rw [← Bool.not_eq_true]
    exact fun hstart => absurd (isIdentChar_of_start hstart) (by simp [h])
  simp [idents, h, hstart]

/-- What precedes a cut keeps its identifiers. -/
theorem idents_subset_append {l : List Char} (h : Cuts l.getLast?) (r : List Char) :
    idents false l ⊆ idents false (l ++ r) := by
  rcases List.eq_nil_or_concat l with rfl | ⟨l, c, rfl⟩
  · exact List.nil_subset _
  · have hc : isIdentChar c = false := h c (by simp)
    have hcuts : ∀ s : List Char, Cuts (c :: s).head? := by
      rintro s d hd
      cases hd
      exact hc
    rw [List.concat_eq_append, List.append_assoc, List.singleton_append, idents_append (hcuts []),
      idents_append (hcuts r), idents_cons_cut hc]
    exact List.append_subset.2 ⟨List.subset_append_left _ _, List.nil_subset _⟩

theorem cuts_head?_dropWhile {c : Char} (hc : isIdentChar c = false) (text : List Char) :
    Cuts (text.dropWhile (· ≠ c)).head? := by
  intro d hd
  have hnot := List.head?_dropWhile_not (fun x => decide (x ≠ c)) text
  rw [Option.mem_def.1 hd] at hnot
  rw [show d = c by simpa using hnot]
  exact hc

/-- The identifiers of a header are in the text. -/
theorem idents_header_subset (text : List Char) : idents false (header text) ⊆ idents false text := by
  have hcut := idents_append (l := text.takeWhile (· ≠ '{'))
    (cuts_head?_dropWhile (c := '{') rfl text) false
  rw [List.takeWhile_append_dropWhile] at hcut
  rw [hcut]
  exact List.subset_append_left _ _

theorem idents_dropWhile_subset {c : Char} (hc : isIdentChar c = false) (text : List Char) :
    idents false (text.dropWhile (· ≠ c)) ⊆ idents false text := by
  have hcut := idents_append (l := text.takeWhile (· ≠ c)) (cuts_head?_dropWhile hc text) false
  rw [List.takeWhile_append_dropWhile] at hcut
  rw [hcut]
  exact List.subset_append_right _ _

/-! ## Lists of types -/

/-- The first part of a text goes up to the separator. -/
theorem idents_splitOn {sep : Char} (hsep : isIdentChar sep = false) (text : List Char) :
    ∃ part parts, splitOn sep text = part :: parts ∧
      part.takeWhile isIdentChar = text.takeWhile isIdentChar ∧
      ∀ inside, idents inside text = idents inside part ++ parts.flatMap (idents false) := by
  induction text with
  | nil => exact ⟨[], [], rfl, rfl, fun _ => rfl⟩
  | cons c text ih =>
    obtain ⟨part, parts, hsplit, htake, hidents⟩ := ih
    by_cases hc : c = sep
    · refine ⟨[], part :: parts, by simp [splitOn, hsplit, hc], ?_, fun inside => ?_⟩
      · simp [hc, hsep]
      · rw [hc, idents_cons_cut hsep, hidents]
        rfl
    · refine ⟨c :: part, parts, by simp [splitOn, hsplit, hc], ?_, fun inside => ?_⟩
      · simp only [List.takeWhile_cons, htake]
      · simp only [idents, htake, hidents]
        split_ifs <;> rfl

theorem idents_mem_splitOn {sep : Char} (hsep : isIdentChar sep = false) {text entry : List Char}
    (h : entry ∈ splitOn sep text) : idents false entry ⊆ idents false text := by
  obtain ⟨part, parts, hsplit, -, hidents⟩ := idents_splitOn hsep text
  rw [hsplit] at h
  rw [hidents]
  rcases List.mem_cons.1 h with rfl | h
  · exact List.subset_append_left _ _
  · exact fun name hname => List.mem_append_right _ (List.mem_flatMap.2 ⟨entry, h, hname⟩)

/-! ## Groups -/

theorem replaceGroups_skip (skip : ℕ) (text : List Char) :
    replaceGroups skip text = replaceGroups 0 (text.drop skip) := by
  induction text generalizing skip with
  | nil => simp [replaceGroups]
  | cons c text ih =>
    cases skip with
    | zero => rfl
    | succ skip =>
      rw [List.drop_succ_cons, ← ih]
      rfl

/-- A group stands between two characters that no identifier has. -/
theorem groupAt_some {c : Char} {text : List Char} {n : ℕ} (h : groupAt c text = some n) :
    isIdentChar c = false ∧ ∃ inner close rest, text = inner ++ close :: rest ∧
      inner.length = n ∧ isIdentChar close = false := by
  have hgroup : ∀ close, (if (text.drop (text.takeWhile fun d => d ≠ c && d ≠ close).length).head? =
      some close then some (text.takeWhile fun d => d ≠ c && d ≠ close).length else none) = some n →
      ∃ inner rest, text = inner ++ close :: rest ∧ inner.length = n := by
    intro close hclose
    split_ifs at hclose with hhead
    cases hclose
    obtain ⟨rest, hrest⟩ := List.head?_eq_some_iff.1 hhead
    refine ⟨text.takeWhile fun d => d ≠ c && d ≠ close, rest, ?_, rfl⟩
    have hprefix := List.prefix_iff_eq_take.1
      (List.takeWhile_prefix (l := text) fun d => decide (d ≠ c) && decide (d ≠ close))
    conv_lhs => rw [← List.take_append_drop
      (text.takeWhile fun d => d ≠ c && d ≠ close).length text, hrest]
    rw [← hprefix]
  unfold groupAt at h
  dsimp only at h
  by_cases hangle : c = '<'
  · rw [if_pos hangle] at h
    obtain ⟨inner, rest, htext, hlen⟩ := hgroup '>' h
    exact ⟨by rw [hangle]; rfl, inner, '>', rest, htext, hlen, rfl⟩
  · by_cases hparen : c = '('
    · rw [if_neg hangle, if_pos hparen] at h
      obtain ⟨inner, rest, htext, hlen⟩ := hgroup ')' h
      exact ⟨by rw [hparen]; rfl, inner, ')', rest, htext, hlen, rfl⟩
    · rw [if_neg hangle, if_neg hparen] at h
      cases h

theorem takeWhile_replaceGroups (text : List Char) :
    (replaceGroups 0 text).takeWhile isIdentChar = text.takeWhile isIdentChar := by
  induction text with
  | nil => rfl
  | cons c text ih =>
    simp only [replaceGroups]
    split
    · rename_i n hgroup
      have hc := (groupAt_some hgroup).1
      have hblank : isIdentChar ' ' = false := rfl
      simp only [List.takeWhile_cons, hc, hblank, Bool.false_eq_true, if_false]
    · simp only [List.takeWhile_cons, ih]

/-- A group is replaced with its identifiers. -/
theorem idents_replaceGroups_subset (inside : Bool) (text : List Char) :
    idents inside (replaceGroups 0 text) ⊆ idents inside text := by
  induction hlen : text.length using Nat.strong_induction_on generalizing inside text with
  | h len ih =>
    subst hlen
    cases text with
    | nil => exact List.Subset.refl _
    | cons c text =>
      simp only [replaceGroups]
      split
      · rename_i n hgroup
        obtain ⟨hc, inner, close, rest, rfl, rfl, hclose⟩ := groupAt_some hgroup
        have hcuts : Cuts (close :: rest).head? := by
          rintro d hd
          cases hd
          exact hclose
        have hdrop : (inner ++ close :: rest).drop (inner.length + 1) = rest := by simp
        rw [idents_cons_cut (c := ' ') rfl, idents_cons_cut hc, replaceGroups_skip, hdrop,
          idents_append hcuts, idents_cons_cut hclose]
        have hshort : rest.length < (c :: (inner ++ close :: rest)).length := by
          simp only [List.length_cons, List.length_append]
          omega
        exact List.Subset.trans (ih rest.length hshort false rest rfl) (List.subset_append_right _ _)
      · have hrest := fun inside => ih text.length (by simp) inside text rfl
        simp only [idents, takeWhile_replaceGroups]
        split_ifs
        · exact hrest true
        · exact List.cons_subset_cons _ (hrest true)
        · exact hrest false

theorem idents_stripGroups_subset (text : List Char) :
    idents false (stripGroups text) ⊆ idents false text := by
  unfold stripGroups
  suffices h : ∀ fuel text, idents false (stripLoop fuel text) ⊆ idents false text from h _ _
  intro fuel
  induction fuel with
  | zero => exact fun text => List.Subset.refl _
  | succ fuel ih =>
    intro text
    simp only [stripLoop]
    split_ifs
    · exact idents_replaceGroups_subset false text
    · exact List.Subset.trans (ih _) (idents_replaceGroups_subset false text)

/-! ## Keywords -/

/-- A keyword stands between two characters that are no word characters. -/
theorem findWord_spec {unicode : UnicodeTables} {word : List Char} {before : Bool}
    {text pre post : List Char} (h : findWord unicode word before text = some (pre, post)) :
    text = pre ++ (word ++ post) ∧ (∀ c ∈ post.head?, unicode.isWord c = false) ∧
      (∀ c ∈ pre.getLast?, unicode.isWord c = false) ∧ (pre = [] → before = false) := by
  induction text generalizing before pre post with
  | nil => cases h
  | cons c text ih =>
    simp only [findWord] at h
    split_ifs at h with hword
    · cases h
      simp only [Bool.and_eq_true, List.isPrefixOf_iff_prefix, Bool.not_eq_true'] at hword
      obtain ⟨⟨hbefore, rest, hrest⟩, hpost⟩ := hword
      refine ⟨?_, fun d hd => ?_, fun d hd => absurd hd (by simp), fun _ => hbefore⟩
      · rw [← hrest, List.drop_left, List.nil_append]
      · rw [Option.mem_def.1 hd, Option.all_some, Bool.not_eq_true'] at hpost
        exact hpost
    · obtain ⟨⟨pre', post'⟩, hfound, heq⟩ := Option.map_eq_some_iff.1 h
      cases heq
      obtain ⟨rfl, hpost, hpre, hfirst⟩ := ih hfound
      refine ⟨rfl, hpost, fun d hd => ?_, fun hnil => absurd hnil (List.cons_ne_nil _ _)⟩
      cases pre' with
      | nil =>
        -- the keyword starts right after this character
        cases hd
        exact hfirst rfl
      | cons e pre' => exact hpre d (by rwa [List.getLast?_cons_cons] at hd)

end Text

/-! ## The bases of a header -/

open Text

section
variable {unicode : UnicodeTables} (hword : ∀ c, isIdentChar c = true → unicode.isWord c = true)
include hword

theorem cuts_of_isWord {c : Option Char} (h : ∀ d ∈ c, unicode.isWord d = false) : Cuts c := by
  intro d hd
  rw [← Bool.not_eq_true]
  exact fun hident => absurd (hword d hident) (by simp [h d hd])

/-- Before and after a keyword, the identifiers are those of the text. -/
theorem idents_findWord_subset {word : List Char} {before : Bool} {text pre post : List Char}
    (h : findWord unicode word before text = some (pre, post)) :
    idents false pre ⊆ idents false text ∧ idents false post ⊆ idents false text := by
  obtain ⟨rfl, hpost, hpre, -⟩ := findWord_spec h
  refine ⟨idents_subset_append (cuts_of_isWord hword hpre) _, ?_⟩
  rw [← List.append_assoc, idents_append (cuts_of_isWord hword hpost)]
  exact List.subset_append_right _ _

theorem idents_upTo_subset {word : List Char} {before : Bool} (text : List Char) :
    idents false (((findWord unicode word before text).map Prod.fst).getD text) ⊆
      idents false text := by
  cases h : findWord unicode word before text with
  | none => exact List.Subset.refl _
  | some found => exact (idents_findWord_subset hword h).1

omit hword in
theorem mem_idents_of_mem_baseNames {keyword : BaseKeyword} {text : List Char}
    {base : List Char × BaseKeyword} (h : base ∈ OopResolver.baseNames keyword text) :
    base.1 ∈ idents false text := by
  obtain ⟨entry, hentry, hbase⟩ := List.mem_filterMap.1 h
  obtain ⟨name, hname, rfl⟩ := Option.map_eq_some_iff.1 hbase
  exact idents_mem_splitOn rfl hentry (List.mem_of_getLast? hname)

/-- **The bases of a header are identifiers of the text.** -/
theorem mem_idents_of_mem_bases {text : List Char} {language : String}
    {base : List Char × BaseKeyword} (h : base ∈ OopResolver.bases unicode (header text) language) :
    base.1 ∈ idents false text := by
  refine idents_header_subset text (idents_stripGroups_subset _ ?_)
  unfold OopResolver.bases at h
  dsimp only at h
  generalize stripGroups (header text) = cleaned at h ⊢
  split_ifs at h
  · rcases List.mem_append.1 h with h | h
    · cases hfound : findWord unicode "extends".toList false cleaned with
      | none =>
        rw [hfound] at h
        cases h
      | some found =>
        rw [hfound] at h
        exact (idents_findWord_subset hword hfound).2
          (idents_upTo_subset hword _ (mem_idents_of_mem_baseNames h))
    · cases hfound : findWord unicode "implements".toList false cleaned with
      | none =>
        rw [hfound] at h
        cases h
      | some found =>
        rw [hfound] at h
        exact (idents_findWord_subset hword hfound).2 (mem_idents_of_mem_baseNames h)
  · have hcolon := idents_dropWhile_subset (c := ':') rfl cleaned
    cases hrest : cleaned.dropWhile (· ≠ ':') with
    | nil =>
      rw [hrest] at h
      cases h
    | cons d rest =>
      rw [hrest] at h hcolon
      have hd : isIdentChar d = false := by
        refine cuts_head?_dropWhile (c := ':') rfl cleaned d ?_
        rw [hrest]
        rfl
      rw [idents_cons_cut hd] at hcolon
      exact hcolon (idents_upTo_subset hword _ (mem_idents_of_mem_baseNames h))

end

end Cognis
