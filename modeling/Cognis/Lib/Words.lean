/-
  The words of a text, between separators (`split_whitespace`), and the text after the last
  occurrence of a letter (`rsplit_once`), over any alphabet.

  * `words_append`: a separator ends a word;
  * `words_trim`: separators at the ends do not count;
  * `words_flatMap`: the words of a text are those it was put together from;
  * `intercalate_frame_inj`: a text of lines around one part that may have lines itself
    determines the part and the lines.
-/
import Mathlib.Data.List.DropRight
import Mathlib.Tactic.Common

namespace Cognis

variable {α : Type}

/-- `split_whitespace` -/
def words (p : α → Bool) (s : List α) : List (List α) := (s.splitOnP p).filter fun w => !w.isEmpty

/-- `trim` -/
def trimWith (p : α → Bool) (s : List α) : List α := (s.dropWhile p).rdropWhile p

@[simp]
theorem words_nil (p : α → Bool) : words p [] = [] := rfl

/-- A text without separators is a word. -/
theorem words_eq_singleton {p : α → Bool} {w : List α} (hne : w ≠ [])
    (hw : ∀ c ∈ w, p c = false) : words p w = [w] := by
  rw [words, List.splitOnP_eq_singleton hw]
  simp [hne]

theorem words_append {p : α → Bool} {c : α} (hc : p c) (s t : List α) :
    words p (s ++ c :: t) = words p s ++ words p t := by
  rw [words, List.splitOnP_append_cons s t hc, List.filter_append]
  rfl

theorem words_cons {p : α → Bool} {c : α} (hc : p c) (t : List α) :
    words p (c :: t) = words p t := words_append hc [] t

/-- **Put together and taken apart**: a separator before every word, and one after the last. -/
theorem words_flatMap {p : α → Bool} {c d : α} (hc : p c) (hd : p d) {ws : List (List α)}
    (hws : ∀ w ∈ ws, w ≠ [] ∧ ∀ a ∈ w, p a = false) (t : List α) :
    words p (ws.flatMap (c :: ·) ++ d :: t) = ws ++ words p t := by
  induction ws with
  | nil => exact words_cons hd t
  | cons w ws ih =>
    have hw := hws w (by simp)
    have ih := ih fun v hv => hws v (by simp [hv])
    rw [List.flatMap_cons, List.cons_append, List.cons_append, words_cons hc, List.append_assoc]
    -- the next letter is a separator, whether or not another word follows
    cases ws with
    | nil =>
      rw [List.flatMap_nil, List.nil_append, words_append hd, words_eq_singleton hw.1 hw.2]
    | cons v vs =>
      rw [List.flatMap_cons, List.cons_append, List.cons_append, words_cons hc] at ih
      rw [List.flatMap_cons, List.cons_append, List.cons_append, words_append hc,
        words_eq_singleton hw.1 hw.2, ih]
      rfl

theorem words_dropWhile (p : α → Bool) (s : List α) : words p (s.dropWhile p) = words p s := by
  induction s with
  | nil => rfl
  | cons c s ih =>
    by_cases hc : p c
    · rw [List.dropWhile_cons_of_pos hc, ih, words_cons hc]
    · rw [List.dropWhile_cons_of_neg hc]

theorem words_rdropWhile (p : α → Bool) (s : List α) : words p (s.rdropWhile p) = words p s := by
  induction s using List.reverseRecOn with
  | nil => rfl
  | append_singleton s c ih =>
    by_cases hc : p c
    · rw [List.rdropWhile_concat_pos _ _ _ hc, ih, words_append hc, words_nil, List.append_nil]
    · rw [List.rdropWhile_concat_neg _ _ _ hc]

theorem words_trim (p : α → Bool) (s : List α) : words p (trimWith p s) = words p s := by
  rw [trimWith, words_rdropWhile, words_dropWhile]

/-! ## Lines -/

section
variable [BEq α] [LawfulBEq α] {c : α}

/-- The lines of lines put together are theirs. -/
theorem splitOn_intercalate_flatMap {parts : List (List α)} (hne : parts ≠ []) :
    (List.intercalate [c] parts).splitOn c = parts.flatMap (List.splitOn c) := by
  induction parts with
  | nil => exact absurd rfl hne
  | cons part rest ih =>
    cases rest with
    | nil => simp
    | cons next rest =>
      rw [List.intercalate_cons_cons, List.append_assoc, List.singleton_append,
        List.splitOn_append_cons_self, ih (List.cons_ne_nil _ _)]
      rfl

theorem flatMap_splitOn_of_notMem {lines : List (List α)} (h : ∀ l ∈ lines, c ∉ l) :
    lines.flatMap (List.splitOn c) = lines := by
  induction lines with
  | nil => rfl
  | cons line lines ih =>
    rw [List.flatMap_cons, List.splitOn_eq_singleton (h line List.mem_cons_self),
      ih fun l hl => h l (List.mem_cons_of_mem _ hl)]
    rfl

/-- **The part between lines** is read back, with the lines. -/
theorem intercalate_frame_inj {front front' back back' : List (List α)} {part part' : List α}
    (hfront : ∀ l ∈ front ++ back, c ∉ l) (hfront' : ∀ l ∈ front' ++ back', c ∉ l)
    (hlen : front.length = front'.length) (hlen' : back.length = back'.length)
    (h : List.intercalate [c] (front ++ part :: back) =
      List.intercalate [c] (front' ++ part' :: back')) :
    front = front' ∧ part = part' ∧ back = back' := by
  have hsplit := congrArg (List.splitOn c) h
  rw [splitOn_intercalate_flatMap (by simp), splitOn_intercalate_flatMap (by simp),
    List.flatMap_append, List.flatMap_append, List.flatMap_cons, List.flatMap_cons] at hsplit
  rw [flatMap_splitOn_of_notMem fun l hl => hfront l (List.mem_append_left _ hl),
    flatMap_splitOn_of_notMem fun l hl => hfront l (List.mem_append_right _ hl),
    flatMap_splitOn_of_notMem fun l hl => hfront' l (List.mem_append_left _ hl),
    flatMap_splitOn_of_notMem fun l hl => hfront' l (List.mem_append_right _ hl)] at hsplit
  obtain ⟨rfl, hrest⟩ := List.append_inj hsplit hlen
  obtain ⟨hpart, rfl⟩ := List.append_inj' hrest hlen'
  refine ⟨rfl, ?_, rfl⟩
  have hback : ∀ text, List.intercalate [c] (List.splitOn c text) = text := fun text =>
    List.intercalate_splitOn c
  rw [← hback part, ← hback part', hpart]

end

variable [DecidableEq α]

/-- What stands after the last `c`, or the whole text where there is none
    (`s.slice(s.lastIndexOf(c) + 1)`). -/
def afterLast (c : α) (s : List α) : List α := s.rtakeWhile (· ≠ c)

/-- `s.rsplit_once(c)?.1` -/
def rsplitOnce (c : α) (s : List α) : Option (List α) :=
  if c ∈ s then some (afterLast c s) else none

theorem afterLast_append {c : α} {t : List α} (ht : c ∉ t) (s : List α) :
    afterLast c (s ++ c :: t) = t := by
  have htake : (s ++ c :: t).reverse.takeWhile (· ≠ c) = t.reverse := by
    rw [List.reverse_append, List.reverse_cons, List.append_assoc,
      List.takeWhile_append_of_pos (by simpa using fun a ha => by rintro rfl; exact ht ha)]
    simp
  rw [afterLast, List.rtakeWhile, htake, List.reverse_reverse]

theorem rsplitOnce_append {c : α} {t : List α} (ht : c ∉ t) (s : List α) :
    rsplitOnce c (s ++ c :: t) = some t := by
  rw [rsplitOnce, if_pos (by simp), afterLast_append ht]

end Cognis
