/-
  Spans of lines, each from a first line to a last one, that tile a range: they lie end to
  end, without a gap or an overlap.

  * `Tiles.append`: tilings of two ranges that meet tile both;
  * `Tiles.pairwise`: the spans are ordered and disjoint;
  * `Tiles.last`: the last one ends where the range does.
-/
import Mathlib.Tactic.Common

namespace Cognis

/-- A first and a last line. -/
abbrev LineSpan := ℕ × ℕ

/-- The spans lie end to end, from `first` to `last`. -/
def Tiles : ℕ → ℕ → List LineSpan → Prop
  | first, last, [] => first = last + 1
  | first, last, (s, e) :: spans => s = first ∧ s ≤ e ∧ Tiles (e + 1) last spans

namespace Tiles

variable {a b c : ℕ} {spans rest : List LineSpan}

theorem append (h : Tiles a b spans) (h' : Tiles (b + 1) c rest) : Tiles a c (spans ++ rest) := by
  induction spans generalizing a with
  | nil =>
    obtain rfl := h
    exact h'
  | cons span spans ih => exact ⟨h.1, h.2.1, ih h.2.2⟩

/-- The spans begin in the range. -/
theorem le_of_mem (h : Tiles a b spans) {span : LineSpan} (hmem : span ∈ spans) :
    a ≤ span.1 ∧ span.1 ≤ span.2 := by
  induction spans generalizing a with
  | nil => exact absurd hmem List.not_mem_nil
  | cons head spans ih =>
    obtain ⟨hfirst, hle, hrest⟩ := h
    rcases List.mem_cons.1 hmem with rfl | hmem
    · exact ⟨Nat.le_of_eq hfirst.symm, hle⟩
    · have := ih hrest hmem
      omega

/-- **The spans are ordered and disjoint.** -/
theorem pairwise (h : Tiles a b spans) : spans.Pairwise fun s t => s.2 < t.1 := by
  induction spans generalizing a with
  | nil => exact .nil
  | cons span spans ih =>
    refine .cons (fun t ht => ?_) (ih h.2.2)
    have := h.2.2.le_of_mem ht
    omega

/-- The last span ends where the range does. -/
theorem last (h : Tiles a b spans) (hne : spans ≠ []) : ∃ span ∈ spans, span.2 = b := by
  induction spans generalizing a with
  | nil => exact absurd rfl hne
  | cons span spans ih =>
    cases spans with
    | nil => exact ⟨span, List.mem_cons_self, by have := h.2.2; simp only [Tiles] at this; omega⟩
    | cons next spans =>
      obtain ⟨t, ht, hlast⟩ := ih h.2.2 (List.cons_ne_nil _ _)
      exact ⟨t, List.mem_cons_of_mem _ ht, hlast⟩

end Tiles

end Cognis
