/-
  A pool of parties, each in a phase: how many are in a phase, when one party moves.
-/
import Mathlib.Algebra.BigOperators.Group.Finset.Piecewise
import Mathlib.Data.Fintype.Basic

namespace Cognis.Pool

variable {ι α : Type*} [Fintype ι] (P : α → Prop) [DecidablePred P]

/-- The number of parties whose phase satisfies `P`. -/
def count (f : ι → α) : ℕ := (Finset.univ.filter fun i => P (f i)).card

variable {P}

theorem count_eq_zero_iff {f : ι → α} : count P f = 0 ↔ ∀ i, ¬ P (f i) := by
  simp [count, Finset.filter_eq_empty_iff]

theorem count_pos_iff {f : ι → α} : 0 < count P f ↔ ∃ i, P (f i) := by
  rw [Nat.pos_iff_ne_zero, Ne, count_eq_zero_iff, not_forall_not]

/-- When one party moves, only its own phase counts. -/
theorem count_update [DecidableEq ι] (f : ι → α) (i : ι) (b : α) :
    count P (Function.update f i b) + (if P (f i) then 1 else 0) =
      count P f + (if P b then 1 else 0) := by
  simp only [count, Finset.card_filter]
  rw [← Finset.add_sum_erase _ _ (Finset.mem_univ i), ← Finset.add_sum_erase (a := i) _
    (fun j => if P (f j) then 1 else 0) (Finset.mem_univ i), Function.update_self]
  have hrest : ∑ j ∈ Finset.univ.erase i, (if P (Function.update f i b j) then 1 else 0) =
      ∑ j ∈ Finset.univ.erase i, (if P (f j) then 1 else 0) :=
    Finset.sum_congr rfl fun j hj => by rw [Function.update_of_ne (Finset.ne_of_mem_erase hj)]
  rw [hrest]
  omega

/-- A phase that is one of two, and never both. -/
theorem count_or {Q R : α → Prop} [DecidablePred Q] [DecidablePred R]
    (hR : ∀ a, R a ↔ P a ∨ Q a) (hdisj : ∀ a, P a → ¬ Q a) (f : ι → α) :
    count R f = count P f + count Q f := by
  simp only [count, Finset.card_filter]
  rw [← Finset.sum_add_distrib]
  refine Finset.sum_congr rfl fun i _ => ?_
  have := hR (f i)
  have := hdisj (f i)
  by_cases hP : P (f i) <;> by_cases hQ : Q (f i) <;> simp_all

end Cognis.Pool
