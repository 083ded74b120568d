/-
  Diffusion with restarts on a column-stochastic kernel, and the forward push.

  A push at `u` turns the part `α` of the residual of `u` into score and sends
  the rest along the kernel.

  * `Conserved.push`: the equation `α s = p - (1 - α) P p + α r` is preserved,
    also when the kernel sends mass from `u` back to `u`;
  * `Conserved.mass`: hence score and residual add up to the seed;
  * `Exact`: scores without residual. What they exceed other scores by is the diffusion of the
    residual (`Conserved.exact_sub`), and they are nonnegative (`Exact.nonneg`) and unique
    (`Exact.eq_zero`).
-/
import Mathlib.Algebra.BigOperators.Field
import Mathlib.Algebra.Order.BigOperators.Group.Finset
import Mathlib.Algebra.Order.Field.Basic
import Mathlib.Tactic.FieldSimp
import Mathlib.Tactic.Linarith
import Mathlib.Tactic.LinearCombination
import Mathlib.Tactic.Positivity
import Mathlib.Tactic.Ring

namespace Cognis

open Finset

variable {V K : Type*} [Field K]

/-! ## Scores -/

/-- The scores after a push at `u`. -/
def pushScore [DecidableEq V] (α : K) (u : V) (p r : V → K) : V → K :=
  Function.update p u (p u + α * r u)

theorem sum_pushScore [Fintype V] [DecidableEq V] (α : K) (u : V) (p r : V → K) :
    ∑ v, pushScore α u p r v = ∑ v, p v + α * r u := by
  rw [pushScore, sum_update_of_mem (mem_univ u),
    sum_eq_add_sum_sdiff_singleton_of_mem (mem_univ u) p]
  ring

variable [LinearOrder K]

theorem pushScore_nonneg [IsStrictOrderedRing K] [DecidableEq V] {α : K} (hα : 0 ≤ α) {p r : V → K}
    (hp : ∀ v, 0 ≤ p v) (hr : ∀ v, 0 ≤ r v) (u v : V) : 0 ≤ pushScore α u p r v := by
  by_cases hv : v = u
  · subst hv
    rw [pushScore, Function.update_self]
    exact add_nonneg (hp v) (mul_nonneg hα (hr v))
  · rw [pushScore, Function.update_of_ne hv]; exact hp v

/-! ## Kernels -/

/-- A column-stochastic kernel: `prob u v` is the part of the mass of `u` that
    goes to `v`. -/
structure Kernel (V K : Type*) [Fintype V] [Field K] [LinearOrder K] where
  prob : V → V → K
  nonneg : ∀ u v, 0 ≤ prob u v
  sum_eq_one : ∀ u, ∑ v, prob u v = 1

namespace Kernel

variable [Fintype V] (P : Kernel V K)

/-- `P p`: the mass at each node after one step from `p`. -/
def apply (p : V → K) (v : V) : K := ∑ u, P.prob u v * p u

/-- The scores `p` and residuals `r` account for the seed `s`. -/
def Conserved (α : K) (s p r : V → K) : Prop :=
  ∀ v, α * s v = p v - (1 - α) * P.apply p v + α * r v

theorem sum_apply (p : V → K) : ∑ v, P.apply p v = ∑ u, p u := by
  simp only [apply]
  rw [sum_comm]
  exact sum_congr rfl fun u _ => by rw [← sum_mul, P.sum_eq_one, one_mul]

variable {P} {α : K} {s p r : V → K}

/-- **Mass**: score and residual add up to the seed. -/
theorem Conserved.mass (h : P.Conserved α s p r) (hα : α ≠ 0) :
    ∑ v, p v + ∑ v, r v = ∑ v, s v := by
  have hsum : α * ∑ v, s v = ∑ v, p v - (1 - α) * ∑ v, p v + α * ∑ v, r v := by
    rw [mul_sum, sum_congr rfl fun v _ => h v, sum_add_distrib, sum_sub_distrib, ← mul_sum,
      ← mul_sum, P.sum_apply]
  apply mul_left_cancel₀ hα
  rw [hsum]; ring

/-- Before any push, the residual is the seed. -/
theorem conserved_init (α : K) (s : V → K) : P.Conserved α s (fun _ => 0) s := by
  intro v
  simp [apply]

/-! ## Exact scores -/

/-- The scores that account for the whole seed. -/
def Exact (P : Kernel V K) (α : K) (s x : V → K) : Prop := P.Conserved α s x fun _ => 0

theorem exact_iff {x : V → K} :
    P.Exact α s x ↔ ∀ v, x v - (1 - α) * P.apply x v = α * s v := by
  refine forall_congr' fun v => ?_
  rw [mul_zero, add_zero, eq_comm]

theorem Exact.sum_eq {x : V → K} (h : P.Exact α s x) (hα : α ≠ 0) : ∑ v, x v = ∑ v, s v := by
  simpa using Conserved.mass h hα

/-- What is missing from the exact scores is the diffusion of the residual. -/
theorem Conserved.exact_sub {x : V → K} (h : P.Conserved α s p r) (hx : P.Exact α s x) :
    P.Exact α r fun v => x v - p v := by
  refine exact_iff.2 fun v => ?_
  have hsub : P.apply (fun w => x w - p w) v = P.apply x v - P.apply p v := by
    simp only [apply, mul_sub, sum_sub_distrib]
  rw [hsub]
  linear_combination exact_iff.1 hx v + h v

/-- **Exact scores of a nonnegative seed are nonnegative**: one step of the kernel does not add
    to what is below zero. -/
theorem Exact.nonneg [IsStrictOrderedRing K] (hα : 0 < α) (hα1 : α ≤ 1) {x : V → K}
    (h : P.Exact α s x) (hs : ∀ v, 0 ≤ s v) (v : V) : 0 ≤ x v := by
  let below : V → K := fun v => max (-x v) 0
  have hbelow : ∀ v, 0 ≤ below v := fun v => le_max_right _ _
  have hstep : ∀ v, below v ≤ (1 - α) * P.apply below v := by
    intro v
    have happly : 0 ≤ P.apply below v :=
      sum_nonneg fun u _ => mul_nonneg (P.nonneg u v) (hbelow u)
    refine max_le ?_ (mul_nonneg (sub_nonneg.2 hα1) happly)
    have hle : -P.apply x v ≤ P.apply below v := by
      simp only [apply, ← sum_neg_distrib, ← mul_neg]
      exact sum_le_sum fun u _ => mul_le_mul_of_nonneg_left (le_max_left _ _) (P.nonneg u v)
    have heq : -x v = (1 - α) * -P.apply x v - α * s v := by linear_combination -exact_iff.1 h v
    rw [heq]
    exact (sub_le_self _ (mul_nonneg hα.le (hs v))).trans
      (mul_le_mul_of_nonneg_left hle (sub_nonneg.2 hα1))
  have hsum : ∑ v, below v ≤ (1 - α) * ∑ v, below v := by
    rw [← P.sum_apply below, mul_sum, P.sum_apply below]
    exact sum_le_sum fun v _ => hstep v
  have hzero : ∑ v, below v ≤ 0 := by
    have : α * ∑ v, below v ≤ 0 := by linarith
    exact nonpos_of_mul_nonpos_right this hα
  have hv : below v ≤ 0 := (single_le_sum (fun u _ => hbelow u) (mem_univ v)).trans hzero
  exact neg_nonpos.1 ((le_max_left _ _).trans hv)

/-- Nothing comes from no seed. -/
theorem Exact.eq_zero [IsStrictOrderedRing K] (hα : 0 < α) (hα1 : α ≤ 1) {x : V → K}
    (h : P.Exact α (fun _ => 0) x) : x = fun _ => 0 := by
  have hneg : P.Exact α (fun _ => 0) fun v => -x v := by
    refine exact_iff.2 fun v => ?_
    have happly : P.apply (fun w => -x w) v = -P.apply x v := by
      simp only [apply, mul_neg, sum_neg_distrib]
    rw [happly]
    linear_combination -exact_iff.1 h v
  funext v
  exact le_antisymm (neg_nonneg.1 (hneg.nonneg hα hα1 (fun _ => le_rfl) v))
    (h.nonneg hα hα1 (fun _ => le_rfl) v)

/-! ## The push -/

variable [DecidableEq V]

/-- The residuals after a push at `u`. -/
def pushResidual (P : Kernel V K) (α : K) (u : V) (r : V → K) (v : V) : K :=
  Function.update r u 0 v + (1 - α) * r u * P.prob u v

theorem apply_pushScore (u v : V) :
    P.apply (pushScore α u p r) v = P.apply p v + P.prob u v * (α * r u) := by
  have h : ∀ w, P.prob w v * pushScore α u p r w =
      P.prob w v * p w + if w = u then P.prob u v * (α * r u) else 0 := by
    intro w
    by_cases hw : w = u
    · subst hw; rw [pushScore, Function.update_self, if_pos rfl]; ring
    · rw [pushScore, Function.update_of_ne hw, if_neg hw, add_zero]
  simp only [apply, h, sum_add_distrib, sum_ite_eq', mem_univ, if_true]

/-- **A push keeps the seed accounted for.** -/
theorem Conserved.push (h : P.Conserved α s p r) (u : V) :
    P.Conserved α s (pushScore α u p r) (P.pushResidual α u r) := by
  intro v
  rw [h v, apply_pushScore, pushResidual]
  by_cases hv : v = u
  · subst hv; rw [pushScore, Function.update_self, Function.update_self]; ring
  · rw [pushScore, Function.update_of_ne hv, Function.update_of_ne hv]; ring

theorem pushResidual_nonneg [IsStrictOrderedRing K] (hα : α ≤ 1) (hr : ∀ v, 0 ≤ r v) (u v : V) :
    0 ≤ P.pushResidual α u r v := by
  have hsend : 0 ≤ (1 - α) * r u * P.prob u v :=
    mul_nonneg (mul_nonneg (sub_nonneg.2 hα) (hr u)) (P.nonneg u v)
  by_cases hv : v = u
  · subst hv; rw [pushResidual, Function.update_self, zero_add]; exact hsend
  · rw [pushResidual, Function.update_of_ne hv]; exact add_nonneg (hr v) hsend

/-- A push at another node takes nothing from a residual. -/
theorem le_pushResidual [IsStrictOrderedRing K] (hα : α ≤ 1) (hr : ∀ v, 0 ≤ r v) {u v : V}
    (hv : v ≠ u) : r v ≤ P.pushResidual α u r v := by
  rw [pushResidual, Function.update_of_ne hv]
  exact le_add_of_nonneg_right
    (mul_nonneg (mul_nonneg (sub_nonneg.2 hα) (hr u)) (P.nonneg u v))

/-- Without diffusion no residual grows. -/
theorem pushResidual_one_le [IsStrictOrderedRing K] (hr : ∀ v, 0 ≤ r v) (u v : V) :
    P.pushResidual 1 u r v ≤ r v := by
  rw [pushResidual, sub_self, zero_mul, zero_mul, add_zero]
  by_cases hv : v = u
  · subst hv; rw [Function.update_self]; exact hr v
  · rw [Function.update_of_ne hv]

end Kernel

end Cognis
