/-
  A scale of growth functions: powers with logarithmic factors, exponentials and
  the factorial, ordered by their rank.

  * `Growth.fn_isLittleO`: a smaller rank is asymptotically negligible;
  * `Growth.fn_isBigO_iff`: hence domination is the order of the ranks.
-/
import Mathlib.Analysis.Asymptotics.SpecificAsymptotics
import Mathlib.Analysis.SpecialFunctions.Pow.Asymptotics
import Mathlib.Analysis.SpecificLimits.Normed
import Mathlib.Data.Prod.Lex
import Mathlib.Topology.Algebra.Order.Floor

namespace Cognis

open Asymptotics Filter

/-- The function `n^(e/2) * (log n)^p`. -/
noncomputable def polylog (e p : ℕ) (n : ℕ) : ℝ := (n : ℝ) ^ ((e : ℝ) / 2) * Real.log n ^ p

/-- The growth functions of the scale. -/
inductive Growth where
  /-- `n^(e/2) * (log n)^p` -/
  | polylog (e p : ℕ)
  /-- `b^n` -/
  | exponential (b : ℕ) (two_le : 2 ≤ b)
  /-- `n!` -/
  | factorial

/-- The function of a `Growth`. -/
noncomputable def Growth.fn : Growth → ℕ → ℝ
  | .polylog e p => Cognis.polylog e p
  | .exponential b _ => fun n => (b : ℝ) ^ n
  | .factorial => fun n => (n.factorial : ℝ)

/-- The place of a growth function in the scale. -/
def Growth.rank : Growth → ℕ ×ₗ ℕ ×ₗ ℕ
  | .polylog e p => toLex (0, toLex (e, p))
  | .exponential b _ => toLex (1, toLex (b, 0))
  | .factorial => toLex (2, toLex (0, 0))

theorem tendsto_log_natCast : Tendsto (fun n : ℕ => Real.log n) atTop atTop :=
  Real.tendsto_log_atTop.comp tendsto_natCast_atTop_atTop

theorem log_pow_isLittleO_rpow (p : ℕ) {s : ℝ} (hs : 0 < s) :
    (fun n : ℕ => Real.log n ^ p) =o[atTop] fun n : ℕ => (n : ℝ) ^ s := by
  have h := (isLittleO_log_rpow_rpow_atTop p hs).comp_tendsto (tendsto_natCast_atTop_atTop (R := ℝ))
  simpa only [Function.comp_def, Real.rpow_natCast] using h

theorem one_isBigO_log_pow (q : ℕ) :
    (fun _ : ℕ => (1 : ℝ)) =O[atTop] fun n : ℕ => Real.log n ^ q := by
  refine .of_norm_eventuallyLE ?_
  filter_upwards [tendsto_log_natCast.eventually_ge_atTop 1] with n hn
  rw [norm_one]
  exact one_le_pow₀ hn

/-- A larger power of `n` wins over any power of the logarithm. -/
theorem polylog_isLittleO_of_lt {e e' : ℕ} (h : e < e') (p q : ℕ) :
    polylog e p =o[atTop] polylog e' q := by
  have hs : (0 : ℝ) < ((e' : ℝ) - e) / 2 := by
    have : (e : ℝ) < e' := by exact_mod_cast h
    linarith
  have hlog : (fun n : ℕ => Real.log n ^ p) =o[atTop]
      fun n : ℕ => (n : ℝ) ^ (((e' : ℝ) - e) / 2) * Real.log n ^ q := by
    simpa only [mul_one] using (log_pow_isLittleO_rpow p hs).mul_isBigO (one_isBigO_log_pow q)
  refine ((isBigO_refl (fun n : ℕ => (n : ℝ) ^ ((e : ℝ) / 2)) atTop).mul_isLittleO hlog).congr'
    (.of_forall fun _ => rfl) ?_
  filter_upwards [eventually_gt_atTop 0] with n hn
  have hn : (0 : ℝ) < n := by exact_mod_cast hn
  rw [polylog, ← mul_assoc, ← Real.rpow_add hn]
  ring_nf

theorem polylog_isLittleO_of_logPower_lt (e : ℕ) {p q : ℕ} (h : p < q) :
    polylog e p =o[atTop] polylog e q :=
  (isBigO_refl (fun n : ℕ => (n : ℝ) ^ ((e : ℝ) / 2)) atTop).mul_isLittleO
    ((isLittleO_pow_pow_atTop_of_lt h).comp_tendsto tendsto_log_natCast)

theorem polylog_even (d p n : ℕ) : polylog (2 * d) p n = (n : ℝ) ^ d * Real.log n ^ p := by
  rw [polylog, Nat.cast_mul, Nat.cast_ofNat, mul_div_cancel_left₀ _ two_ne_zero, Real.rpow_natCast]

/-- Every exponential wins over every polynomial. -/
theorem polylog_isLittleO_exponential (e p : ℕ) {b : ℕ} (hb : 2 ≤ b) :
    polylog e p =o[atTop] fun n => (b : ℝ) ^ n := by
  have hb : (1 : ℝ) < b := by exact_mod_cast hb
  refine (polylog_isLittleO_of_lt (show e < 2 * (e + 1) by omega) p 0).trans ?_
  simpa only [funext (polylog_even (e + 1) 0), pow_zero, mul_one] using
    isLittleO_pow_const_const_pow_of_one_lt (R := ℝ) (e + 1) hb

theorem exponential_isLittleO_factorial (b : ℕ) :
    (fun n => (b : ℝ) ^ n) =o[atTop] fun n => (n.factorial : ℝ) :=
  isLittleO_of_tendsto (fun n h => absurd h (by exact_mod_cast n.factorial_ne_zero))
    (FloorSemiring.tendsto_pow_div_factorial_atTop (b : ℝ))

namespace Growth

theorem rank_injective : Function.Injective rank := by
  intro r s h
  cases r <;> cases s <;> simp_all [rank]

/-- **A smaller rank is negligible.** -/
theorem fn_isLittleO {r s : Growth} (h : r.rank < s.rank) : r.fn =o[atTop] s.fn := by
  cases r with
  | polylog e p =>
    cases s with
    | polylog e' p' =>
      simp only [rank, Prod.Lex.toLex_lt_toLex, lt_irrefl, true_and, false_or] at h
      rcases h with h | ⟨rfl, h⟩
      · exact polylog_isLittleO_of_lt h p p'
      · exact polylog_isLittleO_of_logPower_lt e h
    | exponential b hb => exact polylog_isLittleO_exponential e p hb
    | factorial =>
      exact (polylog_isLittleO_exponential e p le_rfl).trans (exponential_isLittleO_factorial 2)
  | exponential b hb =>
    cases s with
    | polylog e' p' => simp [rank, Prod.Lex.toLex_lt_toLex] at h
    | exponential b' hb' =>
      have hlt : b < b' := by simpa [rank, Prod.Lex.toLex_lt_toLex] using h
      exact isLittleO_pow_pow_of_lt_left (Nat.cast_nonneg b) (by exact_mod_cast hlt)
    | factorial => exact exponential_isLittleO_factorial b
  | factorial => cases s <;> simp [rank, Prod.Lex.toLex_lt_toLex] at h

theorem fn_ne_zero (r : Growth) : ∃ᶠ n in atTop, r.fn n ≠ 0 := by
  refine Eventually.frequently ?_
  cases r with
  | polylog e p =>
    filter_upwards [eventually_gt_atTop 0, tendsto_log_natCast.eventually_gt_atTop 0] with n hn hlog
    have hn : (0 : ℝ) < n := by exact_mod_cast hn
    exact (mul_pos (Real.rpow_pos_of_pos hn _) (pow_pos hlog p)).ne'
  | exponential b hb =>
    exact .of_forall fun n => pow_ne_zero n (by exact_mod_cast (by omega : b ≠ 0))
  | factorial => exact .of_forall fun n => Nat.cast_ne_zero.2 n.factorial_ne_zero

/-- **Domination is the order of the ranks.** -/
theorem fn_isBigO_iff (r s : Growth) : r.fn =O[atTop] s.fn ↔ r.rank ≤ s.rank := by
  rcases lt_trichotomy r.rank s.rank with h | h | h
  · exact iff_of_true (fn_isLittleO h).isBigO h.le
  · rw [rank_injective h]
    exact iff_of_true (isBigO_refl _ _) le_rfl
  · refine iff_of_false (fun hO => ?_) h.not_ge
    exact isLittleO_irrefl r.fn_ne_zero (hO.trans_isLittleO (fn_isLittleO h))

end Growth

end Cognis
