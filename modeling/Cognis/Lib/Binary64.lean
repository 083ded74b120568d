/-
  Rounding to `binary64` (round to nearest, ties to even), on rationals.

  A finite `binary64` value is a rational; an arithmetic operation is the exact
  rational operation followed by `round`.  The exponent range is unbounded: the
  model is meant for computations that stay far from overflow and underflow.

  * `round_eq_self`: a rational with at most 53 significant bits is not changed;
  * `mul_exact`, `add_exact`: hence an operation with such a result is exact;
  * `abs_round_sub_le`: the error is at most half a unit in the last place.
-/
import Mathlib.Algebra.Order.Field.Rat
import Mathlib.Algebra.Order.Floor.Ring
import Mathlib.Data.Rat.Floor
import Mathlib.Tactic.FieldSimp
import Mathlib.Tactic.Linarith
import Mathlib.Tactic.NormNum
import Mathlib.Tactic.Positivity

namespace Cognis.Binary64

/-- `2 ^ k` for an integer `k`, in a form that evaluates. -/
def pow2 (k : ℤ) : ℚ :=
  if 0 ≤ k then ((2 ^ k.toNat : ℕ) : ℚ) else mkRat 1 (2 ^ (-k).toNat)

/-- The binary exponent of `x`: `2 ^ e ≤ |x| < 2 ^ (e + 1)` for `x ≠ 0`. -/
def exponent (x : ℚ) : ℤ :=
  let k : ℤ := (Nat.log2 x.num.natAbs : ℤ) - (Nat.log2 x.den : ℤ)
  if pow2 k ≤ |x| then k else k - 1

/-- The nearest integer, ties to even. -/
def halfEven (q : ℚ) : ℤ :=
  let f := ⌊q⌋
  if q - f < 1 / 2 then f else if 1 / 2 < q - f then f + 1 else if f % 2 = 0 then f else f + 1

/-- The nearest rational with 53 significant bits, ties to even. -/
def round (x : ℚ) : ℚ :=
  let ulp := pow2 (exponent x - 52)
  halfEven (x / ulp) * ulp

/-- Rounded addition. -/
def add (x y : ℚ) : ℚ := round (x + y)

/-- Rounded multiplication. -/
def mul (x y : ℚ) : ℚ := round (x * y)

/-! ## Powers of two -/

theorem pow2_eq_zpow (k : ℤ) : pow2 k = (2 : ℚ) ^ k := by
  unfold pow2
  split_ifs with h
  · obtain ⟨n, rfl⟩ := Int.eq_ofNat_of_zero_le h
    simp
  · obtain ⟨n, hn⟩ := Int.eq_ofNat_of_zero_le (by omega : 0 ≤ -k)
    rw [show k = -(n : ℤ) by omega, Rat.mkRat_eq_div]
    simp

theorem pow2_pos (k : ℤ) : 0 < pow2 k := by
  rw [pow2_eq_zpow]; exact zpow_pos two_pos k

theorem pow2_add (j k : ℤ) : pow2 (j + k) = pow2 j * pow2 k := by
  simp only [pow2_eq_zpow, zpow_add₀ (two_ne_zero' ℚ)]

theorem pow2_natCast (n : ℕ) : pow2 n = ((2 ^ n : ℕ) : ℚ) := by
  simp [pow2]

theorem pow2_lt_pow2 {j k : ℤ} : pow2 j < pow2 k ↔ j < k := by
  simp only [pow2_eq_zpow]
  exact zpow_lt_zpow_iff_right₀ one_lt_two

/-! ## The exponent -/

theorem pow2_exponent_le {x : ℚ} (hx : x ≠ 0) : pow2 (exponent x) ≤ |x| := by
  simp only [exponent]
  split_ifs with h
  · exact h
  · -- `|x| = n / d` with `2 ^ log2 n ≤ n` and `d < 2 ^ (log2 d + 1)`
    have hn : x.num.natAbs ≠ 0 := by simpa using hx
    have h1 : ((2 ^ x.num.natAbs.log2 : ℕ) : ℚ) ≤ (x.num.natAbs : ℚ) := by
      exact_mod_cast Nat.log2_self_le hn
    have h2 : (x.den : ℚ) ≤ ((2 ^ (x.den.log2 + 1) : ℕ) : ℚ) := by
      exact_mod_cast (Nat.lt_log2_self (n := x.den)).le
    have habs : |x| = (x.num.natAbs : ℚ) / x.den := by
      conv_lhs => rw [← Rat.num_div_den x]
      rw [abs_div, Nat.abs_cast, Nat.cast_natAbs, Int.cast_abs]
    have hd : (0 : ℚ) < x.den := by exact_mod_cast x.den_pos
    rw [habs, le_div_iff₀ hd]
    calc pow2 ((x.num.natAbs.log2 : ℤ) - x.den.log2 - 1) * x.den
        ≤ pow2 ((x.num.natAbs.log2 : ℤ) - x.den.log2 - 1) * pow2 ((x.den.log2 + 1 : ℕ) : ℤ) := by
          rw [pow2_natCast]
          exact mul_le_mul_of_nonneg_left h2 (pow2_pos _).le
      _ = pow2 (x.num.natAbs.log2 : ℕ) := by rw [← pow2_add]; congr 1; push_cast; ring
      _ ≤ x.num.natAbs := by rw [pow2_natCast]; exact h1

/-! ## Rounding -/

theorem halfEven_intCast (n : ℤ) : halfEven (n : ℚ) = n := by
  simp [halfEven]

/-- **A value of at most 53 bits is not changed by rounding.** -/
theorem round_eq_self {x : ℚ} {m e : ℤ} (hx : x = m * pow2 e) (hm : |m| < 2 ^ 53) :
    round x = x := by
  by_cases h0 : x = 0
  · rw [h0, round, zero_div, show (0 : ℚ) = ((0 : ℤ) : ℚ) by simp, halfEven_intCast]; simp
  -- the unit in the last place divides `2 ^ e`, so `x / ulp` is an integer
  have hexp : exponent x - 52 ≤ e := by
    have hlt : pow2 (exponent x) < pow2 (53 + e) := by
      calc pow2 (exponent x) ≤ |x| := pow2_exponent_le h0
        _ = |(m : ℚ)| * pow2 e := by rw [hx, abs_mul, abs_of_pos (pow2_pos e)]
        _ < pow2 53 * pow2 e := by
          refine mul_lt_mul_of_pos_right ?_ (pow2_pos e)
          rw [show (53 : ℤ) = (53 : ℕ) from rfl, pow2_natCast]
          exact_mod_cast hm
        _ = pow2 (53 + e) := (pow2_add 53 e).symm
    have := pow2_lt_pow2.1 hlt
    omega
  obtain ⟨k, hk⟩ := Int.eq_ofNat_of_zero_le (by omega : 0 ≤ e - (exponent x - 52))
  have hq : x / pow2 (exponent x - 52) = ((m * 2 ^ k : ℤ) : ℚ) := by
    rw [div_eq_iff (pow2_pos _).ne', hx]
    conv_lhs => rw [show e = (k : ℤ) + (exponent x - 52) by omega, pow2_add, pow2_natCast, hx]
    push_cast; ring
  unfold round
  simp only [hq, halfEven_intCast]
  rw [← hq, div_mul_cancel₀ _ (pow2_pos _).ne']

theorem add_exact {x y : ℚ} {m e : ℤ} (h : x + y = m * pow2 e) (hm : |m| < 2 ^ 53) :
    add x y = x + y := round_eq_self h hm

theorem mul_exact {x y : ℚ} {m e : ℤ} (h : x * y = m * pow2 e) (hm : |m| < 2 ^ 53) :
    mul x y = x * y := round_eq_self h hm

/-! ## The error -/

theorem round_zero : round 0 = 0 := by
  rw [round, zero_div, show (0 : ℚ) = ((0 : ℤ) : ℚ) by simp, halfEven_intCast]
  simp

theorem abs_halfEven_sub_le (q : ℚ) : |(halfEven q : ℚ) - q| ≤ 1 / 2 := by
  have hle := Int.floor_le q
  have hlt := Int.lt_floor_add_one q
  rw [abs_le]
  simp only [halfEven]
  split_ifs <;> push_cast <;> constructor <;> linarith

/-- The error of a value below a power of two. -/
theorem abs_round_sub_le {x : ℚ} {k : ℤ} (hx : |x| < pow2 k) : |round x - x| ≤ pow2 (k - 54) := by
  by_cases h0 : x = 0
  · rw [h0, round_zero, sub_zero, abs_zero]
    exact (pow2_pos _).le
  have hexp : exponent x - 52 + 1 ≤ k - 52 := by
    have := pow2_lt_pow2.1 ((pow2_exponent_le h0).trans_lt hx)
    omega
  have hulp : pow2 (exponent x - 52) * 2 ≤ pow2 (k - 52) := by
    calc pow2 (exponent x - 52) * 2 = pow2 (exponent x - 52 + 1) := by rw [pow2_add]; rfl
      _ ≤ pow2 (k - 52) := by
        rcases hexp.lt_or_eq with h | h
        · exact (pow2_lt_pow2.2 h).le
        · rw [h]
  have hquarter : pow2 (k - 54) = pow2 (k - 52) / 4 := by
    rw [show k - 54 = k - 52 + -2 by ring, pow2_add, pow2_eq_zpow (-2)]
    ring
  have hsub : round x - x =
      (halfEven (x / pow2 (exponent x - 52)) - x / pow2 (exponent x - 52)) *
        pow2 (exponent x - 52) := by
    rw [sub_mul, div_mul_cancel₀ _ (pow2_pos _).ne']
    rfl
  rw [hsub, abs_mul, abs_of_pos (pow2_pos _), hquarter]
  have := mul_le_mul_of_nonneg_right (abs_halfEven_sub_le (x / pow2 (exponent x - 52)))
    (pow2_pos (exponent x - 52)).le
  linarith

end Cognis.Binary64
