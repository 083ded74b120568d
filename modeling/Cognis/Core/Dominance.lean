/-
  The effective degree against the asymptotic order of the classes.

  Within the polynomials of one degree the encoding is monotone, but its bands
  have a fixed width: a power of the logarithm counts a quarter of a degree, an
  exponential `8 + b / 10` and the factorial `10`, whatever the other exponents.

  * `growth_eq`: the function a class denotes, in the scale of growth functions;
  * `effectiveDegree_sound_iff`: the pairs of classes on which domination is
    reflected by the effective degree, and those on which `seqMax` keeps the
    dominating class.
-/
import Cognis.Core.Complexity
import Cognis.Lib.Growth

namespace Cognis

open Asymptotics Filter

namespace ComplexityClass

/-- The function a class denotes (the base of an exponential is at least `2`, as
    in its notation). -/
noncomputable def denote : ComplexityClass → ℕ → ℝ
  | .constant => fun _ => 1
  | .logarithmic power => fun n => Real.log n ^ power.toNat
  | .sqrt => fun n => √(n : ℝ)
  | .polynomial degree logPower => fun n => (n : ℝ) ^ degree.toNat * Real.log n ^ logPower.toNat
  | .exponential baseCalls => fun n => ((max baseCalls.toNat 2 : ℕ) : ℝ) ^ n
  | .factorial => fun n => (n.factorial : ℝ)

/-- `a` is asymptotically dominated by `b`. -/
def Dominated (a b : ComplexityClass) : Prop := a.denote =O[atTop] b.denote

/-- The degrees of `a` and `b` are related by `r`, wherever `a` is dominated by
    `b` but not conversely and their bands do not already separate them. -/
def Banded (r : ℕ → ℕ → Prop) : ComplexityClass → ComplexityClass → Prop
  | .logarithmic p, .sqrt => r (5 * p.toNat) 10
  | .polynomial d p, .sqrt => d.toNat = 0 → r (5 * p.toNat) 10
  | .logarithmic p, .polynomial d q =>
    d.toNat ≠ 0 → r (5 * p.toNat) (20 * d.toNat + 5 * q.toNat)
  | .polynomial d p, .polynomial d' q =>
    d.toNat < d'.toNat → r (20 * d.toNat + 5 * p.toNat) (20 * d'.toNat + 5 * q.toNat)
  | .logarithmic p, .exponential b => r (5 * p.toNat) (160 + 2 * max b.toNat 2)
  | .polynomial d p, .exponential b =>
    r (20 * d.toNat + 5 * p.toNat) (160 + 2 * max b.toNat 2)
  | .logarithmic p, .factorial => r (5 * p.toNat) 200
  | .polynomial d p, .factorial => r (20 * d.toNat + 5 * p.toNat) 200
  | .exponential b, .factorial => r (160 + 2 * max b.toNat 2) 200
  | _, _ => True

/-! ## Classes in the scale -/

/-- The growth function of a class. -/
def growth : ComplexityClass → Growth
  | .constant => .polylog 0 0
  | .logarithmic power => .polylog 0 power.toNat
  | .sqrt => .polylog 1 0
  | .polynomial degree logPower => .polylog (2 * degree.toNat) logPower.toNat
  | .exponential baseCalls => .exponential (max baseCalls.toNat 2) (le_max_right _ _)
  | .factorial => .factorial

theorem growth_eq (c : ComplexityClass) : c.denote = c.growth.fn := by
  funext n
  cases c with
  | constant => simp [denote, growth, Growth.fn, polylog]
  | logarithmic p => simp [denote, growth, Growth.fn, polylog]
  | sqrt => simp [denote, growth, Growth.fn, polylog, Real.sqrt_eq_rpow]
  | polynomial d p => exact (polylog_even d.toNat p.toNat n).symm
  | exponential b => rfl
  | factorial => rfl

theorem dominated_iff (a b : ComplexityClass) :
    Dominated a b ↔ a.growth.rank ≤ b.growth.rank := by
  rw [Dominated, growth_eq, growth_eq, Growth.fn_isBigO_iff]

theorem degreeCode_eq_of_rank_eq {a b : ComplexityClass} (h : a.growth.rank = b.growth.rank) :
    a.degreeCode = b.degreeCode := by
  have h := Growth.rank_injective h
  cases a <;> cases b <;> simp_all [growth, degreeCode] <;> omega

theorem banded_iff {r : ℕ → ℕ → Prop} (hr : ∀ m n, m < n → r m n) (a b : ComplexityClass) :
    Banded r a b ↔ (a.growth.rank < b.growth.rank → r a.degreeCode b.degreeCode) := by
  cases a <;> cases b <;>
    simp only [Banded, growth, Growth.rank, degreeCode, Prod.Lex.toLex_lt_toLex] <;> grind

/-! ## Soundness of the order -/

/-- The conclusion of the encoding's promise, for a pair of classes. -/
def OrderSound (a b : ComplexityClass) : Prop :=
  Dominated a b → a.effectiveDegree ≤ b.effectiveDegree

/-- `seqMax` keeps the dominating class, on either side. -/
def KeepsDominating (a b : ComplexityClass) : Prop :=
  Dominated a b → Dominated b (a.seqMax b) ∧ Dominated b (b.seqMax a)

theorem orderSound_iff (a b : ComplexityClass) :
    OrderSound a b ↔ Banded (· ≤ ·) a b := by
  rw [banded_iff (fun _ _ => le_of_lt), OrderSound, dominated_iff, effectiveDegree_le_iff]
  refine ⟨fun h hlt => h hlt.le, fun h hle => ?_⟩
  rcases hle.lt_or_eq with hlt | heq
  · exact h hlt
  · exact (degreeCode_eq_of_rank_eq heq).le

theorem keepsDominating_iff (a b : ComplexityClass) :
    KeepsDominating a b ↔ Banded (· < ·) a b := by
  rw [banded_iff (fun _ _ => id), KeepsDominating]
  simp only [dominated_iff, seqMax_eq]
  constructor
  · intro h hlt
    obtain ⟨h1, -⟩ := h hlt.le
    split_ifs at h1 with hc
    · exact absurd h1 hlt.not_ge
    · exact not_le.1 hc
  · intro h hle
    rcases hle.lt_or_eq with hlt | heq
    · rw [if_neg (h hlt).not_ge, if_pos (h hlt).le]
      exact ⟨le_rfl, le_rfl⟩
    · split_ifs <;> simp [heq]

/-- **Asymptotic soundness of the effective degree**: domination is reflected by
    the order exactly on the pairs whose bands are in order, and `seqMax` keeps
    the dominating class exactly on those whose bands are strictly so. -/
theorem effectiveDegree_sound_iff (a b : ComplexityClass) :
    (OrderSound a b ↔ Banded (· ≤ ·) a b) ∧ (KeepsDominating a b ↔ Banded (· < ·) a b) :=
  ⟨orderSound_iff a b, keepsDominating_iff a b⟩

/-- `n^9` is dominated by `2^n`, but its degree is `9.0` against `8.2`. -/
theorem not_effectiveDegree_sound :
    ¬ ∀ a b : ComplexityClass, OrderSound a b ∧ KeepsDominating a b := by
  intro h
  have h := (orderSound_iff _ _).1 (h (.polynomial 9 0) (.exponential 2)).1
  exact absurd h (by simp [Banded])

end ComplexityClass

end Cognis
