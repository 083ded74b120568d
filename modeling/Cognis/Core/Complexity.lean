/-
  The complexity classes of `cognis-core` (`complexity.rs`): their scalar
  `effectiveDegree`, sequential composition `seqMax` and nesting `nestMul`.

  * `degreeCode` is the effective degree in twentieths, a natural number;
    `effectiveDegree_le_iff`: the `f64` comparison is the comparison of codes;
  * `degreeCode_seqMax`: hence `seqMax` takes the maximum of the codes.
-/
import Cognis.Lib.Binary64
import Cognis.Lib.Saturating

namespace Cognis

/-! ## The classes and their operations -/

/-- `ComplexityClass`: the growth classes, with `u8` parameters. -/
inductive ComplexityClass where
  /-- `O(1)` -/
  | constant
  /-- `O((log n)^power)` -/
  | logarithmic (power : UInt8)
  /-- `O(sqrt(n))` -/
  | sqrt
  /-- `O(n^degree * (log n)^log_power)` -/
  | polynomial (degree logPower : UInt8)
  /-- `O(base_calls^n)` -/
  | exponential (baseCalls : UInt8)
  /-- `O(n!)` -/
  | factorial
  deriving DecidableEq, Repr, Inhabited

namespace ComplexityClass

/-- `ComplexityClass::log_n` -/
def logN : ComplexityClass := .logarithmic 1

/-- `ComplexityClass::sqrt_n` -/
def sqrtN : ComplexityClass := .sqrt

/-- `ComplexityClass::linear` -/
def linear : ComplexityClass := .polynomial 1 0

/-- `ComplexityClass::n_log_n` -/
def nLogN : ComplexityClass := .polynomial 1 1

/-- The function `ComplexityClass::polynomial`: the class of `n^degree`. -/
def ofDegree (degree : UInt8) : ComplexityClass :=
  if degree = 0 then .constant else .polynomial degree 0

/-- The `f64` literal `0.1`. -/
def tenth : ℚ := Binary64.round (1 / 10)

/-- `effective_degree`: the operations are `f64` operations, in the order of
    the source; the literals `0.25`, `0.5`, `8.0` and `10.0` are exact. -/
def effectiveDegree : ComplexityClass → ℚ
  | .constant => 0
  | .logarithmic power => Binary64.mul (1 / 4) power.toNat
  | .sqrt => 1 / 2
  | .polynomial degree logPower =>
    Binary64.add degree.toNat (Binary64.mul (1 / 4) logPower.toNat)
  | .exponential baseCalls => Binary64.add 8 (Binary64.mul tenth (max baseCalls 2).toNat)
  | .factorial => 10

/-- `seq_max`: `C(S1; S2) = max(C(S1), C(S2))`, the left one on a tie. -/
def seqMax (self other : ComplexityClass) : ComplexityClass :=
  if other.effectiveDegree ≤ self.effectiveDegree then self else other

/-- `nest_mul`: a loop body, or a callee inside a loop. -/
def nestMul : ComplexityClass → ComplexityClass → ComplexityClass
  | .constant, x | x, .constant => x
  | .factorial, _ | _, .factorial => .factorial
  | .exponential b1, .exponential b2 => .exponential (max (satMul b1 b2) 2)
  | .exponential b, _ | _, .exponential b => .exponential b
  | .logarithmic p1, .logarithmic p2 => .logarithmic (satAdd p1 p2)
  | .sqrt, .sqrt => linear
  | .sqrt, .logarithmic p | .logarithmic p, .sqrt => .polynomial 1 p
  | .sqrt, .polynomial d p | .polynomial d p, .sqrt => .polynomial (satAdd d 1) p
  | .polynomial d p1, .logarithmic p2 | .logarithmic p2, .polynomial d p1 =>
    .polynomial d (satAdd p1 p2)
  | .polynomial d1 p1, .polynomial d2 p2 => .polynomial (satAdd d1 d2) (satAdd p1 p2)

end ComplexityClass

/-- `LoopBound`: the iteration bound of a loop. -/
inductive LoopBound where
  | constant (n : UInt32)
  | logarithmic
  | sqrt
  | linear (collection : Option String)
  deriving DecidableEq, Repr

/-- `LoopBound::to_complexity` -/
def LoopBound.toComplexity : LoopBound → ComplexityClass
  | .constant _ => .constant
  | .logarithmic => .logN
  | .sqrt => .sqrtN
  | .linear _ => .linear

namespace ComplexityClass

/-! ## Nesting -/

@[simp] theorem constant_nestMul (c : ComplexityClass) : constant.nestMul c = c := by
  cases c <;> rfl

@[simp] theorem nestMul_constant (c : ComplexityClass) : c.nestMul .constant = c := by
  cases c <;> rfl

@[simp] theorem factorial_nestMul (c : ComplexityClass) : factorial.nestMul c = .factorial := by
  cases c <;> rfl

@[simp] theorem nestMul_factorial (c : ComplexityClass) : c.nestMul .factorial = .factorial := by
  cases c <;> rfl

theorem nestMul_comm (a b : ComplexityClass) : a.nestMul b = b.nestMul a := by
  cases a <;> cases b <;> simp only [nestMul, satAdd_comm, satMul_comm]

/-- The degree of a polynomial. -/
def degree : ComplexityClass → ℕ
  | .polynomial d _ => d.toNat
  | _ => 0

/-- The power of the logarithm. -/
def logPower : ComplexityClass → ℕ
  | .logarithmic p | .polynomial _ p => p.toNat
  | _ => 0

/-- Neither exponential nor factorial. -/
def Polylog : ComplexityClass → Prop
  | .constant | .logarithmic _ | .sqrt | .polynomial _ _ => True
  | .exponential _ | .factorial => False

theorem exponential_nestMul {c : ComplexityClass} (b : UInt8) (hc : c.Polylog) :
    (exponential b).nestMul c = .exponential b := by
  cases c <;> first | rfl | exact hc.elim

theorem Polylog.nestMul {a b : ComplexityClass} (ha : a.Polylog) (hb : b.Polylog) :
    (a.nestMul b).Polylog := by
  cases a <;> cases b <;> trivial

/-! ## The effective degree in twentieths -/

/-- The effective degree in twentieths. -/
def degreeCode : ComplexityClass → ℕ
  | .constant => 0
  | .logarithmic power => 5 * power.toNat
  | .sqrt => 10
  | .polynomial degree logPower => 20 * degree.toNat + 5 * logPower.toNat
  | .exponential baseCalls => 160 + 2 * max baseCalls.toNat 2
  | .factorial => 200

/-- The effective degree of an exponential of base `b ≥ 2`. -/
def exponentialDegree (b : ℕ) : ℚ := Binary64.add 8 (Binary64.mul tenth b)

theorem mul_quarter (p : UInt8) : Binary64.mul (1 / 4) p.toNat = (p.toNat : ℚ) / 4 := by
  have hp := p.toNat_lt
  have h := Binary64.mul_exact (x := 1 / 4) (y := p.toNat) (m := p.toNat) (e := -2)
    (by rw [Binary64.pow2_eq_zpow]; norm_num; ring) (by rw [Nat.abs_cast]; omega)
  rw [h]; ring

theorem effectiveDegree_polynomial (d p : UInt8) :
    (polynomial d p).effectiveDegree = d.toNat + (p.toNat : ℚ) / 4 := by
  have hd := d.toNat_lt
  have hp := p.toNat_lt
  rw [effectiveDegree, mul_quarter]
  refine Binary64.add_exact (m := 4 * d.toNat + p.toNat) (e := -2) ?_ ?_
  · rw [Binary64.pow2_eq_zpow]; push_cast; norm_num; ring
  · rw [abs_of_nonneg (by positivity)]; omega

theorem effectiveDegree_exponential (b : UInt8) :
    (exponential b).effectiveDegree = exponentialDegree (max b.toNat 2) := by
  rw [effectiveDegree, exponentialDegree, toNat_max]; rfl

/-- A class that is not exponential has a degree in quarters. -/
theorem effectiveDegree_quarters {c : ComplexityClass} (h : ∀ b, c ≠ .exponential b) :
    ∃ m : ℕ, c.effectiveDegree = m / 4 ∧ c.degreeCode = 5 * m := by
  cases c with
  | constant => exact ⟨0, by simp [effectiveDegree], rfl⟩
  | logarithmic p => exact ⟨p.toNat, mul_quarter p, rfl⟩
  | sqrt => exact ⟨2, by norm_num [effectiveDegree], rfl⟩
  | polynomial d p =>
    refine ⟨4 * d.toNat + p.toNat, ?_, by simp only [degreeCode]; omega⟩
    rw [effectiveDegree_polynomial]; push_cast; ring
  | exponential b => exact absurd rfl (h b)
  | factorial => exact ⟨40, by norm_num [effectiveDegree], rfl⟩

/-! ## The rounded degree of an exponential

`8.0 + 0.1 * b` is not `8 + b / 10`, but on the 256 bases it lies between the
same quarters. -/

/-- The two roundings are off by less than a hundredth. -/
theorem abs_exponentialDegree_sub_lt {b : ℕ} (hb : b < 256) :
    |exponentialDegree b - (8 + (b : ℚ) / 10)| < 1 / 100 := by
  have hcast : (b : ℚ) < 256 := by exact_mod_cast hb
  have hpos : (0 : ℚ) ≤ b := b.cast_nonneg
  have hsmall : ∀ k : ℤ, k ≤ -14 → Binary64.pow2 k ≤ 1 / 10000 := by
    intro k hk
    calc Binary64.pow2 k ≤ (2 : ℚ) ^ (-14 : ℤ) := by
          rw [Binary64.pow2_eq_zpow]
          exact zpow_le_zpow_right₀ one_le_two hk
      _ ≤ 1 / 10000 := by norm_num
  have htenth : |tenth - 1 / 10| ≤ Binary64.pow2 (-57) :=
    Binary64.abs_round_sub_le (k := -3) (by rw [Binary64.pow2_eq_zpow, abs_of_pos] <;> norm_num)
  have htenth' : |tenth - 1 / 10| * b ≤ 1 / 1000 := by
    have htiny : Binary64.pow2 (-57) * 256 ≤ 1 / 1000 := by
      rw [Binary64.pow2_eq_zpow]
      norm_num
    nlinarith [abs_nonneg (tenth - 1 / 10)]
  have hprod : |tenth * b - (b : ℚ) / 10| ≤ 1 / 1000 := by
    rw [show tenth * b - (b : ℚ) / 10 = (tenth - 1 / 10) * b by ring, abs_mul, abs_of_nonneg hpos]
    exact htenth'
  have hmul : |Binary64.mul tenth b - tenth * b| ≤ 1 / 10000 := by
    refine (Binary64.abs_round_sub_le (k := 5) ?_).trans (hsmall _ (by norm_num))
    rw [Binary64.pow2_eq_zpow, abs_lt]
    rw [abs_le] at hprod
    constructor <;> norm_num <;> linarith
  have hadd : |exponentialDegree b - (8 + Binary64.mul tenth b)| ≤ 1 / 10000 := by
    refine (Binary64.abs_round_sub_le (k := 6) ?_).trans (hsmall _ (by norm_num))
    rw [Binary64.pow2_eq_zpow, abs_lt]
    rw [abs_le] at hprod hmul
    constructor <;> norm_num <;> linarith
  rw [abs_le] at hprod hmul hadd
  rw [abs_lt]
  constructor <;> linarith

/-- Where the degree is a whole number of halves the rounding is exact. -/
theorem exponentialDegree_five_mul :
    ∀ c < 52, 4 * exponentialDegree (5 * c) = ((32 + 2 * c : ℕ) : ℚ) := by
  decide +kernel

theorem floor_of_bounds {x : ℚ} {n : ℤ} (hle : (n : ℚ) ≤ x) (hlt : x < n + 1) : x.floor = n := by
  refine le_antisymm (Int.lt_add_one_iff.1 (Rat.floor_lt_iff.2 ?_)) (Rat.le_floor_iff.2 hle)
  push_cast
  exact hlt

theorem exponentialDegree_floor : ∀ b < 256,
    (4 * exponentialDegree b).floor = ((160 + 2 * b) / 5 : ℕ) ∧
      (-(4 * exponentialDegree b)).floor = -((160 + 2 * b + 4) / 5 : ℕ) := by
  intro b hb
  by_cases hfive : 5 ∣ b
  · obtain ⟨c, rfl⟩ := hfive
    rw [exponentialDegree_five_mul c (by omega), show (160 + 2 * (5 * c)) / 5 = 32 + 2 * c by omega,
      show (160 + 2 * (5 * c) + 4) / 5 = 32 + 2 * c by omega]
    exact ⟨floor_of_bounds (by push_cast; linarith) (by push_cast; linarith),
      floor_of_bounds (by push_cast; linarith) (by push_cast; linarith)⟩
  · -- the exact value is a fifth away from the whole numbers around it
    have herror := abs_lt.1 (abs_exponentialDegree_sub_lt hb)
    have hdiv := Nat.div_add_mod (160 + 2 * b) 5
    have hmod : 1 ≤ (160 + 2 * b) % 5 ∧ (160 + 2 * b) % 5 ≤ 4 := by omega
    have hceil : (160 + 2 * b + 4) / 5 = (160 + 2 * b) / 5 + 1 := by omega
    rw [hceil]
    generalize (160 + 2 * b) / 5 = n at hdiv ⊢
    generalize (160 + 2 * b) % 5 = r at hdiv hmod
    have hdiv' : 5 * (n : ℚ) + r = 160 + 2 * b := by exact_mod_cast hdiv
    have hlow : (1 : ℚ) ≤ r := by exact_mod_cast hmod.1
    have hhigh : (r : ℚ) ≤ 4 := by exact_mod_cast hmod.2
    exact ⟨floor_of_bounds (by push_cast; linarith [herror.1]) (by push_cast; linarith [herror.2]),
      floor_of_bounds (by push_cast; linarith [herror.2]) (by push_cast; linarith [herror.1])⟩

theorem exponentialDegree_succ : ∀ b < 255, exponentialDegree b < exponentialDegree (b + 1) := by
  intro b hb
  have hb' := abs_lt.1 (abs_exponentialDegree_sub_lt (show b < 256 by omega))
  have hsucc := abs_lt.1 (abs_exponentialDegree_sub_lt (show b + 1 < 256 by omega))
  push_cast at hsucc
  linarith [hb'.2, hsucc.1]

theorem le_exponentialDegree_iff {b m : ℕ} (hb : b < 256) :
    (m : ℚ) / 4 ≤ exponentialDegree b ↔ 5 * m ≤ 160 + 2 * b := by
  have h : (m : ℚ) / 4 ≤ exponentialDegree b ↔ ((m : ℤ) : ℚ) ≤ 4 * exponentialDegree b := by
    push_cast; constructor <;> intro h <;> linarith
  rw [h, ← Rat.le_floor_iff, (exponentialDegree_floor b hb).1]
  omega

theorem exponentialDegree_le_iff {b m : ℕ} (hb : b < 256) :
    exponentialDegree b ≤ (m : ℚ) / 4 ↔ 160 + 2 * b ≤ 5 * m := by
  have h : exponentialDegree b ≤ (m : ℚ) / 4 ↔
      ((-(m : ℤ) : ℤ) : ℚ) ≤ -(4 * exponentialDegree b) := by
    push_cast; constructor <;> intro h <;> linarith
  rw [h, ← Rat.le_floor_iff, (exponentialDegree_floor b hb).2]
  omega

theorem exponentialDegree_strictMono {b b' : ℕ} (hb' : b' < 256) (h : b < b') :
    exponentialDegree b < exponentialDegree b' := by
  induction h with
  | refl => exact exponentialDegree_succ b (by omega)
  | @step k _ ih => exact (ih (by omega)).trans (exponentialDegree_succ k (by omega))

theorem exponentialDegree_le_exponentialDegree_iff {b b' : ℕ} (hb : b < 256) (hb' : b' < 256) :
    exponentialDegree b ≤ exponentialDegree b' ↔ b ≤ b' := by
  rcases lt_trichotomy b b' with h | rfl | h
  · exact iff_of_true (exponentialDegree_strictMono hb' h).le h.le
  · simp
  · exact iff_of_false (exponentialDegree_strictMono hb h).not_ge (by omega)

/-! ## Comparison of degrees -/

/-- **The `f64` comparison of effective degrees is the comparison of codes.** -/
theorem effectiveDegree_le_iff (a b : ComplexityClass) :
    a.effectiveDegree ≤ b.effectiveDegree ↔ a.degreeCode ≤ b.degreeCode := by
  by_cases ha : ∃ x, a = .exponential x <;> by_cases hb : ∃ y, b = .exponential y
  · obtain ⟨⟨x, rfl⟩, y, rfl⟩ := ha, hb
    have hx := x.toNat_lt
    have hy := y.toNat_lt
    rw [effectiveDegree_exponential, effectiveDegree_exponential,
      exponentialDegree_le_exponentialDegree_iff (by omega) (by omega), degreeCode, degreeCode]
    omega
  · obtain ⟨x, rfl⟩ := ha
    obtain ⟨m, hm, hc⟩ := effectiveDegree_quarters (not_exists.1 hb)
    have hx := x.toNat_lt
    rw [effectiveDegree_exponential, hm, exponentialDegree_le_iff (by omega), hc, degreeCode]
  · obtain ⟨y, rfl⟩ := hb
    obtain ⟨m, hm, hc⟩ := effectiveDegree_quarters (not_exists.1 ha)
    have hy := y.toNat_lt
    rw [effectiveDegree_exponential, hm, le_exponentialDegree_iff (by omega), hc, degreeCode]
  · obtain ⟨m, hm, hc⟩ := effectiveDegree_quarters (not_exists.1 ha)
    obtain ⟨k, hk, hd⟩ := effectiveDegree_quarters (not_exists.1 hb)
    rw [hm, hk, hc, hd, div_le_div_iff_of_pos_right (by norm_num), Nat.cast_le]
    omega

theorem effectiveDegree_lt_iff (a b : ComplexityClass) :
    a.effectiveDegree < b.effectiveDegree ↔ a.degreeCode < b.degreeCode := by
  rw [← not_le, ← not_le, effectiveDegree_le_iff]

theorem effectiveDegree_eq_iff (a b : ComplexityClass) :
    a.effectiveDegree = b.effectiveDegree ↔ a.degreeCode = b.degreeCode := by
  rw [le_antisymm_iff, le_antisymm_iff, effectiveDegree_le_iff, effectiveDegree_le_iff]

theorem seqMax_eq (a b : ComplexityClass) :
    a.seqMax b = if b.degreeCode ≤ a.degreeCode then a else b := by
  simp only [seqMax, effectiveDegree_le_iff]

@[simp] theorem degreeCode_seqMax (a b : ComplexityClass) :
    (a.seqMax b).degreeCode = max a.degreeCode b.degreeCode := by
  rw [seqMax_eq]
  split_ifs <;> omega

end ComplexityClass

end Cognis
