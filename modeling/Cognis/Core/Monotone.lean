/-
  The order of the effective degrees under nesting and sequencing.

  `seqMax` is the maximum of that order.  `nestMul` is monotone for it on most
  arguments only: the effective degree of `sqrt` is `0.5`, but a square root
  next to a logarithm counts as a full degree, and an exponential or a
  factorial absorbs a polynomial of any degree.

  * `Grows z x`: nesting `x` in `z` is no cheaper than either;
  * `KeepsOrder z x y`: nesting in `z` keeps an inequality from `x` to `y`;
  * `nesting_monotone_iff`: all the laws together hold iff these do.
-/
import Cognis.Core.Complexity

namespace Cognis

namespace ComplexityClass

/-! ## Kinds of classes -/

/-- What decides the rule of `nestMul` for a class. -/
inductive Kind where
  | constant
  /-- a power of the logarithm or a polynomial -/
  | monomial
  | sqrt
  /-- an exponential or the factorial -/
  | absorbing
  deriving DecidableEq, Repr

/-- The kind of a class. -/
def kind : ComplexityClass → Kind
  | .constant => .constant
  | .logarithmic _ | .polynomial _ _ => .monomial
  | .sqrt => .sqrt
  | .exponential _ | .factorial => .absorbing

/-- The part of the degree that nesting `x` in the monomial `z` loses to the
    saturation of the exponents at `255`. -/
def overflow (z x : ComplexityClass) : ℕ :=
  20 * (z.degree + x.degree - 255) + 5 * (z.logPower + x.logPower - 255)

/-- Nesting `x` in `z` is no cheaper than either: neither absorbs a larger
    class, and no base is `0` next to a base above `2`. -/
def Grows : ComplexityClass → ComplexityClass → Prop
  | .constant, _ | _, .constant => True
  | .factorial, c | c, .factorial => c.degreeCode ≤ 200
  | .exponential b, .exponential b' => (b = 0 → b' ≤ 2) ∧ (b' = 0 → b ≤ 2)
  | .exponential b, c | c, .exponential b => c.degreeCode ≤ (exponential b).degreeCode
  | _, _ => True

/-- Nesting in a monomial keeps the order from `x` to `y`. -/
def MonomialKeepsOrder (z x y : ComplexityClass) : Prop :=
  match x.kind, y.kind with
  | .absorbing, _ | .sqrt, .sqrt => True
  | .sqrt, .absorbing => z.degreeCode + 20 ≤ y.degreeCode
  | .sqrt, .constant => True
  | .sqrt, .monomial =>
    z.degree = 255 ∨ y.degreeCode < 10 ∨ 20 + overflow z y ≤ y.degreeCode
  | .constant, .sqrt => True
  | .monomial, .sqrt =>
    z.degree < 255 ∨ z.logPower = 255 ∨ x.degreeCode = 0 ∨ 10 < x.degreeCode
  | _, .absorbing =>
    x.degreeCode ≤ y.degreeCode → z.degreeCode + x.degreeCode ≤ y.degreeCode + overflow z x
  | _, _ =>
    x.degreeCode ≤ y.degreeCode → x.degreeCode + overflow z y ≤ y.degreeCode + overflow z x

/-- Nesting in a square root keeps the order from `x` to `y`. -/
def SqrtKeepsOrder (x y : ComplexityClass) : Prop :=
  match x.kind, y.kind with
  | .monomial, .constant => 0 < x.degreeCode
  | .monomial, .sqrt => x.degreeCode = 0 ∨ 10 < x.degreeCode
  | .monomial, .absorbing => x.degreeCode ≤ y.degreeCode → x.degreeCode + 20 ≤ y.degreeCode
  | .monomial, .monomial =>
    x.degreeCode ≤ y.degreeCode → x.degree < 255 → y.degree = 255 →
      x.degreeCode + 20 ≤ y.degreeCode
  | _, _ => True

/-- Nesting in an exponential keeps the order from `x` to `y`. -/
def ExponentialKeepsOrder (b : UInt8) (x y : ComplexityClass) : Prop :=
  match x with
  | .exponential b' =>
    match y with
    | .exponential b'' => b' ≤ 2 → b'' < b' → b.toNat * b'.toNat ≤ 2 ∨ (b = 255 ∧ b'' = 1)
    | .factorial => 20 < b' ∨ b.toNat * b'.toNat ≤ 20
    | .constant | .logarithmic _ | .sqrt | .polynomial _ _ =>
      y.degreeCode < 160 + 2 * max b'.toNat 2 ∨ b = 0 ∨ (b = 1 ∧ b' ≤ 2) ∨ b' ≤ 1 ∨ b = 255
  | .factorial =>
    match y with
    | .exponential b'' => b'' < 20 ∨ b ≠ 0
    | .factorial => True
    | .constant | .logarithmic _ | .sqrt | .polynomial _ _ => y.degreeCode < 200 ∨ 20 ≤ b
  | .constant | .logarithmic _ | .sqrt | .polynomial _ _ =>
    match y with
    | .exponential b'' => b ≤ 2 ∨ b'' ≠ 0 ∨ 164 < x.degreeCode
    | .factorial => 200 < x.degreeCode ∨ b ≤ 20
    | .constant | .logarithmic _ | .sqrt | .polynomial _ _ => True

/-- Nesting in `z` keeps the order from `x` to `y`. -/
def KeepsOrder (z x y : ComplexityClass) : Prop :=
  match z with
  | .constant | .factorial => True
  | .sqrt => SqrtKeepsOrder x y
  | .exponential b => ExponentialKeepsOrder b x y
  | .logarithmic _ | .polynomial _ _ => MonomialKeepsOrder z x y

/-! ## The degree of a nesting -/

theorem degree_le (c : ComplexityClass) : c.degree ≤ 255 := by
  cases c <;> simp [degree, toNat_le_255]

theorem logPower_le (c : ComplexityClass) : c.logPower ≤ 255 := by
  cases c <;> simp [logPower, toNat_le_255]

theorem degreeCode_monomial {c : ComplexityClass} (h : c.kind = .monomial) :
    c.degreeCode = 20 * c.degree + 5 * c.logPower := by
  cases c <;> simp_all [kind, degreeCode, degree, logPower]

theorem degreeCode_absorbing {c : ComplexityClass} (h : c.kind = .absorbing) :
    164 ≤ c.degreeCode ∧ c.degreeCode ≤ 670 := by
  cases c with
  | exponential b => have := toNat_le_255 b; simp only [degreeCode]; omega
  | factorial => simp [degreeCode]
  | _ => simp [kind] at h

theorem eq_constant_of_kind {c : ComplexityClass} (h : c.kind = .constant) : c = .constant := by
  cases c <;> simp_all [kind]

theorem eq_sqrt_of_kind {c : ComplexityClass} (h : c.kind = .sqrt) : c = .sqrt := by
  cases c <;> simp_all [kind]

theorem nestMul_absorbing {z c : ComplexityClass} (hz : z.Polylog) (h : c.kind = .absorbing) :
    z.nestMul c = c := by
  cases c with
  | exponential b => rw [nestMul_comm, exponential_nestMul b hz]
  | factorial => rw [nestMul_factorial]
  | _ => simp [kind] at h

theorem polylog_of_kind {z : ComplexityClass} (h : z.kind = .monomial) : z.Polylog := by
  cases z <;> simp_all [kind, Polylog]

theorem degreeCode_nestMul_monomial {z x : ComplexityClass} (hz : z.kind = .monomial)
    (hx : x.kind = .monomial) : (z.nestMul x).degreeCode =
      20 * min 255 (z.degree + x.degree) + 5 * min 255 (z.logPower + x.logPower) := by
  have hz' := degree_le z
  have hx' := degree_le x
  cases z <;> cases x <;>
    simp_all [kind, nestMul, degreeCode, degree, logPower, toNat_satAdd, add_comm]

theorem degreeCode_nestMul_sqrt {z : ComplexityClass} (hz : z.kind = .monomial) :
    (z.nestMul .sqrt).degreeCode = 20 * min 255 (z.degree + 1) + 5 * z.logPower := by
  cases z <;> simp_all [kind, nestMul, degreeCode, degree, logPower, toNat_satAdd]

/-! ## Nesting in a monomial or a square root -/

/-- The degree of `x`, and of `x` nested in the monomial `z`, by the kind of `x`. -/
theorem nestMul_monomial_cases {z : ComplexityClass} (hz : z.kind = .monomial)
    (x : ComplexityClass) :
    (x.kind = .constant ∧ x.degreeCode = 0 ∧ overflow z x = 0 ∧
      (z.nestMul x).degreeCode = z.degreeCode) ∨
    (x.kind = .monomial ∧ x.degreeCode = 20 * x.degree + 5 * x.logPower ∧
      (z.nestMul x).degreeCode =
        20 * min 255 (z.degree + x.degree) + 5 * min 255 (z.logPower + x.logPower)) ∨
    (x.kind = .sqrt ∧ x.degreeCode = 10 ∧
      (z.nestMul x).degreeCode = 20 * min 255 (z.degree + 1) + 5 * z.logPower) ∨
    (x.kind = .absorbing ∧ 164 ≤ x.degreeCode ∧ x.degreeCode ≤ 670 ∧
      (z.nestMul x).degreeCode = x.degreeCode) := by
  cases hx : x.kind with
  | constant =>
    have hd := degree_le z
    have hp := logPower_le z
    obtain rfl := eq_constant_of_kind hx
    have hov : overflow z .constant = 20 * (z.degree - 255) + 5 * (z.logPower - 255) := rfl
    exact .inl ⟨rfl, rfl, by omega, by rw [nestMul_constant]⟩
  | monomial =>
    exact .inr (.inl ⟨rfl, degreeCode_monomial hx, degreeCode_nestMul_monomial hz hx⟩)
  | sqrt =>
    rw [eq_sqrt_of_kind hx]
    exact .inr (.inr (.inl ⟨rfl, rfl, degreeCode_nestMul_sqrt hz⟩))
  | absorbing =>
    obtain ⟨h1, h2⟩ := degreeCode_absorbing hx
    rw [nestMul_absorbing (polylog_of_kind hz) hx]
    exact .inr (.inr (.inr ⟨rfl, h1, h2, rfl⟩))

theorem monomialKeepsOrder_iff {z : ComplexityClass} (hz : z.kind = .monomial)
    (x y : ComplexityClass) : MonomialKeepsOrder z x y ↔
      (x.degreeCode ≤ y.degreeCode → (z.nestMul x).degreeCode ≤ (z.nestMul y).degreeCode) := by
  have hd := degree_le z
  have hp := logPower_le z
  have hE := degreeCode_monomial hz
  have hdx := degree_le x
  have hpx := logPower_le x
  have hdy := degree_le y
  have hpy := logPower_le y
  have hovx : overflow z x = _ := rfl
  have hovy : overflow z y = _ := rfl
  rcases nestMul_monomial_cases hz x with ⟨hx, hx'⟩ | ⟨hx, hx'⟩ | ⟨hx, hx'⟩ | ⟨hx, hx'⟩ <;>
    rcases nestMul_monomial_cases hz y with ⟨hy, hy'⟩ | ⟨hy, hy'⟩ | ⟨hy, hy'⟩ | ⟨hy, hy'⟩ <;>
    simp only [MonomialKeepsOrder, hx, hy, true_iff] <;> unfold overflow at * <;> omega

/-- The degree of `x`, and of `x` nested in a square root, by the kind of `x`. -/
theorem nestMul_sqrt_cases (x : ComplexityClass) :
    (x.kind = .constant ∧ x.degreeCode = 0 ∧ (sqrt.nestMul x).degreeCode = 10) ∨
    (x.kind = .monomial ∧ x.degreeCode = 20 * x.degree + 5 * x.logPower ∧
      (sqrt.nestMul x).degreeCode = 20 * min 255 (x.degree + 1) + 5 * x.logPower) ∨
    (x.kind = .sqrt ∧ x.degreeCode = 10 ∧ (sqrt.nestMul x).degreeCode = 20) ∨
    (x.kind = .absorbing ∧ 164 ≤ x.degreeCode ∧ x.degreeCode ≤ 670 ∧
      (sqrt.nestMul x).degreeCode = x.degreeCode) := by
  cases hx : x.kind with
  | constant => rw [eq_constant_of_kind hx]; exact .inl ⟨rfl, rfl, rfl⟩
  | monomial =>
    rw [nestMul_comm]
    exact .inr (.inl ⟨rfl, degreeCode_monomial hx, degreeCode_nestMul_sqrt hx⟩)
  | sqrt => rw [eq_sqrt_of_kind hx]; exact .inr (.inr (.inl ⟨rfl, rfl, rfl⟩))
  | absorbing =>
    obtain ⟨h1, h2⟩ := degreeCode_absorbing hx
    rw [nestMul_absorbing (z := sqrt) trivial hx]
    exact .inr (.inr (.inr ⟨rfl, h1, h2, rfl⟩))

theorem sqrtKeepsOrder_iff (x y : ComplexityClass) : SqrtKeepsOrder x y ↔
    (x.degreeCode ≤ y.degreeCode →
      (sqrt.nestMul x).degreeCode ≤ (sqrt.nestMul y).degreeCode) := by
  have hdx := degree_le x
  have hpx := logPower_le x
  have hdy := degree_le y
  have hpy := logPower_le y
  rcases nestMul_sqrt_cases x with ⟨hx, hx'⟩ | ⟨hx, hx'⟩ | ⟨hx, hx'⟩ | ⟨hx, hx'⟩ <;>
    rcases nestMul_sqrt_cases y with ⟨hy, hy'⟩ | ⟨hy, hy'⟩ | ⟨hy, hy'⟩ | ⟨hy, hy'⟩ <;>
    simp only [SqrtKeepsOrder, hx, hy, true_iff] <;> omega

/-! ## Nesting in an exponential -/

/-- What the comparisons below need of a product. -/
theorem mul_cases (m n : ℕ) :
    (m = 0 ∧ m * n = 0) ∨ (m = 1 ∧ m * n = n) ∨ (n = 0 ∧ m * n = 0) ∨ (n = 1 ∧ m * n = m) ∨
      (n = 2 ∧ m * n = 2 * m) ∨ (2 ≤ m ∧ 3 ≤ n ∧ 2 * n ≤ m * n ∧ 3 * m ≤ m * n) := by
  rcases (by omega : m = 0 ∨ m = 1 ∨ n = 0 ∨ n = 1 ∨ n = 2 ∨ 2 ≤ m ∧ 3 ≤ n) with
    rfl | rfl | rfl | rfl | rfl | ⟨hm, hn⟩
  · simp
  · simp
  · simp
  · simp
  · simp [mul_comm]
  · exact .inr (.inr (.inr (.inr (.inr ⟨hm, hn, Nat.mul_le_mul_right n hm,
      mul_comm m n ▸ Nat.mul_le_mul_right m hn⟩))))

theorem degreeCode_nestMul_exponential (b b' : UInt8) :
    ((exponential b).nestMul (.exponential b')).degreeCode =
      160 + 2 * max (min 255 (b.toNat * b'.toNat)) 2 := by
  simp only [nestMul, degreeCode, toNat_max, toNat_satMul, UInt8.reduceToNat]
  omega

theorem exponential_monomial_iff (b b' : UInt8) (n : ℕ) :
    (n < 160 + 2 * max b'.toNat 2 ∨ b = 0 ∨ (b = 1 ∧ b' ≤ 2) ∨ b' ≤ 1 ∨ b = 255) ↔
      (160 + 2 * max b'.toNat 2 ≤ n → 160 + 2 * max (min 255 (b.toNat * b'.toNat)) 2 ≤
        160 + 2 * max b.toNat 2) := by
  have hb := toNat_le_255 b
  simp only [← UInt8.toNat_inj, UInt8.le_iff_toNat_le, UInt8.reduceToNat]
  rcases mul_cases b.toNat b'.toNat with h | h | h | h | h | h <;> omega

theorem monomial_exponential_iff (b b'' : UInt8) (n : ℕ) :
    (b ≤ 2 ∨ b'' ≠ 0 ∨ 164 < n) ↔ (n ≤ 160 + 2 * max b''.toNat 2 →
      160 + 2 * max b.toNat 2 ≤ 160 + 2 * max (min 255 (b.toNat * b''.toNat)) 2) := by
  have hb := toNat_le_255 b
  simp only [ne_eq, ← UInt8.toNat_inj, UInt8.le_iff_toNat_le, UInt8.reduceToNat]
  rcases mul_cases b.toNat b''.toNat with h | h | h | h | h | h <;> omega

theorem exponential_exponential_iff (b b' b'' : UInt8) :
    (b' ≤ 2 → b'' < b' → b.toNat * b'.toNat ≤ 2 ∨ (b = 255 ∧ b'' = 1)) ↔
      (160 + 2 * max b'.toNat 2 ≤ 160 + 2 * max b''.toNat 2 →
        160 + 2 * max (min 255 (b.toNat * b'.toNat)) 2 ≤
          160 + 2 * max (min 255 (b.toNat * b''.toNat)) 2) := by
  have hb := toNat_le_255 b
  have hmono : b'.toNat ≤ b''.toNat → b.toNat * b'.toNat ≤ b.toNat * b''.toNat :=
    Nat.mul_le_mul_left _
  simp only [← UInt8.toNat_inj, UInt8.le_iff_toNat_le, UInt8.lt_iff_toNat_lt, UInt8.reduceToNat]
  rcases mul_cases b.toNat b'.toNat with h | h | h | h | h | h <;>
    rcases mul_cases b.toNat b''.toNat with h' | h' | h' | h' | h' | h' <;> omega

theorem exponentialKeepsOrder_iff (b : UInt8) (x y : ComplexityClass) :
    ExponentialKeepsOrder b x y ↔ (x.degreeCode ≤ y.degreeCode →
      ((exponential b).nestMul x).degreeCode ≤ ((exponential b).nestMul y).degreeCode) := by
  have hb := toNat_le_255 b
  cases x with
  | exponential b' =>
    rw [degreeCode_nestMul_exponential]
    cases y with
    | exponential b'' =>
      rw [degreeCode_nestMul_exponential]; exact exponential_exponential_iff b b' b''
    | factorial =>
      simp only [ExponentialKeepsOrder, nestMul, degreeCode, UInt8.lt_iff_toNat_lt,
        UInt8.reduceToNat]
      omega
    | _ => exact exponential_monomial_iff b b' _
  | factorial =>
    cases y with
    | exponential b'' =>
      rw [degreeCode_nestMul_exponential]
      simp only [ExponentialKeepsOrder, nestMul, degreeCode, ne_eq, ← UInt8.toNat_inj,
        UInt8.lt_iff_toNat_lt, UInt8.reduceToNat]
      rcases mul_cases b.toNat b''.toNat with h | h | h | h | h | h <;> omega
    | factorial => simp [ExponentialKeepsOrder, nestMul]
    | _ =>
      simp only [ExponentialKeepsOrder, nestMul, degreeCode, UInt8.le_iff_toNat_le,
        UInt8.reduceToNat]
      omega
  | _ =>
    cases y with
    | exponential b'' =>
      rw [degreeCode_nestMul_exponential]
      exact monomial_exponential_iff b b'' _
    | factorial =>
      simp only [ExponentialKeepsOrder, nestMul, degreeCode, UInt8.le_iff_toNat_le,
        UInt8.reduceToNat]
      omega
    | _ => simp [ExponentialKeepsOrder, nestMul]

/-! ## The laws of the order -/

theorem keepsOrder_iff (z x y : ComplexityClass) : KeepsOrder z x y ↔
    (x.degreeCode ≤ y.degreeCode → (z.nestMul x).degreeCode ≤ (z.nestMul y).degreeCode) := by
  cases z with
  | constant => simp [KeepsOrder]
  | factorial => simp [KeepsOrder]
  | sqrt => exact sqrtKeepsOrder_iff x y
  | exponential b => exact exponentialKeepsOrder_iff b x y
  | logarithmic _ | polynomial _ _ => exact monomialKeepsOrder_iff rfl x y

theorem grows_exponential_iff (b b' : UInt8) :
    (b = 0 → b' ≤ 2) ∧ (b' = 0 → b ≤ 2) ↔
      160 + 2 * max b'.toNat 2 ≤ 160 + 2 * max (min 255 (b.toNat * b'.toNat)) 2 ∧
        160 + 2 * max b.toNat 2 ≤ 160 + 2 * max (min 255 (b.toNat * b'.toNat)) 2 := by
  have hb := toNat_le_255 b
  have hb' := toNat_le_255 b'
  simp only [← UInt8.toNat_inj, UInt8.le_iff_toNat_le, UInt8.reduceToNat]
  rcases mul_cases b.toNat b'.toNat with h | h | h | h | h | h <;> omega

theorem grows_iff (z x : ComplexityClass) : Grows z x ↔
    x.degreeCode ≤ (z.nestMul x).degreeCode ∧ z.degreeCode ≤ (z.nestMul x).degreeCode := by
  have hd := degree_le z
  have hp := logPower_le z
  have hdx := degree_le x
  have hpx := logPower_le x
  have hmono := fun h => nestMul_monomial_cases (z := z) h x
  have hcode := degreeCode_monomial (c := z)
  have hfact : factorial.degreeCode = 200 := rfl
  cases z with
  | constant => simp [Grows, degreeCode]
  | factorial => cases x <;> simp [Grows, nestMul, degreeCode]
  | sqrt =>
    have hz : sqrt.degreeCode = 10 := rfl
    rcases nestMul_sqrt_cases x with ⟨hx, hx'⟩ | ⟨hx, hx'⟩ | ⟨hx, hx'⟩ | ⟨hx, hx'⟩ <;>
      cases x <;> simp only [kind, reduceCtorEq] at hx <;> simp only [Grows, true_iff] <;> omega
  | exponential b =>
    cases x with
    | exponential b' =>
      rw [degreeCode_nestMul_exponential]; exact grows_exponential_iff b b'
    | _ => simp [Grows, nestMul, degreeCode]
  | logarithmic _ | polynomial _ _ =>
    have hz := hcode rfl
    rcases hmono rfl with ⟨hx, hx'⟩ | ⟨hx, hx'⟩ | ⟨hx, hx'⟩ | ⟨hx, hx'⟩ <;>
      cases x <;> simp only [kind, reduceCtorEq] at hx <;> simp only [Grows, true_iff] <;> omega

/-- The laws of the order, for one choice of classes: monotonicity of `nestMul`
    and `seqMax`, growth, and distributivity up to the effective degree. -/
def MonotoneAt (x y z : ComplexityClass) : Prop :=
  (x.effectiveDegree ≤ y.effectiveDegree →
    (z.nestMul x).effectiveDegree ≤ (z.nestMul y).effectiveDegree ∧
      (z.seqMax x).effectiveDegree ≤ (z.seqMax y).effectiveDegree) ∧
  (x.effectiveDegree ≤ (z.nestMul x).effectiveDegree ∧
    z.effectiveDegree ≤ (z.nestMul x).effectiveDegree) ∧
  (z.nestMul (x.seqMax y)).effectiveDegree = ((z.nestMul x).seqMax (z.nestMul y)).effectiveDegree

/-- Sequencing is monotone. -/
theorem seqMax_mono (z : ComplexityClass) {x y : ComplexityClass}
    (h : x.effectiveDegree ≤ y.effectiveDegree) :
    (z.seqMax x).effectiveDegree ≤ (z.seqMax y).effectiveDegree := by
  rw [effectiveDegree_le_iff] at h ⊢
  rw [degreeCode_seqMax, degreeCode_seqMax]
  omega

/-- **The laws of the order hold exactly where nesting grows and keeps the order**
    in both directions. -/
theorem nesting_monotone_iff (x y z : ComplexityClass) :
    MonotoneAt x y z ↔ Grows z x ∧ KeepsOrder z x y ∧ KeepsOrder z y x := by
  rw [grows_iff, keepsOrder_iff, keepsOrder_iff]
  have hseq : x.effectiveDegree ≤ y.effectiveDegree →
      (z.seqMax x).effectiveDegree ≤ (z.seqMax y).effectiveDegree := seqMax_mono z
  simp only [MonotoneAt, effectiveDegree_le_iff, effectiveDegree_eq_iff, degreeCode_seqMax,
    seqMax_eq x y] at hseq ⊢
  split_ifs <;> omega

/-- `sqrt(n)` and `(log n)^2` have the same degree, but under a linear loop they
    become `n^2` and `n (log n)^2`. -/
theorem not_nesting_monotone : ¬ ∀ x y z : ComplexityClass, MonotoneAt x y z := by
  intro h
  have := (h .sqrt (.logarithmic 2) .linear).1
  rw [effectiveDegree_le_iff, effectiveDegree_le_iff] at this
  exact absurd (this (by decide)).1 (by decide)

end ComplexityClass

end Cognis
