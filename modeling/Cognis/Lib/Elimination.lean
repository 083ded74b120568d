/-
  Gaussian elimination with partial pivoting, and back substitution, over an ordered field.

  * `gaussianSolve` is the algorithm, with its loops over rows and columns;
  * `Solves t x` says that `x` solves the system with the right-hand side times `t`: `t = 1` is the
    system, `t = 0` the homogeneous one. Each step keeps both (`Reduced`);
  * `backSubstitute_solves`: back substitution solves a triangular system;
  * `gaussianSolve_of_nonsingular`: a system whose homogeneous one has only the zero solution
    meets no zero pivot, and the result solves it.
-/
import Cognis.Lib.Champion
import Cognis.Lib.Loop
import Mathlib.Algebra.BigOperators.Fin
import Mathlib.Algebra.Order.Field.Basic
import Mathlib.Algebra.Order.Group.Abs
import Mathlib.Logic.Equiv.Basic
import Mathlib.Tactic.FieldSimp
import Mathlib.Tactic.Linarith
import Mathlib.Tactic.Ring

namespace Cognis.Elimination

variable {K : Type*} [Field K] {n : ℕ}

/-- A system of `n` equations. -/
structure System (n : ℕ) (K : Type*) where
  m : Fin n → Fin n → K
  b : Fin n → K

/-- The rows below a row. -/
def below (row : Fin n) : List (Fin n) := (List.finRange n).filter (row < ·)

@[simp] theorem mem_below {row j : Fin n} : j ∈ below row ↔ row < j := by
  simp [below]

theorem nodup_below (row : Fin n) : (below row).Nodup := (List.nodup_finRange n).filter _

/-- The sum over the columns after a row. -/
theorem foldl_below (row : Fin n) (f : Fin n → K) (c : K) :
    (below row).foldl (fun acc j => acc - f j) c = c - ∑ j, if row < j then f j else 0 := by
  have hfold : ∀ (l : List (Fin n)) (c : K), (l.filter (row < ·)).foldl (fun acc j => acc - f j) c =
      c - (l.map fun j => if row < j then f j else 0).sum := by
    intro l
    induction l with
    | nil => simp
    | cons a l ih =>
      intro c
      by_cases ha : row < a
      · rw [List.filter_cons_of_pos (by simpa using ha), List.foldl_cons, ih]
        simp [ha, sub_sub]
      · rw [List.filter_cons_of_neg (by simpa using ha), ih]
        simp [ha]
  rw [below, hfold, Fin.sum_univ_def]

namespace System

/-! ## Back substitution -/

/-- One unknown, from those after it. -/
def backStep (s : System n K) (x : Fin n → K) (row : Fin n) : Fin n → K :=
  Function.update x row
    ((below row).foldl (fun acc j => acc - s.m row j * x j) (s.b row) / s.m row row)

/-- Back substitution. -/
def backSubstitute (s : System n K) : Fin n → K :=
  (List.finRange n).reverse.foldl s.backStep fun _ => 0

/-- `x` solves the system with the right-hand side times `t`. -/
def Solves (s : System n K) (t : K) (x : Fin n → K) : Prop :=
  ∀ i, ∑ j, s.m i j * x j = t * s.b i

/-- The matrix is zero below the diagonal, in the first `k` columns. -/
def ZeroBelow (s : System n K) (k : ℕ) : Prop := ∀ i j : Fin n, j.1 < k → j < i → s.m i j = 0

/-- A row of a triangular system. -/
theorem sum_row {s : System n K} (hzero : s.ZeroBelow n) (i : Fin n) (x : Fin n → K) :
    ∑ j, s.m i j * x j = s.m i i * x i + ∑ j, if i < j then s.m i j * x j else 0 := by
  have hterm : ∀ j, s.m i j * x j =
      (if j = i then s.m i j * x j else 0) + if i < j then s.m i j * x j else 0 := by
    intro j
    rcases lt_trichotomy j i with hlt | rfl | hlt
    · rw [hzero i j j.2 hlt, zero_mul]
      simp
    · simp
    · simp [hlt, hlt.ne']
  rw [Finset.sum_congr rfl fun j _ => hterm j, Finset.sum_add_distrib, Finset.sum_ite_eq']
  simp

/-- **Back substitution** solves a triangular system: the rows done are solved, and the unknown
    of a row does not occur in the rows below. -/
theorem backSubstitute_solves {s : System n K} (hzero : s.ZeroBelow n) (hdiag : ∀ i, s.m i i ≠ 0) :
    s.Solves 1 s.backSubstitute := by
  have hrows := Loop.foldl_invariant (l := (List.finRange n).reverse) (f := s.backStep)
    (s := fun _ => 0) (I := fun done x => ∀ i ∈ done, ∑ j, s.m i j * x j = s.b i) (by simp) ?_
  · intro i
    rw [one_mul]
    exact hrows i (by simp)
  · intro done row rest x hsplit hx i hi
    have hsorted : (done ++ row :: rest).Pairwise (· > ·) := by
      rw [← hsplit, List.pairwise_reverse]
      exact List.pairwise_lt_finRange n
    rw [backStep, foldl_below]
    rcases List.mem_append.1 hi with hi | hi
    · have hlt : row < i := (List.pairwise_append.1 hsorted).2.2 i hi row List.mem_cons_self
      rw [← hx i hi]
      refine Finset.sum_congr rfl fun j _ => ?_
      by_cases hj : j = row
      · subst hj
        rw [hzero i j j.2 hlt, zero_mul, zero_mul]
      · rw [Function.update_of_ne hj]
    · rw [List.mem_singleton] at hi
      subst hi
      have hrest : ∀ (v : K), (∑ j, if i < j then s.m i j * Function.update x i v j else 0) =
          ∑ j, if i < j then s.m i j * x j else 0 := by
        intro v
        refine Finset.sum_congr rfl fun j _ => ?_
        split_ifs with hj
        · rw [Function.update_of_ne hj.ne']
        · rfl
      rw [sum_row hzero, hrest, Function.update_self, mul_div_cancel₀ _ (hdiag i)]
      ring

/-! ## Row operations -/

/-- The homogeneous system has only the zero solution. -/
def Nonsingular (s : System n K) : Prop := ∀ x, s.Solves 0 x → x = fun _ => 0

/-- Swap two rows. -/
def swap (s : System n K) (i j : Fin n) : System n K where
  m row := s.m (Equiv.swap i j row)
  b row := s.b (Equiv.swap i j row)

omit [Field K] in
@[simp] theorem swap_m (s : System n K) (i j row : Fin n) :
    (s.swap i j).m row = s.m (Equiv.swap i j row) := rfl

theorem solves_swap {s : System n K} {i j : Fin n} {t : K} {x : Fin n → K} :
    (s.swap i j).Solves t x ↔ s.Solves t x := by
  constructor
  · intro h row
    have hrow := h (Equiv.swap i j row)
    simpa [swap, Equiv.swap_apply_self] using hrow
  · exact fun h row => h (Equiv.swap i j row)

/-- A system with a zero pivot is singular: the unknown of the column is free, and back
    substitution finds those before it. -/
theorem not_nonsingular_of_column {s : System n K} {col : Fin n} (hzero : s.ZeroBelow col)
    (hdiag : ∀ j < col, s.m j j ≠ 0) (hcol : ∀ i, col ≤ i → s.m i col = 0) :
    ¬ s.Nonsingular := by
  -- the rows before the column, then one for each unknown from the column on
  let s' : System n K :=
    { m := fun i j => if i < col then s.m i j else if i = j then 1 else 0
      b := fun i => if i = col then 1 else 0 }
  have hzero' : s'.ZeroBelow n := by
    intro i j _ hij
    dsimp only [s']
    split_ifs with hi hne
    · exact hzero i j (hij.trans hi) hij
    · exact absurd hne hij.ne'
    · rfl
  have hdiag' : ∀ i, s'.m i i ≠ 0 := by
    intro i
    dsimp only [s']
    split_ifs with hi hii
    · exact hdiag i hi
    · exact one_ne_zero
    · exact absurd rfl hii
  have hx := backSubstitute_solves hzero' hdiag'
  generalize s'.backSubstitute = x at hx
  have hfrom : ∀ i, col ≤ i → x i = if i = col then 1 else 0 := by
    intro i hi
    have hrow := hx i
    dsimp only [s'] at hrow
    simpa [hi.not_gt] using hrow
  intro hsing
  have hsolves : s.Solves 0 x := by
    intro i
    rw [zero_mul]
    by_cases hi : i < col
    · have hrow := hx i
      dsimp only [s'] at hrow
      simpa [hi, hi.ne] using hrow
    · refine Finset.sum_eq_zero fun j _ => ?_
      rcases lt_trichotomy j col with hj | rfl | hj
      · rw [hzero i j hj (hj.trans_le (not_lt.1 hi)), zero_mul]
      · rw [hcol i (not_lt.1 hi), zero_mul]
      · rw [hfrom j hj.le, if_neg hj.ne', mul_zero]
  have hone := hfrom col le_rfl
  rw [hsing x hsolves, if_pos rfl] at hone
  exact zero_ne_one hone

/-- Each row less a multiple of one row. -/
def shear (s : System n K) (col : Fin n) (f : Fin n → K) : System n K where
  m row j := s.m row j - f row * s.m col j
  b row := s.b row - f row * s.b col

@[simp] theorem shear_m (s : System n K) (col : Fin n) (f : Fin n → K) (row j : Fin n) :
    (s.shear col f).m row j = s.m row j - f row * s.m col j := rfl

@[simp] theorem shear_b (s : System n K) (col : Fin n) (f : Fin n → K) (row : Fin n) :
    (s.shear col f).b row = s.b row - f row * s.b col := rfl

theorem solves_shear {s : System n K} {col : Fin n} {f : Fin n → K} (hf : f col = 0) {t : K}
    {x : Fin n → K} : (s.shear col f).Solves t x ↔ s.Solves t x := by
  have hrow : ∀ i, ∑ j, (s.shear col f).m i j * x j =
      ∑ j, s.m i j * x j - f i * ∑ j, s.m col j * x j := by
    intro i
    rw [Finset.mul_sum, ← Finset.sum_sub_distrib]
    exact Finset.sum_congr rfl fun j _ => by rw [shear_m]; ring
  constructor
  · intro h
    have hcol := h col
    rw [hrow, shear_b, hf, zero_mul, zero_mul, sub_zero, sub_zero] at hcol
    intro i
    have hi := h i
    rw [hrow, hcol, shear_b, mul_sub, mul_left_comm] at hi
    exact sub_left_inj.1 hi
  · intro h i
    rw [hrow, h i, h col, shear_b]
    ring

theorem shear_shear (s : System n K) {col : Fin n} {f : Fin n → K} (hf : f col = 0)
    (f' : Fin n → K) : (s.shear col f).shear col f' = s.shear col fun i => f i + f' i := by
  simp only [shear, hf, zero_mul, sub_zero]
  congr 1
  · funext i j
    ring
  · funext i
    ring

/-- The system after `k` columns: the same solutions, zero below the diagonal in the columns
    done, and nothing zero on it. -/
structure Reduced (s₀ s : System n K) (k : ℕ) : Prop where
  solves : ∀ t x, s.Solves t x ↔ s₀.Solves t x
  zeroBelow : s.ZeroBelow k
  diag : ∀ j : Fin n, j.1 < k → s.m j j ≠ 0

/-- Bringing a row from below to the diagonal keeps the columns done. -/
theorem Reduced.swap {s₀ s : System n K} {col p : Fin n} (h : Reduced s₀ s col) (hp : col ≤ p) :
    Reduced s₀ (s.swap col p) col := by
  have hfix : ∀ i < col, Equiv.swap col p i = i := fun i hi =>
    Equiv.swap_apply_of_ne_of_ne hi.ne (hi.trans_le hp).ne
  refine ⟨fun t x => solves_swap.trans (h.solves t x), fun i j hj hij => ?_, fun j hj => ?_⟩
  · rw [swap_m]
    by_cases hi : i < col
    · rw [hfix i hi]
      exact h.zeroBelow i j hj hij
    · -- the two rows swapped are zero in the columns done
      refine h.zeroBelow _ j hj ?_
      rw [Equiv.swap_apply_def]
      split_ifs
      · exact lt_of_lt_of_le hj hp
      · exact hj
      · exact hij
  · rw [swap_m, hfix j hj]
    exact h.diag j hj

/-- Clearing the column below a pivot that is not zero. -/
theorem Reduced.shear {s₀ s : System n K} {col : Fin n} (h : Reduced s₀ s col)
    (hpivot : s.m col col ≠ 0) : Reduced s₀
      (s.shear col fun i => if col < i then s.m i col / s.m col col else 0) (col + 1) := by
  refine ⟨fun t x => (solves_shear (by simp)).trans (h.solves t x), fun i j hj hij => ?_,
    fun j hj => ?_⟩
  · rw [shear_m]
    rcases Nat.lt_succ_iff_lt_or_eq.1 hj with hj | hj
    · rw [h.zeroBelow i j hj hij, h.zeroBelow col j hj hj, mul_zero, sub_zero]
    · obtain rfl : j = col := Fin.ext hj
      rw [if_pos hij, div_mul_cancel₀ _ hpivot, sub_self]
  · rw [shear_m]
    have hle : ¬ col < j := not_lt.2 (Nat.lt_succ_iff.1 hj)
    rw [if_neg hle, zero_mul, sub_zero]
    rcases Nat.lt_succ_iff_lt_or_eq.1 hj with hj | hj
    · exact h.diag j hj
    · obtain rfl : j = col := Fin.ext hj
      exact hpivot

/-! ## The algorithm -/

section
variable [LinearOrder K]

/-- The row of the largest magnitude in a column, from the diagonal on; the first at a tie. -/
def pivot (s : System n K) (col : Fin n) : Fin n :=
  (below col).foldl (Champion.pick fun row => |s.m row col|) col

/-- Clear the entry of a row in a column. -/
def eliminateRow (s : System n K) (col : Fin n) (diag : K) (row : Fin n) : System n K :=
  let factor := s.m row col / diag
  if factor = 0 then s else
    { m := Function.update s.m row fun j =>
        if col ≤ j then s.m row j - factor * s.m col j else s.m row j
      b := Function.update s.b row (s.b row - factor * s.b col) }

/-- One column: choose the pivot, bring it to the diagonal, and clear the rows below;
    `none` when the pivot is zero. -/
def eliminateColumn (s : System n K) (col : Fin n) : Option (System n K) :=
  let pivot := s.pivot col
  if |s.m pivot col| = 0 then none else
    let s := if pivot ≠ col then s.swap col pivot else s
    let diag := s.m col col
    some ((below col).foldl (fun s row => s.eliminateRow col diag row) s)

/-- Gaussian elimination with partial pivoting, then back substitution. -/
def gaussianSolve (s : System n K) : Option (Fin n → K) :=
  ((List.finRange n).foldlM eliminateColumn s).map backSubstitute

theorem eliminateRow_eq {s : System n K} {col : Fin n} (hcol : ∀ j < col, s.m col j = 0)
    (diag : K) (row : Fin n) :
    s.eliminateRow col diag row = s.shear col fun i => if i = row then s.m row col / diag else 0 := by
  simp only [eliminateRow]
  split_ifs with hfactor
  · simp [shear, hfactor]
  · rw [shear]
    congr 1
    · funext i j
      by_cases hi : i = row
      · subst hi
        rw [Function.update_self, if_pos rfl]
        split_ifs with hj
        · rfl
        · rw [hcol j (not_le.1 hj), mul_zero, sub_zero]
      · rw [Function.update_of_ne hi, if_neg hi, zero_mul, sub_zero]
    · funext i
      by_cases hi : i = row
      · subst hi
        rw [Function.update_self, if_pos rfl]
      · rw [Function.update_of_ne hi, if_neg hi, zero_mul, sub_zero]

/-- Clearing the rows below is one shear. -/
theorem foldl_eliminateRow {s : System n K} {col : Fin n} (hcol : ∀ j < col, s.m col j = 0)
    (diag : K) : (below col).foldl (fun s row => s.eliminateRow col diag row) s =
      s.shear col fun i => if col < i then s.m i col / diag else 0 := by
  have hinv := Loop.foldl_invariant (l := below col) (s := s)
    (f := fun s row => s.eliminateRow col diag row)
    (I := fun done s' => s' = s.shear col fun i => if i ∈ done then s.m i col / diag else 0)
    (by simp [shear]) ?_
  · rw [hinv]
    simp only [mem_below]
  · rintro done row rest s' hsplit rfl
    have hnodup := nodup_below col
    rw [hsplit] at hnodup
    have hrow : row ∉ done := fun hmem =>
      (List.nodup_append.1 hnodup).2.2 row hmem row List.mem_cons_self rfl
    have hdone : col ∉ done := fun hmem =>
      (mem_below.1 (hsplit ▸ List.mem_append_left _ hmem)).false
    rw [eliminateRow_eq fun j hj => by simp [shear, hcol j hj], shear_shear s (if_neg hdone)]
    congr 1
    funext i
    by_cases hi : i = row
    · subst hi
      simp [hrow, shear]
    · simp [hi]

/-! ## Correctness -/

/-- The pivot is at or below the diagonal. -/
theorem le_pivot (s : System n K) (col : Fin n) : col ≤ s.pivot col := by
  rcases (Champion.foldl_pick_spec (fun row => |s.m row col|) col (below col)).1 with h | ⟨h, -⟩
  · exact h.ge
  · exact (mem_below.1 h).le

variable [IsStrictOrderedRing K]

/-- **Step lemma**: a column of a nonsingular system has a pivot that is not zero. -/
theorem Reduced.eliminateColumn {s₀ s : System n K} {col : Fin n} (h : Reduced s₀ s col)
    (hsing : s₀.Nonsingular) :
    ∃ s', s.eliminateColumn col = some s' ∧ Reduced s₀ s' (col + 1) := by
  have hpivot : s.m (s.pivot col) col ≠ 0 := by
    intro hzero
    obtain ⟨-, hcol, hbelow⟩ :=
      Champion.foldl_pick_spec (fun row => |s.m row col|) col (below col)
    refine not_nonsingular_of_column h.zeroBelow h.diag (fun i hi => ?_) fun x hx =>
      hsing x ((h.solves 0 x).1 hx)
    have hle : |s.m i col| ≤ |s.m (s.pivot col) col| := by
      rcases hi.eq_or_lt with rfl | hi
      · exact hcol
      · exact hbelow i (mem_below.2 hi)
    rw [hzero, abs_zero] at hle
    exact abs_eq_zero.1 (le_antisymm hle (abs_nonneg _))
  have hswap : (if s.pivot col ≠ col then s.swap col (s.pivot col) else s) =
      s.swap col (s.pivot col) := by
    split_ifs with hne
    · rfl
    · rw [not_not.1 hne, System.swap]
      simp
  have hred := h.swap (s.le_pivot col)
  have hdiag : (s.swap col (s.pivot col)).m col col ≠ 0 := by
    rw [swap_m, Equiv.swap_apply_left]
    exact hpivot
  rw [System.eliminateColumn]
  dsimp only
  rw [if_neg (by simpa using hpivot), hswap,
    foldl_eliminateRow fun j hj => hred.zeroBelow col j hj hj]
  exact ⟨_, rfl, hred.shear hdiag⟩

/-- **Run lemma**: every column of a nonsingular system is eliminated. -/
theorem exists_reduced {s : System n K} (hsing : s.Nonsingular) {k : ℕ} (hk : k ≤ n) :
    ∃ s', ((List.finRange n).take k).foldlM System.eliminateColumn s = some s' ∧
      Reduced s s' k := by
  induction k with
  | zero => exact ⟨s, rfl, ⟨fun _ _ => .rfl, fun _ _ h => absurd h (Nat.not_lt_zero _),
      fun _ h => absurd h (Nat.not_lt_zero _)⟩⟩
  | succ k ih =>
    obtain ⟨s₁, hrun, hred⟩ := ih (Nat.le_of_succ_le hk)
    have hcol : Reduced s s₁ (⟨k, hk⟩ : Fin n) := hred
    obtain ⟨s₂, hstep, hred₂⟩ := hcol.eliminateColumn hsing
    refine ⟨s₂, ?_, hred₂⟩
    have htake : (List.finRange n).take (k + 1) = (List.finRange n).take k ++ [⟨k, hk⟩] := by
      rw [List.take_succ_eq_append_getElem (by simpa using Nat.lt_of_succ_le hk)]
      simp
    rw [htake, List.foldlM_append, hrun]
    simp [hstep]

/-- **Gaussian elimination** solves a nonsingular system. -/
theorem gaussianSolve_of_nonsingular {s : System n K} (hsing : s.Nonsingular) :
    ∃ x, s.gaussianSolve = some x ∧ s.Solves 1 x := by
  obtain ⟨s', hrun, hred⟩ := exists_reduced hsing le_rfl
  rw [List.take_of_length_le (by simp)] at hrun
  refine ⟨s'.backSubstitute, by rw [gaussianSolve, hrun, Option.map_some],
    (hred.solves 1 _).1 (backSubstitute_solves hred.zeroBelow fun i => hred.diag i i.2)⟩

end

end System

end Cognis.Elimination
