/-
  Folding `nestMul` over a list of classes.

  `nestMul` is commutative and `constant` is its identity, but it is not
  associative: two square roots make one linear factor when they meet, and a
  linear factor each when they meet anything else.

  * `unambiguous_of_bases`: with an exponential in the list, only the bases count;
  * `Shape`: what all bracketings of a list without exponentials have in common;
  * `orderFree_nestMul_iff`: the lists on which the fold of `nestMul` depends
    on neither the order nor the bracketing.
-/
import Cognis.Core.Bases
import Cognis.Core.Complexity

namespace Cognis

open Bracketing ComplexityClass

namespace ComplexityClass

/-- The base of an exponential. -/
def base? : ComplexityClass → Option UInt8
  | .exponential b => some b
  | _ => none

/-- Powers of the logarithm and polynomials. -/
def IsMonomial : ComplexityClass → Bool
  | .logarithmic _ | .polynomial _ _ => true
  | _ => false

/-- The polynomials. -/
def IsPolynomial : ComplexityClass → Bool
  | .polynomial _ _ => true
  | _ => false

theorem polylog_iff {c : ComplexityClass} : c.Polylog ↔ c ≠ .factorial ∧ c.base? = none := by
  cases c <;> simp [Polylog, base?]

end ComplexityClass

/-! ## The parameters of a list -/

/-- The bases of the exponentials. -/
def bases (l : List ComplexityClass) : List UInt8 := l.filterMap base?

/-- The number of square roots. -/
def sqrts (l : List ComplexityClass) : ℕ := l.count .sqrt

/-- The number of powers of the logarithm and polynomials. -/
def monomials (l : List ComplexityClass) : ℕ := l.countP IsMonomial

/-- The number of polynomials. -/
def polynomials (l : List ComplexityClass) : ℕ := l.countP IsPolynomial

/-- The sum of the degrees of the polynomials. -/
def degrees (l : List ComplexityClass) : ℕ := (l.map degree).sum

/-- The sum of the powers of the logarithm. -/
def logPowers (l : List ComplexityClass) : ℕ := (l.map logPower).sum

/-- The lists whose `nestMul` does not depend on the order: with a factorial,
    all of them; with an exponential, those whose bases agree; otherwise those
    with at most one square root, with two or three square roots and nothing to
    pair them with, or with a degree that saturates. -/
def FoldAgrees (l : List ComplexityClass) : Prop :=
  .factorial ∈ l ∨
    (bases l ≠ [] ∧ BasesAgree (bases l)) ∨
    (bases l = [] ∧
      (sqrts l ≤ 1 ∨ (monomials l = 0 ∧ sqrts l ≤ 3) ∨ 255 ≤ degrees l + (sqrts l + 1) / 2))

instance (l : List ComplexityClass) : Decidable (FoldAgrees l) :=
  inferInstanceAs (Decidable (_ ∨ _))

theorem bases_append (l l' : List ComplexityClass) : bases (l ++ l') = bases l ++ bases l' := by
  simp [bases]

theorem base?_eq_none {l : List ComplexityClass} (h : bases l = []) {c : ComplexityClass}
    (hc : c ∈ l) : c.base? = none := by
  rw [bases, List.filterMap_eq_nil_iff] at h
  exact h c hc

/-! ## Lists with a factorial or an exponential -/

theorem eval_of_factorial_mem {l : List ComplexityClass} (h : .factorial ∈ l)
    {t : Bracketing ComplexityClass} (ht : t.leaves.Perm l) : t.eval nestMul = .factorial := by
  refine eval_rel nestMul (P := fun _ => True) (R := fun l c => .factorial ∈ l → c = .factorial) ?_ ?_ t
    (fun _ _ => trivial) (ht.mem_iff.2 h)
  · intro a _ h; exact (List.mem_singleton.1 h).symm
  · intro l l' a b ha hb h
    rcases List.mem_append.1 h with h | h
    · rw [ha h, factorial_nestMul]
    · rw [hb h, nestMul_factorial]

/-- The value of a bracketing, in terms of the bases of its exponentials. -/
theorem eval_eq_exponential (t : Bracketing ComplexityClass) (h : ∀ c ∈ t.leaves, c ≠ .factorial) :
    (bases t.leaves = [] ∧ (t.eval nestMul).Polylog) ∨
      ∃ s : Bracketing UInt8, s.leaves = bases t.leaves ∧
        t.eval nestMul = .exponential (s.eval baseMul) := by
  refine eval_rel nestMul (R := fun l c => (bases l = [] ∧ c.Polylog) ∨
    ∃ s : Bracketing UInt8, s.leaves = bases l ∧ c = .exponential (s.eval baseMul)) ?_ ?_ t h
  · intro c hc
    cases c with
    | exponential b => exact .inr ⟨.leaf b, rfl, rfl⟩
    | factorial => exact absurd rfl hc
    | _ => exact .inl ⟨rfl, trivial⟩
  · rintro l l' a b (⟨hl, ha⟩ | ⟨s, hs, rfl⟩) (⟨hl', hb⟩ | ⟨s', hs', rfl⟩)
    · exact .inl ⟨by rw [bases_append, hl, hl']; rfl, ha.nestMul hb⟩
    · refine .inr ⟨s', by rw [bases_append, hl, hs']; rfl, ?_⟩
      rw [nestMul_comm, exponential_nestMul _ ha]
    · exact .inr ⟨s, by rw [bases_append, hl', hs, List.append_nil], exponential_nestMul _ hb⟩
    · exact .inr ⟨.node s s', by rw [bases_append, leaves, hs, hs'], rfl⟩

theorem map_bases (l : List ComplexityClass) :
    (bases l).map .exponential = l.filter fun c => !c.base?.isNone := by
  induction l with
  | nil => rfl
  | cons c l ih =>
    cases c with
    | exponential b => exact congrArg (.exponential b :: ·) ih
    | _ => exact ih

/-- A product of the bases is the value of a bracketing of the classes. -/
theorem exists_eval_exponential {l : List ComplexityClass} (h : .factorial ∉ l)
    (s : Bracketing UInt8) (hs : s.leaves.Perm (bases l)) :
    ∃ t : Bracketing ComplexityClass, t.leaves.Perm l ∧
      t.eval nestMul = .exponential (s.eval baseMul) := by
  obtain ⟨t, hl, hv⟩ := exists_map baseMul nestMul ComplexityClass.exponential
    (fun _ _ => rfl) s
  have habs : ∀ c ∈ l.filter (fun c => c.base?.isNone),
      nestMul (.exponential (s.eval baseMul)) c = .exponential (s.eval baseMul) := by
    intro c hc
    rw [List.mem_filter, Option.isNone_iff_eq_none] at hc
    exact exponential_nestMul _ (polylog_iff.2 ⟨fun e => h (e ▸ hc.1), hc.2⟩)
  obtain ⟨t', hl', hv'⟩ := exists_absorb nestMul _ habs
    ⟨t, show t.leaves.Perm ((bases l).map .exponential) by rw [hl]; exact hs.map _, hv⟩
  refine ⟨t', hl'.trans ?_, hv'⟩
  rw [map_bases]
  exact List.perm_append_comm.trans (List.filter_append_perm _ l)

theorem unambiguous_of_bases {l : List ComplexityClass} (hf : .factorial ∉ l)
    (hb : bases l ≠ []) : Unambiguous nestMul l ↔ BasesAgree (bases l) := by
  rw [← unambiguous_baseMul]
  constructor
  · intro h s s' hs hs'
    obtain ⟨t, ht, hv⟩ := exists_eval_exponential hf s hs
    obtain ⟨t', ht', hv'⟩ := exists_eval_exponential hf s' hs'
    have := h t t' ht ht'
    rw [hv, hv'] at this
    exact ComplexityClass.exponential.inj this
  · intro h t t' ht ht'
    have key : ∀ t : Bracketing ComplexityClass, t.leaves.Perm l →
        ∃ s : Bracketing UInt8, s.leaves.Perm (bases l) ∧
          t.eval nestMul = .exponential (s.eval baseMul) := by
      intro t ht
      have hp : (bases t.leaves).Perm (bases l) := ht.filterMap _
      rcases eval_eq_exponential t fun c hc e => hf (ht.mem_iff.1 (e ▸ hc)) with ⟨h0, _⟩ | ⟨s, hs, hv⟩
      · rw [h0] at hp; exact absurd hp.nil_eq.symm hb
      · exact ⟨s, hs ▸ hp, hv⟩
    obtain ⟨s, hs, hv⟩ := key t ht
    obtain ⟨s', hs', hv'⟩ := key t' ht'
    rw [hv, hv', h s s' hs hs']

/-! ## Lists without exponentials -/

/-- What all bracketings of a list have in common: the class of a list with `k`
    square roots, `m` monomials of which `q` are polynomials, the sum `d` of
    the degrees and the sum `p` of the powers of the logarithm.  The square
    roots contribute `c` to the degree. -/
inductive Shape : (k m q d p : ℕ) → ComplexityClass → Prop
  | constant : Shape 0 0 0 0 0 .constant
  | sqrt : Shape 1 0 0 0 0 .sqrt
  | logarithmic {m p : ℕ} (hm : 0 < m) : Shape 0 m 0 0 p (.logarithmic (sat p))
  | polynomial {k m q d p : ℕ} (c : ℕ) (hk : k ≤ 2 * c) (hc : c ≤ k) (hm : m = 0 → c + 1 ≤ k)
      (hq : 0 < k ∨ 0 < q) : Shape k m q d p (.polynomial (sat (d + c)) (sat p))

theorem Shape.leaf {a : ComplexityClass} (ha : a.Polylog) :
    Shape (sqrts [a]) (monomials [a]) (polynomials [a]) (degrees [a]) (logPowers [a]) a := by
  cases a with
  | constant => exact .constant
  | sqrt => exact .sqrt
  | logarithmic p =>
    have := Shape.logarithmic (m := 1) (p := p.toNat) one_pos
    rwa [sat_toNat] at this
  | polynomial d p =>
    have := Shape.polynomial (k := 0) (m := 1) (q := 1) (d := d.toNat) (p := p.toNat) 0 (by omega)
      (by omega) (by omega) (by omega)
    rwa [add_zero, sat_toNat, sat_toNat] at this
  | exponential | factorial => exact ha.elim

theorem Shape.polynomial_eq {k m q d p : ℕ} {a b : UInt8} (c : ℕ) (hk : k ≤ 2 * c) (hc : c ≤ k)
    (hm : m = 0 → c + 1 ≤ k) (hq : 0 < k ∨ 0 < q) (ha : a = sat (d + c)) (hb : b = sat p) :
    Shape k m q d p (.polynomial a b) := by
  subst ha hb; exact .polynomial c hk hc hm hq

theorem Shape.node {k m q d p k' m' q' d' p' : ℕ} {a b : ComplexityClass} (h : Shape k m q d p a)
    (h' : Shape k' m' q' d' p' b) :
    Shape (k + k') (m + m') (q + q') (d + d') (p + p') (a.nestMul b) := by
  cases h with
  | constant => simpa using h'
  | sqrt =>
    cases h' with
    | constant => simpa using Shape.sqrt
    | sqrt => exact .polynomial_eq 1 (by omega) (by omega) (by omega) (by omega) rfl rfl
    | logarithmic hm =>
      exact .polynomial_eq 1 (by omega) (by omega) (by omega) (by omega) rfl (by rw [zero_add])
    | polynomial c hk hc hm hq =>
      refine .polynomial_eq (c + 1) (by omega) (by omega) (by omega) (by omega) ?_ (by rw [zero_add])
      exact (satAdd_sat _ 1).trans (congrArg sat (by omega))
  | logarithmic hm =>
    cases h' with
    | constant => simpa using Shape.logarithmic hm
    | sqrt => exact .polynomial_eq 1 (by omega) (by omega) (by omega) (by omega) rfl (by rw [add_zero])
    | logarithmic hm' =>
      simp only [nestMul, satAdd_sat]
      exact .logarithmic (by omega)
    | polynomial c hk hc hm' hq =>
      refine .polynomial_eq c (by omega) (by omega) (by omega) (by omega) (by rw [zero_add]) ?_
      rw [satAdd_sat, add_comm]
  | polynomial c hk hc hm hq =>
    cases h' with
    | constant => simpa using Shape.polynomial c hk hc hm hq
    | sqrt =>
      refine .polynomial_eq (c + 1) (by omega) (by omega) (by omega) (by omega) ?_ (by rw [add_zero])
      exact (satAdd_sat _ 1).trans (congrArg sat (by omega))
    | logarithmic hm' =>
      exact .polynomial_eq c (by omega) (by omega) (by omega) (by omega) (by rw [add_zero])
        (satAdd_sat _ _)
    | polynomial c' hk' hc' hm' hq' =>
      refine .polynomial_eq (c + c') (by omega) (by omega) (by omega) (by omega) ?_ (satAdd_sat _ _)
      rw [satAdd_sat]; congr 1; omega

theorem Shape.of_bracketing {l : List ComplexityClass} (hl : ∀ a ∈ l, a.Polylog)
    {t : Bracketing ComplexityClass} (ht : t.leaves.Perm l) :
    Shape (sqrts l) (monomials l) (polynomials l) (degrees l) (logPowers l) (t.eval nestMul) := by
  have h := eval_rel nestMul (R := fun l a => Shape (sqrts l) (monomials l) (polynomials l) (degrees l)
    (logPowers l) a) (fun a ha => Shape.leaf ha) (fun {l l' a b} ha hb => by
      simpa only [sqrts, monomials, polynomials, degrees, logPowers, List.count_append,
        List.countP_append, List.map_append, List.sum_append] using ha.node hb) t
    fun a ha => hl a (ht.mem_iff.1 ha)
  simpa only [sqrts, monomials, polynomials, degrees, logPowers, ht.count_eq, ht.countP_eq,
    (ht.map _).sum_eq] using h

theorem Shape.unique {k m q d p : ℕ} {a b : ComplexityClass}
    (hagree : k ≤ 1 ∨ (m = 0 ∧ k ≤ 3) ∨ 255 ≤ d + (k + 1) / 2) (h : Shape k m q d p a)
    (h' : Shape k m q d p b) : a = b := by
  cases h with
  | constant => cases h' with
    | constant => rfl
    | polynomial c hk hc hm hq => omega
    | logarithmic hm => omega
  | sqrt => cases h' with
    | sqrt => rfl
    | polynomial c hk hc hm hq => omega
  | logarithmic hm => cases h' with
    | constant => omega
    | logarithmic => rfl
    | polynomial c hk hc hm hq => omega
  | polynomial c hk hc hm hq =>
    cases h' with
    | constant => omega
    | sqrt => omega
    | logarithmic => omega
    | polynomial c' hk' hc' hm' hq' => rw [sat_eq_sat (by omega : d + c = d + c' ∨ _)]

/-! ## Two bracketings that disagree -/

theorem IsMonomial.nestMul {a b : ComplexityClass} (ha : a.IsMonomial) (hb : b.IsMonomial) :
    (a.nestMul b).IsMonomial ∧ (a.nestMul b).degree = min 255 (a.degree + b.degree) := by
  have hle : ∀ d : UInt8, min 255 d.toNat = d.toNat := fun d => by
    have := toNat_le_255 d
    omega
  cases a <;> cases b <;>
    simp_all [ComplexityClass.nestMul, IsMonomial, ComplexityClass.degree]

theorem IsMonomial.sqrt_nestMul {b : ComplexityClass} (hb : b.IsMonomial) :
    (ComplexityClass.sqrt.nestMul b).IsMonomial ∧
      (ComplexityClass.sqrt.nestMul b).degree = min 255 (b.degree + 1) := by
  cases b <;> simp_all [ComplexityClass.nestMul, IsMonomial, ComplexityClass.degree]

theorem degree_ofList {y : ComplexityClass} {ys : List ComplexityClass}
    (hy : ∀ c ∈ y :: ys, c.IsMonomial) :
    ((ofList y ys).eval nestMul).IsMonomial ∧
      ((ofList y ys).eval nestMul).degree = min 255 (degrees (y :: ys)) := by
  have h := eval_rel nestMul (P := fun c => c.IsMonomial = true)
    (R := fun l c => c.IsMonomial ∧ c.degree = min 255 (degrees l)) ?_ ?_ (ofList y ys) ?_
  · rwa [leaves_ofList] at h
  · intro c hc
    have : c.degree ≤ 255 := by cases c <;> simp [ComplexityClass.degree, toNat_le_255]
    exact ⟨hc, by simp [degrees]; omega⟩
  · rintro l l' a b ⟨ha, hda⟩ ⟨hb, hdb⟩
    obtain ⟨h, hd⟩ := IsMonomial.nestMul ha hb
    refine ⟨h, ?_⟩
    simp only [degrees, List.map_append, List.sum_append] at hda hdb ⊢
    omega
  · rwa [leaves_ofList]

/-- The square roots can be paired with each other. -/
theorem exists_paired (k : ℕ) {ys : List ComplexityClass} (hy : ∀ y ∈ ys, y.IsMonomial)
    (h : ys ≠ [] ∨ 2 ≤ k) :
    ∃ t : Bracketing ComplexityClass, t.leaves.Perm (List.replicate k .sqrt ++ ys) ∧
      (t.eval nestMul).IsMonomial ∧
      (t.eval nestMul).degree = min 255 (degrees ys + (k + 1) / 2) := by
  induction k using Nat.twoStepInduction with
  | zero =>
    obtain ⟨y, ys, rfl⟩ := List.exists_cons_of_ne_nil (h.resolve_right (by omega))
    obtain ⟨hm, hd⟩ := degree_ofList hy
    exact ⟨ofList y ys, by simp [leaves_ofList], hm, hd⟩
  | one =>
    obtain ⟨y, ys, rfl⟩ := List.exists_cons_of_ne_nil (h.resolve_right (by omega))
    obtain ⟨hm, hd⟩ := degree_ofList hy
    obtain ⟨hm', hd'⟩ := IsMonomial.sqrt_nestMul hm
    refine ⟨.node (.leaf .sqrt) (ofList y ys), by simp [leaves, leaves_ofList], hm', ?_⟩
    simp only [eval, hd', hd]
    omega
  | more k ih _ =>
    by_cases hk : ys ≠ [] ∨ 2 ≤ k
    · obtain ⟨t, hl, hm, hd⟩ := ih hk
      have hpair : (ComplexityClass.sqrt.nestMul .sqrt).IsMonomial := rfl
      obtain ⟨hm', hd'⟩ := IsMonomial.nestMul hpair hm
      refine ⟨.node (.node (.leaf .sqrt) (.leaf .sqrt)) t, ?_, hm', ?_⟩
      · simpa [leaves, List.replicate_succ] using hl
      · simp only [eval, hd', hd, show (ComplexityClass.sqrt.nestMul .sqrt).degree = 1 from rfl]
        omega
    · simp only [not_or, not_not, not_le] at hk
      obtain ⟨rfl, hk⟩ := hk
      obtain rfl | rfl : k = 0 ∨ k = 1 := by omega
      · exact ⟨.node (.leaf .sqrt) (.leaf .sqrt), by simp [leaves, List.replicate_succ], rfl, rfl⟩
      · exact ⟨.node (.leaf .sqrt) (.node (.leaf .sqrt) (.leaf .sqrt)),
          by simp [leaves, List.replicate_succ], rfl, rfl⟩

/-- A list of polylogarithmic classes is its square roots, its monomials and constants. -/
theorem perm_parts {l : List ComplexityClass} (hl : ∀ a ∈ l, a.Polylog) :
    (List.replicate (sqrts l) ComplexityClass.sqrt ++ l.filter IsMonomial ++
      List.replicate (l.count .constant) ComplexityClass.constant).Perm l := by
  induction l with
  | nil => simp [sqrts]
  | cons a l ih =>
    have ih := ih fun b hb => hl b (List.mem_cons_of_mem a hb)
    have ha := hl a (by simp)
    cases a with
    | constant =>
      rw [List.count_cons_self, List.replicate_succ]
      exact List.perm_middle.trans (ih.cons _)
    | sqrt =>
      rw [sqrts, List.count_cons_self, List.replicate_succ]
      exact ih.cons _
    | logarithmic p | polynomial d p =>
      rw [sqrts, List.count_cons_of_ne (by simp), List.count_cons_of_ne (by simp),
        List.filter_cons_of_pos rfl, List.append_assoc, List.cons_append]
      rw [List.append_assoc] at ih
      exact List.perm_middle.trans (ih.cons _)
    | exponential | factorial => exact ha.elim

theorem foldAgrees_of_unambiguous {l : List ComplexityClass} (hl : ∀ a ∈ l, a.Polylog)
    (h : Unambiguous nestMul l) :
    sqrts l ≤ 1 ∨ (monomials l = 0 ∧ sqrts l ≤ 3) ∨ 255 ≤ degrees l + (sqrts l + 1) / 2 := by
  by_contra hcon
  simp only [not_or, not_and, not_le] at hcon
  obtain ⟨h1, h3, h255⟩ := hcon
  have hdeg : degrees (l.filter IsMonomial) = degrees l := by
    clear h h1 h3 h255
    induction l with
    | nil => rfl
    | cons a l ih =>
      have ih := ih fun b hb => hl b (List.mem_cons_of_mem a hb)
      cases a <;> simp_all [degrees, List.filter_cons, IsMonomial, ComplexityClass.degree]
  have hmono : l.filter IsMonomial ≠ [] ∨ 2 ≤ sqrts l - 2 := by
    by_cases hm : l.filter IsMonomial = []
    · have := h3 (by rw [monomials, List.countP_eq_length_filter, hm]; rfl)
      exact .inr (by omega)
    · exact .inl hm
  -- two square roots that meet each other, or `X` one after the other
  obtain ⟨X, hX, hm, hd⟩ := exists_paired (sqrts l - 2)
    (fun y hy => (List.mem_filter.1 hy).2) hmono
  have hparts := perm_parts hl
  rw [show sqrts l = sqrts l - 2 + 2 by omega] at hparts
  have hX2 : ∀ {t : Bracketing ComplexityClass}, t.leaves.Perm (.sqrt :: .sqrt :: X.leaves) →
      ∃ t' : Bracketing ComplexityClass, t'.leaves.Perm l ∧ t'.eval nestMul = t.eval nestMul := by
    intro t ht
    obtain ⟨t', ht', hv⟩ := exists_absorb nestMul
      (List.replicate (l.count .constant) .constant)
      (fun c hc => by rw [List.eq_of_mem_replicate hc, nestMul_constant])
      ⟨t, ht.trans ((hX.cons _).cons _), rfl⟩
    exact ⟨t', ht'.trans hparts, hv⟩
  obtain ⟨t₁, ht₁, hv₁⟩ := hX2 (t := .node (.node (.leaf .sqrt) (.leaf .sqrt)) X) (by simp [leaves])
  obtain ⟨t₂, ht₂, hv₂⟩ := hX2 (t := .node (.leaf .sqrt) (.node (.leaf .sqrt) X)) (by simp [leaves])
  have heq := congrArg ComplexityClass.degree (h t₁ t₂ ht₁ ht₂)
  have hpair : (ComplexityClass.sqrt.nestMul .sqrt).IsMonomial := rfl
  obtain ⟨hm₂, hd₂⟩ := IsMonomial.sqrt_nestMul hm
  rw [hv₁, hv₂] at heq
  simp only [eval] at heq
  rw [(IsMonomial.nestMul hpair hm).2, (IsMonomial.sqrt_nestMul hm₂).2, hd₂, hd, hdeg,
    show (ComplexityClass.sqrt.nestMul .sqrt).degree = 1 from rfl] at heq
  omega

/-! ## The fold of `nestMul` -/

theorem unambiguous_nestMul (l : List ComplexityClass) :
    Unambiguous nestMul l ↔ FoldAgrees l := by
  by_cases hf : .factorial ∈ l
  · refine iff_of_true (fun t t' ht ht' => ?_) (.inl hf)
    rw [eval_of_factorial_mem hf ht, eval_of_factorial_mem hf ht']
  by_cases hb : bases l = []
  · have hl : ∀ a ∈ l, a.Polylog := fun a ha =>
      polylog_iff.2 ⟨fun e => hf (e ▸ ha), base?_eq_none hb ha⟩
    simp only [FoldAgrees, hf, hb, ne_eq, not_true_eq_false, false_and, true_and, false_or]
    exact ⟨foldAgrees_of_unambiguous hl, fun h t t' ht ht' =>
      Shape.unique h (.of_bracketing hl ht) (.of_bracketing hl ht')⟩
  · rw [unambiguous_of_bases hf hb]
    simp [FoldAgrees, hf, hb]

/-- **Nesting is a commutative monoid operation exactly on the lists that agree**:
    `constant` is its identity, and the fold over a list depends on neither its
    order nor its bracketing iff `FoldAgrees`. -/
theorem orderFree_nestMul_iff (l : List ComplexityClass) :
    ((∀ c : ComplexityClass, nestMul .constant c = c ∧ nestMul c .constant = c) ∧
      OrderFree nestMul .constant l) ↔ FoldAgrees l := by
  rw [orderFree_iff constant_nestMul, unambiguous_nestMul]
  exact and_iff_right fun c => ⟨constant_nestMul c, nestMul_constant c⟩

/-- Two loops of `sqrt(n)` iterations and one of `log n`: the square roots make
    `n` when they are nested directly and `n^2` when the logarithm is between them. -/
theorem not_orderFree_nestMul :
    ¬ ((∀ c : ComplexityClass, nestMul .constant c = c ∧ nestMul c .constant = c) ∧
      ∀ l : List ComplexityClass, OrderFree nestMul .constant l) := by
  rintro ⟨-, h⟩
  have := h [.sqrt, .sqrt, .logN] (.node (.leaf .sqrt) (.node (.leaf .logN) (.leaf .sqrt)))
    ((List.Perm.swap _ _ []).cons _)
  exact absurd this (by decide)

/-! ## The loop multiplier -/

/-- `current_loop_multiplier`: the class of the enclosing loops, outermost first. -/
def loopMultiplier (loopStack : List LoopBound) : ComplexityClass :=
  loopStack.foldl (fun acc bound => acc.nestMul bound.toComplexity) .constant

theorem loopMultiplier_eq_foldl (loopStack : List LoopBound) :
    loopMultiplier loopStack = (loopStack.map LoopBound.toComplexity).foldl nestMul .constant := by
  rw [List.foldl_map]; rfl

theorem foldAgrees_loopStack {loopStack : List LoopBound} (h : loopStack.count .sqrt ≤ 1) :
    FoldAgrees (loopStack.map LoopBound.toComplexity) := by
  have hsqrts : ∀ s : List LoopBound, sqrts (s.map LoopBound.toComplexity) = s.count .sqrt := by
    intro s
    induction s with
    | nil => rfl
    | cons b s ih => cases b <;>
        simp_all [sqrts, LoopBound.toComplexity, logN, sqrtN, linear]
  have hbases : bases (loopStack.map LoopBound.toComplexity) = [] := by
    rw [bases, List.filterMap_eq_nil_iff]
    intro c hc
    obtain ⟨b, -, rfl⟩ := List.mem_map.1 hc
    cases b <;> rfl
  exact .inr (.inr ⟨hbases, .inl (by rw [hsqrts]; exact h)⟩)

/-- **The order of the loops does not matter** when at most one of them is
    bounded by a square root. -/
theorem loopMultiplier_perm {s s' : List LoopBound} (hp : s'.Perm s) (h : s.count .sqrt ≤ 1) :
    loopMultiplier s' = loopMultiplier s := by
  rw [loopMultiplier_eq_foldl, loopMultiplier_eq_foldl]
  have hfree := (orderFree_iff constant_nestMul).2
    ((unambiguous_nestMul _).2 (foldAgrees_loopStack h))
  cases hs : s'.map LoopBound.toComplexity with
  | nil => rw [List.map_eq_nil_iff.1 hs] at hp; rw [← hp.nil_eq]; rfl
  | cons c cs =>
    rw [List.foldl_cons, constant_nestMul, ← eval_ofList nestMul]
    exact hfree _ (by rw [leaves_ofList, ← hs]; exact hp.map _)

end Cognis
