/-
  The exact solver of `cognis-csar` (`solvers.rs`): the dense transition matrix of a graph, and
  personalized PageRank by Gaussian elimination.

  Matrices are row-major lists, as in the source. The entries are exact rationals.

  * `transitionMatrix_getD`: the matrix holds the kernel of the graph;
  * `exists_personalizedPagerankExact`: on it, the solver meets no zero pivot and returns the
    exact scores;
  * `push_le_personalizedPagerankExact`: the forward push approximates them from below, and
    what is missing is the residual.
-/
import Cognis.Csar.Conservation
import Cognis.Lib.Elimination

namespace Cognis

open CodeGraph
open Elimination (System)

/-! ## The transition matrix -/

/-- The cast `v as usize` of an `i32`. -/
def asUsize (v : ℤ) : ℕ := (if 0 ≤ v then v else 2 ^ 64 + v).toNat

/-- One entry of row `u`: its part of the mass leaving `u`. An index past the matrix, where
    the source panics, is none of a well-formed graph. -/
def addTransition (n u : ℕ) (d : ℚ) (p : List ℚ) (e : ℤ × ℚ) : List ℚ :=
  p.modify (asUsize e.1 * n + u) (· + e.2 / d)

/-- The column of node `u`. -/
def addColumn (g : CodeGraph) (p : List ℚ) (u : ℕ) : List ℚ :=
  let d := g.degree.getD u 0
  if d ≤ 0 then p else (g.entries u).foldl (addTransition g.n u d) p

/-- `transition_matrix` -/
def transitionMatrix (g : CodeGraph) : List ℚ :=
  (List.range g.n).foldl (addColumn g) (List.replicate (g.n * g.n) 0)

/-! ## The solver -/

/-- The errors of the exact solver. -/
inductive SolveError
  | alpha (e : RetrievalError)
  | retrieval (message : String)
  deriving DecidableEq

/-- The operator `I - (1 - alpha) P` and the right-hand side `alpha s`. -/
def pprSystem (n : ℕ) (matrix seed : List ℚ) (alpha : ℚ) : System n ℚ where
  m i j :=
    let ident : ℚ := if i = j then 1 else 0
    ident - (1 - alpha) * matrix.getD (i * n + j) 0
  b i := alpha * seed.getD i 0

/-- `gaussian_solve` -/
def gaussianSolve {n : ℕ} (s : System n ℚ) : Except SolveError (List ℚ) :=
  match s.gaussianSolve with
  | none => .error (.retrieval "singular operator in exact PPR solve")
  | some x => .ok (List.ofFn x)

/-- `personalized_pagerank_exact` -/
def personalizedPagerankExact (matrix seed : List ℚ) (alpha : ℚ) : Except SolveError (List ℚ) :=
  if ¬ (0 < alpha ∧ alpha ≤ 1) then .error (.alpha ⟨"alpha must be in (0, 1]; got ", alpha⟩)
  else
    let n := seed.length
    if matrix.length ≠ n * n then
      .error (.retrieval ("matrix has " ++ toString matrix.length ++ " entries; expected " ++
        toString (n * n) ++ " for seed of length " ++ toString n))
    else gaussianSolve (pprSystem n matrix seed alpha)

/-! ## The entries of the matrix -/

theorem getD_ofFn {n : ℕ} (x : Fin n → ℚ) (i : Fin n) : (List.ofFn x).getD i 0 = x i := by
  rw [List.getD_eq_getElem _ _ (by simp), List.getElem_ofFn]

section
variable {g : CodeGraph}

theorem asUsize_of_node? {v : ℤ} {w : Fin g.n} (h : g.node? v = some w) : asUsize v = w := by
  unfold node? at h
  split_ifs at h with hv
  cases h
  rw [asUsize, if_pos hv.1]

theorem cell_eq {n : ℕ} (i j : Fin n) : i.1 * n + j = (finProdFinEquiv (i, j)).1 := by
  rw [finProdFinEquiv_apply_val, Nat.mul_comm, Nat.add_comm]

theorem cell_lt {n : ℕ} (i j : Fin n) : i.1 * n + j < n * n := by
  rw [cell_eq]
  exact Fin.is_lt _

/-- The cells of a matrix are distinct. -/
theorem cell_inj {n : ℕ} {i i' j j' : Fin n} :
    i.1 * n + j = i' * n + j' ↔ i = i' ∧ j = j' := by
  rw [cell_eq, cell_eq, Fin.val_inj, finProdFinEquiv.apply_eq_iff_eq, Prod.mk.injEq]

theorem length_addTransition (n u : ℕ) (d : ℚ) (p : List ℚ) (e : ℤ × ℚ) :
    (addTransition n u d p e).length = p.length := by
  simp [addTransition]

/-- The entries of a row go to its column. -/
theorem foldl_addTransition {l : List (ℤ × ℚ)} (hl : ∀ e ∈ l, ∃ v, g.node? e.1 = some v)
    (u : Fin g.n) (d : ℚ) {p : List ℚ} (hp : p.length = g.n * g.n) :
    (l.foldl (addTransition g.n u d) p).length = g.n * g.n ∧
      ∀ i j : Fin g.n, (l.foldl (addTransition g.n u d) p).getD (i * g.n + j) 0 =
        p.getD (i * g.n + j) 0 +
          if u = j then (l.map fun e => if g.node? e.1 = some i then e.2 else 0).sum / d else 0 := by
  induction l generalizing p with
  | nil => simp [hp]
  | cons e l ih =>
    obtain ⟨v, hv⟩ := hl e List.mem_cons_self
    obtain ⟨hlen, hget⟩ := ih (fun x hx => hl x (List.mem_cons_of_mem e hx))
      ((length_addTransition g.n u d p e).trans hp)
    refine ⟨hlen, fun i j => ?_⟩
    have hcell : i.1 * g.n + j < p.length := hp ▸ cell_lt i j
    rw [List.foldl_cons, hget, addTransition, asUsize_of_node? hv, List.getD_eq_getElem?_getD,
      List.getElem?_modify, List.getElem?_eq_getElem hcell, List.getD_eq_getElem _ _ hcell,
      List.map_cons, List.sum_cons, hv]
    simp only [cell_inj, Option.map_eq_map, Option.map_some, Option.getD_some, Option.some.injEq]
    by_cases hi : v = i
    · by_cases hj : u = j
      · simp only [hi, hj, if_true, and_self]
        ring
      · simp [hj]
    · simp [hi]

/-- **The matrix of a well-formed graph** holds its kernel. -/
theorem transitionMatrix_getD (hg : g.WellFormed) :
    (transitionMatrix g).length = g.n * g.n ∧
      ∀ i j : Fin g.n, (transitionMatrix g).getD (i * g.n + j) 0 = hg.kernel.prob j i := by
  have hinv := Loop.foldl_invariant (l := List.range g.n) (f := addColumn g)
    (s := List.replicate (g.n * g.n) 0)
    (I := fun done p => p.length = g.n * g.n ∧ ∀ i j : Fin g.n,
      p.getD (i * g.n + j) 0 = if j.1 ∈ done then hg.kernel.prob j i else 0) ?_ ?_
  · refine ⟨hinv.1, fun i j => ?_⟩
    rw [transitionMatrix, hinv.2, if_pos (List.mem_range.2 j.2)]
  · refine ⟨by simp, fun i j => ?_⟩
    rw [List.getD_replicate _ (cell_lt i j)]
    simp
  · rintro done u rest p hsplit ⟨hlen, hget⟩
    have hu : u < g.n := List.mem_range.1 (hsplit ▸ by simp)
    have hdone : u ∉ done := by
      have hnodup := List.nodup_range (n := g.n)
      rw [hsplit] at hnodup
      exact fun hmem => (List.nodup_append.1 hnodup).2.2 u hmem u List.mem_cons_self rfl
    have hdeg := hg.degree_pos ⟨u, hu⟩
    obtain ⟨hlen', hget'⟩ :=
      foldl_addTransition (hg.valid ⟨u, hu⟩) ⟨u, hu⟩ (g.degreeOf ⟨u, hu⟩) hlen
    have hcolumn : addColumn g p u =
        (g.entries u).foldl (addTransition g.n u (g.degreeOf ⟨u, hu⟩)) p :=
      if_neg hdeg.not_ge
    rw [hcolumn]
    refine ⟨hlen', fun i j => ?_⟩
    rw [hget', hget]
    by_cases hj : j = ⟨u, hu⟩
    · subst hj
      simp [hdone, WellFormed.kernel, weight]
    · have hne : j.1 ≠ u := fun h => hj (Fin.ext h)
      simp [Ne.symm hj, hne]

/-! ## The exact scores -/

variable {alpha eps : ℚ}

/-- A solution of the system with the right-hand side times `t` is exact for the seed times `t`. -/
theorem solves_pprSystem_iff (hg : g.WellFormed) (s : Fin g.n → ℚ) {t : ℚ} {x : Fin g.n → ℚ} :
    (pprSystem g.n (transitionMatrix g) (List.ofFn s) alpha).Solves t x ↔
      hg.kernel.Exact alpha (fun v => t * s v) x := by
  rw [Kernel.exact_iff]
  refine forall_congr' fun i => ?_
  have hrow : ∑ j, (pprSystem g.n (transitionMatrix g) (List.ofFn s) alpha).m i j * x j =
      x i - (1 - alpha) * hg.kernel.apply x i := by
    simp only [pprSystem, (transitionMatrix_getD hg).2, sub_mul, Finset.sum_sub_distrib, ite_mul,
      one_mul, zero_mul, Finset.sum_ite_eq, Finset.mem_univ, if_true, Kernel.apply, Finset.mul_sum,
      mul_assoc]
  have hseed : (pprSystem g.n (transitionMatrix g) (List.ofFn s) alpha).b i = alpha * s i := by
    simp only [pprSystem, getD_ofFn]
  rw [hrow, hseed, mul_left_comm]

/-- **The solver meets no zero pivot**, and returns the exact scores. -/
theorem exists_personalizedPagerankExact (hg : g.WellFormed) (hα : 0 < alpha) (hα1 : alpha ≤ 1)
    (s : Fin g.n → ℚ) : ∃ ppr : Fin g.n → ℚ,
      personalizedPagerankExact (transitionMatrix g) (List.ofFn s) alpha = .ok (List.ofFn ppr) ∧
      hg.kernel.Exact alpha s ppr := by
  have hsing : (pprSystem g.n (transitionMatrix g) (List.ofFn s) alpha).Nonsingular := by
    intro x hx
    have hexact := (solves_pprSystem_iff hg s).1 hx
    simp only [zero_mul] at hexact
    exact hexact.eq_zero hα hα1
  obtain ⟨ppr, hsolve, hppr⟩ := System.gaussianSolve_of_nonsingular hsing
  refine ⟨ppr, ?_, by simpa using (solves_pprSystem_iff hg s).1 hppr⟩
  have hlen := (transitionMatrix_getD hg).1
  unfold personalizedPagerankExact
  rw [if_neg (not_not.2 ⟨hα, hα1⟩)]
  dsimp only
  rw [List.length_ofFn, if_neg (not_not.2 hlen), gaussianSolve, hsolve]

/-! ## The push and the exact scores -/

/-- The score of a node; a node that is not in the map has none. -/
def PushResult.score (r : PushResult) (u : ℕ) : ℚ := (r.estimate.lookup u).getD 0

theorem lookup_nonzero {n : ℕ} (x : Fin n → ℚ) (u : Fin n) :
    ((nonzero x).lookup u.1).getD 0 = x u := by
  suffices h : ∀ l : List (Fin n), ((l.filterMap fun u =>
      if x u ≠ 0 then some (u.1, x u) else none).lookup u.1).getD 0 = if u ∈ l then x u else 0 by
    rw [nonzero, h, if_pos (List.mem_finRange u)]
  intro l
  induction l with
  | nil => rfl
  | cons a l ih =>
    by_cases ha : x a = 0
    · rw [List.filterMap_cons_none (by simp [ha]), ih]
      by_cases hu : u = a
      · simp [hu, ha]
      · simp [hu]
    · rw [List.filterMap_cons_some (b := (a.1, x a)) (by simp [ha]), List.lookup_cons]
      by_cases hu : u = a
      · simp [hu]
      · have hne : (u.1 == a.1) = false := by simpa [Fin.val_inj] using hu
        simp only [hne, ih, List.mem_cons, hu, false_or]

/-- **The push approximates the exact scores from below**, in every state of the loop. -/
theorem PushInv.le_exact {hg : g.WellFormed} (hα : 0 < alpha) (hα1 : alpha ≤ 1)
    {seed ppr : Fin g.n → ℚ} {s : PushState g.n} (hs : PushInv hg alpha eps seed s)
    (hppr : hg.kernel.Exact alpha seed ppr) :
    (∀ u, s.estimate u ≤ ppr u) ∧ ∑ u, (ppr u - s.estimate u) = ∑ u, s.residual u := by
  have hrest := hs.conserved.exact_sub hppr
  exact ⟨fun u => sub_nonneg.1 (hrest.nonneg hα hα1 hs.residual_nonneg u),
    hrest.sum_eq hα.ne'⟩

/-- **Forward push against exact personalized PageRank**: on a well-formed graph the solver
    returns scores that solve `(I - (1 - alpha) P) x = alpha s`, the push returns, its scores are
    at most these, and the total of what is missing is the residual. -/
theorem push_le_personalizedPagerankExact (g : CodeGraph) (hg : g.WellFormed) (alpha eps : ℚ)
    (hα : 0 < alpha) (hα1 : alpha ≤ 1) (heps : 0 < eps) (seed : List (ℤ × ℚ))
    (hseed : ∀ e ∈ seed, 0 ≤ e.2) :
    ∃ ppr : Fin g.n → ℚ,
      personalizedPagerankExact (transitionMatrix g) (List.ofFn (seedMass g seed)) alpha =
        .ok (List.ofFn ppr) ∧
      (∀ i : Fin g.n, ppr i - (1 - alpha) *
        ∑ j : Fin g.n, (transitionMatrix g).getD (i * g.n + j) 0 * ppr j =
          alpha * seedMass g seed i) ∧
      ∃ fuel₀, ∀ fuel ≥ fuel₀, ∃ r, approximatePprPush g alpha eps fuel seed = .ok (some r) ∧
        (∀ u : Fin g.n, 0 ≤ r.score u ∧ r.score u ≤ ppr u) ∧
        ∑ u : Fin g.n, (ppr u - r.score u) = (r.residual.map Prod.snd).sum := by
  obtain ⟨ppr, hsolve, hexact⟩ := exists_personalizedPagerankExact hg hα hα1 (seedMass g seed)
  refine ⟨ppr, hsolve, fun i => ?_, ?_⟩
  · simp only [(transitionMatrix_getD hg).2]
    exact Kernel.exact_iff.1 hexact i
  · obtain ⟨fuel₀, hfuel⟩ := exists_pushRun hg hα hα1 heps hseed
    refine ⟨fuel₀, fun fuel hf => ?_⟩
    obtain ⟨s, hrun⟩ := hfuel fuel hf
    have hinv := PushInv.of_reaches hg hα hα1 heps hseed (Loop.run_eq_some hrun).1
    obtain ⟨hle, hsum⟩ := hinv.le_exact hα hα1 hexact
    refine ⟨⟨nonzero s.estimate, nonzero s.residual, s.work, s.pushes⟩, ?_, fun u => ?_, ?_⟩
    · rw [approximatePprPush, if_neg (not_not.2 ⟨hα, hα1⟩), if_neg heps.not_ge, hrun,
        Option.map_some]
    · rw [PushResult.score, lookup_nonzero]
      exact ⟨hinv.estimate_nonneg u, hle u⟩
    · simp only [PushResult.score, lookup_nonzero, sum_nonzero]
      exact hsum

/-- On an edge, the score of the seed is at most `2 / 3`. -/
theorem push_le_personalizedPagerankExact_edge :
    personalizedPagerankExact (transitionMatrix (fromWeightedTriples ["a", "b"] [(0, 1, 1)] true))
        [1, 0] (1 / 2) = .ok [2 / 3, 1 / 3] ∧
      ∃ fuel₀, ∀ fuel ≥ fuel₀, ∃ r,
        approximatePprPush (fromWeightedTriples ["a", "b"] [(0, 1, 1)] true) (1 / 2) (1 / 10) fuel
          [(0, 1)] = .ok (some r) ∧ r.score 0 ≤ 2 / 3 := by
  have hexact : personalizedPagerankExact
      (transitionMatrix (fromWeightedTriples ["a", "b"] [(0, 1, 1)] true)) [1, 0] (1 / 2) =
        .ok [2 / 3, 1 / 3] := by decide +kernel
  have hseed : List.ofFn (seedMass (fromWeightedTriples ["a", "b"] [(0, 1, 1)] true) [(0, 1)]) =
      [1, 0] := by decide +kernel
  obtain ⟨ppr, hsolve, -, fuel₀, hfuel⟩ := push_le_personalizedPagerankExact _
    (wellFormed_fromWeightedTriples ["a", "b"] [(0, 1, 1)] true (by decide +kernel)) (1 / 2)
    (1 / 10) (by norm_num) (by norm_num) (by norm_num) [(0, 1)] (by simp)
  rw [hseed, hexact] at hsolve
  have hppr := congrArg (·.getD 0 0) (Except.ok.inj hsolve)
  have hn : 0 < (fromWeightedTriples ["a", "b"] [(0, 1, 1)] true).n := by decide +kernel
  refine ⟨hexact, fuel₀, fun fuel hf => ?_⟩
  obtain ⟨r, hr, hle, -⟩ := hfuel fuel hf
  refine ⟨r, hr, (hle ⟨0, hn⟩).2.trans_eq ?_⟩
  exact (hppr.trans (getD_ofFn ppr ⟨0, hn⟩)).symm

end

end Cognis
