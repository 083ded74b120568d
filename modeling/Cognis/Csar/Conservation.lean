/-
  Conservation, termination and work bound of the forward push.

  The invariant `PushInv` of the work loop says that scores and residuals are
  nonnegative and account for the seed, that the work done is paid for by score,
  and that every node at its threshold is on the work list.

  * `push_conservation`: in every state of the loop, `α s = p - (1 - α) P p + α r`
    and the total of score and residual is the seed mass;
  * `push_terminates`: the loop ends, having done at most `seed / (α ε)` work, with
    every residual below its threshold; `exists_pushRun` is the termination.
-/
import Cognis.Csar.Push
import Mathlib.Algebra.BigOperators.Fin
import Mathlib.Data.Fintype.Card
import Mathlib.Data.Finset.Max
import Mathlib.Algebra.Order.Floor.Ring
import Mathlib.Data.Rat.Floor

namespace Cognis

open CodeGraph

section
variable {g : CodeGraph} {alpha eps : ℚ}

/-- The invariant of the work loop. -/
structure PushInv (hg : g.WellFormed) (alpha eps : ℚ) (seed : Fin g.n → ℚ) (s : PushState g.n) :
    Prop where
  estimate_nonneg : ∀ v, 0 ≤ s.estimate v
  residual_nonneg : ∀ v, 0 ≤ s.residual v
  conserved : hg.kernel.Conserved alpha seed s.estimate s.residual
  work_le : alpha * eps * s.work ≤ ∑ v, s.estimate v
  pushes_le : ∀ δ, (∀ u, δ ≤ g.degreeOf u) → δ * s.pushes ≤ s.work
  stack : StackOK g eps s

/-! ## The initial state -/

theorem exists_seed_of_seedMass_ne {seed : List (ℤ × ℚ)} {v : Fin g.n}
    (h : seedMass g seed v ≠ 0) : ∃ e ∈ seed, g.node? e.1 = some v := by
  by_contra hno
  simp only [not_exists, not_and] at hno
  refine h (List.sum_eq_zero fun x hx => ?_)
  obtain ⟨e, he, rfl⟩ := List.mem_map.1 hx
  exact if_neg (hno e he)

/-- The state while the work list is filled, after the seed entries `seen`. -/
structure Seeding (g : CodeGraph) (eps : ℚ) (r : Fin g.n → ℚ) (seen : List (ℤ × ℚ))
    (s : PushState g.n) : Prop where
  estimate : s.estimate = fun _ => 0
  residual : s.residual = r
  work : s.work = 0
  pushes : s.pushes = 0
  nodup : s.active.Nodup
  mem_iff : ∀ u, u ∈ s.active ↔ s.inActive u = true
  flagged : ∀ e ∈ seen, ∀ u, g.node? e.1 = some u → eps * g.degreeOf u ≤ r u → s.inActive u = true

theorem Seeding.stackSeed {r : Fin g.n → ℚ} {seen : List (ℤ × ℚ)} {s : PushState g.n}
    (h : Seeding g eps r seen s) (e : ℤ × ℚ) :
    Seeding g eps r (seen ++ [e]) (stackSeed g eps s e) := by
  simp only [Cognis.stackSeed]
  cases hu : g.node? e.1 with
  | none =>
    refine ⟨h.estimate, h.residual, h.work, h.pushes, h.nodup, h.mem_iff, fun e' he v hv => ?_⟩
    rcases List.mem_append.1 he with he | he
    · exact h.flagged e' he v hv
    · rw [List.mem_singleton.1 he, hu] at hv; cases hv
  | some w =>
    have hseen : ∀ e' ∈ seen ++ [e], ∀ v, v ≠ w → g.node? e'.1 = some v →
        eps * g.degreeOf v ≤ r v → s.inActive v = true := by
      intro e' he v hvw hv
      rcases List.mem_append.1 he with he | he
      · exact h.flagged e' he v hv
      · rw [List.mem_singleton.1 he, hu] at hv
        exact absurd (Option.some.inj hv).symm hvw
    dsimp only
    split_ifs with hact
    · simp only [Bool.not_eq_true'] at hact
      refine ⟨h.estimate, h.residual, h.work, h.pushes, ?_, fun v => ?_, fun e' he v hv hle => ?_⟩
      · exact List.nodup_cons.2 ⟨fun hm => absurd ((h.mem_iff w).1 hm) (by simp [hact.1]), h.nodup⟩
      · by_cases hv : v = w
        · subst hv; simp
        · simp [hv, h.mem_iff v]
      · by_cases hvw : v = w
        · subst hvw; simp
        · dsimp only
          rw [Function.update_of_ne hvw]
          exact hseen e' he v hvw hv hle
    · refine ⟨h.estimate, h.residual, h.work, h.pushes, h.nodup, h.mem_iff, fun e' he v hv hle => ?_⟩
      by_cases hvw : v = w
      · subst hvw
        by_contra hflag
        exact hact ⟨by simpa using hflag, by rw [h.residual]; exact hle⟩
      · exact hseen e' he v hvw hv hle

theorem Seeding.foldl {r : Fin g.n → ℚ} (l : List (ℤ × ℚ)) {seen : List (ℤ × ℚ)}
    {s : PushState g.n} (h : Seeding g eps r seen s) :
    Seeding g eps r (seen ++ l) (l.foldl (Cognis.stackSeed g eps) s) := by
  induction l generalizing seen s with
  | nil => simpa using h
  | cons e l ih => rw [List.foldl_cons, List.append_cons]; exact ih (h.stackSeed e)

/-- The initial work list: the seeded nodes at their threshold. -/
theorem seeding_initState (seed : List (ℤ × ℚ)) :
    Seeding g eps (seedMass g seed) seed (initState g eps seed) :=
  have h : Seeding g eps (seedMass g seed) [] _ :=
    ⟨rfl, seedResidual_eq g seed, rfl, rfl, by simp, by simp, by simp⟩
  h.foldl seed

theorem pushInv_init (hg : g.WellFormed) (heps : 0 < eps) {seed : List (ℤ × ℚ)}
    (hseed : ∀ e ∈ seed, 0 ≤ e.2) :
    PushInv hg alpha eps (seedMass g seed) (initState g eps seed) := by
  have hinit : Seeding g eps (seedMass g seed) seed (initState g eps seed) := seeding_initState seed
  obtain ⟨he, hr, hw, hp, hnodup, hmem, hover⟩ := hinit
  refine ⟨fun v => ?_, fun v => ?_, ?_, ?_, fun δ _ => ?_, hnodup, hmem, fun u hu => ?_⟩
  · rw [he]
  · rw [hr]; exact seedMass_nonneg hseed v
  · rw [he, hr]; exact Kernel.conserved_init alpha _
  · rw [hw, he]; simp
  · rw [hp, hw]; simp
  · rw [hr] at hu
    have hpos : 0 < seedMass g seed u := (mul_pos heps (hg.degree_pos u)).trans_le hu
    obtain ⟨e, hemem, hnode⟩ := exists_seed_of_seedMass_ne hpos.ne'
    exact hover e hemem u hnode hu

/-! ## One iteration -/

/-- **Step lemma**: an iteration of the loop preserves the invariant. -/
theorem PushInv.step {hg : g.WellFormed} (hα : 0 < alpha) (hα1 : alpha ≤ 1) (heps : 0 < eps)
    {seed : Fin g.n → ℚ} {s t : PushState g.n} (hs : PushInv hg alpha eps seed s)
    (h : pushStep g alpha eps s = some t) : PushInv hg alpha eps seed t := by
  have hstack := hs.stack.step hg heps h
  obtain ⟨u, active, -, ⟨he, hr, hw, hp, -⟩ | ⟨hover, he, hr, hw, hp⟩⟩ := pushStep_cases hg h
  · refine ⟨?_, ?_, ?_, ?_, ?_, hstack⟩
    · rw [he]; exact hs.estimate_nonneg
    · rw [hr]; exact hs.residual_nonneg
    · rw [he, hr]; exact hs.conserved
    · rw [he, hw]; exact hs.work_le
    · rw [hw, hp]; exact hs.pushes_le
  · refine ⟨fun v => ?_, fun v => ?_, ?_, ?_, fun δ hδ => ?_, hstack⟩
    · rw [he]; exact pushScore_nonneg hα.le hs.estimate_nonneg hs.residual_nonneg u v
    · rw [hr]; exact Kernel.pushResidual_nonneg hα1 hs.residual_nonneg u v
    · rw [he, hr]; exact hs.conserved.push u
    · rw [he, hw, sum_pushScore]
      -- the score gained pays for the degree of the node pushed
      have hgain : alpha * (eps * g.degreeOf u) ≤ alpha * s.residual u :=
        mul_le_mul_of_nonneg_left hover hα.le
      have := hs.work_le
      linarith
    · have := hs.pushes_le δ hδ
      have := hδ u
      rw [hw, hp]
      push_cast
      linarith

theorem PushInv.of_reaches (hg : g.WellFormed) (hα : 0 < alpha) (hα1 : alpha ≤ 1) (heps : 0 < eps)
    {seed : List (ℤ × ℚ)} (hseed : ∀ e ∈ seed, 0 ≤ e.2) {s : PushState g.n}
    (hs : Loop.Reaches (pushStep g alpha eps) (initState g eps seed) s) :
    PushInv hg alpha eps (seedMass g seed) s :=
  Loop.invariant (fun _ _ hs h => hs.step hα hα1 heps h) hs (pushInv_init hg heps hseed)

/-! ## Consequences of the invariant -/

section
variable {hg : g.WellFormed} {seed : List (ℤ × ℚ)} {s : PushState g.n}

theorem PushInv.mass (hα : 0 < alpha) (hs : PushInv hg alpha eps (seedMass g seed) s) :
    ∑ v, s.estimate v + ∑ v, s.residual v = totalSeed g seed := by
  rw [hs.conserved.mass hα.ne', sum_seedMass]

theorem PushInv.work_bound (hα : 0 < alpha) (heps : 0 < eps)
    (hs : PushInv hg alpha eps (seedMass g seed) s) :
    s.work ≤ totalSeed g seed / (alpha * eps) := by
  rw [le_div_iff₀ (mul_pos hα heps), ← hs.mass hα, mul_comm]
  exact hs.work_le.trans (le_add_of_nonneg_right (Finset.sum_nonneg fun v _ => hs.residual_nonneg v))

/-- At the exit, the work list is empty, so no node is at its threshold. -/
theorem PushInv.exit (hs : PushInv hg alpha eps (seedMass g seed) s)
    (hexit : pushStep g alpha eps s = none) (u : Fin g.n) :
    s.residual u < eps * g.degreeOf u := by
  by_contra hu
  have hmem := (hs.stack.mem_iff u).2 (hs.stack.flagged u (not_lt.1 hu))
  cases hact : s.active with
  | nil => rw [hact] at hmem; cases hmem
  | cons v active =>
    simp only [pushStep, hact] at hexit
    split_ifs at hexit

theorem exists_degree_bound (hg : g.WellFormed) : ∃ δ, 0 < δ ∧ ∀ u, δ ≤ g.degreeOf u := by
  rcases isEmpty_or_nonempty (Fin g.n) with h | h
  · exact ⟨1, one_pos, fun u => h.elim u⟩
  · obtain ⟨u, -, hu⟩ := Finset.exists_min_image Finset.univ g.degreeOf Finset.univ_nonempty
    exact ⟨g.degreeOf u, hg.degree_pos u, fun v => hu v (Finset.mem_univ v)⟩

/-- The number of pushes is bounded by the seed mass. -/
theorem PushInv.pushes_bound (hα : 0 < alpha) (heps : 0 < eps) {δ : ℚ} (hδ : 0 < δ)
    (hdeg : ∀ u, δ ≤ g.degreeOf u) (hs : PushInv hg alpha eps (seedMass g seed) s) :
    s.pushes ≤ ⌊totalSeed g seed / (alpha * eps) / δ⌋₊ := by
  refine Nat.le_floor ?_
  rw [le_div_iff₀ hδ, mul_comm]
  exact (hs.pushes_le δ hdeg).trans (hs.work_bound hα heps)

end

/-- **Termination**: each push uses up one of the pushes left, each drop shortens the stack. -/
theorem exists_pushRun (hwf : g.WellFormed) (hα : 0 < alpha) (hα1 : alpha ≤ 1) (heps : 0 < eps)
    {seed : List (ℤ × ℚ)} (hseed : ∀ e ∈ seed, 0 ≤ e.2) :
    ∃ fuel₀, ∀ fuel ≥ fuel₀, ∃ s,
      Loop.run (pushStep g alpha eps) fuel (initState g eps seed) = some s := by
  obtain ⟨δ, hδ, hdeg⟩ := exists_degree_bound hwf
  let B := ⌊totalSeed g seed / (alpha * eps) / δ⌋₊
  let μ : PushState g.n → ℕ := fun s => (B - s.pushes) * (g.n + 1) + s.active.length
  have hdec : ∀ s t, PushInv hwf alpha eps (seedMass g seed) s →
      pushStep g alpha eps s = some t → μ t < μ s := by
    intro s t hs h
    have ht := hs.step hα hα1 heps h
    have hlen : t.active.length ≤ g.n := by
      simpa using ht.stack.nodup.length_le_card
    have hB : t.pushes ≤ B := ht.pushes_bound hα heps hδ hdeg
    obtain ⟨u, active, hact, ⟨-, -, -, hp, ha⟩ | ⟨-, -, -, -, hp⟩⟩ := pushStep_cases hwf h
    · simp only [μ, hp, ha, hact, List.length_cons]; omega
    · have hsub : B - s.pushes = (B - t.pushes) + 1 := by omega
      simp only [μ, hsub, Nat.add_mul, hact, List.length_cons]
      omega
  exact ⟨μ (initState g eps seed), fun fuel hfuel => Loop.terminates
    (fun _ _ hs h => hs.step hα hα1 heps h) hdec (pushInv_init hwf heps hseed) hfuel⟩

end

/-! ## The main theorems -/

section
variable (nodeIds : List String) (triples : List (ℕ × ℕ × ℚ)) (symmetrize : Bool)

/-- **Push conservation**, in every state of the work loop of a built graph. -/
theorem push_conservation (g : CodeGraph) (hg : g = fromWeightedTriples nodeIds triples symmetrize)
    (hfit : g.nnz < 2 ^ 31) (alpha eps : ℚ) (hα : 0 < alpha) (hα1 : alpha ≤ 1) (heps : 0 < eps)
    (seed : List (ℤ × ℚ)) (hseed : ∀ e ∈ seed, 0 ≤ e.2) (s : PushState g.n)
    (hs : Loop.Reaches (pushStep g alpha eps) (initState g eps seed) s) :
    (∀ v, 0 ≤ s.estimate v) ∧ (∀ v, 0 ≤ s.residual v) ∧
      (∀ v, alpha * seedMass g seed v = s.estimate v -
        (1 - alpha) * ∑ u, g.weight u v / g.degreeOf u * s.estimate u + alpha * s.residual v) ∧
      ∑ v, s.estimate v + ∑ v, s.residual v = totalSeed g seed := by
  subst hg
  have hwf := wellFormed_fromWeightedTriples nodeIds triples symmetrize hfit
  have hinv := PushInv.of_reaches hwf hα hα1 heps hseed hs
  exact ⟨hinv.estimate_nonneg, hinv.residual_nonneg, hinv.conserved, hinv.mass hα⟩

/-- One push on an edge between two nodes. -/
theorem push_conservation_edge :
    ∃ s, Loop.Reaches (pushStep (fromWeightedTriples ["a", "b"] [(0, 1, 1)] true) (1 / 2) (1 / 10))
        (initState _ (1 / 10) [(0, 1)]) s ∧ s.pushes = 1 ∧
      ∑ v, s.estimate v + ∑ v, s.residual v = 1 := by
  have hstep : (pushStep (fromWeightedTriples ["a", "b"] [(0, 1, 1)] true) (1 / 2) (1 / 10)
      (initState _ (1 / 10) [(0, 1)])).map PushState.pushes = some 1 := by decide +kernel
  obtain ⟨s, hs, hp⟩ := Option.map_eq_some_iff.1 hstep
  have h := push_conservation ["a", "b"] [(0, 1, 1)] true _ rfl (by decide +kernel) (1 / 2)
    (1 / 10) (by norm_num) (by norm_num) (by norm_num) [(0, 1)] (by simp) s (.single hs)
  exact ⟨s, .single hs, hp, h.2.2.2.trans (by decide +kernel)⟩

/-- **Termination and work bound** of the push on a built graph. -/
theorem push_terminates (g : CodeGraph) (hg : g = fromWeightedTriples nodeIds triples symmetrize)
    (hfit : g.nnz < 2 ^ 31) (alpha eps : ℚ) (hα : 0 < alpha) (hα1 : alpha ≤ 1) (heps : 0 < eps)
    (seed : List (ℤ × ℚ)) (hseed : ∀ e ∈ seed, 0 ≤ e.2) :
    ∃ fuel₀, ∀ fuel ≥ fuel₀, ∃ s,
      Loop.run (pushStep g alpha eps) fuel (initState g eps seed) = some s ∧
      s.work ≤ totalSeed g seed / (alpha * eps) ∧
      ∀ u, s.residual u < eps * g.degreeOf u := by
  have hwf : g.WellFormed := by
    subst hg; exact wellFormed_fromWeightedTriples nodeIds triples symmetrize hfit
  obtain ⟨fuel₀, hfuel⟩ := exists_pushRun hwf hα hα1 heps hseed
  refine ⟨fuel₀, fun fuel hf => ?_⟩
  obtain ⟨s, hrun⟩ := hfuel fuel hf
  obtain ⟨hreach, hexit⟩ := Loop.run_eq_some hrun
  have hinv := PushInv.of_reaches hwf hα hα1 heps hseed hreach
  exact ⟨s, hrun, hinv.work_bound hα heps, hinv.exit hexit⟩

/-- The push from one end of an edge does at most `20` work. -/
theorem push_terminates_edge :
    ∃ fuel₀, ∀ fuel ≥ fuel₀, ∃ s,
      Loop.run (pushStep (fromWeightedTriples ["a", "b"] [(0, 1, 1)] true) (1 / 2) (1 / 10)) fuel
        (initState _ (1 / 10) [(0, 1)]) = some s ∧ s.work ≤ 20 := by
  obtain ⟨fuel₀, h⟩ := push_terminates ["a", "b"] [(0, 1, 1)] true _ rfl (by decide +kernel)
    (1 / 2) (1 / 10) (by norm_num) (by norm_num) (by norm_num) [(0, 1)] (by simp)
  have hbound : totalSeed (fromWeightedTriples ["a", "b"] [(0, 1, 1)] true) [(0, 1)] /
      (1 / 2 * (1 / 10)) = 20 := by decide +kernel
  refine ⟨fuel₀, fun fuel hf => ?_⟩
  obtain ⟨s, hrun, hwork, -⟩ := h fuel hf
  exact ⟨s, hrun, hwork.trans hbound.le⟩

end

/-! ## The returned vectors -/

theorem mem_nonzero {n : ℕ} {x : Fin n → ℚ} {e : ℕ × ℚ} :
    e ∈ nonzero x ↔ ∃ u : Fin n, x u ≠ 0 ∧ e = (u.1, x u) := by
  simp only [nonzero, List.mem_filterMap, List.mem_finRange, true_and]
  refine exists_congr fun u => ?_
  by_cases hu : x u = 0
  · simp [hu]
  · simp [hu, eq_comm]

theorem nodup_nonzero {n : ℕ} (x : Fin n → ℚ) : ((nonzero x).map Prod.fst).Nodup := by
  have hsub : ∀ l : List (Fin n), (((l.filterMap fun u =>
      if x u ≠ 0 then some (u.1, x u) else none).map Prod.fst).Sublist (l.map Fin.val)) := by
    intro l
    induction l with
    | nil => exact .slnil
    | cons u l ih =>
      by_cases hu : x u = 0
      · rw [List.filterMap_cons_none (by simp [hu])]
        exact ih.cons _
      · rw [List.filterMap_cons_some (b := (u.1, x u)) (by simp [hu])]
        exact ih.cons_cons _
  exact (hsub (List.finRange n)).nodup ((List.nodup_finRange n).map Fin.val_injective)

theorem sum_nonzero {n : ℕ} (x : Fin n → ℚ) : ((nonzero x).map Prod.snd).sum = ∑ v, x v := by
  rw [Fin.sum_univ_def, nonzero]
  induction List.finRange n with
  | nil => rfl
  | cons u us ih =>
    by_cases hu : x u = 0
    · rw [List.filterMap_cons_none (by simp [hu]), ih]; simp [hu]
    · rw [List.filterMap_cons_some (b := (u.1, x u)) (by simp [hu]), List.map_cons, List.sum_cons, ih,
        List.map_cons, List.sum_cons]

/-- The function returns within some number of iterations, and what it returns
    adds up to the seed mass. -/
theorem approximatePprPush_mass {g : CodeGraph} (hg : g.WellFormed) {alpha eps : ℚ}
    (hα : 0 < alpha) (hα1 : alpha ≤ 1) (heps : 0 < eps) {seed : List (ℤ × ℚ)}
    (hseed : ∀ e ∈ seed, 0 ≤ e.2) {fuel : ℕ} {r : PushResult}
    (h : approximatePprPush g alpha eps fuel seed = .ok (some r)) :
    (r.estimate.map Prod.snd).sum + (r.residual.map Prod.snd).sum = totalSeed g seed := by
  rw [approximatePprPush, if_neg (not_not.2 ⟨hα, hα1⟩), if_neg heps.not_ge] at h
  obtain ⟨s, hrun, rfl⟩ := Option.map_eq_some_iff.1 (Except.ok.inj h)
  have hinv := PushInv.of_reaches hg hα hα1 heps hseed (Loop.run_eq_some hrun).1
  rw [sum_nonzero, sum_nonzero, hinv.mass hα]

end Cognis
