/-
  Forward push of `cognis-csar` (`push.rs`): approximate personalized PageRank
  over the resident code graph, with a LIFO work list.

  * `pushStep` is one iteration of the work loop, `initState` the state before it;
  * `pushStep_cases`: an iteration drops a node below its threshold or pushes one,
    and a push is the push of the diffusion;
  * `approximatePprPush` is the whole function.
-/
import Cognis.Core.Graph
import Cognis.Lib.Loop

namespace Cognis

open CodeGraph

/-! ## The work loop -/

/-- The variables of the work loop; the head of `active` is the top of the stack. -/
structure PushState (n : ℕ) where
  estimate : Fin n → ℚ
  residual : Fin n → ℚ
  inActive : Fin n → Bool
  active : List (Fin n)
  work : ℚ
  pushes : ℕ

section
variable (g : CodeGraph) (alpha eps : ℚ)

/-- One seed entry: zero masses and nodes out of range are skipped. -/
def addSeed (residual : Fin g.n → ℚ) (e : ℤ × ℚ) : Fin g.n → ℚ :=
  match g.node? e.1 with
  | none => residual
  | some u => if e.2 ≠ 0 then Function.update residual u (residual u + e.2) else residual

/-- The seeded residual; duplicates accumulate. -/
def seedResidual (seed : List (ℤ × ℚ)) : Fin g.n → ℚ := seed.foldl (addSeed g) fun _ => 0

/-- A seed node at its threshold goes on the work list, once. -/
def stackSeed (s : PushState g.n) (e : ℤ × ℚ) : PushState g.n :=
  match g.node? e.1 with
  | none => s
  | some u =>
    if !s.inActive u ∧ eps * g.degreeOf u ≤ s.residual u then
      { s with active := u :: s.active, inActive := Function.update s.inActive u true }
    else s

/-- The state before the loop: the work list is filled in seed order. -/
def initState (seed : List (ℤ × ℚ)) : PushState g.n :=
  seed.foldl (stackSeed g eps)
    { estimate := fun _ => 0, residual := seedResidual g seed, inActive := fun _ => false
      active := [], work := 0, pushes := 0 }

/-- The inner loop: one neighbour receives its part of the pushed mass. -/
def pushNeighbor (pushMass d : ℚ) (s : PushState g.n) (e : ℤ × ℚ) : PushState g.n :=
  match g.node? e.1 with
  | none => s
  | some v =>
    let s := { s with residual := Function.update s.residual v (s.residual v + pushMass * e.2 / d) }
    if !s.inActive v ∧ eps * g.degreeOf v ≤ s.residual v then
      { s with active := v :: s.active, inActive := Function.update s.inActive v true }
    else s

/-- One iteration of the work loop; `none` when the work list is empty. -/
def pushStep (s : PushState g.n) : Option (PushState g.n) :=
  match s.active with
  | [] => none
  | u :: active =>
    let s := { s with active, inActive := Function.update s.inActive u false }
    let r := s.residual u
    if r < eps * g.degreeOf u then some s else
      let s := { s with
        estimate := Function.update s.estimate u (s.estimate u + alpha * r)
        residual := Function.update s.residual u 0 }
      let pushMass := (1 - alpha) * r
      let d := g.degreeOf u
      let s := (g.entries u).foldl (pushNeighbor g eps pushMass d) s
      some { s with work := s.work + d, pushes := s.pushes + 1 }

/-- `CognisError::Retrieval`: the message, and the number at its end. -/
structure RetrievalError where
  message : String
  got : ℚ
  deriving DecidableEq, Repr

/-- `PushResult`: the nonzero entries of the vectors, with the work done. -/
structure PushResult where
  estimate : List (ℕ × ℚ)
  residual : List (ℕ × ℚ)
  work : ℚ
  pushes : ℕ

/-- The nonzero entries of a vector. -/
def nonzero {n : ℕ} (x : Fin n → ℚ) : List (ℕ × ℚ) :=
  (List.finRange n).filterMap fun u => if x u ≠ 0 then some (u.1, x u) else none

/-- `approximate_ppr_push`, with at most `fuel` iterations of its loop. -/
def approximatePprPush (fuel : ℕ) (seed : List (ℤ × ℚ)) :
    Except RetrievalError (Option PushResult) :=
  if ¬ (0 < alpha ∧ alpha ≤ 1) then .error ⟨"alpha must be in (0, 1]; got ", alpha⟩
  else if eps ≤ 0 then .error ⟨"eps must be > 0; got ", eps⟩
  else .ok ((Loop.run (pushStep g alpha eps) fuel (initState g eps seed)).map fun s =>
    { estimate := nonzero s.estimate, residual := nonzero s.residual
      work := s.work, pushes := s.pushes })

end

/-! ## The seed -/

/-- The seed vector: the total mass given to each node. -/
def seedMass (g : CodeGraph) (seed : List (ℤ × ℚ)) (v : Fin g.n) : ℚ :=
  (seed.map fun (u, m) => if g.node? u = some v then m else 0).sum

/-- The total seed mass on nodes of the graph. -/
def totalSeed (g : CodeGraph) (seed : List (ℤ × ℚ)) : ℚ :=
  (seed.map fun (u, m) => if (g.node? u).isSome then m else 0).sum

theorem addSeed_apply (g : CodeGraph) (r : Fin g.n → ℚ) (e : ℤ × ℚ) (v : Fin g.n) :
    addSeed g r e v = r v + if g.node? e.1 = some v then e.2 else 0 := by
  simp only [addSeed]
  cases g.node? e.1 with
  | none => simp
  | some w =>
    by_cases hm : e.2 = 0
    · simp [hm]
    · by_cases hv : w = v
      · subst hv; simp [hm]
      · simp [hm, Function.update_of_ne (Ne.symm hv), hv]

theorem seedResidual_eq (g : CodeGraph) (seed : List (ℤ × ℚ)) :
    seedResidual g seed = seedMass g seed := by
  suffices h : ∀ r : Fin g.n → ℚ, seed.foldl (addSeed g) r = fun v => r v + seedMass g seed v by
    rw [seedResidual, h]; simp
  induction seed with
  | nil => intro r; simp [seedMass]
  | cons e seed ih =>
    intro r
    rw [List.foldl_cons, ih]
    funext v
    simp only [addSeed_apply, seedMass, List.map_cons, List.sum_cons]
    ring

theorem sum_seedMass (g : CodeGraph) (seed : List (ℤ × ℚ)) :
    ∑ v, seedMass g seed v = totalSeed g seed := by
  induction seed with
  | nil => simp [seedMass, totalSeed]
  | cons e seed ih =>
    obtain ⟨u, m⟩ := e
    simp only [seedMass, totalSeed, List.map_cons, List.sum_cons, Finset.sum_add_distrib] at ih ⊢
    rw [ih]
    cases hu : g.node? u with
    | none => simp
    | some w => simp

theorem seedMass_nonneg {g : CodeGraph} {seed : List (ℤ × ℚ)} (h : ∀ e ∈ seed, 0 ≤ e.2)
    (v : Fin g.n) : 0 ≤ seedMass g seed v := by
  refine List.sum_nonneg fun x hx => ?_
  obtain ⟨e, he, rfl⟩ := List.mem_map.1 hx
  dsimp only
  split_ifs
  · exact h e he
  · exact le_rfl

/-! ## The work list -/

section
variable {g : CodeGraph} {alpha eps : ℚ}

/-- The stack holds each flagged node once, and every node at its threshold is flagged. -/
structure StackOK (g : CodeGraph) (eps : ℚ) (s : PushState g.n) : Prop where
  nodup : s.active.Nodup
  mem_iff : ∀ u, u ∈ s.active ↔ s.inActive u = true
  flagged : ∀ u, eps * g.degreeOf u ≤ s.residual u → s.inActive u = true

/-- Stacking a node that is not flagged. -/
theorem StackOK.push {s : PushState g.n} (hnodup : s.active.Nodup)
    (hmem : ∀ u, u ∈ s.active ↔ s.inActive u = true) {v : Fin g.n} (hv : s.inActive v = false)
    (hover : ∀ u, u ≠ v → eps * g.degreeOf u ≤ s.residual u → s.inActive u = true) :
    StackOK g eps { s with active := v :: s.active, inActive := Function.update s.inActive v true } where
  nodup := List.nodup_cons.2 ⟨fun h => absurd ((hmem v).1 h) (by simp [hv]), hnodup⟩
  mem_iff u := by
    by_cases hu : u = v
    · subst hu; simp
    · simp [hu, hmem u]
  flagged u hu := by
    by_cases huv : u = v
    · subst huv; simp
    · simpa [Function.update_of_ne huv] using hover u huv hu

theorem StackOK.pushNeighbor {pushMass d : ℚ} {s : PushState g.n} (h : StackOK g eps s)
    (e : ℤ × ℚ) : StackOK g eps (pushNeighbor g eps pushMass d s e) := by
  simp only [Cognis.pushNeighbor]
  cases g.node? e.1 with
  | none => exact h
  | some v =>
    have hover : ∀ u, u ≠ v → eps * g.degreeOf u ≤
        Function.update s.residual v (s.residual v + pushMass * e.2 / d) u →
        s.inActive u = true := by
      intro u hu
      rw [Function.update_of_ne hu]
      exact h.flagged u
    dsimp only
    split_ifs with hact
    · simp only [Bool.not_eq_true'] at hact
      exact StackOK.push (s := { s with residual := Function.update s.residual v _ })
        h.nodup h.mem_iff hact.1 hover
    · refine ⟨h.nodup, h.mem_iff, fun u hu => ?_⟩
      by_cases huv : u = v
      · subst huv
        by_contra hflag
        exact hact ⟨by simpa using hflag, hu⟩
      · exact hover u huv hu

/-- The inner loop sends `pushMass` along the row and keeps the work list in order. -/
theorem foldl_pushNeighbor (eps pushMass d : ℚ) (l : List (ℤ × ℚ)) (s : PushState g.n) :
    let t := l.foldl (pushNeighbor g eps pushMass d) s
    (t.estimate = s.estimate ∧ t.work = s.work ∧ t.pushes = s.pushes) ∧
      (∀ v, t.residual v = s.residual v +
        pushMass * (l.map fun e => if g.node? e.1 = some v then e.2 else 0).sum / d) ∧
      (StackOK g eps s → StackOK g eps t) := by
  induction l generalizing s with
  | nil => simp
  | cons e l ih =>
    obtain ⟨⟨he, hw, hp⟩, hr, hs⟩ := ih (pushNeighbor g eps pushMass d s e)
    have hstep : (pushNeighbor g eps pushMass d s e).estimate = s.estimate ∧
        (pushNeighbor g eps pushMass d s e).work = s.work ∧
        (pushNeighbor g eps pushMass d s e).pushes = s.pushes ∧
        ∀ v, (pushNeighbor g eps pushMass d s e).residual v =
          s.residual v + pushMass * (if g.node? e.1 = some v then e.2 else 0) / d := by
      simp only [pushNeighbor]
      cases g.node? e.1 with
      | none => simp
      | some w =>
        have hres : ∀ v, Function.update s.residual w (s.residual w + pushMass * e.2 / d) v =
            s.residual v + pushMass * (if some w = some v then e.2 else 0) / d := by
          intro v
          by_cases hv : w = v
          · subst hv; simp
          · simp [Function.update_of_ne (Ne.symm hv), hv]
        dsimp only
        split_ifs <;> exact ⟨rfl, rfl, rfl, hres⟩
    refine ⟨⟨he.trans hstep.1, hw.trans hstep.2.1, hp.trans hstep.2.2.1⟩, fun v => ?_,
      fun h => hs (h.pushNeighbor e)⟩
    rw [List.foldl_cons, hr, hstep.2.2.2, List.map_cons, List.sum_cons]
    ring

/-- Popping a node that is below its threshold. -/
theorem StackOK.pop {s : PushState g.n} {u : Fin g.n} {active : List (Fin g.n)}
    (h : StackOK g eps s) (hs : s.active = u :: active) (residual : Fin g.n → ℚ)
    (hu : residual u < eps * g.degreeOf u) (hres : ∀ v, v ≠ u → residual v = s.residual v)
    (estimate : Fin g.n → ℚ) : StackOK g eps { s with
      active, inActive := Function.update s.inActive u false, residual, estimate } := by
  have hnodup := h.nodup
  rw [hs, List.nodup_cons] at hnodup
  refine ⟨hnodup.2, fun v => ?_, fun v hv => ?_⟩
  · by_cases hvu : v = u
    · subst hvu; simp [hnodup.1]
    · have := h.mem_iff v
      rw [hs, List.mem_cons] at this
      simpa [Function.update_of_ne hvu, hvu] using this
  · dsimp only at hv ⊢
    by_cases hvu : v = u
    · subst hvu; exact absurd hv hu.not_ge
    · rw [Function.update_of_ne hvu]
      exact h.flagged v (hres v hvu ▸ hv)

/-- What one iteration does: it drops a node below its threshold, or it is a
    push of the diffusion. -/
theorem pushStep_cases (hg : g.WellFormed) {s t : PushState g.n}
    (h : pushStep g alpha eps s = some t) :
    ∃ u active, s.active = u :: active ∧
      ((t.estimate = s.estimate ∧ t.residual = s.residual ∧ t.work = s.work ∧
          t.pushes = s.pushes ∧ t.active = active) ∨
        (eps * g.degreeOf u ≤ s.residual u ∧
          t.estimate = pushScore alpha u s.estimate s.residual ∧
          t.residual = hg.kernel.pushResidual alpha u s.residual ∧
          t.work = s.work + g.degreeOf u ∧ t.pushes = s.pushes + 1)) := by
  simp only [pushStep] at h
  cases hact : s.active with
  | nil => rw [hact] at h; cases h
  | cons u active =>
    refine ⟨u, active, rfl, ?_⟩
    rw [hact] at h
    dsimp only at h
    split_ifs at h with hlow
    · cases h; exact .inl ⟨rfl, rfl, rfl, rfl, rfl⟩
    · cases h
      obtain ⟨⟨he, hw, hp⟩, hr, -⟩ := foldl_pushNeighbor eps
        ((1 - alpha) * s.residual u) (g.degreeOf u) (g.entries u)
        { s with
          active, inActive := Function.update s.inActive u false
          estimate := Function.update s.estimate u (s.estimate u + alpha * s.residual u)
          residual := Function.update s.residual u 0 }
      refine .inr ⟨not_lt.1 hlow, he, funext fun v => (hr v).trans ?_, by rw [hw], by rw [hp]⟩
      simp only [Kernel.pushResidual, WellFormed.kernel, weight, mul_div_assoc]

theorem StackOK.step (hg : g.WellFormed) (heps : 0 < eps) {s t : PushState g.n}
    (hs : StackOK g eps s) (h : pushStep g alpha eps s = some t) : StackOK g eps t := by
  simp only [pushStep] at h
  cases hact : s.active with
  | nil => rw [hact] at h; cases h
  | cons u active =>
    rw [hact] at h
    dsimp only at h
    split_ifs at h with hlow
    · cases h
      exact hs.pop hact s.residual hlow (fun _ _ => rfl) s.estimate
    · cases h
      obtain ⟨-, -, hkeep⟩ := foldl_pushNeighbor eps
        ((1 - alpha) * s.residual u) (g.degreeOf u) (g.entries u)
        { s with
          active, inActive := Function.update s.inActive u false
          estimate := Function.update s.estimate u (s.estimate u + alpha * s.residual u)
          residual := Function.update s.residual u 0 }
      have hok := hkeep (hs.pop hact _ (by simpa using mul_pos heps (hg.degree_pos u))
        (fun v hv => Function.update_of_ne hv _ _) _)
      exact ⟨hok.nodup, hok.mem_iff, hok.flagged⟩

end

end Cognis
