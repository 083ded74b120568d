/-
  The bottleneck chain of `analyze_workspace_complexity` (`complexity.rs` of
  `cognis-indexer`): the dominant callee that the propagation records for a symbol, and the
  chain along the dominant callees.

  * `dominantCallee_eq`: the record of a symbol, from its component, its own body and the
    costs of its calls outside the component;
  * `dominantCallee_worst_iff`: when it is a worst one.
-/
import Cognis.Indexer.Costs

namespace Cognis

open Champion

namespace Workspace

variable {ws : Workspace}

/-! ## The chain -/

/-- The recorded dominant callee: the symbol, the loop depth and the line of the call. -/
def dominantCallee (ws : Workspace) (u : ℕ) : Option (ℕ × UInt8 × UInt32) :=
  (ws.propagate ws.sccs).dominantCallee u

/-- The `while let` loop over `dominant_callee`: at most `room` steps more, none to a
    symbol that has been visited. -/
def chainFrom (ws : Workspace) : ℕ → List ℕ → ℕ → List (ℕ × UInt8 × UInt32)
  | 0, _, _ => []
  | room + 1, visited, curr =>
    match ws.dominantCallee curr with
    | none => []
    | some (v, depth, line) =>
      if v ∈ visited then [] else (v, depth, line) :: chainFrom ws room (v :: visited) v

/-- The steps of the bottleneck chain of `u` after the first, which is `u` itself. -/
def bottleneckChain (ws : Workspace) (u : ℕ) : List (ℕ × UInt8 × UInt32) :=
  ws.chainFrom 5 [u] u

/-- **The chain follows the records**: every step is the dominant callee of the one before. -/
theorem isChain_chainFrom (room : ℕ) (visited : List ℕ) (start : ℕ × UInt8 × UInt32) :
    (start :: ws.chainFrom room visited start.1).IsChain fun a b =>
      ws.dominantCallee a.1 = some b := by
  induction room generalizing visited start with
  | zero => exact .singleton _
  | succ room ih =>
    rw [chainFrom]
    cases h : ws.dominantCallee start.1 with
    | none => exact .singleton _
    | some next =>
      obtain ⟨v, depth, line⟩ := next
      dsimp only
      split_ifs
      · exact .singleton _
      · exact .cons_cons h (ih (v :: visited) (v, depth, line))

theorem isChain_bottleneckChain (ws : Workspace) (u : ℕ) (depth : UInt8) (line : UInt32) :
    ((u, depth, line) :: ws.bottleneckChain u).IsChain fun a b => ws.dominantCallee a.1 = some b :=
  isChain_chainFrom 5 [u] (u, depth, line)

/-! ## The record of a symbol -/

/-- The key of a call: the degree of its induced cost. -/
def inducedCode (costs : ℕ → ComplexityClass × ComplexityClass) (call : ℕ × CallEdgeMeta) : ℕ :=
  (inducedCosts costs call).1.degreeCode

/-- What is recorded of a call. -/
def recordOf (call : ℕ × CallEdgeMeta) : ℕ × UInt8 × UInt32 :=
  (call.1, call.2.loopDepth, call.2.callLine)

theorem liftIo_dominantCallee (u : ℕ) (call : ℕ × CallEdgeMeta) (p : Propagation) :
    (ws.liftIo u call p).dominantCallee = p.dominantCallee := by
  unfold liftIo
  simp only
  split <;> split_ifs <;> rfl

theorem two_le_effectiveDegree_iff (c : ComplexityClass) :
    2 ≤ c.effectiveDegree ↔ 40 ≤ c.degreeCode := by
  have h := ComplexityClass.effectiveDegree_le_iff (.polynomial 2 0) c
  have htwo : (ComplexityClass.polynomial 2 0).effectiveDegree = 2 := by decide +kernel
  rw [htwo] at h
  exact h

/-- A call outside the component is noted by its induced cost. -/
theorem calleeStep_dominantCallee (ws : Workspace) (scc : List ℕ) (u : ℕ) (b : Best)
    (call : ℕ × CallEdgeMeta) :
    (∀ w, w ≠ u →
      (ws.calleeStep scc u b call).tables.dominantCallee w = b.tables.dominantCallee w) ∧
    ∀ mark : Option (ℕ × CallEdgeMeta), b.tables.dominantCallee u = mark.map recordOf →
      ((ws.calleeStep scc u b call).time.degreeCode,
          (ws.calleeStep scc u b call).tables.dominantCallee u) =
        if call.1 ∈ scc then (b.time.degreeCode, mark.map recordOf)
        else (note (inducedCode b.tables.costs) 40 (b.time.degreeCode, mark) call).map id
          (Option.map recordOf) := by
  have hcode : inducedCode b.tables.costs call = (inducedTime b.tables call).degreeCode := rfl
  unfold calleeStep
  by_cases hscc : call.1 ∈ scc
  · simp only [if_pos hscc]
    exact ⟨fun _ _ => trivial, fun mark hmark => by rw [hmark]⟩
  simp only [if_neg hscc, liftIo_dominantCallee]
  by_cases htake : b.time.effectiveDegree < (inducedTime b.tables call).effectiveDegree ∨
      2 ≤ (inducedTime b.tables call).effectiveDegree ∧ b.tables.dominantCallee u = none
  · rw [if_pos htake]
    refine ⟨fun w hw => Function.update_of_ne hw _ _, fun mark hmark => ?_⟩
    rw [hmark, Option.map_eq_none_iff, ComplexityClass.effectiveDegree_lt_iff,
      two_le_effectiveDegree_iff] at htake
    rw [note, hcode, if_pos htake]
    simp [recordOf]
  · rw [if_neg htake]
    refine ⟨fun w _ => rfl, fun mark hmark => ?_⟩
    rw [hmark, Option.map_eq_none_iff, ComplexityClass.effectiveDegree_lt_iff,
      two_le_effectiveDegree_iff] at htake
    rw [note, hcode, if_neg htake]
    simp [hmark]

/-- The calls of a member are noted in their order. -/
theorem foldl_calleeStep_dominantCallee (ws : Workspace) (scc : List ℕ) (u : ℕ) (calls : List (ℕ × CallEdgeMeta))
    (b : Best) :
    (∀ w, w ≠ u →
      (calls.foldl (ws.calleeStep scc u) b).tables.dominantCallee w = b.tables.dominantCallee w) ∧
    ∀ mark : Option (ℕ × CallEdgeMeta), b.tables.dominantCallee u = mark.map recordOf →
      (calls.foldl (ws.calleeStep scc u) b).tables.dominantCallee u =
        ((calls.filter fun call => call.1 ∉ scc).foldl (note (inducedCode b.tables.costs) 40)
          (b.time.degreeCode, mark)).2.map recordOf := by
  induction calls generalizing b with
  | nil => exact ⟨fun _ _ => rfl, fun mark hmark => hmark⟩
  | cons call calls ih =>
    obtain ⟨hother, hmark⟩ := calleeStep_dominantCallee ws scc u b call
    obtain ⟨ihother, ihmark⟩ := ih (ws.calleeStep scc u b call)
    rw [List.foldl_cons]
    refine ⟨fun w hw => (ihother w hw).trans (hother w hw), fun mark hm => ?_⟩
    have hstep := hmark mark hm
    by_cases hscc : call.1 ∈ scc
    · rw [if_pos hscc, Prod.mk.injEq] at hstep
      rw [List.filter_cons_of_neg (by simpa using hscc), ihmark mark hstep.2, hstep.1,
        calleeStep_costs]
    · rw [if_neg hscc, Prod.ext_iff] at hstep
      rw [List.filter_cons_of_pos (by simpa using hscc), List.foldl_cons, ihmark _ hstep.2,
        calleeStep_costs]
      congr 3
      exact Prod.ext hstep.1 rfl

/-- The record of member `u` of a component, from the costs when it is solved. -/
def recordFrom (ws : Workspace) (scc : List ℕ) (costs : ℕ → ComplexityClass × ComplexityClass)
    (u : ℕ) : Option (ℕ × CallEdgeMeta) :=
  ((ws.outsideCalls scc u).foldl (note (inducedCode costs) 40)
    ((seqMaxBoth (costs u) (ws.localCosts u)).1.degreeCode, none)).2

/-- One member records for itself only. -/
theorem memberStep_dominantCallee (ws : Workspace) (scc : List ℕ) (p : Propagation) (u : ℕ) :
    (∀ w, w ≠ u → (ws.memberStep scc p u).dominantCallee w = p.dominantCallee w) ∧
      (p.dominantCallee u = none →
        (ws.memberStep scc p u).dominantCallee u = (ws.recordFrom scc p.costs u).map recordOf) := by
  -- the member's own I/O effect touches neither the costs nor the records
  obtain ⟨q, hcosts, hrecords, hstep⟩ : ∃ q : Propagation, q.costs = p.costs ∧
      q.dominantCallee = p.dominantCallee ∧ (ws.memberStep scc p u).dominantCallee =
        ((ws.calls u).foldl (ws.calleeStep scc u)
          ⟨(seqMaxBoth (q.costs u) (ws.localCosts u)).1,
            (seqMaxBoth (q.costs u) (ws.localCosts u)).2, q⟩).tables.dominantCallee := by
    unfold memberStep
    refine ⟨_, ?_, ?_, rfl⟩ <;> cases (ws.ast u).ioEffects.head? <;> rfl
  obtain ⟨hother, hmark⟩ := foldl_calleeStep_dominantCallee ws scc u (ws.calls u)
    ⟨(seqMaxBoth (q.costs u) (ws.localCosts u)).1, (seqMaxBoth (q.costs u) (ws.localCosts u)).2, q⟩
  rw [hstep]
  refine ⟨fun w hw => (hother w hw).trans (congrFun hrecords w), fun hnone => ?_⟩
  rw [hmark none (by rw [hrecords, hnone]; rfl), hcosts]
  rfl

theorem recordFrom_congr {scc : List ℕ} {T T' : ℕ → ComplexityClass × ComplexityClass} {u : ℕ}
    (hu : T u = T' u) (hout : ∀ w, w ∉ scc → T w = T' w) :
    ws.recordFrom scc T u = ws.recordFrom scc T' u := by
  unfold recordFrom
  rw [hu]
  congr 1
  refine List.foldl_ext _ _ _ fun s call hcall => ?_
  unfold note inducedCode inducedCosts
  rw [hout call.1 (by simpa using (List.mem_filter.1 hcall).2)]

theorem foldl_memberStep_other (scc members : List ℕ) (p : Propagation) {w : ℕ} (hw : w ∉ members) :
    (members.foldl (ws.memberStep scc) p).dominantCallee w = p.dominantCallee w := by
  induction members generalizing p with
  | nil => rfl
  | cons u members ih =>
    rw [List.mem_cons, not_or] at hw
    rw [List.foldl_cons, ih _ hw.2]
    exact (memberStep_dominantCallee ws scc p u).1 w hw.1

/-- The members of a component record what their calls say. -/
theorem foldl_memberStep_dominantCallee {scc members : List ℕ} (hnodup : members.Nodup)
    (hsub : members ⊆ scc) (p : Propagation) {u : ℕ} (hu : u ∈ members)
    (hnone : p.dominantCallee u = none) :
    (members.foldl (ws.memberStep scc) p).dominantCallee u =
      (ws.recordFrom scc p.costs u).map recordOf := by
  induction members generalizing p with
  | nil => cases hu
  | cons v members ih =>
    rw [List.nodup_cons] at hnodup
    rw [List.cons_subset] at hsub
    obtain ⟨hother, hself⟩ := memberStep_dominantCallee ws scc p v
    rw [List.foldl_cons]
    by_cases huv : u = v
    · subst huv
      rw [foldl_memberStep_other scc members _ hnodup.1, hself hnone]
    · have hmem : u ∈ members := (List.mem_cons.1 hu).resolve_left huv
      rw [ih hnodup.2 hsub.2 _ hmem ((hother u huv).trans hnone), memberStep_costs]
      congr 1
      refine recordFrom_congr (Function.update_of_ne huv _ _) fun w hw => ?_
      refine Function.update_of_ne ?_ _ _
      rintro rfl
      exact hw hsub.1

theorem solveScc_dominantCallee (scc : List ℕ) (p : Propagation) :
    (ws.solveScc scc p).dominantCallee = p.dominantCallee := by
  unfold solveScc
  split_ifs <;> rfl

/-- Components leave the records of other symbols alone. -/
theorem foldl_sccStep_dominantCallee {rest : List (List ℕ)} (p : Propagation) {w : ℕ}
    (hw : w ∉ rest.flatten) :
    (rest.foldl ws.sccStep p).dominantCallee w = p.dominantCallee w := by
  induction rest generalizing p with
  | nil => rfl
  | cons scc rest ih =>
    rw [List.flatten_cons, List.mem_append, not_or] at hw
    rw [List.foldl_cons, ih _ hw.2, sccStep, foldl_memberStep_other scc scc _ hw.1,
      solveScc_dominantCallee]

section
variable {done rest : List (List ℕ)} {scc : List ℕ} (h : ws.sccs = done ++ scc :: rest)
include h

/-- **The record of a symbol** is what its calls say at their final costs. -/
theorem dominantCallee_eq {u : ℕ} (hu : u ∈ scc) : ws.dominantCallee u =
    ((ws.outsideCalls scc u).foldl (note (inducedCode ws.costs) 40)
      (((ws.baseCosts scc).1.seqMax (ws.localCosts u).1).degreeCode, none)).2.map recordOf := by
  have hnodup := (sccs_condensed ws).nodup
  rw [h, List.flatten_append, List.flatten_cons] at hnodup
  have htail := List.nodup_append.1 hnodup
  have hscc := List.nodup_append.1 htail.2.1
  have hnone : (ws.propagate done).dominantCallee u = none :=
    foldl_sccStep_dominantCallee _ fun hmem =>
      htail.2.2 u hmem u (List.mem_append_left _ hu) rfl
  rw [dominantCallee, propagate, h, List.foldl_append, List.foldl_cons,
    foldl_sccStep_dominantCallee _ fun hmem => hscc.2.2 u hu u hmem rfl, sccStep,
    foldl_memberStep_dominantCallee hscc.1 (List.Subset.refl scc) _ hu
      (by rw [solveScc_dominantCallee]; exact hnone)]
  congr 1
  unfold recordFrom
  rw [← propagate, solveScc_costs_of_mem h hu]
  congr 1
  refine List.foldl_ext _ _ _ fun s call hcall => ?_
  obtain ⟨hout, hdone⟩ := done_of_outside h hu hcall
  have hcosts : (ws.solveScc scc (ws.propagate done)).costs call.1 = ws.costs call.1 := by
    rw [solveScc_costs, if_neg fun hc => hout hc.1, costs_of_done h hdone]
  unfold note inducedCode inducedCosts
  rw [hcosts]

end

/-! ## The worst callee -/

/-- The component of `u`. -/
def componentOf (ws : Workspace) (u : ℕ) : List ℕ := (ws.sccs.find? (u ∈ ·)).getD []

/-- The calls of `u` that leave its component. -/
def outerCalls (ws : Workspace) (u : ℕ) : List (ℕ × CallEdgeMeta) :=
  ws.outsideCalls (ws.componentOf u) u

/-- The cost that a call of depth `depth` to `v` induces on its caller. -/
def inducedBy (ws : Workspace) (v : ℕ) (depth : UInt8) : ComplexityClass :=
  (ComplexityClass.ofDegree depth).nestMul (ws.propagatedTime v)

/-- What `u` costs before its calls: the class of its component and its own body. -/
def ownTime (ws : Workspace) (u : ℕ) : ComplexityClass :=
  (ws.baseCosts (ws.componentOf u)).1.seqMax (ws.localCosts u).1

/-- The recorded callee of `u` is a worst one of those outside its component. -/
def RecordsWorst (ws : Workspace) (u : ℕ) : Prop :=
  ∀ v depth line, ws.dominantCallee u = some (v, depth, line) → ∀ call ∈ ws.outerCalls u,
    (ws.inducedBy call.1 call.2.loopDepth).effectiveDegree ≤
      (ws.inducedBy v depth).effectiveDegree

/-- A callee costs more than `u` itself, or the first one that is quadratic is a worst one. -/
def WorstFirst (ws : Workspace) (u : ℕ) : Prop :=
  (∃ call ∈ ws.outerCalls u, (ws.ownTime u).effectiveDegree <
    (ws.inducedBy call.1 call.2.loopDepth).effectiveDegree) ∨
  ∀ first, (ws.outerCalls u).find? (fun call =>
      2 ≤ (ws.inducedBy call.1 call.2.loopDepth).effectiveDegree) = some first →
    ∀ call ∈ ws.outerCalls u, (ws.inducedBy call.1 call.2.loopDepth).effectiveDegree ≤
      (ws.inducedBy first.1 first.2.loopDepth).effectiveDegree

theorem componentOf_spec {u : ℕ} (hu : u < ws.symbols.length) :
    u ∈ ws.componentOf u ∧ ∃ done rest, ws.sccs = done ++ ws.componentOf u :: rest := by
  obtain ⟨scc, hscc, hmem⟩ := List.mem_flatten.1 (mem_sccs.2 hu)
  obtain ⟨found, hfound⟩ := Option.isSome_iff_exists.1
    (List.find?_isSome.2 ⟨scc, hscc, by simpa using hmem⟩ : (ws.sccs.find? (u ∈ ·)).isSome)
  have hcomponent : ws.componentOf u = found := by
    rw [componentOf, hfound]
    rfl
  rw [hcomponent]
  exact ⟨by simpa using List.find?_some hfound,
    List.append_of_mem (List.mem_of_find?_eq_some hfound)⟩

/-- A node that is no symbol has no calls and no record. -/
theorem outerCalls_of_ge {u : ℕ} (hu : ¬ u < ws.symbols.length) :
    ws.outerCalls u = [] ∧ ws.dominantCallee u = none := by
  refine ⟨List.eq_nil_iff_forall_not_mem.2 fun call hcall => hu ?_, ?_⟩
  · rcases callsEdge_of_arc ⟨call, (List.mem_filter.1 hcall).1, rfl⟩ with
      ⟨edge, -, -, -, hsrc, -⟩ | ⟨-, hlt⟩
    · exact idToIdx_lt hsrc
    · exact hlt
  · exact foldl_sccStep_dominantCallee .init fun hmem => hu (mem_sccs.1 hmem)

/-- **The recorded callee is a worst one** exactly when a callee costs more than the symbol
    itself, or the first quadratic callee is a worst one. -/
theorem dominantCallee_worst_iff (ws : Workspace) (u : ℕ) : ws.RecordsWorst u ↔ ws.WorstFirst u := by
  by_cases hu : u < ws.symbols.length
  · obtain ⟨hmem, done, rest, h⟩ := componentOf_spec hu
    have hrecord : ws.RecordsWorst u ↔ ∀ call,
        ((ws.outerCalls u).foldl (note (inducedCode ws.costs) 40)
          ((ws.ownTime u).degreeCode, none)).2 = some call →
        ∀ call' ∈ ws.outerCalls u, inducedCode ws.costs call' ≤ inducedCode ws.costs call := by
      simp only [RecordsWorst, dominantCallee_eq h hmem, Option.map_eq_some_iff,
        ComplexityClass.effectiveDegree_le_iff]
      constructor
      · intro hworst call hcall
        exact hworst _ _ _ ⟨call, hcall, rfl⟩
      · rintro hworst _ _ _ ⟨call, hcall, hrec⟩
        cases hrec
        exact hworst call hcall
    rw [hrecord, noted_best_iff]
    simp only [WorstFirst, ComplexityClass.effectiveDegree_le_iff,
      ComplexityClass.effectiveDegree_lt_iff, two_le_effectiveDegree_iff]
    rfl
  · obtain ⟨hcalls, hnone⟩ := outerCalls_of_ge hu
    simp [RecordsWorst, WorstFirst, hcalls, hnone]

/-- The failing workspace: `main` has three nested loops, and calls `scan`, which has two, and
    then `join`, which has three. -/
def hotMain : Workspace where
  symbols := [sym "main" "def main(n):\n    scan(n)\n    join(n)\n",
    sym "scan" "def scan(n):\n    pass\n", sym "join" "def join(n):\n    pass\n"]
  edges := [⟨"main", "scan", .calls, 1, []⟩, ⟨"main", "join", .calls, 1, []⟩]
  sourceOverrides _ := none
  walk sym _ :=
    if sym.name = "scan" then ⟨.polynomial 2 0, .constant, [], [], false, false⟩
    else ⟨.polynomial 3 0, .constant, [], [], false, false⟩
where
  sym (name body : String) : Symbol :=
    { id := name, kind := .function, name := name, qualifiedName := name, language := "python",
      module := "m", filePath := "m.py", lineStart := 1, lineEnd := 3, contentHash := name,
      bodyExcerpt := some body }

/-- `scan` is recorded, though `join` costs more. -/
theorem not_dominantCallee_worst : ¬ ∀ (ws : Workspace) (u : ℕ), ws.RecordsWorst u := by
  intro h
  have hrecord : hotMain.dominantCallee 0 = some (1, 0, 1) := by decide +kernel
  have hle := h hotMain 0 1 0 1 hrecord (2, ⟨0, 1, 1, .none⟩) (by decide +kernel)
  rw [ComplexityClass.effectiveDegree_le_iff] at hle
  exact absurd hle (by decide +kernel)

end Workspace

end Cognis
