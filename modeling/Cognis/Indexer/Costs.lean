/-
  The costs `analyze_workspace_complexity` computes, as equations.

  * `CallsEdge` are the calls between symbols, `calls_lt` and `sccs_condensed` what the
    call graph and its components are;
  * `recurrence_eq`: what the loop over a recursive component collects, field by field;
  * `costs_eq`: the time and the space of a symbol, from its component, its own body and
    the costs of its callees outside the component.
-/
import Cognis.Indexer.Propagation
import Cognis.Lib.Champion

namespace Cognis

open Champion Relation

theorem ComplexityClass.seqMax_eq_pick : seqMax = pick degreeCode := by
  funext a b
  rw [seqMax_eq, pick]

/-- Whether the arguments change. -/
def ArgReduction.present : ArgReduction → ℕ
  | .none => 0
  | .decrement | .halving => 1

namespace Workspace

variable {ws : Workspace}

/-! ## The edges of the call graph -/

/-- A resolved `Calls` edge from symbol `u` to symbol `v`. -/
def CallsEdge (ws : Workspace) (u v : ℕ) : Prop :=
  ∃ edge ∈ ws.edges, edge.kind = .calls ∧ edge.dstMissing = false ∧
    ws.idToIdx edge.srcId = some u ∧ ws.idToIdx edge.dstId = some v

theorem idToIdx_lt {id : String} {v : ℕ} (h : ws.idToIdx id = some v) : v < ws.symbols.length := by
  rw [idToIdx, Option.map_eq_some_iff] at h
  obtain ⟨⟨sym, i⟩, hfind, rfl⟩ := h
  have hmem := List.mem_reverse.1 (List.mem_of_find?_eq_some hfind)
  exact (List.mem_zipIdx' hmem).1

theorem callEdge_eq_some {edge : Edge} {u v : ℕ} {m : CallEdgeMeta}
    (h : ws.callEdge edge = some (u, v, m)) :
    edge.kind = .calls ∧ edge.dstMissing = false ∧ ws.idToIdx edge.srcId = some u ∧
      ws.idToIdx edge.dstId = some v := by
  unfold callEdge at h
  split_ifs at h with hkind
  rw [not_or, not_not, Bool.not_eq_true] at hkind
  cases hu : ws.idToIdx edge.srcId with
  | none => rw [hu] at h; cases h
  | some u' =>
    cases hv : ws.idToIdx edge.dstId with
    | none => rw [hu, hv] at h; cases h
    | some v' =>
      rw [hu, hv] at h
      simp only at h
      split at h <;> cases h <;> exact ⟨hkind.1, hkind.2, rfl, rfl⟩

theorem arc_of_callsEdge {u v : ℕ} (h : ws.CallsEdge u v) : Arc ws.calls u v := by
  obtain ⟨edge, hedge, hkind, hmiss, hu, hv⟩ := h
  have hcall : ∃ m, ws.callEdge edge = some (u, v, m) := by
    unfold callEdge
    rw [if_neg (by simp [hkind, hmiss]), hu, hv]
    simp only
    split <;> exact ⟨_, rfl⟩
  obtain ⟨m, hm⟩ := hcall
  refine ⟨(v, m), List.mem_append_left _ (List.mem_filterMap.2 ⟨edge, hedge, ?_⟩), rfl⟩
  simp [hm]

theorem callsEdge_of_arc {u v : ℕ} (h : Arc ws.calls u v) :
    ws.CallsEdge u v ∨ u = v ∧ u < ws.symbols.length := by
  obtain ⟨call, hcall, rfl⟩ := h
  rcases List.mem_append.1 hcall with hcall | hcall
  · obtain ⟨edge, hedge, hbind⟩ := List.mem_filterMap.1 hcall
    obtain ⟨⟨u', call'⟩, hm, hif⟩ := Option.bind_eq_some_iff.1 hbind
    simp only at hif
    split_ifs at hif with hu
    cases hif
    subst hu
    obtain ⟨hkind, hmiss, hsrc, hdst⟩ := callEdge_eq_some hm
    exact .inl ⟨edge, hedge, hkind, hmiss, hsrc, hdst⟩
  · unfold selfCall at hcall
    split_ifs at hcall with hself
    · cases hfind : (ws.ast u).callSites.find? (·.calleeName == (ws.symbol u).name) with
      | none => rw [hfind] at hcall; cases hcall
      | some cs =>
        rw [hfind] at hcall
        rw [List.mem_singleton.1 hcall]
        exact .inr ⟨rfl, hself.1⟩
    · cases hcall

theorem calls_lt (u v : ℕ) (h : Arc ws.calls u v) : v < ws.symbols.length := by
  rcases callsEdge_of_arc h with ⟨edge, -, -, -, -, hv⟩ | ⟨rfl, hlt⟩
  · exact idToIdx_lt hv
  · exact hlt

theorem sccs_condensed (ws : Workspace) : Condensed (Arc ws.calls) ws.sccs :=
  (tarjanScc_condensed calls_lt).1

theorem mem_sccs {u : ℕ} : u ∈ ws.sccs.flatten ↔ u < ws.symbols.length :=
  (tarjanScc_condensed calls_lt).2 u

/-! ## The recurrence of a component -/

/-- The calls of `u` to members of a component. -/
def callsInto (ws : Workspace) (scc : List ℕ) (u : ℕ) : List CallEdgeMeta :=
  ((ws.calls u).filter fun call => call.1 ∈ scc).map Prod.snd

/-- The calls from members of a component to members. -/
def internalCalls (ws : Workspace) (scc : List ℕ) : List CallEdgeMeta :=
  scc.flatMap (ws.callsInto scc)

/-- What some internal calls add to a recurrence. -/
def Recurrence.addCalls (r : Recurrence) (calls : List CallEdgeMeta) : Recurrence where
  totalBranchCalls := (calls.map (·.callSites)).foldl satAdd16 r.totalBranchCalls
  maxLoopInCycle := (calls.map (·.loopDepth)).foldl max r.maxLoopInCycle
  reduction := (calls.map (·.argReduction)).foldl (pick ArgReduction.present) r.reduction
  localWork := r.localWork
  anyMemo := r.anyMemo

/-- What the bodies of some members add to a recurrence. -/
def Recurrence.addBodies (ws : Workspace) (r : Recurrence) (members : List ℕ) : Recurrence :=
  { r with
    localWork := (members.map fun u => (ws.ast u).localTime).foldl .seqMax r.localWork
    anyMemo := r.anyMemo || members.any fun u => (ws.ast u).hasMemoization }

theorem foldl_addCall (scc : List ℕ) (calls : List (ℕ × CallEdgeMeta)) (r : Recurrence) :
    calls.foldl (Recurrence.addCall scc) r =
      r.addCalls ((calls.filter fun call => call.1 ∈ scc).map Prod.snd) := by
  induction calls generalizing r with
  | nil => rfl
  | cons call calls ih =>
    rw [List.foldl_cons, ih]
    unfold Recurrence.addCall
    by_cases hscc : call.1 ∈ scc
    · -- the first reduction met stays
      have hpick : ∀ a b : ArgReduction, (if a = .none ∧ b ≠ .none then b else a) =
          pick ArgReduction.present a b := by
        intro a b
        cases a <;> cases b <;> rfl
      rw [if_pos hscc, List.filter_cons_of_pos (by simpa using hscc), hpick]
      rfl
    · rw [if_neg hscc, List.filter_cons_of_neg (by simpa using hscc)]

theorem addMember_eq (scc : List ℕ) (r : Recurrence) (u : ℕ) : Recurrence.addMember ws scc r u =
    (r.addBodies ws [u]).addCalls (ws.callsInto scc u) := by
  unfold Recurrence.addMember
  rw [foldl_addCall]
  cases hast : ws.astById (ws.symbol u).id with
  | some summary =>
    have hu : ws.ast u = summary := by rw [ast, hast]; rfl
    simp [Recurrence.addBodies, hu, callsInto]
  | none =>
    have hu : ws.ast u = .trivial := by rw [ast, hast]; rfl
    have hkeep : r.localWork.seqMax .constant = r.localWork := by
      rw [ComplexityClass.seqMax_eq]
      exact if_pos (Nat.zero_le _)
    simp [Recurrence.addBodies, hu, callsInto, AstComplexitySummary.trivial, hkeep]

theorem foldl_addMember (scc members : List ℕ) (r : Recurrence) :
    members.foldl (Recurrence.addMember ws scc) r =
      (r.addBodies ws members).addCalls (members.flatMap (ws.callsInto scc)) := by
  induction members generalizing r with
  | nil => simp [Recurrence.addCalls, Recurrence.addBodies]
  | cons u members ih =>
    rw [List.foldl_cons, ih, addMember_eq]
    simp [Recurrence.addCalls, Recurrence.addBodies, Bool.or_assoc]

/-- **The recurrence of a component**, field by field. -/
theorem recurrence_eq (scc : List ℕ) : ws.recurrence scc =
    (Recurrence.addBodies ws ⟨0, 0, .none, .constant, false⟩ scc).addCalls
      (ws.internalCalls scc) :=
  foldl_addMember scc scc _

/-! ## The costs of a symbol -/

/-- The time and the space of a symbol in the tables. -/
def Propagation.costs (p : Propagation) (u : ℕ) : ComplexityClass × ComplexityClass :=
  (p.propagatedTime u, p.propagatedSpace u)

/-- `seq_max` of the times and of the spaces. -/
def seqMaxBoth (a b : ComplexityClass × ComplexityClass) : ComplexityClass × ComplexityClass :=
  (a.1.seqMax b.1, a.2.seqMax b.2)

/-- What a call adds to its caller, `costs` being the table of the callees. -/
def inducedCosts (costs : ℕ → ComplexityClass × ComplexityClass) (call : ℕ × CallEdgeMeta) :
    ComplexityClass × ComplexityClass :=
  ((ComplexityClass.ofDegree call.2.loopDepth).nestMul (costs call.1).1, (costs call.1).2)

/-- The calls of `u` that leave the component. -/
def outsideCalls (ws : Workspace) (scc : List ℕ) (u : ℕ) : List (ℕ × CallEdgeMeta) :=
  (ws.calls u).filter fun call => call.1 ∉ scc

/-- The local time and space of `u`. -/
def localCosts (ws : Workspace) (u : ℕ) : ComplexityClass × ComplexityClass :=
  ((ws.ast u).localTime, (ws.ast u).localSpace)

/-- The costs of member `u` of a component. -/
def memberCosts (ws : Workspace) (scc : List ℕ) (costs : ℕ → ComplexityClass × ComplexityClass)
    (u : ℕ) : ComplexityClass × ComplexityClass :=
  ((ws.outsideCalls scc u).map (inducedCosts costs)).foldl seqMaxBoth
    (seqMaxBoth (costs u) (ws.localCosts u))

theorem foldl_seqMaxBoth (l : List (ComplexityClass × ComplexityClass))
    (a : ComplexityClass × ComplexityClass) :
    l.foldl seqMaxBoth a =
      ((l.map Prod.fst).foldl .seqMax a.1, (l.map Prod.snd).foldl .seqMax a.2) := by
  induction l generalizing a with
  | nil => rfl
  | cons b l ih => simp only [List.foldl_cons, ih, List.map_cons, seqMaxBoth]

/-- A part of a pair of costs: the time or the space. -/
def Part (π : ComplexityClass × ComplexityClass → ComplexityClass) : Prop :=
  π = Prod.fst ∨ π = Prod.snd

theorem Part.foldl {π : ComplexityClass × ComplexityClass → ComplexityClass} (hπ : Part π)
    (l : List (ComplexityClass × ComplexityClass)) (a : ComplexityClass × ComplexityClass) :
    π (l.foldl seqMaxBoth a) = (l.map π).foldl (pick ComplexityClass.degreeCode) (π a) := by
  rw [foldl_seqMaxBoth, ComplexityClass.seqMax_eq_pick]
  rcases hπ with rfl | rfl <;> rfl

theorem liftIo_costs (u : ℕ) (call : ℕ × CallEdgeMeta) (p : Propagation) :
    (ws.liftIo u call p).costs = p.costs := by
  unfold liftIo
  simp only
  split <;> split_ifs <;> rfl

theorem calleeStep_costs (ws : Workspace) (scc : List ℕ) (u : ℕ) (b : Best) (call : ℕ × CallEdgeMeta) :
    (ws.calleeStep scc u b call).tables.costs = b.tables.costs := by
  unfold calleeStep
  split_ifs with hscc
  · rfl
  · simp only [liftIo_costs]
    split_ifs <;> rfl

theorem calleeStep_best (scc : List ℕ) (u : ℕ) (b : Best) (call : ℕ × CallEdgeMeta) :
    ((ws.calleeStep scc u b call).time, (ws.calleeStep scc u b call).space) =
      if call.1 ∈ scc then (b.time, b.space)
      else seqMaxBoth (b.time, b.space) (inducedCosts b.tables.costs call) := by
  unfold calleeStep
  split_ifs with hscc
  · rfl
  · simp only
    split_ifs with htake
    · rfl
    · -- a cost that is not taken would not have changed the best so far
      rw [not_or, ComplexityClass.effectiveDegree_lt_iff, not_lt] at htake
      have hkeep : b.time.seqMax (inducedTime b.tables call) = b.time := by
        rw [ComplexityClass.seqMax_eq]
        exact if_pos htake.1
      exact Prod.ext hkeep.symm rfl

theorem foldl_calleeStep_best (ws : Workspace) (scc : List ℕ) (u : ℕ)
    (calls : List (ℕ × CallEdgeMeta)) (b : Best) :
    (calls.foldl (ws.calleeStep scc u) b).tables.costs = b.tables.costs ∧
    ((calls.foldl (ws.calleeStep scc u) b).time, (calls.foldl (ws.calleeStep scc u) b).space) =
      ((calls.filter fun call => call.1 ∉ scc).map (inducedCosts b.tables.costs)).foldl seqMaxBoth
        (b.time, b.space) := by
  induction calls generalizing b with
  | nil => exact ⟨rfl, rfl⟩
  | cons call calls ih =>
    obtain ⟨htables, hbest⟩ := ih (ws.calleeStep scc u b call)
    have hsame := calleeStep_costs ws scc u b call
    rw [List.foldl_cons, htables, hbest, hsame, calleeStep_best]
    refine ⟨rfl, ?_⟩
    by_cases hscc : call.1 ∈ scc
    · rw [if_pos hscc, List.filter_cons_of_neg (by simpa using hscc)]
    · rw [if_neg hscc, List.filter_cons_of_pos (by simpa using hscc)]
      rfl

/-- What a member writes into the tables, from the best of its calls. -/
def Best.write (b : Best) (u : ℕ) : Propagation :=
  { b.tables with
    propagatedTime := Function.update b.tables.propagatedTime u b.time
    propagatedSpace := Function.update b.tables.propagatedSpace u b.space }

theorem Best.write_costs (b : Best) (u : ℕ) :
    (b.write u).costs = Function.update b.tables.costs u (b.time, b.space) := by
  funext w
  by_cases hwu : w = u
  · subst hwu
    simp [write, Propagation.costs]
  · simp [write, Propagation.costs, hwu]

/-- **One member** of a component. -/
theorem memberStep_costs (scc : List ℕ) (p : Propagation) (u : ℕ) :
    (ws.memberStep scc p u).costs =
      Function.update p.costs u (ws.memberCosts scc p.costs u) := by
  -- the member's own I/O effect touches no cost
  obtain ⟨q, hq, hstep⟩ : ∃ q : Propagation, q.costs = p.costs ∧ ws.memberStep scc p u =
      ((ws.calls u).foldl (ws.calleeStep scc u)
        ⟨(seqMaxBoth (q.costs u) (ws.localCosts u)).1,
          (seqMaxBoth (q.costs u) (ws.localCosts u)).2, q⟩).write u := by
    unfold memberStep
    refine ⟨_, ?_, rfl⟩
    cases (ws.ast u).ioEffects.head? <;> rfl
  obtain ⟨hsame, hbest⟩ := foldl_calleeStep_best ws scc u (ws.calls u)
    ⟨(seqMaxBoth (q.costs u) (ws.localCosts u)).1, (seqMaxBoth (q.costs u) (ws.localCosts u)).2, q⟩
  rw [hstep, Best.write_costs, hbest, hsame, hq]
  rfl

/-- What the members of a component have before their own costs are added. -/
def baseCosts (ws : Workspace) (scc : List ℕ) : ComplexityClass × ComplexityClass :=
  if ws.isRecursiveScc scc then (ws.sccTime scc, ws.sccSpace scc) else (.constant, .constant)

theorem solveScc_costs (scc : List ℕ) (p : Propagation) (w : ℕ) : (ws.solveScc scc p).costs w =
    if w ∈ scc ∧ ws.isRecursiveScc scc then ws.baseCosts scc else p.costs w := by
  unfold solveScc baseCosts
  by_cases hrec : ws.isRecursiveScc scc
  · by_cases hw : w ∈ scc <;> simp [Propagation.costs, hrec, hw]
  · simp [hrec]

theorem memberCosts_congr {scc : List ℕ} {T T' : ℕ → ComplexityClass × ComplexityClass} {u : ℕ}
    (hu : T u = T' u) (hout : ∀ w, w ∉ scc → T w = T' w) :
    ws.memberCosts scc T u = ws.memberCosts scc T' u := by
  unfold memberCosts
  rw [hu]
  congr 1
  refine List.map_congr_left fun call hcall => ?_
  unfold inducedCosts
  rw [hout call.1 (by simpa using (List.mem_filter.1 hcall).2)]

/-- **One component.** -/
theorem sccStep_costs {scc : List ℕ} (hnodup : scc.Nodup) (p : Propagation) (w : ℕ) :
    (ws.sccStep p scc).costs w =
      if w ∈ scc then ws.memberCosts scc (ws.solveScc scc p).costs w else p.costs w := by
  have hfold : ∀ (members : List ℕ) (q : Propagation),
      (members.foldl (ws.memberStep scc) q).costs =
        members.foldl (fun T u => Function.update T u (ws.memberCosts scc T u)) q.costs := by
    intro members
    induction members with
    | nil => exact fun q => rfl
    | cons u members ih =>
      intro q
      rw [List.foldl_cons, List.foldl_cons, ih, memberStep_costs]
  have hwrite := Loop.foldl_update hnodup (g := ws.memberCosts scc)
    (fun T T' u _ hu hout => memberCosts_congr hu hout) (ws.solveScc scc p).costs w
  rw [sccStep, hfold, hwrite]
  split_ifs with hw
  · rfl
  · rw [solveScc_costs, if_neg fun h => hw h.1]

/-- `propagated_time` and `propagated_space` -/
def costs (ws : Workspace) (u : ℕ) : ComplexityClass × ComplexityClass :=
  (ws.propagate ws.sccs).costs u

/-- Components leave other symbols alone. -/
theorem foldl_sccStep_costs {rest : List (List ℕ)} (hrest : rest.flatten.Nodup) (p : Propagation)
    {u : ℕ} (hu : u ∉ rest.flatten) : (rest.foldl ws.sccStep p).costs u = p.costs u := by
  induction rest generalizing p with
  | nil => rfl
  | cons scc rest ih =>
    rw [List.flatten_cons] at hrest hu
    rw [List.mem_append, not_or] at hu
    rw [List.foldl_cons, ih (List.nodup_append.1 hrest).2.1 _ hu.2,
      sccStep_costs (List.nodup_append.1 hrest).1, if_neg hu.1]

section
variable {done rest : List (List ℕ)} {scc : List ℕ} (h : ws.sccs = done ++ scc :: rest)
include h

/-- A symbol of an earlier component has got its costs. -/
theorem costs_of_done {u : ℕ} (hu : u ∈ done.flatten) :
    (ws.propagate done).costs u = ws.costs u := by
  have hnodup := (sccs_condensed ws).nodup
  rw [h, List.flatten_append] at hnodup
  have htail := List.nodup_append.1 hnodup
  rw [costs, propagate, propagate, h, List.foldl_append]
  exact (foldl_sccStep_costs htail.2.1 _ fun hmem => htail.2.2 u hu u hmem rfl).symm

/-- The callees outside a component have been solved. -/
theorem done_of_outside {u : ℕ} (hu : u ∈ scc) {call : ℕ × CallEdgeMeta}
    (hcall : call ∈ ws.outsideCalls scc u) : call.1 ∉ scc ∧ call.1 ∈ done.flatten := by
  obtain ⟨hmem, hout⟩ := List.mem_filter.1 hcall
  have hout : call.1 ∉ scc := by simpa using hout
  exact ⟨hout, ((sccs_condensed ws).closed done scc rest h u hu call.1
    ⟨call, hmem, rfl⟩).resolve_left hout⟩

/-- A member starts from the class of its component. -/
theorem solveScc_costs_of_mem {u : ℕ} (hu : u ∈ scc) :
    (ws.solveScc scc (ws.propagate done)).costs u = ws.baseCosts scc := by
  rw [solveScc_costs]
  by_cases hrec : ws.isRecursiveScc scc
  · rw [if_pos ⟨hu, hrec⟩]
  · -- no component before has touched `u`
    have hnodup := (sccs_condensed ws).nodup
    rw [h, List.flatten_append, List.flatten_cons] at hnodup
    have htail := List.nodup_append.1 hnodup
    have hinit : (ws.propagate done).costs u = Propagation.init.costs u :=
      foldl_sccStep_costs htail.1 _ fun hmem =>
        htail.2.2 u hmem u (List.mem_append_left _ hu) rfl
    rw [if_neg fun hr => hrec hr.2, hinit, baseCosts, if_neg hrec]
    rfl

/-- **The costs of a symbol**: those of its component and of its body, and those of its
    callees outside the component. -/
theorem costs_eq {u : ℕ} (hu : u ∈ scc) :
    ws.costs u = ((ws.outsideCalls scc u).map (inducedCosts ws.costs)).foldl seqMaxBoth
      (seqMaxBoth (ws.baseCosts scc) (ws.localCosts u)) := by
  have hnodup := (sccs_condensed ws).nodup
  rw [h, List.flatten_append, List.flatten_cons] at hnodup
  have htail := List.nodup_append.1 hnodup
  have hscc := List.nodup_append.1 htail.2.1
  have hstep : ws.costs u = ws.memberCosts scc (ws.solveScc scc (ws.propagate done)).costs u := by
    rw [costs, propagate, h, List.foldl_append, List.foldl_cons,
      foldl_sccStep_costs hscc.2.1 _ fun hmem => hscc.2.2 u hu u hmem rfl,
      sccStep_costs hscc.1, if_pos hu]
    rfl
  rw [hstep, memberCosts, solveScc_costs_of_mem h hu]
  congr 1
  refine List.map_congr_left fun call hcall => ?_
  obtain ⟨hout, hdone⟩ := done_of_outside h hu hcall
  unfold inducedCosts
  rw [solveScc_costs, if_neg fun hc => hout hc.1, costs_of_done h hdone]

end

end Workspace

end Cognis
