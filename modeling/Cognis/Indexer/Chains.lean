/-
  `analyze_workspace_complexity` of `cognis-indexer` (`complexity.rs`) on an acyclic call
  graph: the propagated time is the worst call chain.

  * `CallChain` are the call chains, with the sum of the loop depths on their calls;
  * `solved_of_mem`: component by component, the time of a symbol is reached by a chain and
    no chain exceeds it;
  * `propagatedTime_isGreatest`: hence it is the maximum over the chains.
-/
import Cognis.Indexer.Costs
import Mathlib.Order.Bounds.Basic

namespace Cognis

open Champion Relation

namespace ComplexityClass

/-! ## Powers of `n` -/

/-- `Constant` or `Polynomial` -/
def Power (c : ComplexityClass) : Prop := c = .constant ∨ ∃ d p, c = .polynomial d p

instance decidablePower : DecidablePred Power
  | .constant => .isTrue (.inl rfl)
  | .polynomial d p => .isTrue (.inr ⟨d, p, rfl⟩)
  | .logarithmic _ | .sqrt | .exponential _ | .factorial =>
    .isFalse fun h => by rcases h with h | ⟨_, _, h⟩ <;> cases h

theorem Power.degreeCode_eq {c : ComplexityClass} (h : c.Power) :
    c.degreeCode = 20 * c.degree + 5 * c.logPower := by
  rcases h with rfl | ⟨d, p, rfl⟩ <;> rfl

theorem Power.effectiveDegree_eq {c : ComplexityClass} (h : c.Power) :
    c.effectiveDegree = c.degree + (c.logPower : ℚ) / 4 := by
  rcases h with rfl | ⟨d, p, rfl⟩
  · simp [effectiveDegree, degree, logPower]
  · exact effectiveDegree_polynomial d p

/-- **Nesting adds the degrees**, as long as they fit a byte. -/
theorem Power.nestMul_ofDegree {c : ComplexityClass} (h : c.Power) {l : UInt8}
    (hsat : l.toNat + c.degree ≤ 255) :
    ((ofDegree l).nestMul c).Power ∧ ((ofDegree l).nestMul c).degree = l.toNat + c.degree ∧
      ((ofDegree l).nestMul c).logPower = c.logPower := by
  unfold ofDegree
  split_ifs with hl
  · subst hl
    rw [constant_nestMul]
    exact ⟨h, by simp, rfl⟩
  · rcases h with rfl | ⟨d, p, rfl⟩
    · rw [nestMul_constant]
      exact ⟨.inr ⟨_, _, rfl⟩, by simp [degree], rfl⟩
    · refine ⟨.inr ⟨_, _, rfl⟩, ?_, ?_⟩
      · simp only [degree] at hsat
        simp only [nestMul, degree, toNat_satAdd]
        omega
      · have := toNat_le_255 p
        simp only [nestMul, logPower, toNat_satAdd, UInt8.toNat_zero]
        omega

end ComplexityClass

namespace Workspace

variable {ws : Workspace}

/-! ## Call chains -/

/-- `CallChain ws u k w`: a chain of calls from `u` to `w`, whose calls stand in `k` loops
    in all. -/
inductive CallChain (ws : Workspace) : ℕ → ℕ → ℕ → Prop
  | here (u : ℕ) : CallChain ws u 0 u
  | call {u k w : ℕ} (call : ℕ × CallEdgeMeta) (hcall : call ∈ ws.calls u)
      (rest : CallChain ws call.1 k w) : CallChain ws u (call.2.loopDepth.toNat + k) w

theorem CallChain.lt {u k w : ℕ} (h : ws.CallChain u k w) (hu : u < ws.symbols.length) :
    w < ws.symbols.length := by
  induction h with
  | here => exact hu
  | call call hcall _ ih => exact ih (calls_lt _ _ ⟨call, hcall, rfl⟩)

/-- The time of `u` is reached by a chain, and no chain exceeds it. -/
structure Solved (ws : Workspace) (u : ℕ) : Prop where
  power : (ws.propagatedTime u).Power
  reached : ∃ k w, ws.CallChain u k w ∧
    (ws.propagatedTime u).degree = k + (ws.ast w).localTime.degree ∧
    (ws.propagatedTime u).logPower = (ws.ast w).localTime.logPower
  bound : ∀ k w, ws.CallChain u k w →
    20 * k + (ws.ast w).localTime.degreeCode ≤ (ws.propagatedTime u).degreeCode

/-- The call graph is acyclic, its local times are powers of `n`, and the degrees summed
    along a chain fit a byte. -/
structure PolynomialDag (ws : Workspace) : Prop where
  acyclic : ∀ u, ¬ TransGen (Arc ws.calls) u u
  power : ∀ u < ws.symbols.length, (ws.ast u).localTime.Power
  fits : ∀ u < ws.symbols.length, ∀ k w, ws.CallChain u k w →
    k + (ws.ast w).localTime.degree ≤ 255

section
variable (hdag : ws.PolynomialDag)
include hdag

/-- The cost of a call to a solved callee. -/
theorem Solved.inducedCosts {u : ℕ} (hu : u < ws.symbols.length) {call : ℕ × CallEdgeMeta}
    (hcall : call ∈ ws.calls u) (hsolved : ws.Solved call.1) :
    (inducedCosts ws.costs call).1.Power ∧
      (inducedCosts ws.costs call).1.degree =
        call.2.loopDepth.toNat + (ws.propagatedTime call.1).degree ∧
      (inducedCosts ws.costs call).1.logPower = (ws.propagatedTime call.1).logPower := by
  obtain ⟨k, w, hchain, hdegree, -⟩ := hsolved.reached
  have hfits := hdag.fits u hu _ w (.call call hcall hchain)
  exact hsolved.power.nestMul_ofDegree (by rw [hdegree]; omega)

/-- A component of an acyclic call graph is a symbol that does not call itself. -/
theorem component_eq_singleton {done rest : List (List ℕ)} {scc : List ℕ}
    (h : ws.sccs = done ++ scc :: rest) {u : ℕ} (hu : u ∈ scc) :
    scc = [u] ∧ ws.isRecursiveScc scc = false ∧ ws.outsideCalls scc u = ws.calls u := by
  have hcond := sccs_condensed ws
  have hmem : scc ∈ ws.sccs := by simp [h]
  have hself : ∀ v ∈ scc, v = u := by
    intro v hv
    by_contra hne
    have huv := (reflTransGen_iff_eq_or_transGen.1 (hcond.connected scc hmem u hu v hv)).resolve_left hne
    exact hdag.acyclic u (huv.trans_left (hcond.connected scc hmem v hv u hu))
  have hnodup : scc.Nodup := by
    have := hcond.nodup
    rw [h, List.flatten_append, List.flatten_cons] at this
    exact (List.nodup_append.1 (List.nodup_append.1 this).2.1).1
  have hscc : scc = [u] := by
    have hperm : scc.Perm [u] := by
      refine (List.perm_ext_iff_of_nodup hnodup (List.nodup_singleton u)).2 fun v => ?_
      rw [List.mem_singleton]
      exact ⟨hself v, fun hv => hv ▸ hu⟩
    exact List.perm_singleton.1 hperm
  have hcalls : ∀ call ∈ ws.calls u, call.1 ≠ u := fun call hcall heq =>
    hdag.acyclic u (.single ⟨call, hcall, heq⟩)
  subst hscc
  refine ⟨rfl, ?_, ?_⟩
  · simpa [isRecursiveScc] using hcalls
  · rw [outsideCalls, List.filter_eq_self]
    simpa using hcalls

/-- **The time of a symbol whose callees are solved.** -/
theorem solved_of_callees {done rest : List (List ℕ)} {scc : List ℕ}
    (h : ws.sccs = done ++ scc :: rest) {u : ℕ} (hu : u ∈ scc)
    (hcallees : ∀ call ∈ ws.calls u, ws.Solved call.1) : ws.Solved u := by
  have hlt : u < ws.symbols.length := mem_sccs.1 (by rw [h]; simp [hu])
  obtain ⟨-, hrec, hout⟩ := component_eq_singleton hdag h hu
  have hlocal := hdag.power u hlt
  have htime : ws.propagatedTime u =
      ((ws.calls u).map fun call => (inducedCosts ws.costs call).1).foldl
        (pick ComplexityClass.degreeCode) (ComplexityClass.constant.seqMax (ws.ast u).localTime) := by
    have hcosts := congrArg Prod.fst (costs_eq h hu)
    rw [hout, foldl_seqMaxBoth, List.map_map, baseCosts, if_neg (by simp [hrec]),
      ComplexityClass.seqMax_eq_pick] at hcosts
    exact hcosts
  obtain ⟨hmem, hbase, hall⟩ := foldl_pick_spec ComplexityClass.degreeCode
    (ComplexityClass.constant.seqMax (ws.ast u).localTime)
    ((ws.calls u).map fun call => (inducedCosts ws.costs call).1)
  rw [← htime] at hmem hbase hall
  rw [ComplexityClass.degreeCode_seqMax] at hbase
  have hbound : ∀ k w, ws.CallChain u k w →
      20 * k + (ws.ast w).localTime.degreeCode ≤ (ws.propagatedTime u).degreeCode := by
    intro k w hchain
    cases hchain with
    | here => omega
    | @call _ k w call hcall hrest =>
      have hcallee := hcallees call hcall
      obtain ⟨hpower, hdegree, hlog⟩ := hcallee.inducedCosts hdag hlt hcall
      have hle := hall _ (List.mem_map_of_mem hcall)
      have hk := hcallee.bound k w hrest
      rw [hpower.degreeCode_eq, hdegree, hlog] at hle
      rw [hcallee.power.degreeCode_eq] at hk
      omega
  obtain ⟨hpower, hreached⟩ : (ws.propagatedTime u).Power ∧ ∃ k w, ws.CallChain u k w ∧
      (ws.propagatedTime u).degree = k + (ws.ast w).localTime.degree ∧
      (ws.propagatedTime u).logPower = (ws.ast w).localTime.logPower := by
    rcases hmem with heq | ⟨hmem, -⟩
    · -- no callee beats the body of `u`
      rw [heq, ComplexityClass.seqMax_eq]
      split_ifs with hzero
      · have hcode : (ws.ast u).localTime.degreeCode = 0 := Nat.le_zero.1 hzero
        rw [hlocal.degreeCode_eq] at hcode
        refine ⟨.inl rfl, 0, u, .here u, ?_, ?_⟩
        · change 0 = _
          omega
        · change 0 = _
          omega
      · exact ⟨hlocal, 0, u, .here u, by rw [Nat.zero_add], rfl⟩
    · obtain ⟨call, hcall, hcost⟩ := List.mem_map.1 hmem
      have hcallee := hcallees call hcall
      obtain ⟨hpower, hdegree, hlog⟩ := hcallee.inducedCosts hdag hlt hcall
      obtain ⟨k, w, hchain, hk, hw⟩ := hcallee.reached
      rw [← hcost]
      exact ⟨hpower, _, w, .call call hcall hchain, by rw [hdegree, hk, Nat.add_assoc],
        hlog.trans hw⟩
  exact ⟨hpower, hreached, hbound⟩

/-- **Every symbol is solved**, component by component. -/
theorem solved_of_mem {done rest : List (List ℕ)} {scc : List ℕ}
    (h : ws.sccs = done ++ scc :: rest) {u : ℕ} (hu : u ∈ scc) : ws.Solved u := by
  -- by induction on the number of components before
  induction hlen : done.length using Nat.strong_induction_on generalizing done scc rest u with
  | _ len ih =>
    refine solved_of_callees hdag h hu fun call hcall => ?_
    rw [← (component_eq_singleton hdag h hu).2.2] at hcall
    obtain ⟨-, hdone⟩ := done_of_outside h hu hcall
    obtain ⟨scc', hscc', hmem⟩ := List.mem_flatten.1 hdone
    obtain ⟨before, after, rfl⟩ := List.append_of_mem hscc'
    rw [List.append_assoc, List.cons_append] at h
    refine ih before.length ?_ h hmem rfl
    rw [← hlen, List.length_append, List.length_cons]
    omega

end

/-- **Exactness on acyclic call graphs**: the effective degree of the propagated time is the
    maximum, over the call chains, of the loop depths on the chain and the effective degree
    of the local time at its end. -/
theorem propagatedTime_isGreatest (ws : Workspace) (hdag : ws.PolynomialDag) (u : ℕ)
    (hu : u < ws.symbols.length) :
    IsGreatest {x : ℚ | ∃ k w, ws.CallChain u k w ∧ x = k + (ws.ast w).localTime.effectiveDegree}
      (ws.propagatedTime u).effectiveDegree := by
  obtain ⟨scc, hscc, hmem⟩ := List.mem_flatten.1 (mem_sccs.2 hu)
  obtain ⟨done, rest, h⟩ := List.append_of_mem hscc
  obtain ⟨hpower, ⟨k, w, hchain, hdegree, hlog⟩, hbound⟩ := solved_of_mem hdag h hmem
  have hlocal : ∀ {k w}, ws.CallChain u k w → (ws.ast w).localTime.Power := fun hchain =>
    hdag.power _ (hchain.lt hu)
  constructor
  · refine ⟨k, w, hchain, ?_⟩
    rw [hpower.effectiveDegree_eq, (hlocal hchain).effectiveDegree_eq, hdegree, hlog]
    push_cast
    ring
  · rintro x ⟨k', w', hchain', rfl⟩
    have hle := hbound k' w' hchain'
    rw [(hlocal hchain').degreeCode_eq, hpower.degreeCode_eq] at hle
    rw [(hlocal hchain').effectiveDegree_eq, hpower.effectiveDegree_eq]
    have hle : (20 * k' + (20 * (ws.ast w').localTime.degree + 5 * (ws.ast w').localTime.logPower) : ℚ)
        ≤ 20 * (ws.propagatedTime u).degree + 5 * (ws.propagatedTime u).logPower := by
      exact_mod_cast hle
    linarith

/-- The orders of a shop: `process` calls `lookup` in a loop, which calls `find`, a scan. -/
def orders : Workspace where
  symbols := [sym "process" "for order in orders:\n    lookup(order)\n",
    sym "lookup" "return find(order)\n", sym "find" "return scan(order)\n"]
  edges := [⟨"process", "lookup", .calls, 1, [("loop_depth", .uint 1)]⟩,
    ⟨"lookup", "find", .calls, 1, []⟩]
  sourceOverrides _ := none
  walk sym _ :=
    if sym.name = "lookup" then ⟨.constant, .constant, [], [], false, false⟩
    else ⟨.polynomial 1 0, .constant, [], [], false, false⟩
where
  sym (name body : String) : Symbol :=
    { id := name, kind := .function, name := name, qualifiedName := name, language := "python",
      module := "m", filePath := "m.py", lineStart := 1, lineEnd := 3, contentHash := name,
      bodyExcerpt := some body }

/-- `process` is quadratic, by the chain through `lookup`. -/
theorem propagatedTime_isGreatest_orders :
    IsGreatest {x : ℚ | ∃ k w, orders.CallChain 0 k w ∧
      x = k + (orders.ast w).localTime.effectiveDegree}
      (orders.propagatedTime 0).effectiveDegree ∧ orders.propagatedTime 0 = .polynomial 2 0 := by
  have hcalls : ∀ u < 3, ∀ call ∈ orders.calls u,
      u < call.1 ∧ call.2.loopDepth.toNat + (1 - call.1) ≤ 1 - u := by decide +kernel
  have hcaller : ∀ {u call}, call ∈ orders.calls u → u < 3 := by
    intro u call hcall
    rcases callsEdge_of_arc ⟨call, hcall, rfl⟩ with ⟨edge, -, -, -, hsrc, -⟩ | ⟨-, hlt⟩
    · exact idToIdx_lt hsrc
    · exact hlt
  -- the calls go forward, and only the first stands in a loop
  have hloops : ∀ {u k w}, orders.CallChain u k w → k ≤ 1 - u := by
    intro u k w hchain
    induction hchain with
    | here => omega
    | call call hcall _ ih =>
      have := (hcalls _ (hcaller hcall) call hcall).2
      omega
  have hdag : orders.PolynomialDag := by
    refine ⟨fun u hcycle => ?_, by decide +kernel, fun u hu k w hchain => ?_⟩
    · have hforward : ∀ a b, Arc orders.calls a b → a < b := by
        rintro a b ⟨call, hcall, rfl⟩
        exact (hcalls a (hcaller hcall) call hcall).1
      have hlt : TransGen (· < ·) u u := TransGen.mono hforward u u hcycle
      rw [transGen_eq_self] at hlt
      exact lt_irrefl u hlt
    · have hdegree : ∀ v < 3, (orders.ast v).localTime.degree ≤ 1 := by decide +kernel
      have := hdegree w (hchain.lt hu)
      have := hloops hchain
      omega
  exact ⟨propagatedTime_isGreatest orders hdag 0 (by decide), by decide +kernel⟩

end Workspace

end Cognis
