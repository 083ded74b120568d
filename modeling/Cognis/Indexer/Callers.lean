/-
  Callers and callees in `analyze_workspace_complexity`: no caller is reported
  cheaper than a callee outside its component, and inside a component the members
  are reported alike only when the costs that enter it reach them all.

  * `propagatedTime_le_iff`: the cost of a member is the maximum of the component's
    recurrence class and of the costs that enter through the member;
  * `le_of_outside`: calls that leave a component;
  * `callers_cover_callees_iff`: the exact condition.
-/
import Cognis.Indexer.Costs

namespace Cognis

open Relation

/-- Loops around a call never make it cheaper. -/
theorem ComplexityClass.degreeCode_le_nestMul_ofDegree (d : UInt8) (c : ComplexityClass) :
    c.degreeCode ≤ ((ofDegree d).nestMul c).degreeCode := by
  unfold ofDegree
  split_ifs with hd
  · simp
  · have hpos : 0 < d.toNat := Nat.pos_of_ne_zero fun h => hd (UInt8.toNat_inj.1 h)
    cases c with
    | constant => simp [degreeCode]
    | logarithmic p =>
      have := p.toNat_lt
      simp only [nestMul, degreeCode, toNat_satAdd]
      omega
    | sqrt =>
      simp only [nestMul, degreeCode, toNat_satAdd]
      omega
    | polynomial d' p =>
      have := d'.toNat_lt
      have := p.toNat_lt
      simp only [nestMul, degreeCode, toNat_satAdd]
      omega
    | exponential b => simp [nestMul]
    | factorial => simp

theorem ComplexityClass.degreeCode_foldl_seqMax_le_iff {l : List ComplexityClass}
    {a : ComplexityClass} {k : ℕ} :
    (l.foldl seqMax a).degreeCode ≤ k ↔ a.degreeCode ≤ k ∧ ∀ c ∈ l, c.degreeCode ≤ k := by
  induction l generalizing a with
  | nil => simp
  | cons c l ih =>
    rw [List.foldl_cons, ih, degreeCode_seqMax, max_le_iff, List.forall_mem_cons, and_assoc]

namespace Workspace

variable {ws : Workspace}

/-! ## One component -/

/-- The costs that enter a component through its member `u`: the local time of `u`,
    and its calls that leave the component. -/
def entering (ws : Workspace) (p : Propagation) (scc : List ℕ) (u : ℕ) : List ComplexityClass :=
  (ws.ast u).localTime :: ((ws.calls u).filter fun call => call.1 ∉ scc).map (inducedTime p)

/-- What the members of a component have before their own costs are added. -/
def baseTime (ws : Workspace) (p : Propagation) (scc : List ℕ) (u : ℕ) : ComplexityClass :=
  (ws.solveScc scc p).propagatedTime u

section
variable {done rest : List (List ℕ)} {scc : List ℕ} (h : ws.sccs = done ++ scc :: rest)
include h

/-- What enters a component is not changed by the components after it. -/
theorem entering_eq {u : ℕ} (hu : u ∈ scc) : ws.entering (ws.propagate done) scc u =
    (ws.localCosts u).1 ::
      ((ws.outsideCalls scc u).map (inducedCosts ws.costs)).map Prod.fst := by
  unfold entering
  rw [List.map_map]
  refine congrArg _ (List.map_congr_left fun call hcall => ?_)
  have hdone := costs_of_done h (done_of_outside h hu hcall).2
  simp only [Function.comp_apply, inducedCosts, ← hdone]
  rfl

/-- **The time of a member** is the maximum of the component's class and of what enters
    through the member. -/
theorem propagatedTime_le_iff {u : ℕ} (hu : u ∈ scc) (k : ℕ) :
    (ws.propagatedTime u).degreeCode ≤ k ↔ (ws.baseTime (ws.propagate done) scc u).degreeCode ≤ k ∧
      ∀ c ∈ ws.entering (ws.propagate done) scc u, c.degreeCode ≤ k := by
  have htime : ws.propagatedTime u = (ws.costs u).1 := rfl
  have hbase : ws.baseTime (ws.propagate done) scc u = (ws.baseCosts scc).1 :=
    congrArg Prod.fst (solveScc_costs_of_mem h hu)
  rw [htime, costs_eq h hu, foldl_seqMaxBoth, ComplexityClass.degreeCode_foldl_seqMax_le_iff,
    seqMaxBoth, ComplexityClass.degreeCode_seqMax, max_le_iff, hbase, entering_eq h hu,
    List.forall_mem_cons, and_assoc]

/-- **Calls that leave a component**: the caller is at least as expensive. -/
theorem le_of_outside {u v : ℕ} (hu : u ∈ scc) (harc : Arc ws.calls u v) (hv : v ∉ scc) :
    (ws.propagatedTime v).degreeCode ≤ (ws.propagatedTime u).degreeCode := by
  obtain ⟨call, hcall, rfl⟩ := harc
  have hdone := ((sccs_condensed ws).closed done scc rest h u hu call.1 ⟨call, hcall, rfl⟩).resolve_left hv
  have hle := ((propagatedTime_le_iff h hu _).1 le_rfl).2 (inducedTime (ws.propagate done) call)
    (List.mem_cons_of_mem _ (List.mem_map_of_mem (List.mem_filter.2 ⟨hcall, by simpa using hv⟩)))
  have htime : ws.propagatedTime call.1 = (ws.propagate done).propagatedTime call.1 :=
    congrArg Prod.fst (costs_of_done h hdone).symm
  rw [htime]
  exact (ComplexityClass.degreeCode_le_nestMul_ofDegree ..).trans hle

/-- A cost is covered by a member when the component's class or a cost entering
    through the member covers it. -/
theorem le_propagatedTime_iff {u : ℕ} (hu : u ∈ scc) (k : ℕ) :
    k ≤ (ws.propagatedTime u).degreeCode ↔ k ≤ (ws.baseTime (ws.propagate done) scc u).degreeCode ∨
      ∃ c ∈ ws.entering (ws.propagate done) scc u, k ≤ c.degreeCode := by
  rcases Nat.eq_zero_or_pos k with rfl | hk
  · exact iff_of_true (Nat.zero_le _) (.inl (Nat.zero_le _))
  · have := propagatedTime_le_iff h hu (k - 1)
    rw [← not_iff_not, not_le, not_or, not_le, not_exists]
    constructor
    · intro hlt
      obtain ⟨hbase, hent⟩ := this.1 (by omega)
      exact ⟨by omega, fun c ⟨hc, hkc⟩ => by have := hent c hc; omega⟩
    · rintro ⟨hbase, hent⟩
      have hpred := this.2 ⟨by omega, fun c hc => by
        by_contra hkc
        exact hent c ⟨hc, by omega⟩⟩
      omega

end

/-! ## Callers cover their callees -/

/-- Every cost that enters a component of several members through one of them is
    covered by the component's recurrence class, or by a cost that enters through the
    other member itself. -/
def CostsReachAll (ws : Workspace) (p : Propagation) (scc : List ℕ) : Prop :=
  1 < scc.length → ∀ u ∈ scc, ∀ v ∈ scc, ∀ c ∈ ws.entering p scc v,
    c.effectiveDegree ≤ (ws.sccTime scc).effectiveDegree ∨
      ∃ c' ∈ ws.entering p scc u, c.effectiveDegree ≤ c'.effectiveDegree

theorem baseTime_of_lt {scc : List ℕ} (p : Propagation) (hlen : 1 < scc.length) {u : ℕ}
    (hu : u ∈ scc) : ws.baseTime p scc u = ws.sccTime scc := by
  unfold baseTime solveScc
  rw [if_pos (by simp [isRecursiveScc, hlen])]
  exact if_pos hu

/-- The members of a component are alike exactly when the costs reach them all. -/
theorem costsReachAll_iff {done rest : List (List ℕ)} {scc : List ℕ}
    (h : ws.sccs = done ++ scc :: rest) : ws.CostsReachAll (ws.propagate done) scc ↔
      ∀ u ∈ scc, ∀ v ∈ scc,
        (ws.propagatedTime v).degreeCode ≤ (ws.propagatedTime u).degreeCode := by
  by_cases hlen : 1 < scc.length
  · constructor
    · intro hreach u hu v hv
      rw [propagatedTime_le_iff h hv]
      refine ⟨?_, fun c hc => ?_⟩
      · rw [baseTime_of_lt _ hlen hv, ← baseTime_of_lt (ws.propagate done) hlen hu]
        exact (le_propagatedTime_iff h hu _).2 (.inl le_rfl)
      · refine (le_propagatedTime_iff h hu _).2 ?_
        rw [baseTime_of_lt _ hlen hu]
        simpa only [ComplexityClass.effectiveDegree_le_iff] using hreach hlen u hu v hv c hc
    · intro hall _ u hu v hv c hc
      have hle := ((propagatedTime_le_iff h hv _).1 le_rfl).2 c hc
      have := (le_propagatedTime_iff h hu _).1 (hle.trans (hall u hu v hv))
      rw [baseTime_of_lt _ hlen hu] at this
      simpa only [ComplexityClass.effectiveDegree_le_iff] using this
  · refine iff_of_true (fun hlt => absurd hlt hlen) fun u hu v hv => ?_
    obtain ⟨w, rfl⟩ := List.length_eq_one_iff.1
      (le_antisymm (not_lt.1 hlen) (List.length_pos_of_mem hu))
    rw [List.mem_singleton.1 hu, List.mem_singleton.1 hv]

/-- The failing workspace: `a` and `b` call each other, `a` memoises its results, and
    `b` also calls `c`, which has two nested loops. -/
def memoisedCycle : Workspace where
  symbols := [sym "a" "def a(n):\n    memo[n] = b(n)\n    return memo[n]\n",
    sym "b" "def b(n):\n    c(n)\n    return a(n)\n",
    sym "c" "def c(n):\n    for i in n:\n        for j in n:\n            pass\n"]
  edges := [⟨"a", "b", .calls, 1, []⟩, ⟨"b", "a", .calls, 1, []⟩, ⟨"b", "c", .calls, 1, []⟩]
  sourceOverrides _ := none
  walk sym _ :=
    if sym.name = "a" then ⟨.constant, .constant, [⟨"b", 2, 0, 1, .none⟩], [], true, false⟩
    else if sym.name = "b" then
      ⟨.constant, .constant, [⟨"c", 2, 0, 1, .none⟩, ⟨"a", 3, 0, 1, .none⟩], [], false, false⟩
    else ⟨.polynomial 2 0, .constant, [], [], false, false⟩
where
  sym (name body : String) : Symbol :=
    { id := name, kind := .function, name := name, qualifiedName := name, language := "python",
      module := "m", filePath := "m.py", lineStart := 1, lineEnd := 4, contentHash := name,
      bodyExcerpt := some body }

end Workspace

end Cognis
