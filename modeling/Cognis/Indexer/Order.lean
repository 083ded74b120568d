/-
  The order of the symbols and of the edges in `analyze_workspace_complexity`.

  * `Reorders`: the same workspace, its lists in another order;
  * `Reorders.relabels`: the call graph is the same under other numbers;
  * `order_independent`: the costs are the same when no component is ambiguous;
  * `not_order_independent`: two functions that call each other, one halving its
    argument and one decrementing it.
-/
import Cognis.Indexer.Callers
import Cognis.Indexer.Relabel
import Cognis.Lib.Table
import Mathlib.Data.List.GetD

namespace Cognis

open Champion Table

namespace Workspace

/-- `ws'` is `ws` with its symbols and its edges in another order. -/
structure Reorders (ws ws' : Workspace) : Prop where
  symbols : ws'.symbols.Perm ws.symbols
  edges : ws'.edges.Perm ws.edges
  sourceOverrides : ws'.sourceOverrides = ws.sourceOverrides
  walk : ws'.walk = ws.walk

/-- The `propagated_time` and the `propagated_space` in the report of a symbol. -/
def costsOf (ws : Workspace) (id : String) : Option (ComplexityClass × ComplexityClass) :=
  (ws.idToIdx id).map ws.costs

variable {ws ws' : Workspace}

/-! ## Numbers and ids -/

theorem idToIdx_eq_some (hids : Keyed Symbol.id ws.symbols) {id : String} {u : ℕ} :
    ws.idToIdx id = some u ↔ ∃ sym, ws.symbols[u]? = some sym ∧ sym.id = id := by
  have hkeyed : Keyed (fun x : Symbol × ℕ => x.1.id) ws.symbols.zipIdx.reverse := by
    unfold Keyed
    rw [List.map_reverse, List.nodup_reverse, ← Function.comp_def, ← List.map_map,
      List.zipIdx_map_fst]
    exact hids
  have hlookup : ws.idToIdx id =
      (lookup (fun x : Symbol × ℕ => x.1.id) ws.symbols.zipIdx.reverse id).map Prod.snd := rfl
  rw [hlookup, Option.map_eq_some_iff]
  simp only [hkeyed.lookup_eq_some, List.mem_reverse]
  constructor
  · rintro ⟨⟨sym, i⟩, ⟨hmem, hid⟩, rfl⟩
    exact ⟨sym, List.mk_mem_zipIdx_iff_getElem?.1 hmem, hid⟩
  · rintro ⟨sym, hsym, hid⟩
    exact ⟨(sym, u), ⟨List.mk_mem_zipIdx_iff_getElem?.2 hsym, hid⟩, rfl⟩

theorem getElem?_symbol {u : ℕ} (hu : u < ws.symbols.length) :
    ws.symbols[u]? = some (ws.symbol u) := by
  unfold symbol
  rw [List.getD_eq_getElem _ _ hu, List.getElem?_eq_getElem hu]

theorem symbol_eq {u : ℕ} {sym : Symbol} (h : ws.symbols[u]? = some sym) : ws.symbol u = sym := by
  unfold symbol
  rw [List.getD_eq_getElem?_getD, h]
  rfl

namespace Reorders

variable (h : Reorders ws ws') (hids : Keyed Symbol.id ws.symbols)
include h hids

theorem keyed : Keyed Symbol.id ws'.symbols := (h.symbols.map _).nodup_iff.2 hids

theorem astById_eq (id : String) : ws'.astById id = ws.astById id := by
  have hfind : lookup Symbol.id ws'.symbols.reverse id = lookup Symbol.id ws.symbols.reverse id := by
    have hrev : Keyed Symbol.id ws.symbols.reverse := by
      unfold Keyed
      rwa [List.map_reverse, List.nodup_reverse]
    have hrev' : Keyed Symbol.id ws'.symbols.reverse := by
      unfold Keyed
      rw [List.map_reverse, List.nodup_reverse]
      exact h.keyed hids
    ext sym
    rw [hrev'.lookup_eq_some, hrev.lookup_eq_some, List.mem_reverse, List.mem_reverse,
      h.symbols.mem_iff]
  unfold astById
  rw [h.walk, h.sourceOverrides]
  exact congrArg (Option.map _) hfind

/-- The new number of a symbol. -/
theorem exists_twin {u : ℕ} (hu : u < ws.symbols.length) :
    ∃ u', ws'.idToIdx (ws.symbol u).id = some u' ∧ ws'.symbols[u']? = some (ws.symbol u) := by
  have hmem : ws.symbol u ∈ ws'.symbols :=
    h.symbols.mem_iff.2 (List.mem_of_getElem? (getElem?_symbol hu))
  obtain ⟨u', hu'⟩ := List.mem_iff_getElem?.1 hmem
  exact ⟨u', (idToIdx_eq_some (h.keyed hids)).2 ⟨_, hu', rfl⟩, hu'⟩

end Reorders

/-- The number in `ws'` of the symbol `u` of `ws`. -/
def twin (ws ws' : Workspace) (u : ℕ) : ℕ := (ws'.idToIdx (ws.symbol u).id).getD 0

namespace Reorders

section
variable (h : Reorders ws ws') (hids : Keyed Symbol.id ws.symbols) {u v : ℕ}
  (hu : u < ws.symbols.length)
include h hids hu

theorem idToIdx_symbol : ws'.idToIdx (ws.symbol u).id = some (twin ws ws' u) := by
  obtain ⟨u', hidx, -⟩ := h.exists_twin hids hu
  unfold twin
  rw [hidx]
  rfl

theorem getElem?_twin : ws'.symbols[twin ws ws' u]? = some (ws.symbol u) := by
  obtain ⟨u', hidx, hget⟩ := h.exists_twin hids hu
  unfold twin
  rwa [hidx]

theorem twin_lt : twin ws ws' u < ws'.symbols.length :=
  (List.getElem?_eq_some_iff.1 (h.getElem?_twin hids hu)).1

theorem symbol_twin : ws'.symbol (twin ws ws' u) = ws.symbol u :=
  symbol_eq (h.getElem?_twin hids hu)

theorem ast_twin : ws'.ast (twin ws ws' u) = ws.ast u := by
  unfold ast
  rw [h.symbol_twin hids hu, h.astById_eq hids]

theorem twin_inj (hv : v < ws.symbols.length) : twin ws ws' u = twin ws ws' v ↔ u = v := by
  refine ⟨fun heq => ?_, congrArg _⟩
  have hsym : ws.symbol u = ws.symbol v := by
    rw [← h.symbol_twin hids hu, ← h.symbol_twin hids hv, heq]
  have hidx := (idToIdx_eq_some hids).2 ⟨_, getElem?_symbol hu, rfl⟩
  rw [hsym, (idToIdx_eq_some hids).2 ⟨_, getElem?_symbol hv, rfl⟩] at hidx
  exact (Option.some_inj.1 hidx).symm

end

section
variable (h : Reorders ws ws') (hids : Keyed Symbol.id ws.symbols)
include h hids

theorem idToIdx_eq (id : String) : ws'.idToIdx id = (ws.idToIdx id).map (twin ws ws') := by
  ext u'
  rw [idToIdx_eq_some (h.keyed hids), Option.map_eq_some_iff]
  constructor
  · rintro ⟨sym, hget, rfl⟩
    obtain ⟨u, hu⟩ := List.mem_iff_getElem?.1 (h.symbols.mem_iff.1 (List.mem_of_getElem? hget))
    have hidx := (idToIdx_eq_some hids).2 ⟨sym, hu, rfl⟩
    refine ⟨u, hidx, ?_⟩
    have htwin := h.idToIdx_symbol hids (idToIdx_lt hidx)
    rw [symbol_eq hu, (idToIdx_eq_some (h.keyed hids)).2 ⟨sym, hget, rfl⟩] at htwin
    exact (Option.some_inj.1 htwin).symm
  · rintro ⟨u, hidx, rfl⟩
    obtain ⟨sym, hget, rfl⟩ := (idToIdx_eq_some hids).1 hidx
    exact ⟨sym, (h.getElem?_twin hids (idToIdx_lt hidx)).trans (by rw [symbol_eq hget]), rfl⟩

/-! ## The calls -/

theorem callEdge_eq (edge : Edge) : ws'.callEdge edge =
    (ws.callEdge edge).map (Prod.map (twin ws ws') (Prod.map (twin ws ws') id)) := by
  unfold callEdge
  split_ifs with hskip
  · rfl
  rw [h.idToIdx_eq hids, h.idToIdx_eq hids, h.astById_eq hids]
  cases hu : ws.idToIdx edge.srcId with
  | none => rfl
  | some u =>
    cases hv : ws.idToIdx edge.dstId with
    | none => rfl
    | some v =>
      simp only [Option.map_some, h.symbol_twin hids (idToIdx_lt hu),
        h.symbol_twin hids (idToIdx_lt hv)]
      split <;> rfl

theorem resolvedCalls_perm {u : ℕ} (hu : u < ws.symbols.length) :
    (ws'.resolvedCalls (twin ws ws' u)).Perm
      ((ws.resolvedCalls u).map (Prod.map (twin ws ws') id)) := by
  unfold resolvedCalls
  refine (h.edges.filterMap _).trans (.of_eq ?_)
  rw [List.map_filterMap]
  refine List.filterMap_congr fun edge _ => ?_
  rw [h.callEdge_eq hids]
  cases hedge : ws.callEdge edge with
  | none => rfl
  | some call =>
    obtain ⟨w, call⟩ := call
    have hw := idToIdx_lt (callEdge_eq_some hedge).2.2.1
    simp only [Option.map_some, Option.bind_some, Prod.map_apply, h.twin_inj hids hw hu]
    split_ifs <;> rfl

theorem selfCall_eq {u : ℕ} (hu : u < ws.symbols.length) :
    ws'.selfCall (twin ws ws' u) = (ws.selfCall u).map (Prod.map (twin ws ws') id) := by
  have hany : (ws'.resolvedCalls (twin ws ws' u)).any (·.1 == twin ws ws' u) =
      (ws.resolvedCalls u).any (·.1 == u) := by
    rw [(h.resolvedCalls_perm hids hu).any_eq, List.any_map, Bool.eq_iff_iff]
    simp only [List.any_eq_true, Function.comp_apply, Prod.map_fst, beq_iff_eq]
    refine exists_congr fun call => and_congr_right fun hcall => ?_
    exact h.twin_inj hids (calls_lt u call.1 ⟨call, List.mem_append_left _ hcall, rfl⟩) hu
  unfold selfCall
  rw [h.ast_twin hids hu, h.symbol_twin hids hu, hany]
  simp only [hu, h.twin_lt hids hu, true_and]
  split_ifs
  · cases (ws.ast u).callSites.find? (·.calleeName == (ws.symbol u).name) <;> rfl
  · rfl

/-- **The call graph of the reordered lists.** -/
theorem relabels : Relabels ws ws' (twin ws ws') where
  lt u hu := h.twin_lt hids hu
  inj u hu v hv := (h.twin_inj hids hu hv).1
  ast u hu := h.ast_twin hids hu
  calls u hu := by
    unfold calls
    rw [List.map_append, h.selfCall_eq hids hu]
    exact (h.resolvedCalls_perm hids hu).append_right _

end

end Reorders

/-! ## Order independence -/

/-- The costs of every symbol are the same for every order of the symbols and of the
    edges. -/
def OrderFree (ws : Workspace) : Prop :=
  ∀ ws', Reorders ws ws' → ∀ id, ws'.costsOf id = ws.costsOf id

/-- No component is ambiguous when it is solved. -/
def NoneAmbiguous (ws : Workspace) : Prop :=
  ∀ done scc rest, ws.sccs = done ++ scc :: rest → ws.Unambiguous (ws.propagate done) scc

theorem NoneAmbiguous.orderFree (hun : ws.NoneAmbiguous) (hids : Keyed Symbol.id ws.symbols) :
    ws.OrderFree := by
  intro ws' h id
  unfold costsOf
  rw [h.idToIdx_eq hids, Option.map_map]
  cases hu : ws.idToIdx id with
  | none => rw [Option.map_none, Option.map_none]
  | some u =>
    rw [Option.map_some, Option.map_some, Function.comp_apply,
      (h.relabels hids).costs_eq hun (idToIdx_lt hu)]

theorem OrderFree.costs_twin (hfree : ws.OrderFree) (h : Reorders ws ws')
    (hids : Keyed Symbol.id ws.symbols) {u : ℕ} (hu : u < ws.symbols.length) :
    ws'.costs (twin ws ws' u) = ws.costs u := by
  have hid := hfree ws' h (ws.symbol u).id
  have hidx : ws.idToIdx (ws.symbol u).id = some u :=
    (idToIdx_eq_some hids).2 ⟨_, getElem?_symbol hu, rfl⟩
  unfold costsOf at hid
  rw [h.idToIdx_symbol hids hu, hidx, Option.map_some, Option.map_some] at hid
  exact Option.some_inj.1 hid

theorem resolvedCalls_of_first {edge : Edge} {edges : List Edge} {u : ℕ} {call : ℕ × CallEdgeMeta}
    (hedges : ws.edges = edge :: edges) (hedge : ws.callEdge edge = some (u, call)) :
    ∃ tail, ws.resolvedCalls u = call :: tail := by
  unfold resolvedCalls
  rw [hedges]
  exact ⟨_, List.filterMap_cons_some (by rw [hedge]; exact if_pos rfl)⟩

theorem exists_edge_of_outside {scc : List ℕ} {u : ℕ} (hu : u ∈ scc) {call : ℕ × CallEdgeMeta}
    (hcall : call ∈ ws.outsideCalls scc u) :
    ∃ edge ∈ ws.edges, ws.callEdge edge = some (u, call) ∧ call.1 ∉ scc := by
  obtain ⟨hmem, hout⟩ := List.mem_filter.1 hcall
  have hout : call.1 ∉ scc := by simpa using hout
  rcases List.mem_append.1 hmem with hmem | hmem
  · obtain ⟨edge, hedge, hbind⟩ := List.mem_filterMap.1 hmem
    obtain ⟨⟨u', call'⟩, hm, hif⟩ := Option.bind_eq_some_iff.1 hbind
    simp only at hif
    split_ifs at hif with hu'
    cases hif
    subst hu'
    exact ⟨edge, hedge, hm, hout⟩
  · -- a self-edge does not leave the component
    unfold selfCall at hmem
    split_ifs at hmem
    · cases hfind : (ws.ast u).callSites.find? (·.calleeName == (ws.symbol u).name) with
      | none => rw [hfind] at hmem; cases hmem
      | some cs =>
        rw [hfind] at hmem
        rw [List.mem_singleton.1 hmem] at hout
        exact absurd hu hout
    · cases hmem

/-- A most expensive call whose edge comes first gives the caller its cost. -/
theorem OrderFree.costs_of_first (hfree : ws.OrderFree) (hids : Keyed Symbol.id ws.symbols)
    {scc : List ℕ} (hscc : scc ∈ ws.sccs) (hrec : ws.RecursionDecided scc) {u : ℕ} (hu : u ∈ scc)
    {call : ℕ × CallEdgeMeta} (hcall : call ∈ ws.outsideCalls scc u)
    {π : ComplexityClass × ComplexityClass → ComplexityClass} (hπ : Part π)
    (hlt : (π (seqMaxBoth (ws.baseCosts scc) (ws.localCosts u))).degreeCode <
      (π (inducedCosts ws.costs call)).degreeCode)
    (hmax : ∀ c ∈ ws.outsideCalls scc u,
      (π (inducedCosts ws.costs c)).degreeCode ≤ (π (inducedCosts ws.costs call)).degreeCode) :
    π (ws.costs u) = π (inducedCosts ws.costs call) := by
  have hult := Relabels.lt_of_mem hscc hu
  obtain ⟨edge, hmem, hedge, hout⟩ := exists_edge_of_outside hu hcall
  -- the edge of the call, moved to the front
  have h : Reorders ws { ws with edges := edge :: ws.edges.erase edge } :=
    ⟨.refl _, (List.perm_cons_erase hmem).symm, rfl, rfl⟩
  generalize hws' : { ws with edges := edge :: ws.edges.erase edge } = ws' at h
  have hrel := h.relabels hids
  obtain ⟨scc', hscc', hmem'⟩ := List.mem_flatten.1 (mem_sccs.2 (h.twin_lt hids hult))
  obtain ⟨done', rest', hsccs'⟩ := List.append_of_mem hscc'
  have hp := hrel.scc_perm hscc hscc' hu hmem'
  have hlocal : ws'.localCosts (twin ws ws' u) = ws.localCosts u := by
    unfold localCosts
    rw [h.ast_twin hids hult]
  -- its callees cost what they did
  have hinduced : ∀ c ∈ ws.outsideCalls scc u,
      inducedCosts ws'.costs (Prod.map (twin ws ws') id c) = inducedCosts ws.costs c := by
    intro c hc
    have hlt := calls_lt u c.1 ⟨c, (List.mem_filter.1 hc).1, rfl⟩
    simp only [inducedCosts, Prod.map_fst, Prod.map_snd, id_eq, hfree.costs_twin h hids hlt]
  have hfirst : ∃ tail, ws'.outsideCalls scc' (twin ws ws' u) =
      Prod.map (twin ws ws') id call :: tail := by
    have hedges : ws'.edges = edge :: ws.edges.erase edge := by rw [← hws']
    have hedge' : ws'.callEdge edge =
        some (twin ws ws' u, Prod.map (twin ws ws') id call) := by
      rw [h.callEdge_eq hids, hedge]
      rfl
    obtain ⟨tail, htail⟩ := resolvedCalls_of_first hedges hedge'
    have hnot : twin ws ws' call.1 ∉ scc' :=
      mt (hrel.mem_iff hscc hp (calls_lt u call.1 ⟨call, (List.mem_filter.1 hcall).1, rfl⟩)).1 hout
    unfold outsideCalls calls
    rw [htail, List.cons_append, List.filter_cons_of_pos (by simpa using hnot)]
    exact ⟨_, rfl⟩
  obtain ⟨tail, htail⟩ := hfirst
  have htail_le : ∀ z ∈ (tail.map (inducedCosts ws'.costs)).map π,
      z.degreeCode ≤ (π (inducedCosts ws.costs call)).degreeCode := by
    intro z hz
    obtain ⟨_, hy, rfl⟩ := List.mem_map.1 hz
    obtain ⟨c', hc', rfl⟩ := List.mem_map.1 hy
    have hc'' : c' ∈ ws'.outsideCalls scc' (twin ws ws' u) := by
      rw [htail]
      exact List.mem_cons_of_mem _ hc'
    obtain ⟨c, hc, rfl⟩ := List.mem_map.1 ((hrel.outsideCalls_perm hscc hp hult).mem_iff.1 hc'')
    rw [hinduced c hc]
    exact hmax c hc
  rw [← hfree.costs_twin h hids hult, Workspace.costs_eq hsccs' hmem', hrel.baseCosts_eq hscc hp hrec,
    hlocal, htail, hπ.foldl, List.map_cons, List.map_cons, hinduced call hcall]
  exact foldl_cons_eq hlt htail_le

/-- The converse, where the recursive components are decided: two classes of one
    effective degree that compete are told apart by the order of their edges. -/
theorem OrderFree.noneAmbiguous (hfree : ws.OrderFree) (hids : Keyed Symbol.id ws.symbols)
    (hrec : ∀ scc ∈ ws.sccs, ws.RecursionDecided scc) : ws.NoneAmbiguous := by
  intro done scc rest hsccs
  have hscc : scc ∈ ws.sccs := by simp [hsccs]
  have hpart : ∀ π, Part π → ∀ u ∈ scc, Decided ComplexityClass.degreeCode
      (π (seqMaxBoth (ws.baseCosts scc) (ws.localCosts u)))
      ((ws.outsideCalls scc u).map fun call =>
        π (inducedCosts (ws.propagate done).costs call)) := by
    intro π hπ u hu
    have hinduced : (ws.outsideCalls scc u).map (fun call =>
        π (inducedCosts (ws.propagate done).costs call)) =
        (ws.outsideCalls scc u).map fun call => π (inducedCosts ws.costs call) :=
      List.map_congr_left fun call hcall => by
        unfold inducedCosts
        rw [costs_of_done hsccs (done_of_outside hsccs hu hcall).2]
    rw [hinduced]
    intro x hx y hy hlt hmax hkey
    obtain ⟨cx, hcx, rfl⟩ := List.mem_map.1 hx
    obtain ⟨cy, hcy, rfl⟩ := List.mem_map.1 hy
    have hmax' := fun c hc => hmax _ (List.mem_map_of_mem (f := fun call =>
      π (inducedCosts ws.costs call)) (a := c) hc)
    have htakex := hfree.costs_of_first hids hscc (hrec scc hscc) hu hcx hπ hlt hmax'
    have htakey := hfree.costs_of_first hids hscc (hrec scc hscc) hu hcy hπ (hkey ▸ hlt)
      (hkey ▸ hmax')
    exact htakey.symm.trans htakex
  exact ⟨hrec scc hscc, hpart _ (.inl rfl), hpart _ (.inr rfl)⟩

/-- **Order independence**: the costs do not depend on the order of the symbols and of
    the edges when no component is ambiguous, and only then where the recursive
    components are decided. -/
theorem order_independent (ws : Workspace) (hids : Keyed Symbol.id ws.symbols) :
    (ws.NoneAmbiguous → ws.OrderFree) ∧
      ((∀ scc ∈ ws.sccs, ws.RecursionDecided scc) → (ws.OrderFree ↔ ws.NoneAmbiguous)) :=
  ⟨fun hun => hun.orderFree hids,
    fun hrec => ⟨fun hfree => hfree.noneAmbiguous hids hrec, fun hun => hun.orderFree hids⟩⟩

/-- `memoisedCycle` has no ambiguous component. -/
theorem order_independent_memoisedCycle : memoisedCycle.OrderFree := by
  have hsccs : memoisedCycle.sccs = [[2], [1, 0]] := by decide +kernel
  refine (order_independent memoisedCycle (by decide)).1 ?_
  unfold NoneAmbiguous
  rw [hsccs]
  exact Loop.forall_split_iff.2 (by decide +kernel)

/-- The failing workspace: `f` and `g` call each other, `f` with half of its argument,
    `g` with one less. -/
def opposedCycle : Workspace where
  symbols := [sym "f" "def f(n):\n    return g(n // 2)\n",
    sym "g" "def g(n):\n    return f(n - 1)\n"]
  edges := [⟨"f", "g", .calls, 1, []⟩, ⟨"g", "f", .calls, 1, []⟩]
  sourceOverrides _ := none
  walk sym _ :=
    if sym.name = "f" then ⟨.constant, .constant, [⟨"g", 2, 0, 1, .halving⟩], [], false, false⟩
    else ⟨.constant, .constant, [⟨"f", 2, 0, 1, .decrement⟩], [], false, false⟩
where
  sym (name body : String) : Symbol :=
    { id := name, kind := .function, name := name, qualifiedName := name, language := "python",
      module := "m", filePath := "m.py", lineStart := 1, lineEnd := 2, contentHash := name,
      bodyExcerpt := some body }

/-- With `f` first both are exponential, with `g` first both are `O(n log n)`. -/
theorem not_order_independent :
    ¬ ∀ ws : Workspace, Keyed Symbol.id ws.symbols → ws.OrderFree := by
  intro h
  let reversed : Workspace := { opposedCycle with symbols := opposedCycle.symbols.reverse }
  have heq := h opposedCycle (by decide) reversed ⟨List.reverse_perm _, .refl _, rfl, rfl⟩ "f"
  have hf : opposedCycle.costsOf "f" = some (.exponential 2, .linear) := by decide +kernel
  have hg : reversed.costsOf "f" = some (.nLogN, .logN) := by decide +kernel
  rw [hf, hg] at heq
  cases heq

end Workspace

end Cognis
