/-
  Workspaces whose symbols go by other ids (`complexity.rs`, `resolver.rs`).

  * `HasCall` are the calls that the edges of a workspace record; when these are edges
    as `to_edges` makes them (`Plain`), they decide the calls of each symbol
    (`mem_resolvedCalls`);
  * `Mirrors`: the same call graph (`Mirrors.relabels`), whatever else the symbols hold;
  * `Renames`: the same symbols under other ids, with the same calls;
  * `callsTo_withId`: the resolver finds the same calls between renamed symbols.
-/
import Cognis.Indexer.Order
import Cognis.Indexer.Resolver

namespace Cognis

open Table

/-- The symbol under another id. -/
def Symbol.withId (rename : String → String) (s : Symbol) : Symbol := { s with id := rename s.id }

namespace Workspace

/-! ## Calls of plain edges -/

/-- An edge records a call from an id to another. -/
def HasCall (ws : Workspace) (srcId dstId : String) : Prop :=
  ∃ edge ∈ ws.edges, edge.kind = .calls ∧ edge.dstMissing = false ∧
    edge.srcId = srcId ∧ edge.dstId = dstId

/-- Ids and keys are unique, and the edges carry no loop depth. -/
structure Plain (ws : Workspace) : Prop where
  symbols : Keyed Symbol.id ws.symbols
  edges : Keyed Edge.key ws.edges
  depth : ∀ edge ∈ ws.edges, metaLoopDepth edge = 0

/-- The data of a call from `u` to `v`: the call site of the name in the body. -/
def site (ws : Workspace) (u v : ℕ) : CallEdgeMeta :=
  match (ws.ast u).callSites.find? (·.calleeName == (ws.symbol v).name) with
  | some cs => ⟨max 0 cs.loopDepth, cs.callSites, cs.line, cs.argReduction⟩
  | none => ⟨0, 1, (ws.symbol u).lineStart, .none⟩

variable {ws : Workspace}

theorem idToIdx_iff (hids : Keyed Symbol.id ws.symbols) {id : String} {u : ℕ} :
    ws.idToIdx id = some u ↔ u < ws.symbols.length ∧ (ws.symbol u).id = id := by
  rw [idToIdx_eq_some hids]
  constructor
  · rintro ⟨sym, hsym, rfl⟩
    exact ⟨(List.getElem?_eq_some_iff.1 hsym).1, by rw [symbol_eq hsym]⟩
  · rintro ⟨hu, rfl⟩
    exact ⟨_, getElem?_symbol hu, rfl⟩

theorem callEdge_plain (h : ws.Plain) {edge : Edge} (hedge : edge ∈ ws.edges) {u : ℕ}
    {call : ℕ × CallEdgeMeta} : ws.callEdge edge = some (u, call) ↔
    edge.kind = .calls ∧ edge.dstMissing = false ∧ ws.idToIdx edge.srcId = some u ∧
      ∃ v, ws.idToIdx edge.dstId = some v ∧ call = (v, ws.site u v) := by
  unfold callEdge
  by_cases hskip : edge.kind ≠ .calls ∨ edge.dstMissing = true
  · rw [if_pos hskip]
    refine iff_of_false nofun fun hcall => ?_
    rcases hskip with hkind | hmissing
    · exact hkind hcall.1
    · rw [hcall.2.1] at hmissing
      cases hmissing
  · rw [if_neg hskip]
    rw [not_or, not_not, Bool.not_eq_true] at hskip
    simp only [hskip.1, hskip.2, true_and, h.depth edge hedge]
    cases hsrc : ws.idToIdx edge.srcId with
    | none => simp
    | some u' =>
      cases hdst : ws.idToIdx edge.dstId with
      | none => simp
      | some v =>
        -- the call site is looked up in the body of the caller
        have hsite : ((ws.astById edge.srcId).bind fun ast =>
            ast.callSites.find? (·.calleeName == (ws.symbol v).name)) =
            (ws.ast u').callSites.find? (·.calleeName == (ws.symbol v).name) := by
          rw [ast, ((idToIdx_iff h.symbols).1 hsrc).2]
          cases ws.astById edge.srcId <;> rfl
        simp only [hsite, Option.some.injEq, exists_eq_left']
        unfold site
        cases hfind : (ws.ast u').callSites.find? (·.calleeName == (ws.symbol v).name) with
        | none =>
          simp only [Option.some.injEq, Prod.mk.injEq]
          exact and_congr_right fun hu => by rw [← hu, hfind, eq_comm]
        | some cs =>
          simp only [Option.some.injEq, Prod.mk.injEq]
          exact and_congr_right fun hu => by rw [← hu, hfind, eq_comm]

/-- **The calls of a symbol** are those that the edges record. -/
theorem mem_resolvedCalls (h : ws.Plain) {u : ℕ} (hu : u < ws.symbols.length)
    {call : ℕ × CallEdgeMeta} : call ∈ ws.resolvedCalls u ↔
    ∃ v < ws.symbols.length, ws.HasCall (ws.symbol u).id (ws.symbol v).id ∧
      call = (v, ws.site u v) := by
  have hmem : call ∈ ws.resolvedCalls u ↔
      ∃ edge ∈ ws.edges, ws.callEdge edge = some (u, call) := by
    unfold resolvedCalls
    rw [List.mem_filterMap]
    refine exists_congr fun edge => and_congr_right fun _ => ?_
    cases ws.callEdge edge with
    | none => simp
    | some found =>
      obtain ⟨u', call'⟩ := found
      simp
  rw [hmem]
  constructor
  · rintro ⟨edge, hedge, hcall⟩
    obtain ⟨hkind, hflag, hsrc, v, hdst, rfl⟩ := (callEdge_plain h hedge).1 hcall
    obtain ⟨hv, hvid⟩ := (idToIdx_iff h.symbols).1 hdst
    exact ⟨v, hv, ⟨edge, hedge, hkind, hflag, ((idToIdx_iff h.symbols).1 hsrc).2.symm, hvid.symm⟩, rfl⟩
  · rintro ⟨v, hv, ⟨edge, hedge, hkind, hflag, hsrc, hdst⟩, rfl⟩
    exact ⟨edge, hedge, (callEdge_plain h hedge).2 ⟨hkind, hflag,
      (idToIdx_iff h.symbols).2 ⟨hu, hsrc.symm⟩, v, (idToIdx_iff h.symbols).2 ⟨hv, hdst.symm⟩, rfl⟩⟩

/-- No call is listed twice. -/
theorem nodup_resolvedCalls (h : ws.Plain) (u : ℕ) : (ws.resolvedCalls u).Nodup := by
  unfold resolvedCalls List.Nodup
  rw [List.pairwise_filterMap]
  have hkeys : ws.edges.Pairwise fun e e' => e.key ≠ e'.key := List.pairwise_map.1 h.edges
  refine hkeys.imp_of_mem fun {e e'} he he' hne call hcall call' hcall' heq => hne ?_
  have hfound : ∀ {e : Edge} {c : ℕ × CallEdgeMeta},
      (ws.callEdge e).bind (fun x => if x.1 = u then some x.2 else none) = some c →
        ws.callEdge e = some (u, c) := by
    intro e c hc
    obtain ⟨⟨u', c'⟩, hm, hif⟩ := Option.bind_eq_some_iff.1 hc
    simp only at hif
    split_ifs at hif with hu'
    cases hif
    rw [hm, hu']
  obtain ⟨hkind, -, hsrc, v, hdst, rfl⟩ := (callEdge_plain h he).1 (hfound hcall)
  obtain ⟨hkind', -, hsrc', v', hdst', rfl⟩ := (callEdge_plain h he').1 (hfound hcall')
  obtain rfl : v = v' := (Prod.mk.inj heq).1
  have hids : ∀ {id id' : String} {w : ℕ}, ws.idToIdx id = some w → ws.idToIdx id' = some w →
      id = id' := fun hw hw' =>
    ((idToIdx_iff h.symbols).1 hw).2.symm.trans ((idToIdx_iff h.symbols).1 hw').2
  unfold Edge.key
  rw [hids hsrc hsrc', hids hdst hdst', hkind, hkind']

/-- The body of a symbol is analysed in its source override, if it has one. -/
theorem ast_eq_analyze (hids : Keyed Symbol.id ws.symbols) {u : ℕ} (hu : u < ws.symbols.length) :
    ws.ast u = analyzeSymbolAst ws.walk (ws.symbol u) (ws.sourceOverrides (ws.symbol u).id) := by
  have hrev : Keyed Symbol.id ws.symbols.reverse := by
    unfold Keyed
    rw [List.map_reverse, List.nodup_reverse]
    exact hids
  have hlookup : lookup Symbol.id ws.symbols.reverse (ws.symbol u).id = some (ws.symbol u) :=
    hrev.lookup_eq_some.2 ⟨List.mem_reverse.2 (List.mem_of_getElem? (getElem?_symbol hu)), rfl⟩
  have hbyId : ws.astById (ws.symbol u).id = (lookup Symbol.id ws.symbols.reverse (ws.symbol u).id).map
      fun sym => analyzeSymbolAst ws.walk sym (ws.sourceOverrides sym.id) := rfl
  rw [ast, hbyId, hlookup]
  rfl

/-! ## The same calls -/

/-- The symbols of `ws'` are those of `ws` as far as the call graph goes: name, line and
    analysed body are the same, and so are the calls. -/
structure Mirrors (ws ws' : Workspace) : Prop where
  length : ws'.symbols.length = ws.symbols.length
  name : ∀ u < ws.symbols.length, (ws'.symbol u).name = (ws.symbol u).name
  lineStart : ∀ u < ws.symbols.length, (ws'.symbol u).lineStart = (ws.symbol u).lineStart
  ast : ∀ u < ws.symbols.length, ws'.ast u = ws.ast u
  calls : ∀ u < ws.symbols.length, ∀ v < ws.symbols.length,
    ws'.HasCall (ws'.symbol u).id (ws'.symbol v).id ↔ ws.HasCall (ws.symbol u).id (ws.symbol v).id

namespace Mirrors

variable {ws' : Workspace} (h : Mirrors ws ws')
include h

theorem site_eq {u v : ℕ} (hu : u < ws.symbols.length) (hv : v < ws.symbols.length) :
    ws'.site u v = ws.site u v := by
  unfold site
  rw [h.ast u hu, h.name v hv, h.lineStart u hu]

theorem resolvedCalls_perm (hws : ws.Plain) (hws' : ws'.Plain) {u : ℕ} (hu : u < ws.symbols.length) :
    (ws'.resolvedCalls u).Perm (ws.resolvedCalls u) := by
  refine (List.perm_ext_iff_of_nodup (nodup_resolvedCalls hws' u) (nodup_resolvedCalls hws u)).2 ?_
  intro call
  rw [mem_resolvedCalls hws' (by rwa [h.length]), mem_resolvedCalls hws hu, h.length]
  refine exists_congr fun v => and_congr_right fun hv => ?_
  rw [h.site_eq hu hv, h.calls u hu v hv]

theorem selfCall_eq (hws : ws.Plain) (hws' : ws'.Plain) {u : ℕ} (hu : u < ws.symbols.length) :
    ws'.selfCall u = ws.selfCall u := by
  unfold selfCall
  rw [h.length, h.ast u hu, h.name u hu, (h.resolvedCalls_perm hws hws' hu).any_eq]

/-- **The call graph is the same.** -/
theorem relabels (hws : ws.Plain) (hws' : ws'.Plain) : Relabels ws ws' id where
  lt u hu := by rwa [h.length]
  inj u _ v _ huv := huv
  ast u hu := h.ast u hu
  calls u hu := by
    have hid : (ws.calls u).map (Prod.map id id) = ws.calls u := by simp
    rw [hid]
    unfold Workspace.calls
    rw [id, h.selfCall_eq hws hws' hu]
    exact (h.resolvedCalls_perm hws hws' hu).append_right _

end Mirrors

/-! ## Other ids -/

/-- `ws'` has the symbols of `ws` under other ids, with the same bodies and calls. -/
structure Renames (ws ws' : Workspace) (rename : String → String) : Prop where
  symbols : ws'.symbols = ws.symbols.map (Symbol.withId rename)
  sourceOverrides : ∀ s ∈ ws.symbols, ws'.sourceOverrides (rename s.id) = ws.sourceOverrides s.id
  walk : ∀ s source, ws'.walk (s.withId rename) source = ws.walk s source
  calls : ∀ s ∈ ws.symbols, ∀ t ∈ ws.symbols,
    ws'.HasCall (rename s.id) (rename t.id) ↔ ws.HasCall s.id t.id

namespace Renames

variable {ws' : Workspace} {rename : String → String} (h : Renames ws ws' rename)
include h

theorem length_eq : ws'.symbols.length = ws.symbols.length := by
  rw [h.symbols, List.length_map]

theorem symbol_eq {u : ℕ} (hu : u < ws.symbols.length) :
    ws'.symbol u = (ws.symbol u).withId rename := by
  refine Workspace.symbol_eq ?_
  rw [h.symbols, List.getElem?_map, getElem?_symbol hu]
  rfl

theorem ast_eq (hws : ws.Plain) (hws' : ws'.Plain) {u : ℕ} (hu : u < ws.symbols.length) :
    ws'.ast u = ws.ast u := by
  rw [ast_eq_analyze hws'.symbols (by rwa [h.length_eq]), ast_eq_analyze hws.symbols hu, h.symbol_eq hu]
  have hoverride : ws'.sourceOverrides ((ws.symbol u).withId rename).id =
      ws.sourceOverrides (ws.symbol u).id :=
    h.sourceOverrides _ (List.mem_of_getElem? (getElem?_symbol hu))
  unfold analyzeSymbolAst
  simp only [hoverride, h.walk]
  rfl

/-- **The call graph of the renamed symbols** is the same. -/
theorem mirrors (hws : ws.Plain) (hws' : ws'.Plain) : Mirrors ws ws' where
  length := h.length_eq
  name u hu := by rw [h.symbol_eq hu, Symbol.withId]
  lineStart u hu := by rw [h.symbol_eq hu, Symbol.withId]
  ast u hu := h.ast_eq hws hws' hu
  calls u hu v hv := by
    rw [h.symbol_eq hu, h.symbol_eq hv]
    exact h.calls _ (List.mem_of_getElem? (getElem?_symbol hu)) _
      (List.mem_of_getElem? (getElem?_symbol hv))

end Renames

theorem Relabels.trans {ws' ws'' : Workspace} {τ τ' : ℕ → ℕ} (h : Relabels ws ws' τ)
    (h' : Relabels ws' ws'' τ') : Relabels ws ws'' (τ' ∘ τ) where
  lt u hu := h'.lt _ (h.lt u hu)
  inj u hu v hv huv := h.inj u hu v hv (h'.inj _ (h.lt u hu) _ (h.lt v hv) huv)
  ast u hu := (h'.ast _ (h.lt u hu)).trans (h.ast u hu)
  calls u hu := by
    refine (h'.calls _ (h.lt u hu)).trans (((h.calls u hu).map _).trans (.of_eq ?_))
    rw [List.map_map]
    rfl

/-- **The costs of a symbol do not depend on the ids**, nor on the order of the lists, when
    no component is ambiguous. -/
theorem Renames.costsOf_eq {ws' ws'' : Workspace} {rename : String → String}
    (h : Renames ws ws' rename) (hws : ws.Plain) (hws' : ws'.Plain) (hre : Reorders ws' ws'')
    (hun : ws.NoneAmbiguous) {s : Symbol} (hs : s ∈ ws.symbols) :
    ws''.costsOf (rename s.id) = ws.costsOf s.id := by
  obtain ⟨u, hu⟩ := List.mem_iff_getElem?.1 hs
  have hidx : ws.idToIdx s.id = some u := (idToIdx_eq_some hws.symbols).2 ⟨s, hu, rfl⟩
  have hlt := idToIdx_lt hidx
  have hlt' : u < ws'.symbols.length := by rwa [h.length_eq]
  have hid : (ws'.symbol u).id = rename s.id := by
    rw [h.symbol_eq hlt, Workspace.symbol_eq hu]
    rfl
  have hidx' := hre.idToIdx_symbol hws'.symbols hlt'
  rw [hid] at hidx'
  have hcosts := (((h.mirrors hws hws').relabels hws hws').trans (hre.relabels hws'.symbols)).costs_eq hun hlt
  unfold costsOf
  rw [hidx', hidx, Option.map_some, Option.map_some]
  exact congrArg some hcosts

end Workspace

/-! ## The resolver -/

theorem Edge.key_ne_of_src {e e' : Edge} (hsrc : e.srcId ≠ e'.srcId) : e.key ≠ e'.key := by
  intro hkey
  exact hsrc (congrArg (fun k : EdgeKey => (ofLex k).1) hkey)

theorem keyed_resolvedEdges {unicode : UnicodeTables} {symbols : List Symbol} :
    Keyed Edge.key (resolvedEdges unicode symbols) := by
  unfold Keyed resolvedEdges
  rw [List.map_map]
  exact keyed_resolveEdges

theorem metaLoopDepth_resolvedEdges {unicode : UnicodeTables} {symbols : List Symbol} {edge : Edge}
    (h : edge ∈ resolvedEdges unicode symbols) : Workspace.metaLoopDepth edge = 0 := by
  obtain ⟨resolved, -, rfl⟩ := List.mem_map.1 h
  unfold Workspace.metaLoopDepth ResolvedEdge.toEdge Edge.get
  dsimp only
  split_ifs <;> rfl

/-- The calls that resolved edges record. -/
theorem hasCall_resolvedEdges {unicode : UnicodeTables} {symbols : List Symbol}
    (hids : Keyed Symbol.id symbols) {s t : Symbol} (hs : s ∈ symbols) (ht : t ∈ symbols) :
    (∃ edge ∈ resolvedEdges unicode symbols, edge.kind = .calls ∧ edge.dstMissing = false ∧
      edge.srcId = s.id ∧ edge.dstId = t.id) ↔ CallsTo unicode symbols s t := by
  constructor
  · rintro ⟨_, hmem, hkind, -, hsrc, hdst⟩
    obtain ⟨edge, hedge, rfl⟩ := List.mem_map.1 hmem
    obtain ⟨caller, hcaller, callee, hcallee, hs', ht', hcalls⟩ :=
      resolveEdges_calls_iff.1 ⟨edge, hedge, hkind, hsrc, hdst⟩
    rwa [← hids.eq hcaller hs hs', ← hids.eq hcallee ht ht']
  · intro hcalls
    obtain ⟨edge, hedge, hkind, hsrc, hdst⟩ :=
      resolveEdges_calls_iff.2 ⟨s, hs, t, ht, rfl, rfl, hcalls⟩
    exact ⟨edge.toEdge, List.mem_map_of_mem hedge, hkind, edge.toEdge_dstMissing, hsrc, hdst⟩

section
variable {unicode : UnicodeTables} {rename : String → String} {symbols symbols' : List Symbol}
  (hperm : symbols'.Perm (symbols.map (Symbol.withId rename)))
  (hinj : ∀ s ∈ symbols, ∀ t ∈ symbols, rename s.id = rename t.id → s.id = t.id)
include hperm hinj

theorem crossCount_withId {caller callee : Symbol} (hcaller : caller ∈ symbols) :
    crossCount symbols' (caller.withId rename) (callee.withId rename) =
      crossCount symbols caller callee := by
  unfold crossCount
  rw [hperm.countP_eq, List.countP_map]
  refine List.countP_congr fun c hc => ?_
  have hid : (c.withId rename).id = (caller.withId rename).id ↔ c.id = caller.id :=
    ⟨hinj c hc caller hcaller, congrArg rename⟩
  simp only [Function.comp_apply, Bool.and_eq_true, bne_iff_ne, ne_eq, hid]
  rfl

/-- **The calls that are found** do not depend on the ids, nor on the order of the
    symbols. -/
theorem callsTo_withId {caller callee : Symbol} (hcaller : caller ∈ symbols)
    (hcallee : callee ∈ symbols) :
    CallsTo unicode symbols' (caller.withId rename) (callee.withId rename) ↔
      CallsTo unicode symbols caller callee := by
  have hid : (callee.withId rename).id = (caller.withId rename).id ↔ callee.id = caller.id :=
    ⟨hinj callee hcallee caller hcaller, congrArg rename⟩
  have hconf : callConfidence symbols' (caller.withId rename) (callee.withId rename) =
      callConfidence symbols caller callee := by
    unfold callConfidence
    rw [crossCount_withId hperm hinj hcaller]
    simp only [hid]
    rfl
  constructor
  · rintro ⟨hsource, hname, hconfident⟩
    exact ⟨hsource, hname, hconf ▸ hconfident⟩
  · rintro ⟨hsource, hname, hconfident⟩
    exact ⟨hsource, hname, hconf.symm ▸ hconfident⟩

end

end Cognis
