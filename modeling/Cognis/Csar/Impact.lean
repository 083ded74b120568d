/-
  The change impact analysis of `cognis-csar` (`impact.rs`) on the directed graphs of
  `cognis-core` (`ImpactGraph`): the call sites that a change of contract breaks.

  * `ImpactGraph.build` is the bundle of graphs, `breakingCallSites` the pass over the
    callers of the seeds;
  * `mem_breakingCallers_iff`: a caller is listed when it has a usable edge to a seed with
    a change of contract, is no seed itself, and both are nodes of the graph.
-/
import Cognis.Core.Complexity
import Cognis.Core.Graph
import Cognis.Core.Models

namespace Cognis

open CodeGraph

/-! ## The graphs -/

/-- `ImpactGraph` -/
structure ImpactGraph where
  forward : CodeGraph
  reverseStructural : CodeGraph
  reverseComplexity : CodeGraph
  symmetrized : CodeGraph

/-- `struct_gamma` -/
def EdgeKind.structGamma : EdgeKind → ℚ
  | .calls | .routesTo => 95 / 100
  | .inherits => 9 / 10
  | .implements => 85 / 100
  | .tests => 1
  | .reads | .writes => 8 / 10
  | .imports => 45 / 100

/-- `cplx_gamma` -/
def EdgeKind.cplxGamma : EdgeKind → ℚ
  | .calls | .routesTo => 1
  | .tests => 8 / 10
  | .inherits | .implements => 5 / 10
  | .reads | .writes => 6 / 10
  | .imports => 5 / 100

theorem EdgeKind.structGamma_pos (kind : EdgeKind) : 0 < kind.structGamma := by
  cases kind <;> norm_num [structGamma]

/-- The edge is resolved and has a positive confidence. -/
def Edge.Usable (edge : Edge) : Prop := edge.dstMissing = false ∧ 0 < edge.confidence

/-- The positions of the ends of an edge that counts. -/
def impactEnds (index : String → Option ℕ) (edge : Edge) : Option (ℕ × ℕ) :=
  if edge.dstMissing ∨ edge.confidence ≤ 0 then none
  else
    match index edge.srcId, index edge.dstId with
    | some u, some v => if u = v then none else some (u, v)
    | _, _ => none

/-- The boost of an edge by the loops around its call. -/
def loopBoost (edgeLoopDepths : String × String → Option UInt8) (edge : Edge) : ℚ :=
  let recorded : Option UInt8 :=
    match edge.get "loop_depth" with
    | some (.uint d) => some d.toUInt8
    | _ => none
  let loopDepth := min ((edgeLoopDepths (edge.srcId, edge.dstId) <|> recorded).getD 0) 4
  4 ^ loopDepth.toNat

/-- The triples of a projection: an edge with positions `(u, v)` gives `triple edge u v`. -/
def impactTriples (nodeIds : List String) (edges : List Edge)
    (triple : Edge → ℕ → ℕ → ℕ × ℕ × ℚ) : List (ℕ × ℕ × ℚ) :=
  edges.filterMap fun edge =>
    (impactEnds (buildIndex nodeIds) edge).map fun (u, v) => triple edge u v

/-- `ImpactGraph::build` -/
def ImpactGraph.build (nodeIds : List String) (edges : List Edge)
    (edgeLoopDepths : String × String → Option UInt8) : ImpactGraph where
  forward := fromWeightedTriples nodeIds
    (impactTriples nodeIds edges fun edge u v => (u, v, edge.confidence)) false
  reverseStructural := fromWeightedTriples nodeIds
    (impactTriples nodeIds edges fun edge u v =>
      (v, u, edge.confidence * edge.kind.structGamma)) false
  reverseComplexity := fromWeightedTriples nodeIds
    (impactTriples nodeIds edges fun edge u v =>
      (v, u, edge.confidence * edge.kind.cplxGamma * loopBoost edgeLoopDepths edge)) false
  symmetrized := fromWeightedTriples nodeIds
    (impactTriples nodeIds edges fun edge u v => (u, v, edge.confidence)) true

/-! ## Contract breakage -/

/-- `SymbolImpactSeed` -/
structure SymbolImpactSeed where
  symbolId : String
  contractSeverity : ℚ
  contractReason : Option String
  oldComplexity : ComplexityClass
  newComplexity : ComplexityClass
  deriving DecidableEq, Repr

/-- `f64::clamp` -/
def clamp (x lo hi : ℚ) : ℚ := max lo (min x hi)

/-- `signature_edit` -/
def SymbolImpactSeed.signatureEdit (symbolId : String) (severity : ℚ) (reason : String)
    (oldComplexity newComplexity : ComplexityClass) : SymbolImpactSeed :=
  ⟨symbolId, clamp severity 0 1, some reason, oldComplexity, newComplexity⟩

/-- `ContractBreakageSite` -/
structure ContractBreakageSite where
  callerId : String
  callerName : String
  callerFile : String
  callerLine : UInt32
  targetSymbol : String
  reason : String
  severity : ℚ
  deriving DecidableEq, Repr

section
variable (graph : ImpactGraph) (symbolsById : String → Option Symbol)
  (seeds : List SymbolImpactSeed)

/-- The site of a neighbour of the seed `s` at `u`. -/
def breakageSite (s : SymbolImpactSeed) (u : ℕ) (neighbor : ℤ × ℚ) : Option ContractBreakageSite :=
  let (v, w) := neighbor
  if v = u then none
  else
    match graph.reverseStructural.node? v with
    | none => none
    | some caller =>
      let callerId := graph.reverseStructural.nodeIds.getD caller ""
      -- a caller that is changed by the same patch is discounted
      if callerId ∈ seeds.map SymbolImpactSeed.symbolId then none
      else (symbolsById callerId).map fun callerSym =>
        { callerId := callerSym.id
          callerName := callerSym.qualifiedName
          callerFile := callerSym.filePath
          callerLine := callerSym.lineStart
          targetSymbol := ((symbolsById s.symbolId).map Symbol.qualifiedName).getD s.symbolId
          reason := s.contractReason.getD
            "Signature or contract modified without updating caller"
          severity := clamp (s.contractSeverity * clamp w (1 / 10) 1) 0 1 }

/-- `breaking_call_sites` of `evaluate_change_impact`. -/
def breakingCallSites : List ContractBreakageSite :=
  if graph.reverseStructural.nodeIds.isEmpty then []
  else seeds.flatMap fun s =>
    if s.contractSeverity ≤ 0 then []
    else
      match graph.reverseStructural.index s.symbolId with
      | none => []
      | some u =>
        (graph.reverseStructural.entries u).filterMap (breakageSite graph symbolsById seeds s u)

/-- `contract_breakage_risk` -/
def contractBreakageRisk : ℚ :=
  let survival := (breakingCallSites graph symbolsById seeds).foldl (fun p site =>
    p * (1 - site.severity)) 1
  clamp (1 - survival) 0 1

end

/-! ## The edges that count -/

/-- The edges that count are the usable ones between two nodes. -/
theorem impactEnds_eq_some {nodeIds : List String} {edge : Edge} {u v : ℕ} :
    impactEnds (buildIndex nodeIds) edge = some (u, v) ↔ edge.Usable ∧ edge.srcId ≠ edge.dstId ∧
      buildIndex nodeIds edge.srcId = some u ∧ buildIndex nodeIds edge.dstId = some v := by
  unfold impactEnds Edge.Usable
  split_ifs with hskip
  · refine iff_of_false nofun ?_
    rintro ⟨⟨hmissing, hconf⟩, -⟩
    rcases hskip with h | h
    · rw [hmissing] at h
      cases h
    · exact absurd hconf (not_lt.2 h)
  · push Not at hskip
    have husable : edge.dstMissing = false ∧ 0 < edge.confidence :=
      ⟨by simpa using hskip.1, hskip.2⟩
    cases hu : buildIndex nodeIds edge.srcId with
    | none => simp
    | some u' =>
      cases hv : buildIndex nodeIds edge.dstId with
      | none => simp
      | some v' =>
        dsimp only
        split_ifs with huv
        · subst huv
          have heq := buildIndex_inj hu hv
          simp [heq]
        · have hne : edge.srcId ≠ edge.dstId := by
            intro heq
            rw [heq, hv] at hu
            exact huv (Option.some.inj hu).symm
          simp [husable, hne]

/-! ## The callers that are listed -/

section
variable {nodeIds : List String} {edges : List Edge}
  {edgeLoopDepths : String × String → Option UInt8} {symbolsById : String → Option Symbol}
  {seeds : List SymbolImpactSeed}

/-- The neighbours of a node of the reverse graph are the sources of the usable edges
    into it. -/
theorem exists_mem_reverse
    (hfit : (ImpactGraph.build nodeIds edges edgeLoopDepths).reverseStructural.nnz < 2 ^ 31)
    {u : ℕ} {id : String} (hu : buildIndex nodeIds id = some u) {k : ℤ} (hk : k ≠ u) :
    (∃ w, (k, w) ∈ (ImpactGraph.build nodeIds edges edgeLoopDepths).reverseStructural.entries u) ↔
      ∃ edge ∈ edges, edge.Usable ∧ edge.dstId = id ∧ edge.srcId ≠ id ∧
        ∃ v, buildIndex nodeIds edge.srcId = some v ∧ asI32 v = k := by
  have hlt : ∀ {id u}, buildIndex nodeIds id = some u → u < nodeIds.length := fun h =>
    (List.getElem?_eq_some_iff.1 (buildIndex_spec h)).1
  unfold ImpactGraph.build at hfit ⊢
  rw [exists_mem_entries hfit (hlt hu) hk]
  constructor
  · rintro ⟨t, ht, hadds⟩
    obtain ⟨edge, hedge, hends⟩ := List.mem_filterMap.1 ht
    obtain ⟨⟨v, u'⟩, hpos, rfl⟩ := Option.map_eq_some_iff.1 hends
    obtain ⟨rfl, -, -, -, -, hkey⟩ := hadds
    obtain ⟨husable, hne, hsrc, hdst⟩ := impactEnds_eq_some.1 hpos
    obtain rfl := buildIndex_inj hdst hu
    exact ⟨edge, hedge, husable, rfl, hne, v, hsrc, hkey⟩
  · rintro ⟨edge, hedge, husable, rfl, hne, v, hv, hkey⟩
    have hpos := impactEnds_eq_some.2 ⟨husable, hne, hv, hu⟩
    refine ⟨_, List.mem_filterMap.2 ⟨edge, hedge, by rw [hpos]; rfl⟩, rfl, hlt hu, hlt hv, ?_, ?_, hkey⟩
    · rintro rfl
      exact hne (buildIndex_inj hv hu)
    · exact mul_pos husable.2 edge.kind.structGamma_pos

/-- A caller breaks: it has a usable edge to a seed with a change of contract, and is no
    seed itself. -/
def Breaks (nodeIds : List String) (edges : List Edge) (seeds : List SymbolImpactSeed)
    (callerId : String) : Prop :=
  callerId ∈ nodeIds ∧ callerId ∉ seeds.map SymbolImpactSeed.symbolId ∧
    ∃ s ∈ seeds, 0 < s.contractSeverity ∧ s.symbolId ∈ nodeIds ∧
      ∃ edge ∈ edges, edge.Usable ∧ edge.srcId = callerId ∧ edge.dstId = s.symbolId

/-- The position of a node of a graph whose positions fit an `i32`. -/
theorem node?_asI32 {g : CodeGraph} {v : ℕ} (hsmall : g.n ≤ 2 ^ 31) (hv : v < g.n) :
    g.node? (asI32 v) = some ⟨v, hv⟩ := by
  rw [asI32_of_lt (by omega), node?, dif_pos ⟨by omega, by simpa using hv⟩]
  simp

/-- What makes a site of a neighbour. -/
theorem exists_breakageSite {graph : ImpactGraph} {s : SymbolImpactSeed} {u : ℕ}
    {neighbor : ℤ × ℚ} {callerId : String} :
    (∃ site, breakageSite graph symbolsById seeds s u neighbor = some site ∧
        site.callerId = callerId) ↔
      neighbor.1 ≠ u ∧ ∃ caller, graph.reverseStructural.node? neighbor.1 = some caller ∧
        graph.reverseStructural.nodeIds.getD caller "" ∉ seeds.map SymbolImpactSeed.symbolId ∧
        ∃ sym, symbolsById (graph.reverseStructural.nodeIds.getD caller "") = some sym ∧
          sym.id = callerId := by
  unfold breakageSite
  dsimp only
  split_ifs with hself
  · simp [hself]
  · cases hcaller : graph.reverseStructural.node? neighbor.1 with
    | none => simp
    | some caller =>
      simp only [ne_eq, hself, not_false_eq_true, true_and, Option.some.injEq, exists_eq_left']
      generalize graph.reverseStructural.nodeIds.getD caller "" = id
      split_ifs with hseed
      · exact iff_of_false (by simp) fun h => h.1 hseed
      · simp only [Option.map_eq_some_iff, hseed, not_false_eq_true, true_and]
        constructor
        · rintro ⟨-, ⟨sym, hsym, rfl⟩, hid⟩
          exact ⟨sym, hsym, hid⟩
        · rintro ⟨sym, hsym, hid⟩
          exact ⟨_, ⟨sym, hsym, rfl⟩, hid⟩

/-- **The callers listed** are the ones that break. -/
theorem mem_breakingCallers_iff
    (hfit : (ImpactGraph.build nodeIds edges edgeLoopDepths).reverseStructural.nnz < 2 ^ 31)
    (hsyms : ∀ id ∈ nodeIds, ∃ sym, symbolsById id = some sym ∧ sym.id = id) {callerId : String} :
    (∃ site ∈ breakingCallSites (ImpactGraph.build nodeIds edges edgeLoopDepths) symbolsById seeds,
        site.callerId = callerId) ↔ Breaks nodeIds edges seeds callerId := by
  have hids : (ImpactGraph.build nodeIds edges edgeLoopDepths).reverseStructural.nodeIds = nodeIds :=
    nodeIds_fromWeightedTriples ..
  have hindex : (ImpactGraph.build nodeIds edges edgeLoopDepths).reverseStructural.index =
      buildIndex nodeIds := index_fromWeightedTriples ..
  have hn : (ImpactGraph.build nodeIds edges edgeLoopDepths).reverseStructural.n = nodeIds.length :=
    n_fromWeightedTriples ..
  have hsmall : nodeIds.length ≤ 2 ^ 31 := (n_le_nnz _ _ _).trans hfit.le
  have hreverse := fun {u id} (hu : buildIndex nodeIds id = some u) {k : ℤ} (hk : k ≠ u) =>
    exists_mem_reverse hfit hu hk
  generalize ImpactGraph.build nodeIds edges edgeLoopDepths = graph at *
  -- the node of a position is the symbol of its id
  have hnode : ∀ {id v}, buildIndex nodeIds id = some v →
      ∃ caller, graph.reverseStructural.node? (asI32 v) = some caller ∧
        graph.reverseStructural.nodeIds.getD caller "" = id := by
    intro id v hv
    obtain ⟨hlt, hget⟩ := List.getElem?_eq_some_iff.1 (buildIndex_spec hv)
    refine ⟨⟨v, by omega⟩, node?_asI32 (by omega) (by omega), ?_⟩
    rw [hids, List.getD_eq_getElem _ _ hlt, hget]
  unfold breakingCallSites Breaks
  rw [hids, hindex]
  constructor
  · rintro ⟨site, hsite, hid⟩
    split_ifs at hsite with hempty
    · cases hsite
    obtain ⟨s, hs, hsite⟩ := List.mem_flatMap.1 hsite
    split_ifs at hsite with hsev
    · cases hsite
    cases hu : buildIndex nodeIds s.symbolId with
    | none => simp [hu] at hsite
    | some u =>
      simp only [hu] at hsite
      obtain ⟨⟨k, w⟩, hmem, hsite⟩ := List.mem_filterMap.1 hsite
      obtain ⟨hk, caller, hcaller, hseed, sym, hsym, hsymid⟩ :=
        exists_breakageSite.1 ⟨site, hsite, hid⟩
      obtain ⟨edge, hedge, husable, hdst, -, v, hv, hvk⟩ := (hreverse hu hk).1 ⟨w, hmem⟩
      obtain ⟨caller', hcaller', hsrc⟩ := hnode hv
      rw [hvk, hcaller] at hcaller'
      obtain rfl := Option.some.inj hcaller'
      have hsrcmem : edge.srcId ∈ nodeIds := List.mem_of_getElem? (buildIndex_spec hv)
      rw [hsrc] at hseed hsym
      obtain ⟨sym', hsym', hsymid'⟩ := hsyms _ hsrcmem
      rw [hsym] at hsym'
      obtain rfl := Option.some.inj hsym'
      rw [← hsymid, hsymid']
      exact ⟨hsrcmem, hseed, s, hs, lt_of_not_ge hsev,
        List.mem_of_getElem? (buildIndex_spec hu), edge, hedge, husable, rfl, hdst⟩
  · rintro ⟨hcallermem, hseed, s, hs, hsev, hsmem, edge, hedge, husable, rfl, hdst⟩
    obtain ⟨u, hu⟩ := Option.isSome_iff_exists.1 (buildIndex_isSome.2 hsmem)
    obtain ⟨v, hv⟩ := Option.isSome_iff_exists.1 (buildIndex_isSome.2 hcallermem)
    have hne : edge.srcId ≠ s.symbolId := fun h => hseed (h ▸ List.mem_map_of_mem hs)
    have hvu : asI32 v ≠ (u : ℤ) := by
      obtain ⟨hlt, -⟩ := List.getElem?_eq_some_iff.1 (buildIndex_spec hv)
      rw [asI32_of_lt (by omega)]
      intro h
      obtain rfl : v = u := by exact_mod_cast h
      exact hne (buildIndex_inj hv hu)
    obtain ⟨w, hw⟩ := (hreverse hu hvu).2 ⟨edge, hedge, husable, hdst, hne, v, hv, rfl⟩
    obtain ⟨caller, hcaller, hid⟩ := hnode hv
    obtain ⟨sym, hsym, hsymid⟩ := hsyms _ hcallermem
    obtain ⟨site, hsite, hsiteid⟩ : ∃ site,
        breakageSite graph symbolsById seeds s u (asI32 v, w) = some site ∧
          site.callerId = edge.srcId :=
      exists_breakageSite.2 ⟨hvu, caller, hcaller, by rwa [hid], sym, by rw [hid, hsym], hsymid⟩
    refine ⟨site, ?_, hsiteid⟩
    rw [if_neg (by simpa using List.ne_nil_of_mem hsmem)]
    refine List.mem_flatMap.2 ⟨s, hs, ?_⟩
    rw [if_neg (not_le.2 hsev), hu]
    exact List.mem_filterMap.2 ⟨_, hw, hsite⟩

end

end Cognis
