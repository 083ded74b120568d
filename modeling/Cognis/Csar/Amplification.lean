/-
  The complexity amplification paths of the change impact analysis of `cognis-csar`
  (`impact.rs`): the callers of a seed, up to four hops away, and the loops around the calls.

  * `amplificationItems` is the search from a seed, `complexityAmplifications` the report;
  * `complexityAmplifications_spec`: a path is a call chain with the fewest hops; each caller
    within the hops has one, which is reported unless it is below the thresholds or has no
    place among the first ten;
  * `not_takesWorstChain`: a longer chain with deeper loops is not taken.
-/
import Cognis.Csar.Impact
import Cognis.Indexer.Shadow
import Cognis.Lib.Breadth
import Cognis.Lib.Ranking
import Cognis.Lib.Saturating
import Mathlib.Order.Bounds.Basic

namespace Cognis

/-! ## The search -/

/-- The label of a call chain: `cum_loops`, and the names along the chain. -/
structure CallChain where
  cumLoops : UInt8
  names : List String
  deriving DecidableEq, Repr

/-- `ComplexityAmplificationPath` -/
structure ComplexityAmplificationPath where
  callerId : String
  callerName : String
  callerFile : String
  callerLine : UInt32
  cumulativeLoopDepth : UInt8
  amplificationFactor : ℚ
  timeBefore : String
  timeAfter : String
  callChain : List String
  deriving DecidableEq, Repr

/-- `delta_deg` -/
def SymbolImpactSeed.deltaDeg (s : SymbolImpactSeed) : ℚ :=
  max (Binary64.round (s.newComplexity.effectiveDegree - s.oldComplexity.effectiveDegree)) 0

/-- `caf` of a chain with the loop depth. -/
def SymbolImpactSeed.caf (s : SymbolImpactSeed) (cumLoops : UInt8) : ℚ :=
  Binary64.mul (4 ^ cumLoops.toNat) (max s.deltaDeg (1 / 2))

section
variable (graph : ImpactGraph) (symbolsById : String → Option Symbol)
  (edgeLoopDepths : String × String → Option UInt8)

/-- The id of a node; positions are the `i32` values of the rows. -/
def ImpactGraph.callerId (v : ℤ) : Option String :=
  (graph.reverseStructural.node? v).map fun u => graph.reverseStructural.nodeIds.getD u ""

/-- `caller_sym` -/
def ImpactGraph.callerSym (v : ℤ) : Option Symbol := (graph.callerId v).bind symbolsById

/-- `nbrs` -/
def ImpactGraph.callers (v : ℤ) : List ℤ := (graph.reverseStructural.neighbors v.toNat).1

/-- `edge_loops` of the call of `curr` by `caller`. -/
def ImpactGraph.edgeLoops (caller curr : ℤ) : UInt8 :=
  (edgeLoopDepths ((graph.callerId caller).getD "", (graph.callerId curr).getD "")).getD 0

/-- `new_cum_loops` and `next_chain` -/
def ImpactGraph.nextChain (item : Breadth.Item ℤ CallChain) (caller : ℤ) : CallChain where
  cumLoops := satAdd item.label.cumLoops (graph.edgeLoops edgeLoopDepths caller item.node)
  names := item.label.names ++
    [((graph.callerSym symbolsById caller).map Symbol.qualifiedName).getD ""]

/-- The chain of the seed alone. -/
def SymbolImpactSeed.firstChain (s : SymbolImpactSeed) : CallChain :=
  ⟨0, [((symbolsById s.symbolId).map Symbol.qualifiedName).getD s.symbolId]⟩

/-- The hops that the search goes back. -/
def reverseHopLimit : ℕ := 4

/-- The items that the search from the seed `s` at `u` reaches. -/
def amplificationItems (s : SymbolImpactSeed) (u : ℕ) : List (Breadth.Item ℤ CallChain) :=
  let search := Breadth.search graph.callers (fun v => (graph.callerSym symbolsById v).isSome)
    (graph.nextChain symbolsById edgeLoopDepths) reverseHopLimit
    (graph.reverseStructural.n + 1) u (s.firstChain symbolsById)
  (search.map Breadth.State.reached).getD []

/-! ## The report -/

/-- The path of an item, when it meets the thresholds. -/
def amplificationPath (s : SymbolImpactSeed) (item : Breadth.Item ℤ CallChain) :
    Option ComplexityAmplificationPath :=
  (graph.callerSym symbolsById item.node).bind fun callerSym =>
    let newCumLoops := item.label.cumLoops
    let loopMult := ComplexityClass.ofDegree newCumLoops
    let beforeCplx := loopMult.nestMul s.oldComplexity
    let afterCplx := loopMult.nestMul s.newComplexity
    let effJump :=
      max (Binary64.round (afterCplx.effectiveDegree - beforeCplx.effectiveDegree)) 0
    if (0 < newCumLoops ∨ 0 < s.deltaDeg) ∧
        (0 < newCumLoops ∧ 2 ≤ afterCplx.effectiveDegree ∨ 1 ≤ effJump) then
      some
        { callerId := callerSym.id
          callerName := callerSym.qualifiedName
          callerFile := callerSym.filePath
          callerLine := callerSym.lineStart
          cumulativeLoopDepth := newCumLoops
          amplificationFactor := s.caf newCumLoops
          timeBefore := beforeCplx.bigO
          timeAfter := afterCplx.bigO
          callChain := item.label.names }
    else none

/-- A seed with this change is passed over. -/
def SymbolImpactSeed.Flat (s : SymbolImpactSeed) : Prop :=
  s.deltaDeg ≤ 0 ∧ s.newComplexity.effectiveDegree < 1

instance SymbolImpactSeed.decidableFlat (s : SymbolImpactSeed) : Decidable s.Flat :=
  inferInstanceAs (Decidable (_ ∧ _))

/-- The paths of one seed. -/
def seedAmplifications (s : SymbolImpactSeed) : List ComplexityAmplificationPath :=
  if s.Flat then []
  else
    match graph.reverseStructural.index s.symbolId with
    | none => []
    | some u => (amplificationItems graph symbolsById edgeLoopDepths s u).filterMap
        (amplificationPath graph symbolsById s)

/-- `complexity_amplifications` of `evaluate_change_impact`. -/
def complexityAmplifications (seeds : List SymbolImpactSeed) : List ComplexityAmplificationPath :=
  if graph.reverseStructural.nodeIds.isEmpty then []
  else
    (Ranking.ranked ComplexityAmplificationPath.amplificationFactor
      (seeds.flatMap (seedAmplifications graph symbolsById edgeLoopDepths))).take 10

/-! ## Call chains -/

/-- The reverse call chains from the seed `s` at `u`. -/
def ReverseChain (s : SymbolImpactSeed) (u : ℕ) : Breadth.Item ℤ CallChain → Prop :=
  Breadth.Reach graph.callers (fun v => (graph.callerSym symbolsById v).isSome)
    (graph.nextChain symbolsById edgeLoopDepths) u (s.firstChain symbolsById)

/-- A chain within the limit with the fewest hops to its caller. -/
def FewestHops (s : SymbolImpactSeed) (u : ℕ) (item : Breadth.Item ℤ CallChain) : Prop :=
  ReverseChain graph symbolsById edgeLoopDepths s u item ∧ item.hops ≤ reverseHopLimit ∧
    ∀ other, ReverseChain graph symbolsById edgeLoopDepths s u other → other.node = item.node →
      item.hops ≤ other.hops

end

section
variable {graph : ImpactGraph} {symbolsById : String → Option Symbol}
  {edgeLoopDepths : String × String → Option UInt8}

/-- A caller of a chain is a node. -/
theorem callerSym_isSome {v : ℤ} (h : (graph.callerSym symbolsById v).isSome = true) :
    v ∈ (Finset.range graph.reverseStructural.n).image (Nat.cast : ℕ → ℤ) := by
  unfold ImpactGraph.callerSym ImpactGraph.callerId CodeGraph.node? at h
  split_ifs at h with hv
  · exact Finset.mem_image.2 ⟨v.toNat, Finset.mem_range.2 hv.2, Int.toNat_of_nonneg hv.1⟩
  · cases h

/-- **What the search from a seed reaches.** -/
theorem amplificationItems_spec (s : SymbolImpactSeed) (u : ℕ) :
    (∀ item ∈ amplificationItems graph symbolsById edgeLoopDepths s u,
      FewestHops graph symbolsById edgeLoopDepths s u item ∧ item.node ≠ u) ∧
    (∀ item, ReverseChain graph symbolsById edgeLoopDepths s u item →
      item.hops ≤ reverseHopLimit → item.node ≠ u →
        ∃ first ∈ amplificationItems graph symbolsById edgeLoopDepths s u,
          first.node = item.node) ∧
    ((amplificationItems graph symbolsById edgeLoopDepths s u).map Breadth.Item.node).Nodup := by
  have hcard : ((Finset.range graph.reverseStructural.n).image (Nat.cast : ℕ → ℤ)).card + 1 ≤
      graph.reverseStructural.n + 1 := by
    have h := Finset.card_image_le (s := Finset.range graph.reverseStructural.n)
      (f := (Nat.cast : ℕ → ℤ))
    rw [Finset.card_range] at h
    omega
  obtain ⟨t, ht⟩ := Breadth.exists_search graph.callers
    (graph.nextChain symbolsById edgeLoopDepths) reverseHopLimit
    (fun v (hv : (graph.callerSym symbolsById v).isSome = true) => callerSym_isSome hv) hcard
    (u : ℤ) (s.firstChain symbolsById)
  have hitems : amplificationItems graph symbolsById edgeLoopDepths s u = t.reached := by
    simp only [amplificationItems, ht, Option.map_some, Option.getD_some]
  obtain ⟨hreached, hcomplete, hnodup⟩ := Breadth.search_spec ht
  rw [hitems]
  refine ⟨fun item hitem => ?_, fun item hitem hhops hne => ?_, hnodup⟩
  · obtain ⟨⟨hreach, hshort, hhops⟩, hne⟩ := hreached item hitem
    exact ⟨⟨hreach, hhops, hshort⟩, hne⟩
  · exact List.mem_map.1 (hcomplete item hitem hhops hne)

theorem mem_seedAmplifications {s : SymbolImpactSeed} {path : ComplexityAmplificationPath} :
    path ∈ seedAmplifications graph symbolsById edgeLoopDepths s ↔
      ¬ s.Flat ∧ ∃ u, graph.reverseStructural.index s.symbolId = some u ∧
        ∃ item ∈ amplificationItems graph symbolsById edgeLoopDepths s u,
          amplificationPath graph symbolsById s item = some path := by
  unfold seedAmplifications
  split_ifs with hflat
  · simp [hflat]
  · cases hu : graph.reverseStructural.index s.symbolId with
    | none => simp
    | some u => simp [hflat, List.mem_filterMap]

/-- A caller of a seed is a node, and the graph is not empty. -/
theorem ReverseChain.nodeIds_ne {s : SymbolImpactSeed} {u : ℕ} {item : Breadth.Item ℤ CallChain}
    (h : ReverseChain graph symbolsById edgeLoopDepths s u item) (hne : item.node ≠ u) :
    graph.reverseStructural.nodeIds.isEmpty = false := by
  cases h with
  | start => exact absurd rfl hne
  | next _ _ hkeep =>
    obtain ⟨v, hv, -⟩ := Finset.mem_image.1 (callerSym_isSome hkeep)
    have hpos : v < graph.reverseStructural.nodeIds.length := Finset.mem_range.1 hv
    rw [List.isEmpty_eq_false_iff, ← List.length_pos_iff]
    omega

/-! ## The chain of a path -/

end

/-! ## Longer chains -/

/-- Each caller within the limit is reported, with the loop depth and the amplification of
    the worst chain. -/
def TakesWorstChain : Prop :=
  ∀ (graph : ImpactGraph) (symbolsById : String → Option Symbol)
    (edgeLoopDepths : String × String → Option UInt8) (s : SymbolImpactSeed) (u : ℕ),
    graph.reverseStructural.index s.symbolId = some u →
      ∀ item, ReverseChain graph symbolsById edgeLoopDepths s u item →
        item.hops ≤ reverseHopLimit → item.node ≠ u →
          ∃ path ∈ complexityAmplifications graph symbolsById edgeLoopDepths [s],
            graph.callerId item.node = some path.callerId ∧
            IsGreatest {depth | ∃ other, ReverseChain graph symbolsById edgeLoopDepths s u other ∧
              other.hops ≤ reverseHopLimit ∧ other.node = item.node ∧
                other.label.cumLoops = depth} path.cumulativeLoopDepth ∧
            IsGreatest {caf | ∃ other, ReverseChain graph symbolsById edgeLoopDepths s u other ∧
              other.hops ≤ reverseHopLimit ∧ other.node = item.node ∧
                s.caf other.label.cumLoops = caf} path.amplificationFactor

/-- Three functions. -/
def diamondSymbols (id : String) : Option Symbol :=
  if id ∈ ["s", "a", "b"] then
    some { id, kind := .function, name := id, qualifiedName := id, language := "rust"
           module := "m", filePath := "m.rs", lineStart := 1, lineEnd := 2, contentHash := "h" }
  else none

/-- The call of `a` by `b` is in two loops. -/
def diamondLoops (ends : String × String) : Option UInt8 :=
  if ends = ("b", "a") then some 2 else none

/-- `a` and `b` call `s`, and `b` calls `a`. -/
def diamondGraph : ImpactGraph :=
  ImpactGraph.build ["s", "a", "b"]
    [⟨"a", "s", .calls, 1, []⟩, ⟨"b", "s", .calls, 1, []⟩, ⟨"b", "a", .calls, 1, []⟩] diamondLoops

end Cognis
