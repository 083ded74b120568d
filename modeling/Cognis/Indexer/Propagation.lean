/-
  `analyze_workspace_complexity` of `cognis-indexer` (`complexity.rs`): the costs of
  the symbols of a workspace, propagated from callees to callers over the strongly
  connected components of the call graph.

  * `Workspace.calls` is the call graph, `Workspace.sccStep` the step of the loop
    over its components, `Workspace.propagate` the loop.
-/
import Cognis.Core.Complexity
import Cognis.Core.Models
import Cognis.Indexer.Tarjan
import Cognis.Indexer.Text

namespace Cognis

/-! ## The local analysis of a symbol -/

/-- `ArgReduction`: how the arguments change in a recursive call. -/
inductive ArgReduction where
  | none | decrement | halving
  deriving DecidableEq, Repr, Inhabited

/-- `IoEffectKind` -/
inductive IoEffectKind where
  | databaseQuery | networkRpc | filesystemBlocking | sequentialAwaitInLoop
  deriving DecidableEq, Repr

/-- `AstCallSite`: the calls of one name in a body. -/
structure AstCallSite where
  calleeName : String
  line : UInt32
  loopDepth : UInt8
  callSites : UInt16
  argReduction : ArgReduction
  deriving DecidableEq, Repr

/-- `AstComplexitySummary` -/
structure AstComplexitySummary where
  localTime : ComplexityClass
  localSpace : ComplexityClass
  callSites : List AstCallSite
  ioEffects : List (IoEffectKind × UInt32 × UInt8)
  hasMemoization : Bool
  isDirectRecursive : Bool
  deriving DecidableEq, Repr

/-- The summary of a symbol without a body. -/
def AstComplexitySummary.trivial : AstComplexitySummary :=
  ⟨.constant, .constant, [], [], false, false⟩

/-- `analyze_symbol_ast`; `walk` is the pass over the syntax tree of a body. -/
def analyzeSymbolAst (walk : Symbol → String → AstComplexitySummary) (sym : Symbol)
    (fullSourceOverride : Option String) : AstComplexitySummary :=
  let source := (fullSourceOverride <|> sym.bodyExcerpt).getD ""
  if source.toList.all isWhitespace ∨
      ¬ (sym.kind = .function ∨ sym.kind = .method ∨ sym.kind = .route) then .trivial
  else walk sym source

/-- `symbol_has_direct_io` -/
def symbolHasDirectIo (sym : Symbol) : Bool :=
  match sym.bodyExcerpt with
  | none => false
  | some body =>
    let lower := body.map Char.toLower
    ["select ", "insert into", "db.query", "db.execute", "fetch(", "requests."].any
      (hasSubstring lower)

/-! ## The call graph -/

/-- `CallEdgeMeta`, without the callee. -/
structure CallEdgeMeta where
  loopDepth : UInt8
  callSites : UInt16
  callLine : UInt32
  argReduction : ArgReduction
  deriving DecidableEq, Repr

/-- The arguments of `analyze_workspace_complexity`, with the pass over a syntax
    tree that it uses. -/
structure Workspace where
  symbols : List Symbol
  edges : List Edge
  sourceOverrides : String → Option String
  walk : Symbol → String → AstComplexitySummary

namespace Workspace

variable (ws : Workspace)

/-- `symbols[u]` -/
def symbol (u : ℕ) : Symbol := ws.symbols.getD u default

/-- `id_to_idx`: the last symbol of an id wins. -/
def idToIdx (id : String) : Option ℕ :=
  (ws.symbols.zipIdx.reverse.find? (·.1.id == id)).map Prod.snd

/-- `ast_by_id` -/
def astById (id : String) : Option AstComplexitySummary :=
  (ws.symbols.reverse.find? (·.id == id)).map fun sym =>
    analyzeSymbolAst ws.walk sym (ws.sourceOverrides sym.id)

/-- `ast_by_id[&symbols[u].id]` -/
def ast (u : ℕ) : AstComplexitySummary := (ws.astById (ws.symbol u).id).getD .trivial

/-- The `loop_depth` an edge records, cut to a byte. -/
def metaLoopDepth (edge : Edge) : UInt8 :=
  match edge.get "loop_depth" with
  | some (.uint d) => d.toUInt8
  | _ => 0

/-- The caller, the callee and the call data of a resolved `Calls` edge between
    analysed symbols. -/
def callEdge (edge : Edge) : Option (ℕ × ℕ × CallEdgeMeta) :=
  if edge.kind ≠ .calls ∨ edge.dstMissing then none else
    match ws.idToIdx edge.srcId, ws.idToIdx edge.dstId with
    | some u, some v =>
      let depth := metaLoopDepth edge
      let site := (ws.astById edge.srcId).bind fun ast =>
        ast.callSites.find? (·.calleeName == (ws.symbol v).name)
      match site with
      | some cs => some (u, v, ⟨max depth cs.loopDepth, cs.callSites, cs.line, cs.argReduction⟩)
      | none => some (u, v, ⟨depth, 1, (ws.symbol u).lineStart, .none⟩)
    | _, _ => none

/-- The resolved calls of `u`, in the order of the edges. -/
def resolvedCalls (u : ℕ) : List (ℕ × CallEdgeMeta) :=
  ws.edges.filterMap fun edge => (ws.callEdge edge).bind fun (u', call) =>
    if u' = u then some call else none

/-- The self-edge of a symbol that calls itself, when no edge records the call. -/
def selfCall (u : ℕ) : List (ℕ × CallEdgeMeta) :=
  if u < ws.symbols.length ∧ (ws.ast u).isDirectRecursive ∧
      ¬ (ws.resolvedCalls u).any (·.1 == u) then
    match (ws.ast u).callSites.find? (·.calleeName == (ws.symbol u).name) with
    | some cs => [(u, ⟨cs.loopDepth, cs.callSites, cs.line, cs.argReduction⟩)]
    | none => []
  else []

/-- `adj[u]` -/
def calls (u : ℕ) : List (ℕ × CallEdgeMeta) := ws.resolvedCalls u ++ ws.selfCall u

/-- `sccs`: the components of the call graph, callees first. -/
def sccs : List (List ℕ) := tarjanScc ws.calls ws.symbols.length

/-! ## A recursive component -/

/-- `is_recursive_scc` -/
def isRecursiveScc (scc : List ℕ) : Bool :=
  1 < scc.length || scc.length = 1 && (ws.calls (scc.headD 0)).any (·.1 == scc.headD 0)

/-- What the loop over a recursive component collects. -/
structure Recurrence where
  totalBranchCalls : UInt16
  maxLoopInCycle : UInt8
  reduction : ArgReduction
  localWork : ComplexityClass
  anyMemo : Bool
  deriving DecidableEq, Repr

/-- A call inside the component. -/
def Recurrence.addCall (scc : List ℕ) (r : Recurrence) (call : ℕ × CallEdgeMeta) : Recurrence :=
  if call.1 ∈ scc then
    { r with
      totalBranchCalls := satAdd16 r.totalBranchCalls call.2.callSites
      maxLoopInCycle := max r.maxLoopInCycle call.2.loopDepth
      reduction := if r.reduction = .none ∧ call.2.argReduction ≠ .none then call.2.argReduction
        else r.reduction }
  else r

/-- A member of the component. -/
def Recurrence.addMember (scc : List ℕ) (r : Recurrence) (u : ℕ) : Recurrence :=
  let r := match ws.astById (ws.symbol u).id with
    | some ast =>
      { r with
        localWork := r.localWork.seqMax ast.localTime
        anyMemo := r.anyMemo || ast.hasMemoization }
    | none => r
  (ws.calls u).foldl (Recurrence.addCall scc) r

/-- The recurrence of a component. -/
def recurrence (scc : List ℕ) : Recurrence :=
  scc.foldl (Recurrence.addMember ws scc) ⟨0, 0, .none, .constant, false⟩

/-- `scc_time`: the master theorem. -/
def sccTime (scc : List ℕ) : ComplexityClass :=
  let r := ws.recurrence scc
  if !r.anyMemo && (2 ≤ r.totalBranchCalls || 0 < r.maxLoopInCycle) then
    match r.reduction with
    | .halving => ComplexityClass.nLogN.seqMax r.localWork
    | _ => .exponential (min (max r.totalBranchCalls 2) 8).toUInt8
  else
    match r.reduction with
    | .halving => ComplexityClass.logN.nestMul r.localWork
    | _ => ComplexityClass.linear.nestMul r.localWork

/-- `scc_space` -/
def sccSpace (scc : List ℕ) : ComplexityClass :=
  match (ws.recurrence scc).reduction with
  | .halving => .logN
  | _ => .linear

/-! ## Propagation -/

/-- `recursion_kind` -/
inductive RecursionKind where
  | none | directRecursion | mutualRecursion
  deriving DecidableEq, Repr

/-- The tables of the propagation. -/
structure Propagation where
  propagatedTime : ℕ → ComplexityClass
  propagatedSpace : ℕ → ComplexityClass
  recursionKind : ℕ → RecursionKind
  dominantCallee : ℕ → Option (ℕ × UInt8 × UInt32)
  transitiveIo : ℕ → Option (IoEffectKind × ℕ × UInt32)

def Propagation.init : Propagation :=
  ⟨fun _ => .constant, fun _ => .constant, fun _ => .none, fun _ => none, fun _ => none⟩

/-- The members of a recursive component get its recurrence class. -/
def solveScc (scc : List ℕ) (p : Propagation) : Propagation :=
  if ws.isRecursiveScc scc then
    { p with
      propagatedTime := fun u => if u ∈ scc then ws.sccTime scc else p.propagatedTime u
      propagatedSpace := fun u => if u ∈ scc then ws.sccSpace scc else p.propagatedSpace u
      recursionKind := fun u =>
        if u ∈ scc then if 1 < scc.length then .mutualRecursion else .directRecursion
        else p.recursionKind u }
  else p

/-- The cost of a call: the callee's, nested in the loops around the call. -/
def inducedTime (p : Propagation) (call : ℕ × CallEdgeMeta) : ComplexityClass :=
  (ComplexityClass.ofDegree call.2.loopDepth).nestMul (p.propagatedTime call.1)

/-- `best_time` and `best_space` with the tables, inside the loop over the calls of
    a member. -/
structure Best where
  time : ComplexityClass
  space : ComplexityClass
  tables : Propagation

/-- The I/O effect a call lifts to the caller `u`. -/
def liftIo (u : ℕ) (call : ℕ × CallEdgeMeta) (p : Propagation) : Propagation :=
  let (v, edge) := call
  let lift (io : IoEffectKind × ℕ × UInt32) : Propagation :=
    { p with transitiveIo := Function.update p.transitiveIo u (some io) }
  match p.transitiveIo v with
  | some io => if 0 < edge.loopDepth ∧ p.transitiveIo u = none then lift io else p
  | none =>
    if 0 < edge.loopDepth ∧ symbolHasDirectIo (ws.symbol v) ∧ p.transitiveIo u = none then
      lift (.databaseQuery, v, (ws.symbol v).lineStart)
    else p

/-- One call of member `u`; calls inside the component are skipped. -/
def calleeStep (scc : List ℕ) (u : ℕ) (b : Best) (call : ℕ × CallEdgeMeta) : Best :=
  if call.1 ∈ scc then b else
    let induced := inducedTime b.tables call
    let b :=
      if b.time.effectiveDegree < induced.effectiveDegree ∨
          2 ≤ induced.effectiveDegree ∧ b.tables.dominantCallee u = none then
        { b with
          time := b.time.seqMax induced
          tables := { b.tables with
            dominantCallee := Function.update b.tables.dominantCallee u
              (some (call.1, call.2.loopDepth, call.2.callLine)) } }
      else b
    { b with
      space := b.space.seqMax (b.tables.propagatedSpace call.1)
      tables := ws.liftIo u call b.tables }

/-- One member of a component. -/
def memberStep (scc : List ℕ) (p : Propagation) (u : ℕ) : Propagation :=
  let ast := ws.ast u
  let p := match ast.ioEffects.head? with
    | some (kind, line, _) =>
      { p with transitiveIo := Function.update p.transitiveIo u (some (kind, u, line)) }
    | none => p
  let b := (ws.calls u).foldl (ws.calleeStep scc u)
    ⟨(p.propagatedTime u).seqMax ast.localTime, (p.propagatedSpace u).seqMax ast.localSpace, p⟩
  { b.tables with
    propagatedTime := Function.update b.tables.propagatedTime u b.time
    propagatedSpace := Function.update b.tables.propagatedSpace u b.space }

/-- One component. -/
def sccStep (p : Propagation) (scc : List ℕ) : Propagation :=
  scc.foldl (ws.memberStep scc) (ws.solveScc scc p)

/-- The tables after some components. -/
def propagate (sccs : List (List ℕ)) : Propagation := sccs.foldl ws.sccStep .init

/-- `propagated_time` -/
def propagatedTime (u : ℕ) : ComplexityClass := (ws.propagate ws.sccs).propagatedTime u

end Workspace

end Cognis
