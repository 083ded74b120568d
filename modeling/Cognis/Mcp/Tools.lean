/-
  The tools of the MCP server (`tools.rs`), as programs that pass stage gates and call the
  engine, and `tools/call` after its admission (`server.rs`).

  The text analyses that run on a loaded subgraph make no call; they are a parameter
  (`Analyses`), as are the readings of JSON numbers (`JsonNumbers`).

  * `searchHits` and the structures before it are the payloads;
  * `loadAnalysisSubgraph` is the part that the four analysis tools share;
  * `dispatchTool` is the dispatch by name, `callTool` the call on a new snapshot.
-/
import Cognis.Indexer.Shadow
import Cognis.Mcp.Engine

namespace Cognis

/-! ## Parameters -/

/-- What `serde_json` reads from a number literal. -/
structure JsonNumbers where
  asI64 : String → Option ℤ
  asF64 : String → Option ℚ

/-- The report of a symbol that a capsule shows. -/
structure CapsuleReport where
  propagatedTime : String
  spaceComplexity : String
  riskScore : ℚ
  effectiveDegree : ℚ
  advisories : List Json

/-- The analyses that the tools run on symbols and edges, with the texts they render. -/
structure Analyses where
  toLowercase : String → String
  /-- `analyze_workspace_complexity`, by the id -/
  workspaceComplexity : List Symbol → List Edge → String → Option CapsuleReport
  /-- the capsule of `analyze_shadow_patch` -/
  shadowPatch : List Symbol → List Edge → List ShadowFileEdit → List String → String → Except McpError Json
  /-- the reports of `inspect_symbol_complexity`, for the queries and the limit -/
  symbolReports : List Symbol → List Edge → List String → ℕ → Json
  /-- `evaluate_change_impact` for an edit of a symbol, of its signature or to a complexity -/
  blastRadius : List Symbol → List Edge → Symbol → Bool → Option String → Except McpError Json
  /-- the summary of `suggest_optimal_refactor` -/
  refactorSummary : List Symbol → List Edge → List ShadowFileEdit → List String → String → Json

/-- What the tools are run with. -/
structure Toolbox where
  caps : Caps
  numbers : JsonNumbers
  analyses : Analyses

/-- The default caps, whole numbers, and analyses that find nothing. -/
instance Toolbox.inhabited : Inhabited Toolbox where
  default :=
    { caps := {}
      numbers := ⟨String.toInt?, fun _ => none⟩
      analyses :=
        { toLowercase := id
          workspaceComplexity := fun _ _ _ => none
          shadowPatch := fun _ _ _ _ _ => .ok .null
          symbolReports := fun _ _ _ _ => .null
          blastRadius := fun _ _ _ _ _ => .ok .null
          refactorSummary := fun _ _ _ _ _ => .null } }

/-! ## Payloads -/

/-- `search_hit`, with what the tools add; the fields of the symbol are read off it. -/
structure SearchHit where
  symbol : Symbol
  score : ℚ
  matchReason : String
  matchSources : List String := []
  onPath : Option Bool := none
  pprScore : Option ℚ := none

/-- A hit of `dependency_trace`. -/
structure TraceHit where
  symbolId : String
  score : ℚ
  depth : Json
  symbol : Option Symbol

/-- An entry of `relevant_symbols`. -/
structure RelevantSymbol where
  symbol : Symbol
  score : ℚ
  layer : String
  timeComplexity : String
  spaceComplexity : String
  riskScore : ℚ

/-- A context capsule, without its constant fields. -/
structure Capsule where
  goal : String
  taskMode : String
  confidence : ℚ
  relevantSymbols : List RelevantSymbol
  riskAreas : List (Symbol × CapsuleReport)
  compressedContext : String
  sources : List String
  tokenEstimate : ℕ

/-- The value that a tool returns. -/
inductive ToolResult
  | hits (hits : List SearchHit)
  | symbol (sym : Symbol)
  | trace (start direction : String) (depth : ℕ) (hits : List TraceHit)
  | resolved (symbols : List Symbol) (missing : List String) (requestedCount : ℕ)
  | capsule (c : Capsule)
  | analysis (report : Json)
  /-- `json!({})` -/
  | empty

/-- The result, and whether the tool has noted a semantic hit in it. -/
structure ToolOutput where
  result : ToolResult
  semanticIncluded : Bool := false

namespace Tools

open ToolProg Table

/-! ## Arguments -/

def argStr (args : Json) (key : String) : Option String := (args.get key).bind Json.asStr

def requireStr (args : Json) (key : String) : ToolProg String :=
  match argStr args key with
  | some s =>
    if Text.isBlank s then .fail (.error (blank key)) else .done s
  | none => .fail (.error (blank key))
where
  blank (key : String) : McpError :=
    .invalidArgument ("'" ++ key ++ "' is required and must be a non-empty string")

/-- The strings of an array argument. -/
def argStrs (args : Json) (key : String) : Option (List String) :=
  ((args.get key).bind Json.asArray).map (·.filterMap Json.asStr)

section
variable (tb : Toolbox)

def argI64 (args : Json) (key : String) : Option ℤ :=
  match args.get key with
  | some (.number literal) => tb.numbers.asI64 literal
  | _ => none

/-- `Value::as_f64` -/
def asF64 : Json → Option ℚ
  | .number literal => tb.numbers.asF64 literal
  | _ => none

/-- `DEFAULT_K` -/
def defaultK : ℤ := 10

/-- `CSAR_ALPHA` -/
def csarAlpha : ℚ := 15 / 100

/-- `CSAR_EPS` -/
def csarEps : ℚ := 1 / 100000

/-- `CSAR_SEED_K` -/
def csarSeedK : ℕ := 25

/-! ## The search tools -/

/-- `hit_ids` -/
def hitIds (hits : List Hit) : List String := (hits.map Hit.symbolId).eraseDups

/-- The payload of the hits whose symbols are hydrated. -/
def searchHits (symbols : List Symbol) (hits : List Hit) (entry : Hit → Symbol → SearchHit) :
    List SearchHit :=
  hits.filterMap fun h => (lookup Symbol.id symbols h.symbolId).map (entry h)

def symbolSearch (args : Json) : ToolProg ToolOutput := do
  let query ← requireStr args "query"
  let k := tb.caps.clampK ((argI64 tb args "k").getD 8)
  let hits ← stage "symbol_search" (ftsSearch query k) []
  let symbols ← stage "symbol_search" (hydrateMap (hitIds hits)) []
  return ⟨.hits (searchHits symbols hits fun h sym => ⟨sym, h.score, "fts_bm25", [], none, none⟩),
    false⟩

def semanticSearch (args : Json) : ToolProg ToolOutput := do
  let query ← requireStr args "query"
  let k := tb.caps.clampK ((argI64 tb args "k").getD defaultK)
  let hits ← stage "semantic_search" (ToolProg.semanticSearch query k) []
  let symbols ← stage "semantic_search" (hydrateMap (hitIds hits)) []
  let out := searchHits symbols hits fun h sym =>
    ⟨sym, h.score, "semantic_knn", ["semantic"], none, none⟩
  return ⟨.hits out, !out.isEmpty⟩

/-- The layers that have found a symbol, sorted. -/
def foundBy (lexical semantic : List Hit) (symbolId : String) : List String :=
  (if symbolId ∈ lexical.map Hit.symbolId then ["lexical"] else []) ++
    if symbolId ∈ semantic.map Hit.symbolId then ["semantic"] else []

def discoverSymbols (args : Json) : ToolProg ToolOutput := do
  let query ← requireStr args "query"
  let k := tb.caps.clampK ((argI64 tb args "k").getD defaultK)
  let lexical ← stage "discover_symbols" (ftsSearch query k) []
  let semantic ← stage "discover_symbols" (ToolProg.semanticSearch query k) []
  let fused := rrfFuse [lexical, semantic] k defaultRrfK
  let symbols ← stage "discover_symbols" (hydrateMap (hitIds fused)) []
  let out := searchHits symbols fused fun h sym =>
    ⟨sym, h.score, "hybrid_rrf", foundBy lexical semantic h.symbolId, none, none⟩
  return ⟨.hits out, out.any fun hit => "semantic" ∈ hit.matchSources⟩

def diffuseContext (args : Json) : ToolProg ToolOutput := do
  let query ← requireStr args "query"
  let k := tb.caps.clampK ((argI64 tb args "k").getD defaultK)
  let alpha := ((args.get "alpha").bind (asF64 tb)).getD csarAlpha
  let eps := ((args.get "eps").bind (asF64 tb)).getD csarEps
  let lexical ← stage "diffuse_context" (ftsSearch query csarSeedK) []
  let semantic ← stage "diffuse_context" (semanticSearchIfAvailable query csarSeedK) []
  let diffused ← stage "diffuse_context" (diffuse [lexical, semantic] k alpha eps) []
  let symbols ← stage "diffuse_context" (hydrateMap (hitIds diffused)) []
  let out := searchHits symbols diffused fun h sym =>
    ⟨sym, h.score, "csar_diffusion", ["csar"],
      some (((h.evidence.get "on_path").bind Json.asBool).getD false),
      some (((h.evidence.get "ppr_score").bind (asF64 tb)).getD h.score)⟩
  return ⟨.hits out, out.any fun hit => hit.symbol.id ∈ semantic.map Hit.symbolId⟩

def symbolLookup (args : Json) : ToolProg ToolOutput := do
  let nameOrId ← requireStr args "name_or_id"
  let kind := argStr args "kind"
  stage "symbol_lookup" (do
    match ← lookup nameOrId kind with
    | some sym => return ⟨.symbol sym, false⟩
    | none => .fail (.error (.notFound ("No symbol matched '" ++ nameOrId ++ "'"))))
    ⟨.empty, false⟩

def dependencyTrace (args : Json) : ToolProg ToolOutput := do
  let symbolId ← requireStr args "symbol_id"
  let direction := (argStr args "direction").getD "out"
  if direction ∈ ["out", "in", "both"] then
    let depth := tb.caps.clampDepth ((argI64 tb args "depth").getD 3)
    let hits ← stage "dependency_trace" (ToolProg.dependencyTrace symbolId direction depth) []
    let symbols ← stage "dependency_trace" (hydrateMap (hitIds hits)) []
    return ⟨.trace symbolId direction depth (hits.map fun h =>
      ⟨h.symbolId, h.score, (h.evidence.get "depth").getD .null,
        Table.lookup Symbol.id symbols h.symbolId⟩), false⟩
  else .fail (.error (.invalidArgument "'direction' must be one of: out, in, both"))

def resolveSymbols (args : Json) : ToolProg ToolOutput :=
  match argStrs args "symbol_ids" with
  | none => .fail (.error
      (.invalidArgument "'symbol_ids' is required and must be an array of strings"))
  | some ids =>
    match tb.caps.checkResolveIds ids.length with
    | .error e => .fail (.error e)
    | .ok () =>
      stage "resolve_symbols" (do
        let symbols ← hydrateMap ids
        return ⟨.resolved (ids.filterMap (Table.lookup Symbol.id symbols))
          (ids.filter fun id => (Table.lookup Symbol.id symbols id).isNone) ids.length, false⟩)
        ⟨.resolved [] ids ids.length, false⟩

/-! ## The context capsule -/

def classifyTaskMode (task : String) : String :=
  let t := tb.analyses.toLowercase task
  let has := fun words => List.any words (hasSubstring t)
  if has ["bug", "fix", "error", "fail", "crash", "broken"] then "bugfix"
  else if has ["refactor", "rename", "clean up", "restructure"] then "refactor"
  else if has ["test", "coverage", "assert"] then "test"
  else if has ["add", "implement", "feature", "build", "create"] then "feature"
  else if has ["how", "why", "explain", "understand", "what"] then "explain"
  else "chore"

def estimateTokens (text : String) : ℕ := max (text.utf8ByteSize % 2 ^ 32 / 4) 1

/-- `String::truncate`; none when the length is no character boundary. -/
def truncateText : ℕ → List Char → Option (List Char)
  | 0, _ => some []
  | _, [] => some []
  | cap, c :: cs => if c.utf8Size ≤ cap then (truncateText (cap - c.utf8Size) cs).map (c :: ·) else none

/-- The entry of a composed hit. -/
def relevantSymbol (reports : String → Option CapsuleReport) (h : Hit) (sym : Symbol) :
    RelevantSymbol where
  symbol := sym
  score := h.score
  layer := h.layer
  timeComplexity := ((reports sym.id).map CapsuleReport.propagatedTime).getD "O(1)"
  spaceComplexity := ((reports sym.id).map CapsuleReport.spaceComplexity).getD "O(1)"
  riskScore := ((reports sym.id).map CapsuleReport.riskScore).getD sym.riskScore

/-- The text of an entry in the compressed context. -/
def contextText (entry : RelevantSymbol) : String :=
  match entry.symbol.bodyExcerpt with
  | some body => "// " ++ entry.symbol.qualifiedName ++ " [time: " ++ entry.timeComplexity ++
      ", space: " ++ entry.spaceComplexity ++ "]\n" ++ body ++ "\n\n"
  | none => ""

/-- The end of `retrieve_context_capsule`, after its last call. -/
def composeContext (task : String) (maxTokens : ℕ) (composed : List Hit) (symbols : List Symbol)
    (edges : List Edge) : ToolProg ToolOutput :=
  let reports := tb.analyses.workspaceComplexity symbols edges
  let relevant := composed.filterMap fun h =>
    (Table.lookup Symbol.id symbols h.symbolId).map (relevantSymbol reports h)
  let riskAreas := relevant.filterMap fun entry =>
    (reports entry.symbol.id).bind fun rep =>
      if 2 ≤ rep.effectiveDegree ∨ rep.advisories ≠ [] then some (entry.symbol, rep) else none
  let compressed := String.join (relevant.map contextText)
  let capChars := maxTokens * 4
  match if compressed.utf8ByteSize ≤ capChars then some compressed.toList
    else truncateText capChars compressed.toList with
  | none => .fail .panicked
  | some text =>
    let compressed := String.ofList text
    .done
      ⟨.capsule
        { goal := task
          taskMode := classifyTaskMode tb task
          confidence := if relevant.isEmpty then 0 else 3 / 4
          relevantSymbols := relevant
          riskAreas := riskAreas
          compressedContext := compressed
          sources := ((relevant.map (·.symbol.filePath)).mergeSort (· ≤ ·)).eraseReps
          tokenEstimate := min (estimateTokens compressed) maxTokens },
        relevant.any (·.layer = "semantic")⟩

def retrieveContextCapsule (args : Json) : ToolProg ToolOutput := do
  let task ← requireStr args "task"
  let maxTokens := tb.caps.clampTokens ((argI64 tb args "max_tokens").getD 8000)
  let lexical ← stage "retrieve_context_capsule" (ftsSearch task csarSeedK) []
  let semantic ← stage "retrieve_context_capsule" (semanticSearchIfAvailable task csarSeedK) []
  let csar ← stage "retrieve_context_capsule"
    (diffuse [lexical, semantic] csarSeedK csarAlpha csarEps) []
  let symbolBudget := max (maxTokens / 50) 1
  let flag ← integrationEdgeContext
  let composed := composeCapsuleWithEdges [lexical, semantic] csar [] symbolBudget defaultRrfK flag
  let ids := hitIds composed
  let symbols ← stage "retrieve_context_capsule" (hydrateMap ids) []
  let edges ← edgesIncident ids .both
  composeContext tb task maxTokens composed symbols edges

/-! ## The analysis tools -/

/-- `ANALYSIS_SUBGRAPH_CAP` -/
def analysisSubgraphCap : ℕ := 96

/-- `seed_ids` and `seen_ids`. -/
structure Seeds where
  seedIds : List String := []
  seenIds : List String := []

def Seeds.insert (s : Seeds) (id : String) : Seeds :=
  if id ∈ s.seenIds then s else ⟨s.seedIds ++ [id], s.seenIds ++ [id]⟩

/-- The symbols of a file; an error is skipped. -/
def seedFile (path : String) (s : Seeds) : ToolProg Seeds :=
  .ask (.call (.symbolIdsInFile path)) fun
    | .ok ids => .done (ids.foldl Seeds.insert s)
    | .error _ => .done s

/-- The hits of a search; an error is skipped. -/
def seedSearch (query : String) (s : Seeds) : ToolProg Seeds :=
  .ask (.call (.ftsSearch query 10)) fun
    | .ok hits => .done ((hits.map Hit.symbolId).foldl Seeds.insert s)
    | .error _ => .done s

/-- One query: a symbol, or else the hits of a search, and the symbols of a file. -/
def seedQuery (query : String) (s : Seeds) : ToolProg Seeds :=
  let q := String.ofList (Text.trim query.toList)
  if q = "" then .done s
  else .ask (.call (.lookup q none)) fun
    | .ok (some sym) => seedFile q (s.insert sym.id)
    | _ => seedSearch q s >>= seedFile q

/-- A loop over the items of a list. -/
def forEach {α σ : Type} (body : α → σ → ToolProg σ) : List α → σ → ToolProg σ
  | [], s => .done s
  | a :: as, s => body a s >>= forEach body as

/-- The nodes of a small resident graph, or of any one when nothing has matched. -/
def seedResident (s : Seeds) : ToolProg Seeds :=
  .ask (.call .residentCodeGraph) fun
    | .ok graph =>
      if s.seedIds = [] ∨ graph.nodeIds.length ≤ analysisSubgraphCap then
        .done ((graph.nodeIds.take analysisSubgraphCap).foldl Seeds.insert s)
      else .done s
    | .error _ => .done s

/-- The variables of the expansion. -/
structure Cone where
  seenIds : List String
  frontier : List String
  nextFrontier : List String := []
  allEdges : List Edge := []
  seenEdges : List (String × String × EdgeKind) := []

def Cone.visit (c : Cone) (id : String) : Cone :=
  if c.seenIds.length < analysisSubgraphCap ∧ id ∉ c.seenIds then
    { c with seenIds := c.seenIds ++ [id], nextFrontier := c.nextFrontier ++ [id] }
  else c

def Cone.addEdge (c : Cone) (edge : Edge) : Cone :=
  if edge.kind = .imports ∨ (edge.srcId, edge.dstId, edge.kind) ∈ c.seenEdges then c
  else
    let c := { c with seenEdges := c.seenEdges ++ [(edge.srcId, edge.dstId, edge.kind)] }
    let c := (c.visit edge.srcId).visit edge.dstId
    { c with allEdges := c.allEdges ++ [edge] }

/-- The hops. -/
def expand : ℕ → Cone → ToolProg Cone
  | 0, c => .done c
  | hops + 1, c =>
    if c.frontier = [] ∨ analysisSubgraphCap ≤ c.seenIds.length then .done c
    else edgesIncident c.frontier .both >>= fun incident =>
      let c := incident.foldl Cone.addEdge { c with nextFrontier := [] }
      expand hops { c with frontier := c.nextFrontier }

/-- The edges of a symbol, when the snapshot has none. -/
def synthesizeEdges (sym : Symbol) (edges : List Edge) : ToolProg (List Edge) :=
  .ask (.call (.dependencyTrace sym.id "out" 1)) fun
    | .ok hits => .done (edges ++ hits.map fun h => { srcId := sym.id, dstId := h.symbolId, kind := .calls })
    | .error _ => .done edges

/-- The edges of the expansion, or else those of the first symbols. -/
def coneEdges (c : Cone) (symbols : List Symbol) : ToolProg (List Edge) :=
  if c.allEdges = [] ∧ symbols ≠ [] then forEach synthesizeEdges (symbols.take 16) []
  else .done c.allEdges

/-- `load_analysis_subgraph`. The ids of a set stand in the order of their insertion. -/
def loadAnalysisSubgraph (focusQueries filePaths : List String) :
    ToolProg (List Symbol × List Edge) := do
  let seeds ← forEach seedFile filePaths {}
  let seeds ← forEach seedQuery focusQueries seeds
  let seeds ← seedResident seeds
  let cone ← expand 2 { seenIds := seeds.seenIds, frontier := seeds.seedIds }
  let symbols ← hydrate cone.seenIds
  let symbols := sortOn Symbol.id symbols
  let edges ← coneEdges cone symbols
  return (symbols, edges)

/-- The edit of an item of `file_edits`. -/
def fileEdit (item : Json) : Option ShadowFileEdit := do
  let fp ← argStr item "file_path"
  let content ← ((item.get "new_content") <|> (item.get "proposed_content")).bind Json.asStr
  return ⟨fp, content⟩

/-- The edits that `analyze_patch_impact` is asked about. -/
def patchEdits (args : Json) : List ShadowFileEdit :=
  let edits := (((args.get "file_edits").bind Json.asArray).getD []).filterMap fileEdit
  match argStr args "file_path", argStr args "new_content" <|> argStr args "proposed_content" with
  | some fp, some content => if edits.any (·.filePath = fp) then edits else edits ++ [⟨fp, content⟩]
  | _, _ => edits

/-- Its targets. -/
def patchTargets (args : Json) : List String :=
  let targets := (argStrs args "targets").getD []
  let targets := match argStr args "file_path" with
    | some fp => if fp ∈ targets then targets else targets ++ [fp]
    | none => targets
  targets ++ (argStr args "query").toList

/-- `Ok(value)`, or the error. -/
def ofReport : Except McpError Json → ToolProg ToolOutput
  | .ok report => .done ⟨.analysis report, false⟩
  | .error e => .fail (.error e)

def analyzePatchImpact (pinned : ℕ) (args : Json) : ToolProg ToolOutput :=
  stage "analyze_patch_impact" (do
    let fileEdits := patchEdits args
    let targets := patchTargets args
    let (baseSymbols, baseEdges) ← loadAnalysisSubgraph targets (fileEdits.map ShadowFileEdit.filePath)
    let genLabel := if fileEdits.isEmpty then toString pinned else toString pinned ++ "+shadow"
    ofReport (tb.analyses.shadowPatch baseSymbols baseEdges fileEdits targets genLabel))
    ⟨.empty, false⟩

def inspectSymbolComplexity (args : Json) : ToolProg ToolOutput :=
  stage "inspect_symbol_complexity" (do
    let k := tb.caps.clampK ((argI64 tb args "k").getD defaultK)
    let queries := (argStr args "name_or_id" <|> argStr args "query").toList ++
      (argStrs args "symbol_ids").getD []
    let (symbols, edges) ← loadAnalysisSubgraph queries []
    ofReport (.ok (tb.analyses.symbolReports symbols edges queries k)))
    ⟨.empty, false⟩

/-- The target of `trace_blast_radius`. -/
def blastTarget (args : Json) : Option String :=
  argStr args "symbol_id" <|> argStr args "name_or_id" <|> argStr args "query" <|>
    ((((args.get "symbol_ids").bind Json.asArray).bind List.head?).bind Json.asStr).bind fun s =>
      let s := String.ofList (Text.trim s.toList)
      if s = "" then none else some s

/-- The report on the symbol of the target. -/
def blastReport (args : Json) (target : String) (symbols : List Symbol) (edges : List Edge)
    (found : Option Symbol) : ToolProg ToolOutput :=
  let sigChanged := ((args.get "signature_changed").bind Json.asBool).getD false
  match found <|> symbols.find? fun s => s.id = target || s.qualifiedName = target || s.name = target with
  | none => .fail (.error (.notFound ("No symbol matched '" ++ target ++ "'")))
  | some sym =>
    ofReport (tb.analyses.blastRadius symbols edges sym sigChanged (argStr args "new_complexity"))

def traceBlastRadius (args : Json) : ToolProg ToolOutput :=
  match blastTarget args with
  | none => .fail (.error (.invalidArgument "'symbol_id' (or 'name_or_id') is required"))
  | some target =>
    stage "trace_blast_radius" (do
      let (symbols, edges) ← loadAnalysisSubgraph [target] []
      let found ← lookup target none
      blastReport tb args target symbols edges found)
      ⟨.empty, false⟩

def suggestOptimalRefactor (args : Json) : ToolProg ToolOutput :=
  stage "suggest_optimal_refactor" (do
    let target := (argStr args "target" <|> argStr args "name_or_id" <|> argStr args "query").getD ""
    let filePath := (argStr args "file_path").getD "src/snippet.ts"
    let fileEdits := (argStr args "code_snippet").toList.map fun snippet => ⟨filePath, snippet⟩
    let queries := if target = "" then [] else [target]
    let (baseSymbols, baseEdges) ← loadAnalysisSubgraph queries (fileEdits.map ShadowFileEdit.filePath)
    ofReport (.ok (tb.analyses.refactorSummary baseSymbols baseEdges fileEdits queries target)))
    ⟨.empty, false⟩

/-! ## Dispatch -/

def dispatchTool (pinned : ℕ) (name : String) (args : Json) : ToolProg ToolOutput :=
  match name with
  | "symbol_search" => symbolSearch tb args
  | "semantic_search" => semanticSearch tb args
  | "discover_symbols" => discoverSymbols tb args
  | "diffuse_context" => diffuseContext tb args
  | "symbol_lookup" => symbolLookup args
  | "dependency_trace" => dependencyTrace tb args
  | "resolve_symbols" => resolveSymbols tb args
  | "retrieve_context_capsule" => retrieveContextCapsule tb args
  | "analyze_patch_impact" => analyzePatchImpact tb pinned args
  | "inspect_symbol_complexity" => inspectSymbolComplexity tb args
  | "trace_blast_radius" => traceBlastRadius tb args
  | "suggest_optimal_refactor" => suggestOptimalRefactor tb args
  | other => .fail (.error (.invalidArgument ("unknown tool '" ++ other ++ "'")))

/-- A call, from the start of its deadline: its tool on a new snapshot. -/
def callTool (name : String) (args : Json) : ToolProg (ToolOutput × SnapshotInfo) :=
  .ask (.call .openSnapshot) fun
    | .error e => .fail (.error (.internal ("failed to pin generation snapshot: " ++ e)))
    | .ok info => do
      let output ← dispatchTool tb info.sourceGeneration name args
      return (output, info)

end

end Tools

end Cognis
