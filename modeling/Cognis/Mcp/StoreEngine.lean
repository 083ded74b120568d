/-
  The `StoreEngine` (`store_engine.rs`): the retrieval engine over the store.

  A call of the engine reads the snapshot of its tool call. The one thing it shares with
  other calls is the resident graph, a cell with the code graph of one generation.

  * `StoreEngine.answer` is what a call returns, from the snapshot and from the code graph
    that it is given;
  * `ToolSession` is a tool call on its snapshot; `StoreEngine.advance` is its next step,
    with what the step does to the resident graph.
-/
import Cognis.Mcp.Tools
import Cognis.Store.Reads

namespace Cognis

/-- A `StoreEngine`, without its database and its resident graph. -/
structure StoreEngine where
  sql : Sqlite
  /-- `diffuse_seed_hits`, on a code graph -/
  diffuseSeedHits : CodeGraph → List (List Hit) → ℕ → ℚ → ℚ → EngineResult (List Hit)
  /-- the digest of the query embedder -/
  queryFingerprint : String
  integrationEdgeContext : Bool

/-- What a step meets outside the store: the statements that fail, and the model slot. -/
structure Occasion where
  /-- the error of the `n`-th statement of the step -/
  sqlError : ℕ → Option String := fun _ => none
  /-- `model.is_loaded()` -/
  modelLoaded : Bool := false
  /-- `embed_text` of the embedder, where there is one; none when it fails -/
  embedder : Option (String → Option Vector32) := none

namespace StoreEngine

variable (engine : StoreEngine)

/-! ## The calls -/

/-- `vector_space_allows` -/
def vectorSpaceAllows (db : Database) : Bool :=
  db.vectorSpace.any fun space => space.digest ≠ "" ∧ space.digest = engine.queryFingerprint

/-- A value read by the `n`-th statement, unless the statement fails. -/
def read {α : Type} (o : Occasion) (value : α) (n : ℕ := 0) : EngineResult α :=
  match o.sqlError n with
  | some e => .error e
  | none => .ok value

def semanticSearch (db : Database) (o : Occasion) (query : String) (k : ℕ) :
    EngineResult (List Hit) :=
  let q := String.ofList (Text.trim query.toList)
  match read o (engine.vectorSpaceAllows db), o.embedder with
  | .ok true, some embedText =>
    if q = "" ∨ k = 0 then .ok []
    else
      match embedText q with
      -- the count of the rows, before the search, is only reported
      | some vector => read o (db.vecSearch engine.sql vector k) 2
      | none => .ok []
  | _, _ => .ok []

/-- `Direction::parse_str` -/
def parseDirection (s : String) : Option Direction :=
  if s = "out" then some .outbound
  else if s = "in" then some .inbound
  else if s = "both" then some .both
  else none

/-- The end of an edge that a hop goes on to from a node. -/
def neighbor (direction : Direction) (node : String) (edge : Edge) : Option String :=
  match direction with
  | .outbound => if edge.srcId = node then some edge.dstId else none
  | .inbound => if edge.dstId = node then some edge.srcId else none
  | .both =>
    if edge.srcId = node then some edge.dstId
    else if edge.dstId = node then some edge.srcId
    else none

/-- The variables of the trace. -/
structure Trace where
  visited : List String
  next : List String := []
  hits : List Hit := []

/-- One edge, from a node of the frontier. -/
def Trace.follow (direction : Direction) (hop : ℕ) (node : String) (t : Trace) (edge : Edge) :
    Trace :=
  if edge.dstMissing then t
  else
    match neighbor direction node edge with
    | none => t
    | some id =>
      if id ∈ t.visited then t
      else
        { visited := t.visited ++ [id]
          next := t.next ++ [id]
          hits := t.hits ++ [⟨id, Binary64.round (1 / hop), "structural", "dependency",
            .object [("depth", .number (toString hop))]⟩] }

/-- The hops that are left, from the `hop`-th on. -/
def traceHops (db : Database) (o : Occasion) (direction : Direction) :
    ℕ → ℕ → List String → Trace → EngineResult (List Hit)
  | 0, _, _, t => .ok t.hits
  | left + 1, hop, frontier, t => do
    let edges ← read o (db.edgesIncident frontier direction) hop
    let t := frontier.foldl (fun t node => edges.foldl (Trace.follow direction hop node) t)
      { t with next := [] }
    if t.next = [] then .ok t.hits else traceHops db o direction left (hop + 1) t.next t

def dependencyTrace (db : Database) (o : Occasion) (symbolId direction : String) (depth : ℕ) :
    EngineResult (List Hit) :=
  match parseDirection direction with
  | none => .ok []
  | some direction => traceHops db o direction depth 1 [symbolId] { visited := [symbolId] }

/-- What a call returns: its reads are those of the state `db`, and `graph` is the code graph
    that it has, or the error of building it. -/
def answer (db : Database) (graph : EngineResult CodeGraph) (o : Occasion) :
    (c : EngineCall) → c.Answer
  | .openSnapshot => read o ⟨db.sourceGeneration, db.semanticGeneration, db.queue.length⟩
  | .ftsSearch query k => read o (db.ftsSearch engine.sql query k)
  | .semanticSearch query k => engine.semanticSearch db o query k
  | .diffuse seeds k alpha eps => do engine.diffuseSeedHits (← graph) seeds k alpha eps
  | .hydrate ids => if ids = [] then .ok [] else read o (db.hydrateIds ids)
  | .lookup nameOrId kind =>
    if Text.isBlank nameOrId then .ok none else read o (db.resolveSymbol engine.sql nameOrId kind)
  | .dependencyTrace symbolId direction depth => dependencyTrace db o symbolId direction depth
  | .residentCodeGraph => graph
  | .semanticAvailable =>
    o.modelLoaded && (o.sqlError 0).isNone && decide (0 < db.vecRowCount engine.sql) &&
      (o.sqlError 1).isNone && engine.vectorSpaceAllows db
  | .integrationEdgeContext => engine.integrationEdgeContext
  | .symbolIdsInFile path => read o (db.symbolIdsInFile path)
  | .edgesIncident ids direction => read o (db.edgesIncident ids direction)

/-- Whether a call uses the resident graph. -/
def usesGraph : EngineCall → Bool
  | .diffuse _ _ _ _ | .residentCodeGraph => true
  | _ => false

end StoreEngine

/-! ## Tool calls -/

/-- A tool call on its snapshot (`ToolCtx`): what it has been answered, and what is left of
    its program. -/
structure ToolSession where
  name : String
  args : Json
  snapshot : GenerationSnapshot
  events : List (Prog.Event ToolOp.Answer) := []
  rest : ToolProg ToolOutput
  /-- the code graph that it has built and not yet put into the cell -/
  built : Option CodeGraph := none

namespace ToolSession

/-- `ctx.pinned` -/
def pinned (c : ToolSession) : ℕ := c.snapshot.sourceGeneration

/-- The session of a call, when its snapshot is opened on the state `db`. -/
def start (tb : Toolbox) (db : Database) (name : String) (args : Json) : ToolSession where
  name := name
  args := args
  snapshot := .open db
  rest := Tools.dispatchTool tb (GenerationSnapshot.open db).sourceGeneration name args

/-- The session goes on with an answer. -/
def answered (c : ToolSession) (op : ToolOp) (a : op.Answer) (rest : ToolProg ToolOutput) :
    ToolSession :=
  { c with events := c.events ++ [⟨op, a⟩], rest, built := none }

/-- `FreshnessMetadata::from_ctx`, once the tool has ended. -/
def freshness (c : ToolSession) : Option SnapshotInfo :=
  match c.rest with
  | .ask _ _ => none
  | _ => some ⟨c.pinned, c.snapshot.semanticGeneration, c.snapshot.pendingVectorCount⟩

end ToolSession

/-- The resident graph, with its generation. -/
abbrev ResidentGraph := Option (ℕ × CodeGraph)

namespace StoreEngine

variable (engine : StoreEngine) (caps : Caps)

/-- What a step meets at a stage gate. -/
structure GateOccasion extends Occasion where
  elapsed : ℕ := 0
  isCancelled : Bool := false

/-- The read of `resident_code_graph`: the graph of the generation, unless it is empty. -/
def cached (resident : ResidentGraph) (pinned : ℕ) : Option CodeGraph :=
  match resident with
  | some (gen, graph) => if gen = pinned ∧ graph.nodeIds ≠ [] then some graph else none
  | none => none

/-- The next step of a session. A graph that is not in the cell is built in one step and put
    into the cell in another. -/
def advance (o : GateOccasion) (resident : ResidentGraph) (c : ToolSession) :
    Option (ResidentGraph × ToolSession) :=
  match c.rest with
  | .done _ | .fail _ => none
  | .ask (.gate tool) k =>
    let a := stageGate caps o.elapsed o.isCancelled tool
    some (resident, c.answered (.gate tool) a (k a))
  | .ask (.call call) k =>
    let finish (graph : EngineResult CodeGraph) : ToolSession :=
      let a := engine.answer c.snapshot.db graph o.toOccasion call
      c.answered (.call call) a (k a)
    if usesGraph call then
      match c.built, cached resident c.pinned, o.sqlError 0 with
      | some graph, _, _ => some (some (c.pinned, graph), finish (.ok graph))
      | none, some graph, _ => some (resident, finish (.ok graph))
      | none, none, some e => some (resident, finish (.error e))
      | none, none, none => some (resident, { c with built := some c.snapshot.db.buildCodeGraph })
    else some (resident, finish (read o.toOccasion c.snapshot.db.buildCodeGraph))

end StoreEngine

end Cognis
