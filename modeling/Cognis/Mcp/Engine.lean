/-
  What the tools of the MCP server are written against: the caps (`caps.rs`), the errors
  (`errors.rs`), the stage gate (`server.rs`), and the seam to the engine (`engine.rs`).

  A tool is a program whose requests are the stage gates and the calls of the engine and of
  the snapshot.
-/
import Cognis.Core.Graph
import Cognis.Lib.Program
import Cognis.Retrieval.Fusion
import Cognis.Store.Database

namespace Cognis

/-! ## Errors and caps -/

/-- `McpError` -/
structure McpError where
  code : String
  message : String
  retryable : Bool
  deriving DecidableEq, Repr

namespace McpError

def invalidArgument (message : String) : McpError := ⟨"INVALID_ARGUMENT", message, false⟩

def timeout (message : String) : McpError := ⟨"TIMEOUT", message, true⟩

def notFound (message : String) : McpError := ⟨"SYMBOL_NOT_FOUND", message, false⟩

def internal (message : String) : McpError := ⟨"INTERNAL_ERROR", message, false⟩

end McpError

/-- `Caps`, without the cap on concurrent calls. Durations are in nanoseconds. -/
structure Caps where
  maxK : ℕ := 50
  maxDepth : ℕ := 8
  maxTokens : ℕ := 32000
  minTokens : ℕ := 500
  maxResolveIds : ℕ := 50
  softTimeout : ℕ := 5 * 10 ^ 9
  hardTimeout : ℕ := 10 * 10 ^ 9
  /-- the bounds of the `clamp`s are in order -/
  ordered : 1 ≤ maxK ∧ 1 ≤ maxDepth ∧ minTokens ≤ maxTokens := by decide

namespace Caps

variable (caps : Caps)

/-- `i64::clamp` -/
def clampInt (x : ℤ) (lo hi : ℕ) : ℕ := (max (lo : ℤ) (min x hi)).toNat

def clampK (k : ℤ) : ℕ := clampInt k 1 caps.maxK

def clampDepth (depth : ℤ) : ℕ := clampInt depth 1 caps.maxDepth

def clampTokens (tokens : ℤ) : ℕ := clampInt tokens caps.minTokens caps.maxTokens

/-- `check_resolve_ids` -/
def checkResolveIds (count : ℕ) : Except McpError Unit :=
  if caps.maxResolveIds < count then
    .error (.invalidArgument ("symbol_ids exceeds max " ++ toString caps.maxResolveIds ++ " ids"))
  else .ok ()

end Caps

/-! ## The stage gate -/

/-- `StageDecision` -/
inductive StageDecision where
  | cont | truncate
  deriving DecidableEq, Repr

/-- A duration in seconds, with one decimal. -/
def seconds (nanos : ℕ) : String :=
  let secs := Binary64.add ((nanos / 10 ^ 9 : ℕ) : ℚ) (Binary64.round ((nanos % 10 ^ 9 : ℕ) / 10 ^ 9))
  let tenths := (Binary64.halfEven (secs * 10)).toNat
  toString (tenths / 10) ++ "." ++ toString (tenths % 10)

/-- `stage_gate`, at an observed elapsed time. -/
def stageGate (caps : Caps) (elapsed : ℕ) (isCancelled : Bool) (tool : String) :
    Except McpError StageDecision :=
  if isCancelled then
    .error (.timeout ("Tool '" ++ tool ++ "' was cancelled before completion"))
  else if caps.hardTimeout ≤ elapsed then
    .error (.timeout ("Tool '" ++ tool ++ "' exceeded hard wall time (" ++ seconds elapsed ++
      "s > " ++ seconds caps.hardTimeout ++ "s)"))
  else if caps.softTimeout ≤ elapsed then .ok .truncate
  else .ok .cont

/-! ## The engine -/

/-- The values of a snapshot that a response repeats. -/
structure SnapshotInfo where
  sourceGeneration : ℕ
  semanticGeneration : ℕ
  pendingVectorCount : ℕ
  deriving DecidableEq, Repr

/-- A method of the `RetrievalEngine`, or a query of the snapshot that a tool runs itself. -/
inductive EngineCall
  | openSnapshot
  | ftsSearch (query : String) (k : ℕ)
  | semanticSearch (query : String) (k : ℕ)
  | diffuse (seeds : List (List Hit)) (k : ℕ) (alpha eps : ℚ)
  | hydrate (ids : List String)
  | lookup (nameOrId : String) (kind : Option String)
  | dependencyTrace (symbolId direction : String) (depth : ℕ)
  | residentCodeGraph
  | semanticAvailable
  | integrationEdgeContext
  /-- `snapshot.symbol_ids_in_file` -/
  | symbolIdsInFile (path : String)
  /-- `snapshot.edges_incident` -/
  | edgesIncident (ids : List String) (direction : Direction)

/-- `cognis_core::Result`; an error by its text. -/
abbrev EngineResult (α : Type) := Except String α

/-- What a call returns. -/
def EngineCall.Answer : EngineCall → Type
  | openSnapshot => EngineResult SnapshotInfo
  | ftsSearch _ _ | semanticSearch _ _ | diffuse _ _ _ _ | dependencyTrace _ _ _ =>
    EngineResult (List Hit)
  | hydrate _ => EngineResult (List Symbol)
  | lookup _ _ => EngineResult (Option Symbol)
  | residentCodeGraph => EngineResult CodeGraph
  | semanticAvailable | integrationEdgeContext => Bool
  | symbolIdsInFile _ => EngineResult (List String)
  | edgesIncident _ _ => EngineResult (List Edge)

/-- What a tool asks for: to pass a stage gate, or a call. -/
inductive ToolOp
  | gate (tool : String)
  | call (c : EngineCall)

def ToolOp.Answer : ToolOp → Type
  | gate _ => Except McpError StageDecision
  | call c => c.Answer

/-- A call. -/
def ToolOp.IsCall : ToolOp → Prop
  | gate _ => False
  | call _ => True

/-- A call other than a semantic search. -/
def ToolOp.IsRead : ToolOp → Prop
  | gate _ => False
  | call (.semanticSearch _ _) => False
  | call _ => True

/-- How a tool ends without a result. -/
inductive ToolFailure
  | error (e : McpError)
  | panicked
  deriving DecidableEq, Repr

/-- A tool, or a part of one. -/
abbrev ToolProg := Prog ToolOp.Answer ToolFailure

namespace ToolProg

/-- `map_err(engine_err)?` -/
def ofEngine {α : Type} : EngineResult α → ToolProg α
  | .ok a => .done a
  | .error e => .fail (.error (.internal ("retrieval failed: " ++ e)))

/-- `if continue_stage(ctx, tool)? { p } else { skipped }` -/
def stage {α : Type} (tool : String) (p : ToolProg α) (skipped : α) : ToolProg α :=
  .ask (.gate tool) fun
    | .error e => .fail (.error e)
    | .ok .cont => p
    | .ok .truncate => .done skipped

def ftsSearch (query : String) (k : ℕ) : ToolProg (List Hit) :=
  .ask (.call (.ftsSearch query k)) ofEngine

def semanticSearch (query : String) (k : ℕ) : ToolProg (List Hit) :=
  .ask (.call (.semanticSearch query k)) ofEngine

/-- `if engine.semantic_available(ctx) { engine.semantic_search(..)? } else { [] }` -/
def semanticSearchIfAvailable (query : String) (k : ℕ) : ToolProg (List Hit) :=
  .ask (.call .semanticAvailable) fun
    | true => semanticSearch query k
    | false => .done []

def diffuse (seeds : List (List Hit)) (k : ℕ) (alpha eps : ℚ) : ToolProg (List Hit) :=
  .ask (.call (.diffuse seeds k alpha eps)) ofEngine

def hydrate (ids : List String) : ToolProg (List Symbol) :=
  .ask (.call (.hydrate ids)) ofEngine

/-- `hydrate_map`: the symbols by their ids. -/
def hydrateMap (ids : List String) : ToolProg (List Symbol) :=
  hydrate ids >>= fun symbols => .done (Table.build Symbol.id symbols)

def lookup (nameOrId : String) (kind : Option String) : ToolProg (Option Symbol) :=
  .ask (.call (.lookup nameOrId kind)) ofEngine

def dependencyTrace (symbolId direction : String) (depth : ℕ) : ToolProg (List Hit) :=
  .ask (.call (.dependencyTrace symbolId direction depth)) ofEngine

def integrationEdgeContext : ToolProg Bool := .ask (.call .integrationEdgeContext) .done

/-- `snapshot.edges_incident(..).unwrap_or_default()` -/
def edgesIncident (ids : List String) (direction : Direction) : ToolProg (List Edge) :=
  .ask (.call (.edgesIncident ids direction)) fun
    | .ok edges => .done edges
    | .error _ => .done []

end ToolProg

end Cognis
