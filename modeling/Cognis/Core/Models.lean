/-
  The records of the code knowledge graph (`models.rs`): symbols and the typed
  edges between them.
-/
import Mathlib.Data.Rat.Defs
import Mathlib.Tactic.Common

namespace Cognis

/-- `SymbolKind` -/
inductive SymbolKind where
  | function | classDef | method | interface | route | module | var | const
  deriving DecidableEq, Repr, Inhabited

/-- `EdgeKind` -/
inductive EdgeKind where
  | calls | imports | inherits | implements | reads | writes | routesTo | tests
  deriving DecidableEq, Repr, Inhabited

/-- `Symbol`: one indexed unit of the source. -/
structure Symbol where
  /-- `<lang>:<file_path>:<qualified_name>@<short_hash>` -/
  id : String
  kind : SymbolKind
  name : String
  qualifiedName : String
  language : String
  module : String
  filePath : String
  lineStart : UInt32
  lineEnd : UInt32
  signature : Option String := none
  docstring : Option String := none
  contentHash : String
  bodyExcerpt : Option String := none
  semanticSummary : Option String := none
  riskScore : ℚ := 0
  ambiguous : Bool := false
  untrustedFlags : List String := []
  updatedAt : ℤ := 0
  deriving DecidableEq, Repr, Inhabited

/-- A value in the free-form JSON object of an edge. -/
inductive MetaValue where
  | bool (b : Bool)
  | uint (n : UInt64)
  /-- any other value, by its text -/
  | other (json : String)
  deriving DecidableEq, Repr

/-- `Edge`: a typed relationship, keyed by `(src_id, dst_id, kind)`. -/
structure Edge where
  srcId : String
  dstId : String
  kind : EdgeKind
  confidence : ℚ := 1
  /-- the fields of `meta`; none when it is not an object -/
  metaFields : List (String × MetaValue) := []
  deriving DecidableEq, Repr

/-- `meta.get(key)` -/
def Edge.get (e : Edge) (key : String) : Option MetaValue :=
  (e.metaFields.find? (·.1 == key)).map Prod.snd

/-- `dst_missing` -/
def Edge.dstMissing (e : Edge) : Bool :=
  match e.get "dst_missing" with
  | some (.bool b) => b
  | _ => false

/-- `PlanRequest`: the view of the source tree that a batch is planned from; `π` are
    the paths. -/
inductive PlanRequest (π : Type*) where
  | touched (paths : List π)
  | reconcile
  | full
  deriving DecidableEq, Repr

end Cognis
