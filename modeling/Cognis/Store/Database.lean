/-
  The tables of the store (`cognis-store`) and its bounded reads.

  * `Database` holds the rows of the tables; `symbol_vec` is a `VecTable`, which is
    the plain BLOB table or the `vec0` table of a width;
  * `symbolsInFile`, `symbolsByNames`, `hydrateIds`, `edgesIncident` are the reads of
    the planner, in the order of the key;
  * `recreateVecTable`, `reconcileEmbeddingDim` and `healLegacyVec0` replace the
    vector table.
-/
import Cognis.Core.Models
import Cognis.Lib.Table
import Mathlib.Data.Prod.Lex
import Mathlib.Data.String.Basic

namespace Cognis

open Table

/-! ## Rows -/

/-- `ParseStatus` -/
inductive ParseStatus where
  | ok | partialParse | failed
  deriving DecidableEq, Repr, Inhabited

/-- `FileCacheRow`: a row of `file`. -/
structure FileCacheRow where
  path : String
  language : String
  sizeBytes : ℤ
  /-- `sha256` over the bytes of the file -/
  contentHash : String
  parsedAt : ℤ
  parseStatus : ParseStatus
  deriving DecidableEq, Repr, Inhabited

/-- A row of `symbol_fts`. -/
structure FtsRow where
  id : String
  name : String
  qualifiedName : String
  signature : String
  docstring : String
  bodyExcerpt : String
  deriving DecidableEq, Repr, Inhabited

/-- The row of `symbol_fts` written for a symbol. -/
def Symbol.ftsRow (symbol : Symbol) : FtsRow where
  id := symbol.id
  name := symbol.name
  qualifiedName := symbol.qualifiedName
  signature := symbol.signature.getD ""
  docstring := symbol.docstring.getD ""
  bodyExcerpt := symbol.bodyExcerpt.getD ""

/-- A row of `embedding_queue`. -/
structure QueueRow where
  symbolId : String
  filePath : String
  enqueuedAt : ℤ
  attempts : UInt32 := 0
  nextAttemptAt : ℤ := 0
  lastError : Option String := none
  deriving DecidableEq, Repr, Inhabited

/-- `VectorSpaceFingerprint` -/
structure VectorSpaceFingerprint where
  digest : String
  dim : ℕ
  modelId : String
  deriving DecidableEq, Repr

/-- `Vec<f32>`, by the bits of its entries. -/
abbrev Vector32 := List UInt32

/-- The shape of `symbol_vec`: the plain table of migration 001, or the virtual table
    with a column `FLOAT[dim]`. -/
inductive VecForm where
  | blob
  | vec0 (dim : ℕ)
  deriving DecidableEq, Repr

/-- `symbol_vec` -/
structure VecTable where
  form : VecForm
  rows : List (String × Vector32)
  deriving DecidableEq, Repr

/-- `vec0_table_present` -/
def VecTable.isVec0 (t : VecTable) : Bool :=
  match t.form with
  | .blob => false
  | .vec0 _ => true

/-- `vec_table_dim` -/
def VecTable.dim (t : VecTable) : Option ℕ :=
  match t.form with
  | .blob => none
  | .vec0 dim => some dim

/-- `PublishReason` -/
inductive PublishReason where
  | initial | incremental | reconcile | full | reEmbed
  deriving DecidableEq, Repr

/-- The column `change` of `publish_batch_file`. -/
inductive FileChange where
  | added | changed | removed
  deriving DecidableEq, Repr

/-- A row of `publish_batch` with its rows of `publish_batch_file`. -/
structure PublishedBatch where
  sourceGeneration : ℕ
  fileCount : ℕ
  reason : PublishReason
  files : List (String × FileChange)
  deriving DecidableEq, Repr

/-- The tables. -/
structure Database where
  symbols : List Symbol := []
  fts : List FtsRow := []
  edges : List Edge := []
  vectors : VecTable := ⟨.blob, []⟩
  files : List FileCacheRow := []
  queue : List QueueRow := []
  sourceGeneration : ℕ := 0
  semanticGeneration : ℕ := 0
  vectorSpace : Option VectorSpaceFingerprint := none
  /-- `meta.embedding_dim` -/
  embeddingDim : Option ℕ := none
  batches : List PublishedBatch := []
  deriving DecidableEq, Repr

/-- A database after the migrations. -/
def Database.empty : Database := {}

/-! ## Reads -/

/-- `edge_kind_string` -/
def EdgeKind.toDbString : EdgeKind → String
  | .calls => "calls"
  | .imports => "imports"
  | .inherits => "inherits"
  | .implements => "implements"
  | .reads => "reads"
  | .writes => "writes"
  | .routesTo => "routes_to"
  | .tests => "tests"

/-- `(src_id, dst_id, kind)`: the key of `edge`. -/
abbrev EdgeKey := String ×ₗ String ×ₗ String

instance : LawfulBEq EdgeKey := inferInstance

/-- `edge_delete_key` -/
def Edge.key (edge : Edge) : EdgeKey :=
  toLex (edge.srcId, toLex (edge.dstId, edge.kind.toDbString))

/-- `Direction` -/
inductive Direction where
  | outbound | inbound | both
  deriving DecidableEq, Repr

/-- `follows_outbound` -/
def Direction.followsOutbound : Direction → Bool
  | .outbound | .both => true
  | .inbound => false

/-- `follows_inbound` -/
def Direction.followsInbound : Direction → Bool
  | .inbound | .both => true
  | .outbound => false

namespace Database

variable (db : Database)

/-- `symbols_in_file` -/
def symbolsInFile (path : String) : List Symbol :=
  sortOn Symbol.id (db.symbols.filter (·.filePath = path))

/-- `symbol_ids_in_file` -/
def symbolIdsInFile (path : String) : List String := (db.symbolsInFile path).map Symbol.id

/-- `symbols_by_values_on_connection` -/
def symbolsByValues (column : Symbol → String) (values : List String) : List Symbol :=
  sortOn Symbol.id (db.symbols.filter (column · ∈ values))

/-- `symbols_by_names` -/
def symbolsByNames (names : List String) : List Symbol := db.symbolsByValues Symbol.name names

/-- `symbols_by_qualified_names` -/
def symbolsByQualifiedNames (names : List String) : List Symbol :=
  db.symbolsByValues Symbol.qualifiedName names

/-- `hydrate_ids` -/
def hydrateIds (ids : List String) : List Symbol := db.symbolsByValues Symbol.id ids

/-- `edges_incident` -/
def edgesIncident (ids : List String) (direction : Direction) : List Edge :=
  sortOn Edge.key (db.edges.filter fun edge =>
    (direction.followsOutbound && decide (edge.srcId ∈ ids)) ||
      (direction.followsInbound && decide (edge.dstId ∈ ids)))

/-- Whether a symbol of the id is live. -/
def hasSymbol (id : String) : Bool := db.symbols.any (·.id = id)

/-- Whether a symbol has a row in `symbol_vec`. -/
def hasVector (id : String) : Bool := db.vectors.rows.any (·.1 = id)

/-- Whether a symbol has a row in `embedding_queue`. -/
def isQueued (id : String) : Bool := db.queue.any (·.symbolId = id)

/-- The queue has the row of a symbol. -/
def Awaits (symbol : Symbol) : Prop :=
  ∃ queued ∈ db.queue, queued.symbolId = symbol.id ∧ queued.filePath = symbol.filePath

instance (symbol : Symbol) : Decidable (db.Awaits symbol) :=
  inferInstanceAs (Decidable (∃ queued ∈ db.queue, _ ∧ _))

variable {db}

@[simp] theorem mem_symbolsInFile {path : String} {s : Symbol} :
    s ∈ db.symbolsInFile path ↔ s ∈ db.symbols ∧ s.filePath = path := by
  simp [symbolsInFile]

@[simp] theorem mem_symbolsByValues {column : Symbol → String} {values : List String}
    {s : Symbol} : s ∈ db.symbolsByValues column values ↔ s ∈ db.symbols ∧ column s ∈ values := by
  simp [symbolsByValues]

@[simp] theorem mem_hydrateIds {ids : List String} {s : Symbol} :
    s ∈ db.hydrateIds ids ↔ s ∈ db.symbols ∧ s.id ∈ ids := mem_symbolsByValues

@[simp] theorem mem_edgesIncident_outbound {ids : List String} {e : Edge} :
    e ∈ db.edgesIncident ids .outbound ↔ e ∈ db.edges ∧ e.srcId ∈ ids := by
  simp [edgesIncident, Direction.followsOutbound, Direction.followsInbound]

@[simp] theorem mem_edgesIncident_inbound {ids : List String} {e : Edge} :
    e ∈ db.edgesIncident ids .inbound ↔ e ∈ db.edges ∧ e.dstId ∈ ids := by
  simp [edgesIncident, Direction.followsOutbound, Direction.followsInbound]

@[simp] theorem hasSymbol_iff {id : String} :
    db.hasSymbol id = true ↔ ∃ s ∈ db.symbols, s.id = id := by
  simp [hasSymbol]

@[simp] theorem hasVector_iff {id : String} :
    db.hasVector id = true ↔ ∃ row ∈ db.vectors.rows, row.1 = id := by
  simp [hasVector]

@[simp] theorem isQueued_iff {id : String} :
    db.isQueued id = true ↔ ∃ row ∈ db.queue, row.symbolId = id := by
  simp [isQueued]

end Database

/-! ## The vector table -/

/-- A `vec0` extension, by the widths of the tables it creates; `none` in a build
    that cannot load one (`try_load_vec_extension`). -/
abbrev VecExtension := Option (ℕ → Bool)

/-- The statements on `symbol_vec` prepare: a `vec0` table needs the extension. -/
def VecTable.usable (t : VecTable) (ext : VecExtension) : Bool := !t.isVec0 || ext.isSome

/-- `recreate_vec_table` -/
def recreateVecTable (ext : VecExtension) (isVec0 : Bool) (dim : ℕ) : Except String VecTable :=
  if isVec0 then
    match ext with
    | none => .error "no such module: vec0"
    | some creates =>
      if creates dim then .ok ⟨.vec0 dim, []⟩ else .error "vec0 constructor error"
  else .ok ⟨.blob, []⟩

/-- The `DELETE` and `INSERT` of each row. -/
def VecTable.insertAll (t : VecTable) (ext : VecExtension) (rows : List (String × Vector32)) :
    Except String VecTable :=
  if !t.usable ext then .error "no such module: vec0"
  else if rows.any fun row => t.dim.any (· ≠ row.2.length) then .error "dimension mismatch"
  else .ok { t with rows := upsertAll Prod.fst t.rows rows }

/-- `DEFAULT_EMBEDDING_DIM` -/
def defaultEmbeddingDim : ℕ := 384

namespace Database

variable (db : Database)

/-- The guard of `reconcile_embedding_dim`: the stored dimension, the width of the
    table and its shape are the ones wanted. -/
def embeddingDimReconciled (ext : VecExtension) (dim : ℕ) : Bool :=
  let current := db.embeddingDim.getD defaultEmbeddingDim
  let healVec0 := db.vectors.isVec0 && !ext.isSome
  let upgradeToVec0 := !db.vectors.isVec0 && ext.isSome
  current = dim && db.vectors.dim.all (· = dim) && !healVec0 && !upgradeToVec0

/-- `reconcile_embedding_dim` -/
def reconcileEmbeddingDim (ext : VecExtension) (dim : ℕ) : Except String Database :=
  if db.embeddingDimReconciled ext dim then .ok db
  else
    match recreateVecTable ext ext.isSome dim with
    | .error e => .error e
    | .ok vectors => .ok { db with embeddingDim := some dim, vectors }

/-- `heal_legacy_vec0` -/
def healLegacyVec0 (ext : VecExtension) : Database :=
  if db.vectors.isVec0 && !ext.isSome then { db with vectors := ⟨.blob, []⟩ } else db

end Database

end Cognis
