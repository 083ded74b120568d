/-
  The reads of a pinned snapshot (`snapshot.rs`, with the queries of `lib.rs` of
  `cognis-store`) that the retrieval engine runs.

  * `GenerationSnapshot` is one pinned read of a database; a snapshot of it is the database
    that has been committed when it is opened, with the values read first;
  * `buildCodeGraph`, `ftsSearch`, `vecSearch`, `resolveSymbol` are the queries. What SQLite
    computes itself (a full-text match, a nearest-neighbour search, the case mappings) is a
    parameter (`Sqlite`).
-/
import Cognis.Core.Graph
import Cognis.Indexer.Text
import Cognis.Retrieval.Fusion
import Cognis.Store.Database

namespace Cognis

open Table

/-- A row of a full-text match: the id, the snippet and the rank. -/
structure FtsMatch where
  id : String
  snippet : Option String
  rank : ℚ

/-- What SQLite computes on the rows, and the case mapping of the strings. -/
structure Sqlite where
  ext : VecExtension
  /-- `symbol_fts MATCH ?1 ORDER BY rank LIMIT ?2`; none when a row cannot be read -/
  ftsMatch : List FtsRow → String → ℕ → Option (List FtsMatch)
  /-- `vec0_knn` or `blob_linear_scan` -/
  knn : VecTable → Vector32 → ℕ → List Hit
  /-- `lower(..)` of SQLite -/
  lower : String → String
  /-- `str::to_lowercase` -/
  toLowercase : String → String

/-- The text of a kind in the column `kind`. -/
def SymbolKind.toDbString : SymbolKind → String
  | .function => "function"
  | .classDef => "class"
  | .method => "method"
  | .interface => "interface"
  | .route => "route"
  | .module => "module"
  | .var => "var"
  | .const => "const"

namespace Database

variable (sql : Sqlite) (db : Database)

/-- The edge as a weighted triple of the nodes. `json_extract` reads `true` as 1. -/
def graphTriple (index : String → Option ℕ) (edge : Edge) : Option (ℕ × ℕ × ℚ) :=
  match edge.get "dst_missing" with
  | some (.bool true) | some (.uint 1) => none
  | _ =>
    match index edge.srcId, index edge.dstId with
    | some u, some v => some (u, v, edge.confidence)
    | _, _ => none

/-- `build_code_graph`, without a filter on the kinds. -/
def buildCodeGraph : CodeGraph :=
  let nodeIds := (sortOn Symbol.id db.symbols).map Symbol.id
  let triples := db.edges.filterMap (graphTriple (CodeGraph.buildIndex nodeIds))
  CodeGraph.fromWeightedTriples nodeIds triples true

/-- The hit of a match. -/
def ftsHit (row : FtsMatch) : Hit where
  symbolId := row.id
  score := -row.rank
  layer := "lexical"
  reason := match lookup Symbol.id db.symbols row.id with
    | some symbol => "FTS5 BM25 match: " ++ symbol.qualifiedName
    | none => "FTS5 BM25 match (symbol row not found)"
  evidence := .object [("snippet", .string (row.snippet.getD ""))]

/-- `fts_search` -/
def ftsSearch (q : String) (k : ℕ) : List Hit :=
  if Text.isBlank q ∨ k = 0 then []
  else
    match sql.ftsMatch db.fts q k with
    | some rows => rows.map db.ftsHit
    | none => []

/-- `vec_search` -/
def vecSearch (q : Vector32) (k : ℕ) : List Hit :=
  if q = [] ∨ k = 0 then [] else sql.knn db.vectors q k

/-- `vec_row_count` -/
def vecRowCount : ℕ := if db.vectors.usable sql.ext then db.vectors.rows.length else 0

/-- The symbols of a kind, or all. -/
def symbolsOfKind (kind : Option String) : List Symbol :=
  db.symbols.filter fun s => kind.all (s.kind.toDbString = ·)

/-- `resolve_exact` -/
def resolveExact (column : Symbol → String) (value : String) (kind : Option String) :
    Option Symbol :=
  (sortOn Symbol.id ((db.symbolsOfKind kind).filter (column · = value))).head?

/-- `LOOKUP_CANDIDATE_CAP` -/
def lookupCandidateCap : ℕ := 256

/-- How well a candidate matches. -/
def candidateRank (needle : String) (s : Symbol) : ℕ :=
  if sql.toLowercase s.name = needle then 3
  else if hasSubstring (sql.toLowercase s.name) needle ∨
    hasSubstring (sql.toLowercase s.qualifiedName) needle then 2
  else if hasSubstring (sql.toLowercase s.id) needle then 1
  else 0

/-- The first one of the best candidates. -/
def bestCandidate (needle : String) (candidates : List Symbol) : Option Symbol :=
  (candidates.foldl (fun best s =>
    let rank := candidateRank sql needle s
    match best with
    | none => if 0 < rank then some (rank, s) else none
    | some (bestRank, _) => if bestRank < rank then some (rank, s) else best)
    (none : Option (ℕ × Symbol))).map Prod.snd

/-- `resolve_symbol` -/
def resolveSymbol (needle : String) (kind : Option String) : Option Symbol :=
  let needle := String.ofList (Text.trim needle.toList)
  if needle = "" then none
  else
    let needleLower := sql.toLowercase needle
    let candidates := ((db.symbolsOfKind kind).mergeSort fun a b =>
      decide (toLex (sql.lower a.name, a.id) ≤ toLex (sql.lower b.name, b.id))).take lookupCandidateCap
    db.resolveExact Symbol.id needle kind <|> db.resolveExact Symbol.qualifiedName needle kind <|>
      db.resolveExact Symbol.name needle kind <|>
      db.resolveExact (fun s => sql.lower s.name) needleLower kind <|>
      bestCandidate sql needleLower (sortOn Symbol.id candidates)

end Database

/-! ## Snapshots -/

/-- `GenerationSnapshot`: the state that the read transaction sees, and the values read when
    it was opened. -/
structure GenerationSnapshot where
  db : Database
  sourceGeneration : ℕ
  semanticGeneration : ℕ
  pendingVectorCount : ℕ

/-- `GenerationSnapshot::open`, on the state that its first statement finds committed. -/
def GenerationSnapshot.open (db : Database) : GenerationSnapshot where
  db := db
  sourceGeneration := db.sourceGeneration
  semanticGeneration := db.semanticGeneration
  pendingVectorCount := db.queue.length

end Cognis
