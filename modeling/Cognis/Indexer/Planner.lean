/-
  `ChangePlanner::plan` of `cognis-indexer` (`planner.rs`): the batch that one view of
  the source tree publishes.

  * `touchedFiles` compares the tree with the file cache; `withAffectedDependents` and
    `withReferenceDependents` add the files that may refer to what has changed;
  * `buildBatch` turns the files to write and to delete into a batch.
-/
import Cognis.Indexer.Admission
import Cognis.Indexer.Resolver
import Cognis.Store.Publish
import Mathlib.Data.List.Dedup

namespace Cognis

open Table

/-! ## The code that the planner runs -/

/-- `ParseOutput`, the fields of the planner. -/
structure ParseOutput where
  status : ParseStatus
  language : Option String
  symbols : List Symbol

/-- The parsers, the enricher and the hash. The symbols of a file carry its path. -/
structure Frontend where
  parseSource : String → String → ParseOutput
  extractArtifact : ArtifactKind → String → String → ParseOutput
  /-- the symbol of `enrich` -/
  enrich : Symbol → Symbol
  /-- `exact_byte_hash` -/
  exactByteHash : ByteArray → String
  parseSource_path : ∀ path source, ∀ s ∈ (parseSource path source).symbols, s.filePath = path
  extractArtifact_path : ∀ kind path source,
    ∀ s ∈ (extractArtifact kind path source).symbols, s.filePath = path
  enrich_path : ∀ s, (enrich s).filePath = s.filePath

/-- The planner, with the clock. -/
structure ChangePlanner where
  config : IndexConfig
  unicode : UnicodeTables
  frontend : Frontend
  /-- the ids of the hits of `fts_search` -/
  ftsSearch : Database → String → ℕ → List String
  /-- `unix_timestamp` -/
  now : ℤ

/-- `REFERENCE_CANDIDATE_CAP` -/
def referenceCandidateCap : ℕ := 256

/-- The elements of a `BTreeSet`. -/
def btreeSet {α : Type} [LinearOrder α] (l : List α) : List α := (sortOn id l).dedup

@[simp] theorem mem_btreeSet {α : Type} [LinearOrder α] {l : List α} {x : α} :
    x ∈ btreeSet l ↔ x ∈ l := by
  rw [btreeSet, List.mem_dedup, mem_sortOn]

/-- `PlannedFile` -/
structure PlannedFile where
  row : FileCacheRow
  symbols : List Symbol
  oldSymbols : List Symbol

/-! ## Parsing a file -/

namespace ChangePlanner

variable (planner : ChangePlanner)

/-- `admitted_language` -/
def admittedLanguage (path : String) : String :=
  match planner.config.detectLanguage path with
  | some label => label
  | none =>
    match planner.config.detectArtifact path with
    | some .yaml => "yaml"
    | some .toml => "toml"
    | some .sql => "sql"
    | some .html => "html"
    | some .markdown => "markdown"
    | none => "text"

/-- The parser of a path, on its text. -/
def parseText (path source : String) : ParseOutput :=
  if (planner.config.detectLanguage path).isSome then planner.frontend.parseSource path source
  else
    match planner.config.detectArtifact path with
    | some kind => planner.frontend.extractArtifact kind path source
    | none => planner.frontend.parseSource path source

/-- `parse_file` -/
def parseFile (path : String) (bytes : ByteArray) (oldSymbols : List Symbol) : PlannedFile :=
  let row (language : String) (status : ParseStatus) : FileCacheRow :=
    ⟨path, language, bytes.size, planner.frontend.exactByteHash bytes, planner.now, status⟩
  match String.fromUTF8? bytes with
  | none => ⟨row (planner.admittedLanguage path) .failed, [], oldSymbols⟩
  | some source =>
    let parsed := planner.parseText path source
    ⟨row (parsed.language.getD (planner.admittedLanguage path)) parsed.status,
      if parsed.status = .failed then [] else parsed.symbols.map planner.frontend.enrich, oldSymbols⟩

/-- Read and parse a file again. -/
def reparse (db : Database) (tree : SourceTree) (path : String) : Except String PlannedFile :=
  match tree.readExactBytes path with
  | .error e => .error e
  | .ok bytes => .ok (planner.parseFile path bytes (db.symbolsInFile path))

/-! ## The files that have changed -/

/-- The paths to compare with the cache, and those of cached files that are gone. -/
def candidates (db : Database) (tree : SourceTree) : PlanRequest String → List String × List String
  | .touched paths =>
    (btreeSet (paths.filter (tree.isAdmitted planner.config)),
      btreeSet (paths.filter fun path =>
        !tree.isAdmitted planner.config path && db.files.any (·.path = path)))
  | .reconcile | .full =>
    let admitted := tree.admittedRelPaths planner.config
    (btreeSet admitted, btreeSet ((db.files.map FileCacheRow.path).filter (· ∉ admitted)))

/-- Whether the cache still describes the bytes of a file. -/
def unchanged (db : Database) (path : String) (bytes : ByteArray) : Bool :=
  let oldSymbols := db.symbolsInFile path
  let symbolStateOk := !oldSymbols.isEmpty || (String.fromUTF8? bytes).any Text.isBlank
  (lookup FileCacheRow.path db.files path).any fun row =>
    row.contentHash = planner.frontend.exactByteHash bytes && row.parseStatus = .ok && symbolStateOk

end ChangePlanner

/-- The files to write, in the order they are found, and the paths to delete. -/
structure PlannedFiles where
  changed : List PlannedFile
  deleted : List String

namespace ChangePlanner

variable (planner : ChangePlanner) (db : Database) (tree : SourceTree)

/-- The first part of `plan`: the candidates that are not as the cache has them. -/
def touchedFiles (request : PlanRequest String) : PlannedFiles :=
  let (candidates, deleted) := planner.candidates db tree request
  -- a path that cannot be read any more is dropped
  let unreadable := candidates.filter fun path =>
    (match tree.readExactBytes path with | .error _ => true | .ok _ => false) &&
      db.files.any (·.path = path)
  let changed := candidates.filterMap fun path =>
    match tree.readExactBytes path with
    | .error _ => none
    | .ok bytes =>
      if request ≠ .full ∧ planner.unchanged db path bytes then none
      else some (planner.parseFile path bytes (db.symbolsInFile path))
  ⟨changed, btreeSet (deleted ++ unreadable)⟩

/-- `trigger_ids` -/
def triggerIds (files : PlannedFiles) : List String :=
  btreeSet (files.changed.flatMap (·.oldSymbols.map Symbol.id) ++
    files.changed.flatMap (·.symbols.map Symbol.id) ++ files.deleted.flatMap db.symbolIdsInFile)

/-! ## Dependents -/

/-- Parse the files of some symbols again, but for those that are planned already, that
    `skip` passes over or that are not admitted. -/
def addFiles (skip : Symbol → Bool) (changed : List PlannedFile) :
    List Symbol → Except String (List PlannedFile)
  | [] => .ok changed
  | symbol :: rest =>
    if changed.any (·.row.path = symbol.filePath) || skip symbol ||
        !tree.isAdmitted planner.config symbol.filePath then
      addFiles skip changed rest
    else
      match planner.reparse db tree symbol.filePath with
      | .error e => .error e
      | .ok file => addFiles skip (changed ++ [file]) rest

/-- `add_affected_dependents` -/
def withAffectedDependents (changed : List PlannedFile) (triggerIds : List String) :
    Except String (List PlannedFile) :=
  let sourceIds := btreeSet ((db.edgesIncident triggerIds .inbound).map Edge.srcId)
  planner.addFiles db tree (fun _ => false) changed (db.hydrateIds sourceIds)

/-- The names of a configuration key without the indices of sequences. -/
def configKeyValues (name : String) : List (List Char) :=
  let segments := (Text.splitOn '.' name.toList).map fun seg => seg.takeWhile (· ≠ '[')
  let cleaned := Text.join ['.'] (segments.filter fun seg => !seg.all isWhitespace)
  if cleaned = [] then [] else [cleaned, (Text.splitOn '.' cleaned).getLastD []]

/-- `symbol_destination_values` -/
def symbolDestinationValues (symbol : Symbol) : List String :=
  let literals := (allStringLiterals symbol).map String.ofList
  let configKeys :=
    if isConfigKey symbol then (configKeyValues symbol.name).map String.ofList else []
  let normalized := Text.normalizeIdent planner.unicode symbol.name
  let normalizedNames :=
    if (symbol.kind = .route ∨ symbol.language = "sql") ∧ normalized ≠ "" then [normalized] else []
  [symbol.name, symbol.qualifiedName] ++ literals ++ configKeys ++ normalizedNames

/-- `fts_literal` -/
def ftsLiteral (value : String) : String :=
  if Text.isBlank value then ""
  else
    let escaped := value.toList.flatMap fun c => if c = '"' then ['"', '"'] else [c]
    String.ofList (['"'] ++ escaped ++ ['"'])

/-- The ids of the symbols that a search for a literal finds. -/
def ftsHits (literal : String) : List String :=
  let query := ftsLiteral literal
  if query = "" then [] else planner.ftsSearch db query referenceCandidateCap

/-- `symbol_references_any` -/
def symbolReferencesAny (symbol : Symbol) (values : List String) : Bool :=
  let haystack := String.ofList (Text.join ['\n'] (symbol.texts.map String.toList))
  values.any fun value =>
    hasSubstring haystack value ||
      Text.normalizeIdent planner.unicode symbol.name = Text.normalizeIdent planner.unicode value ||
      symbol.name = value

/-- `add_reference_dependents` -/
def withReferenceDependents (changed : List PlannedFile) (triggerIds : List String) :
    Except String (List PlannedFile) :=
  let changedSymbols := (changed.flatMap fun file => file.oldSymbols ++ file.symbols).filter
    (·.id ∈ triggerIds)
  let referenceValues := (changedSymbols.flatMap planner.symbolDestinationValues).filter
    (!Text.isBlank ·)
  let candidateIds := referenceValues.flatMap fun literal =>
    (db.symbolsByNames [literal]).map Symbol.id ++
      (db.symbolsByQualifiedNames [literal]).map Symbol.id ++ planner.ftsHits db literal
  planner.addFiles db tree (!planner.symbolReferencesAny · referenceValues) changed
    (db.hydrateIds candidateIds)

/-- The files of a plan. -/
def planFiles (request : PlanRequest String) : Except String PlannedFiles :=
  let files := planner.touchedFiles db tree request
  let triggerIds := triggerIds db files
  match planner.withAffectedDependents db tree files.changed triggerIds with
  | .error e => .error e
  | .ok changed =>
    match planner.withReferenceDependents db tree changed triggerIds with
    | .error e => .error e
    | .ok changed => .ok ⟨changed, files.deleted⟩

/-! ## The batch -/

/-- `References` -/
structure References where
  names : List String
  qualifiedNames : List String
  literals : List String

/-- Whether a text has a SQL verb in it. -/
def hasSqlVerb (text : String) : Bool :=
  let upper := String.ofList (Text.toAsciiUppercase text.toList)
  ["SELECT", "INSERT", "UPDATE", "DELETE", "UPSERT", "MERGE", "REPLACE"].any (hasSubstring upper)

/-- `collect_references` -/
def collectReferences (symbols : List Symbol) : References where
  names := symbols.flatMap fun symbol =>
    let called := symbol.texts.flatMap fun text =>
      (Text.callSites planner.unicode false text.toList).map String.ofList
    let sqlNames := symbol.texts.flatMap fun text =>
      if hasSqlVerb text then
        (((Text.idents false text.toList).map String.ofList).map
          (Text.normalizeIdent planner.unicode)).filter (· ≠ "")
      else []
    let baseNames :=
      if isTypeKind symbol.kind && isOopLanguage symbol.language then
        (Text.idents false ((symbol.bodyExcerpt <|> symbol.signature).getD "").toList).map
          String.ofList
      else []
    called ++ sqlNames ++ baseNames ++ [symbol.name]
  qualifiedNames := symbols.map Symbol.qualifiedName
  literals := symbols.flatMap fun symbol => (allStringLiterals symbol).map String.ofList

/-- `bounded_resolver_symbols` -/
def boundedResolverSymbols (newSymbols : List Symbol) (excludedPaths : List String) : List Symbol :=
  let refs := planner.collectReferences newSymbols
  let candidates := db.symbolsByNames (refs.names ++ refs.literals) ++
    db.symbolsByQualifiedNames refs.qualifiedNames ++
    refs.literals.flatMap fun literal => db.hydrateIds (planner.ftsHits db literal)
  -- a symbol of an excluded file is taken from the new ones only
  let kept := candidates.filter (·.filePath ∉ excludedPaths)
  sortOn Symbol.id (build Symbol.id (kept ++ newSymbols))

/-- `build_batch`, with `sort_batch`. -/
def buildBatch (reason : PublishReason) (files : PlannedFiles) : PublishBatch :=
  let changed := sortOn (·.row.path) files.changed
  let oldSymbols := changed.flatMap PlannedFile.oldSymbols ++ files.deleted.flatMap db.symbolsInFile
  let newSymbols := changed.flatMap PlannedFile.symbols
  let newIds := newSymbols.map Symbol.id
  let staleIds := btreeSet ((oldSymbols.map Symbol.id).filter (· ∉ newIds))
  let owned := changed.map (·.row.path)
  let resolverSymbols := planner.boundedResolverSymbols db newSymbols (owned ++ files.deleted)
  let edgeUpserts := (resolvedEdges planner.unicode resolverSymbols).filter fun edge =>
    (resolverSymbols.find? (·.id = edge.srcId)).any (·.filePath ∈ owned)
  let edgeDeletes := (db.edgesIncident (oldSymbols.map Symbol.id) .outbound).map Edge.key
  { symbolUpserts := sortOn Symbol.id newSymbols
    symbolDeletes := staleIds
    edgeUpserts := sortOn Edge.key edgeUpserts
    edgeDeletes := btreeSet (edgeDeletes.filter (· ∉ edgeUpserts.map Edge.key))
    vectorDeletes := staleIds
    fileRows := sortOn FileCacheRow.path (changed.map PlannedFile.row)
    fileDeletes := btreeSet files.deleted
    queueEnqueue := sortOn QueuedSymbol.symbolId
      (newSymbols.map fun symbol => ⟨symbol.id, symbol.filePath⟩)
    queueRemove := staleIds
    reason := reason }

/-- `plan` -/
def plan (request : PlanRequest String) : Except String PublishBatch :=
  let reason : PublishReason := match request with
    | .touched _ => .incremental
    | .reconcile => .reconcile
    | .full => .full
  match planner.planFiles db tree request with
  | .error e => .error e
  | .ok files => .ok (planner.buildBatch db reason files)

end ChangePlanner

end Cognis
