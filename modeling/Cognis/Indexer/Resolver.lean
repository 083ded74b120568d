/-
  `resolve_edges` of `cognis-indexer` (`resolver.rs`): the edges between the symbols of a
  batch, found in their texts by name.

  * `heuristicEdges`, `oopEdges`, `routesToEdges`, `configReadsEdges` and `sqlEdges` are
    the resolvers, `resolveEdges` their merge;
  * `mem_resolveEdges_endpoints`: every edge joins two different symbols of the batch;
  * `resolveEdges_calls_iff`: the calls that are found.
-/
import Cognis.Core.Models
import Cognis.Indexer.Text
import Cognis.Store.Database
import Mathlib.Algebra.Order.Ring.Rat

namespace Cognis

open Table

/-! ## Edges before they are stored -/

/-- `AMBIGUOUS_THRESHOLD` -/
def ambiguousThreshold : ℚ := 6 / 10

/-- `CROSS_FANOUT_CAP` -/
def crossFanoutCap : ℕ := 8

/-- `ResolvedEdge` -/
structure ResolvedEdge where
  srcId : String
  dstId : String
  kind : EdgeKind
  confidence : ℚ
  ambiguous : Bool
  deriving DecidableEq, Repr

namespace ResolvedEdge

/-- The function `new` -/
def new (srcId dstId : String) (kind : EdgeKind) (confidence : ℚ) : ResolvedEdge :=
  ⟨srcId, dstId, kind, confidence, confidence < ambiguousThreshold⟩

/-- `(src_id, dst_id, kind)` -/
def key (edge : ResolvedEdge) : EdgeKey :=
  toLex (edge.srcId, toLex (edge.dstId, edge.kind.toDbString))

theorem toDbString_inj {k k' : EdgeKind} : k.toDbString = k'.toDbString ↔ k = k' := by
  cases k <;> cases k' <;> decide

theorem key_eq_iff {edge edge' : ResolvedEdge} : edge.key = edge'.key ↔
    edge.srcId = edge'.srcId ∧ edge.dstId = edge'.dstId ∧ edge.kind = edge'.kind := by
  simp [key, toDbString_inj]

/-- `to_edge` -/
def toEdge (edge : ResolvedEdge) : Edge where
  srcId := edge.srcId
  dstId := edge.dstId
  kind := edge.kind
  confidence := edge.confidence
  metaFields := if edge.ambiguous then [("ambiguous", .bool true)] else []

theorem toEdge_dstMissing (edge : ResolvedEdge) : edge.toEdge.dstMissing = false := by
  unfold toEdge Edge.dstMissing Edge.get
  dsimp only
  split_ifs <;> rfl

end ResolvedEdge

/-- The table `best` of a resolver, from the edges in the order it proposes them. -/
def bestEdges (proposed : List ResolvedEdge) : List ResolvedEdge :=
  keepBest ResolvedEdge.key ResolvedEdge.confidence proposed

/-- The texts of a symbol that are scanned: `signature` and `body_excerpt`. -/
def Symbol.texts (sym : Symbol) : List String := sym.signature.toList ++ sym.bodyExcerpt.toList

/-! ## Calls -/

/-- `is_stopword` -/
def isStopword (name : List Char) : Bool :=
  String.ofList name ∈ ["if", "else", "for", "foreach", "while", "do", "switch", "case", "catch",
    "try", "finally", "return", "throw", "throws", "new", "delete", "sizeof", "typeof",
    "instanceof", "await", "yield", "assert", "lock", "using", "when", "with", "match",
    "synchronized", "super", "this", "self"]

/-- `is_call_source` -/
def isCallSource : SymbolKind → Bool
  | .function | .method | .route => true
  | _ => false

/-- The names called in the body of a caller. -/
def calledNames (unicode : UnicodeTables) (caller : Symbol) : List (List Char) :=
  ((Text.callSites unicode false (caller.bodyExcerpt.getD "").toList).filter
    (!isStopword ·)).dedup

/-- `cross_count`: the definitions of the callee's name in other files of the language. -/
def crossCount (symbols : List Symbol) (caller callee : Symbol) : ℕ :=
  symbols.countP fun c => c.name = callee.name && c.id != caller.id &&
    c.filePath != caller.filePath && c.language = caller.language

/-- The confidence of a call to a definition of the called name. -/
def callConfidence (symbols : List Symbol) (caller callee : Symbol) : Option ℚ :=
  if callee.id = caller.id then none
  else if callee.filePath = caller.filePath then some 1
  else if callee.language = caller.language then
    if crossCount symbols caller callee ≤ crossFanoutCap then some (6 / 10) else none
  else none

/-- The edges of one caller. -/
def callerEdges (unicode : UnicodeTables) (symbols : List Symbol) (caller : Symbol) :
    List ResolvedEdge :=
  if isCallSource caller.kind then
    (calledNames unicode caller).flatMap fun name =>
      (symbols.filter (·.name.toList = name)).filterMap fun callee =>
        (callConfidence symbols caller callee).map (.new caller.id callee.id .calls)
  else []

/-- `HeuristicResolver::resolve` -/
def heuristicEdges (unicode : UnicodeTables) (symbols : List Symbol) : List ResolvedEdge :=
  bestEdges (symbols.flatMap (callerEdges unicode symbols))

/-! ## Inheritance -/

/-- `BaseKeyword`: `extends`, `implements` or `:`. -/
inductive BaseKeyword where
  | extend | implement | colon
  deriving DecidableEq, Repr

/-- `is_type_kind` -/
def isTypeKind : SymbolKind → Bool
  | .classDef | .interface => true
  | _ => false

/-- `is_oop_language` -/
def isOopLanguage (language : String) : Bool := language = "csharp" || language = "java"

/-- The names of a list of types. -/
def OopResolver.baseNames (keyword : BaseKeyword) (text : List Char) : List (List Char × BaseKeyword) :=
  (Text.splitOn ',' text).filterMap fun entry => (Text.trailingName entry).map (·, keyword)

/-- `bases` -/
def OopResolver.bases (unicode : UnicodeTables) (header : List Char) (language : String) :
    List (List Char × BaseKeyword) :=
  let cleaned := Text.stripGroups header
  let implements := "implements".toList
  if language = "java" then
    (match Text.findWord unicode "extends".toList false cleaned with
      | some (_, rest) =>
        -- lazily up to `implements`, else to the end
        OopResolver.baseNames .extend (((Text.findWord unicode implements true rest).map Prod.fst).getD rest)
      | none => []) ++
    match Text.findWord unicode implements false cleaned with
    | some (_, rest) => OopResolver.baseNames .implement rest
    | none => []
  else
    match cleaned.dropWhile (· ≠ ':') with
    | _ :: rest =>
      OopResolver.baseNames .colon (((Text.findWord unicode "where".toList false rest).map Prod.fst).getD rest)
    | [] => []

/-- `edge_kind_for` -/
def edgeKindFor : BaseKeyword → SymbolKind → EdgeKind
  | .extend, _ => .inherits
  | .implement, _ => .implements
  | .colon, .interface => .implements
  | .colon, _ => .inherits

/-- `OopResolver::resolve` -/
def oopEdges (unicode : UnicodeTables) (symbols : List Symbol) : List ResolvedEdge :=
  bestEdges <| (symbols.filter fun sym => isOopLanguage sym.language && isTypeKind sym.kind).flatMap
    fun sym =>
      let header := Text.header ((sym.bodyExcerpt <|> sym.signature).getD "").toList
      (OopResolver.bases unicode header sym.language).flatMap fun (baseName, keyword) =>
        let candidates := symbols.filter fun c =>
          isTypeKind c.kind && c.name.toList = baseName && c.id != sym.id
        let confidence : ℚ := if candidates.length = 1 then 9 / 10 else 5 / 10
        candidates.map fun dst => .new sym.id dst.id (edgeKindFor keyword dst.kind) confidence

/-! ## Routes, configuration keys and SQL names -/

/-- `is_markdown_section` -/
def isMarkdownSection (sym : Symbol) : Bool := sym.kind = .module && sym.language = "markdown"

/-- `integration_candidates` -/
def integrationCandidates (symbols : List Symbol) : List Symbol :=
  symbols.filter (!isMarkdownSection ·)

/-- `is_artifact_language` -/
def isArtifactLanguage (language : String) : Bool :=
  language ∈ ["yaml", "toml", "sql", "html", "markdown"]

/-- `all_string_literals` -/
def allStringLiterals (sym : Symbol) : List (List Char) :=
  (sym.texts.flatMap fun text => Text.stringLiterals 0 text.toList).filter (· ≠ [])

/-- `declared_route_literals` -/
def declaredRouteLiterals (sym : Symbol) : List (List Char) :=
  (allStringLiterals sym).filter fun value => value.head? = some '/'

/-- `RoutesToResolver::resolve` -/
def routesToEdges (symbols : List Symbol) : List ResolvedEdge :=
  let candidates := integrationCandidates symbols
  let handlers := candidates.filter fun sym => !isArtifactLanguage sym.language
  bestEdges <| (candidates.filter fun sym => sym.kind = .route && !Text.isBlank sym.name).flatMap
    fun route =>
      (handlers.filter fun handler =>
          route.name.toList ∈ declaredRouteLiterals handler && handler.id != route.id).map
        fun handler => .new route.id handler.id .routesTo 1

/-- `is_config_key` -/
def isConfigKey (sym : Symbol) : Bool :=
  (sym.kind = .var || sym.kind = .const) && (sym.language = "yaml" || sym.language = "toml")

/-- `config_key_literals` -/
def configKeyLiterals (name : String) : List (List Char) :=
  let segments := (Text.splitOn '.' name.toList).map fun seg => seg.takeWhile (· ≠ '[')
  let full := Text.trim (Text.join ['.'] (segments.filter fun seg => !seg.all isWhitespace))
  if full = [] then []
  else
    let last := Text.trim ((Text.splitOn '.' full).getLastD [])
    full :: if last = [] then [] else [last]

/-- `ConfigReadsResolver::resolve` -/
def configReadsEdges (symbols : List Symbol) : List ResolvedEdge :=
  let candidates := integrationCandidates symbols
  let readers := candidates.filter fun sym => !isArtifactLanguage sym.language
  bestEdges <| (candidates.filter isConfigKey).flatMap fun keySym =>
    let literals := configKeyLiterals keySym.name
    let matched := readers.filter fun reader =>
      reader.id != keySym.id && (allStringLiterals reader).any (· ∈ literals)
    if matched.length ≤ crossFanoutCap then
      matched.map fun reader => .new reader.id keySym.id .reads (7 / 10)
    else []

/-- `is_sql_write_verb` -/
def isSqlWriteVerb (upper : List Char) : Bool :=
  String.ofList upper ∈ ["INSERT", "UPDATE", "DELETE", "UPSERT", "MERGE", "REPLACE"]

/-- `is_sql_read_verb` -/
def isSqlReadVerb (upper : List Char) : Bool := String.ofList upper = "SELECT"

/-- The text of a query site. -/
def Symbol.queryText (sym : Symbol) : List Char :=
  ((sym.signature.map fun s => s.toList ++ [' ']).getD []) ++ (sym.bodyExcerpt.getD "").toList

/-- The kind of the edges of a query site, a write before a read. -/
def queryKind (tokens : List (List Char)) : Option EdgeKind :=
  if tokens.any (isSqlWriteVerb <| Text.toAsciiUppercase ·) then some .writes
  else if tokens.any (isSqlReadVerb <| Text.toAsciiUppercase ·) then some .reads
  else none

/-- A table or a column. -/
def isSqlName (sym : Symbol) : Bool :=
  sym.language = "sql" && (sym.kind = .classDef || sym.kind = .var)

/-- `SqlEdgeResolver::resolve` -/
def sqlEdges (unicode : UnicodeTables) (symbols : List Symbol) : List ResolvedEdge :=
  let candidates := integrationCandidates symbols
  let sqlNames := candidates.filter fun sym =>
    isSqlName sym && Text.normalizeIdent unicode sym.name ≠ ""
  let sites := candidates.filter fun sym => !isArtifactLanguage sym.language
  bestEdges <| sites.flatMap fun site =>
    let tokens := Text.idents false site.queryText
    let names := (tokens.map String.ofList ++ [site.name]).map (Text.normalizeIdent unicode)
    match queryKind tokens with
    | none => []
    | some kind =>
      (sqlNames.filter fun sqlSym =>
          Text.normalizeIdent unicode sqlSym.name ∈ names && sqlSym.id != site.id).map
        fun sqlSym => .new site.id sqlSym.id kind (65 / 100)

/-! ## The merge -/

/-- `resolve_edges` -/
def resolveEdges (unicode : UnicodeTables) (symbols : List Symbol) : List ResolvedEdge :=
  sortOn ResolvedEdge.key <| bestEdges <|
    heuristicEdges unicode symbols ++ oopEdges unicode symbols ++ routesToEdges symbols ++
      configReadsEdges symbols ++ sqlEdges unicode symbols

/-- `to_edges` of `resolve_edges` -/
def resolvedEdges (unicode : UnicodeTables) (symbols : List Symbol) : List Edge :=
  (resolveEdges unicode symbols).map ResolvedEdge.toEdge

/-! ## What is resolved -/

/-- The edge joins two different symbols of the batch, by a rule of a kind other than
    calls if it is no call. -/
structure Joins (symbols : List Symbol) (edge : ResolvedEdge) : Prop where
  src : ∃ sym ∈ symbols, sym.id = edge.srcId
  dst : ∃ sym ∈ symbols, sym.id = edge.dstId
  ne : edge.srcId ≠ edge.dstId
  eq_new : edge = .new edge.srcId edge.dstId edge.kind edge.confidence

theorem joins_new {symbols : List Symbol} {src dst : Symbol} (hsrc : src ∈ symbols)
    (hdst : dst ∈ symbols) (hne : dst.id ≠ src.id) (kind : EdgeKind) (confidence : ℚ) :
    Joins symbols (.new src.id dst.id kind confidence) :=
  ⟨⟨src, hsrc, rfl⟩, ⟨dst, hdst, rfl⟩, hne.symm, rfl⟩

theorem mem_of_mem_bestEdges {proposed : List ResolvedEdge} {edge : ResolvedEdge}
    (h : edge ∈ bestEdges proposed) : edge ∈ proposed := mem_of_mem_keepBest h

theorem mem_of_mem_integrationCandidates {symbols : List Symbol} {sym : Symbol}
    (h : sym ∈ integrationCandidates symbols) : sym ∈ symbols := (List.mem_filter.1 h).1

section
variable {unicode : UnicodeTables} {symbols : List Symbol} {edge : ResolvedEdge}

theorem callConfidence_ne {caller callee : Symbol} {confidence : ℚ}
    (h : callConfidence symbols caller callee = some confidence) : callee.id ≠ caller.id := by
  intro he
  simp [callConfidence, he] at h

theorem mem_callerEdges {caller : Symbol} : edge ∈ callerEdges unicode symbols caller ↔
    isCallSource caller.kind = true ∧ ∃ callee ∈ symbols,
      callee.name.toList ∈ calledNames unicode caller ∧
      ∃ confidence, callConfidence symbols caller callee = some confidence ∧
        edge = .new caller.id callee.id .calls confidence := by
  unfold callerEdges
  split_ifs with hsource
  · simp only [List.mem_flatMap, List.mem_filterMap, List.mem_filter, decide_eq_true_eq,
      Option.map_eq_some_iff]
    constructor
    · rintro ⟨_, hname, callee, ⟨hcallee, rfl⟩, confidence, hconf, rfl⟩
      exact ⟨hsource, callee, hcallee, hname, confidence, hconf, rfl⟩
    · rintro ⟨-, callee, hcallee, hname, confidence, hconf, rfl⟩
      exact ⟨_, hname, callee, ⟨hcallee, rfl⟩, confidence, hconf, rfl⟩
  · exact iff_of_false List.not_mem_nil fun h => hsource h.1

theorem joins_heuristicEdges (h : edge ∈ heuristicEdges unicode symbols) :
    Joins symbols edge ∧ edge.kind = .calls := by
  obtain ⟨caller, hcaller, hmem⟩ := List.mem_flatMap.1 (mem_of_mem_bestEdges h)
  obtain ⟨-, callee, hcallee, -, confidence, hconf, rfl⟩ := mem_callerEdges.1 hmem
  exact ⟨joins_new hcaller hcallee (callConfidence_ne hconf) _ _, rfl⟩

theorem joins_oopEdges (h : edge ∈ oopEdges unicode symbols) :
    Joins symbols edge ∧ edge.kind ≠ .calls := by
  obtain ⟨sym, hsym, hmem⟩ := List.mem_flatMap.1 (mem_of_mem_bestEdges h)
  obtain ⟨⟨baseName, keyword⟩, -, hmem⟩ := List.mem_flatMap.1 hmem
  obtain ⟨dst, hdst, rfl⟩ := List.mem_map.1 hmem
  obtain ⟨hdst, hcond⟩ := List.mem_filter.1 hdst
  simp only [Bool.and_eq_true, bne_iff_ne] at hcond
  refine ⟨joins_new (List.mem_filter.1 hsym).1 hdst hcond.2 _ _, ?_⟩
  simp only [ResolvedEdge.new]
  unfold edgeKindFor
  split <;> nofun

theorem joins_routesToEdges (h : edge ∈ routesToEdges symbols) :
    Joins symbols edge ∧ edge.kind ≠ .calls := by
  obtain ⟨route, hroute, hmem⟩ := List.mem_flatMap.1 (mem_of_mem_bestEdges h)
  obtain ⟨handler, hhandler, rfl⟩ := List.mem_map.1 hmem
  obtain ⟨hhandler, hcond⟩ := List.mem_filter.1 hhandler
  simp only [Bool.and_eq_true, bne_iff_ne] at hcond
  exact ⟨joins_new (mem_of_mem_integrationCandidates (List.mem_filter.1 hroute).1)
    (mem_of_mem_integrationCandidates (List.mem_filter.1 hhandler).1) hcond.2 _ _, nofun⟩

theorem joins_configReadsEdges (h : edge ∈ configReadsEdges symbols) :
    Joins symbols edge ∧ edge.kind ≠ .calls := by
  obtain ⟨keySym, hkey, hmem⟩ := List.mem_flatMap.1 (mem_of_mem_bestEdges h)
  dsimp only at hmem
  split_ifs at hmem
  · obtain ⟨reader, hreader, rfl⟩ := List.mem_map.1 hmem
    obtain ⟨hreader, hcond⟩ := List.mem_filter.1 hreader
    simp only [Bool.and_eq_true, bne_iff_ne] at hcond
    exact ⟨joins_new (mem_of_mem_integrationCandidates (List.mem_filter.1 hreader).1)
      (mem_of_mem_integrationCandidates (List.mem_filter.1 hkey).1) (Ne.symm hcond.1) _ _, nofun⟩
  · cases hmem

theorem joins_sqlEdges (h : edge ∈ sqlEdges unicode symbols) :
    Joins symbols edge ∧ edge.kind ≠ .calls := by
  obtain ⟨site, hsite, hmem⟩ := List.mem_flatMap.1 (mem_of_mem_bestEdges h)
  dsimp only at hmem
  split at hmem
  · cases hmem
  · rename_i kind hkind
    obtain ⟨sqlSym, hsql, rfl⟩ := List.mem_map.1 hmem
    obtain ⟨hsql, hcond⟩ := List.mem_filter.1 hsql
    simp only [Bool.and_eq_true, bne_iff_ne] at hcond
    refine ⟨joins_new (mem_of_mem_integrationCandidates (List.mem_filter.1 hsite).1)
      (mem_of_mem_integrationCandidates (List.mem_filter.1 hsql).1) hcond.2 _ _, ?_⟩
    unfold queryKind at hkind
    split_ifs at hkind <;> cases hkind <;> nofun

theorem mem_resolveEdges (h : edge ∈ resolveEdges unicode symbols) :
    edge ∈ heuristicEdges unicode symbols ∨ Joins symbols edge ∧ edge.kind ≠ .calls := by
  have hmem := mem_of_mem_bestEdges (mem_sortOn.1 h)
  simp only [List.mem_append] at hmem
  rcases hmem with (((hmem | hmem) | hmem) | hmem) | hmem
  · exact .inl hmem
  · exact .inr (joins_oopEdges hmem)
  · exact .inr (joins_routesToEdges hmem)
  · exact .inr (joins_configReadsEdges hmem)
  · exact .inr (joins_sqlEdges hmem)

/-- **Every edge joins two different symbols of the batch.** -/
theorem joins_resolveEdges (h : edge ∈ resolveEdges unicode symbols) : Joins symbols edge := by
  rcases mem_resolveEdges h with h | h
  · exact (joins_heuristicEdges h).1
  · exact h.1

/-- **One edge for each key.** -/
theorem keyed_resolveEdges : Keyed ResolvedEdge.key (resolveEdges unicode symbols) :=
  keyed_keepBest.sortOn

/-- A call that the heuristic finds keeps its key in the merge. -/
theorem exists_mem_resolveEdges (h : edge ∈ heuristicEdges unicode symbols) :
    ∃ edge' ∈ resolveEdges unicode symbols, edge'.key = edge.key := by
  obtain ⟨best, hbest, hkey, -⟩ := exists_mem_keepBest ResolvedEdge.key ResolvedEdge.confidence
    (List.mem_append_left (sqlEdges unicode symbols) <|
      List.mem_append_left (configReadsEdges symbols) <|
      List.mem_append_left (routesToEdges symbols) <|
      List.mem_append_left (oopEdges unicode symbols) h)
  exact ⟨best, mem_sortOn.2 hbest, hkey⟩

/-- The caller calls a definition of the batch that the fan-out cap lets it resolve. -/
structure CallsTo (unicode : UnicodeTables) (symbols : List Symbol) (caller callee : Symbol) :
    Prop where
  source : isCallSource caller.kind = true
  name : callee.name.toList ∈ calledNames unicode caller
  confident : (callConfidence symbols caller callee).isSome = true

instance (caller callee : Symbol) : Decidable (CallsTo unicode symbols caller callee) :=
  decidable_of_iff (isCallSource caller.kind = true ∧ callee.name.toList ∈ calledNames unicode caller ∧
      (callConfidence symbols caller callee).isSome = true)
    ⟨fun ⟨h₁, h₂, h₃⟩ => ⟨h₁, h₂, h₃⟩, fun h => ⟨h.source, h.name, h.confident⟩⟩

/-- **The calls that are found.** -/
theorem resolveEdges_calls_iff {srcId dstId : String} :
    (∃ edge ∈ resolveEdges unicode symbols,
      edge.kind = .calls ∧ edge.srcId = srcId ∧ edge.dstId = dstId) ↔
    ∃ caller ∈ symbols, ∃ callee ∈ symbols, caller.id = srcId ∧ callee.id = dstId ∧
      CallsTo unicode symbols caller callee := by
  constructor
  · rintro ⟨edge, hedge, hkind, rfl, rfl⟩
    have hmem := (mem_resolveEdges hedge).resolve_right fun h => h.2 hkind
    obtain ⟨caller, hcaller, hmem⟩ := List.mem_flatMap.1 (mem_of_mem_bestEdges hmem)
    obtain ⟨hsource, callee, hcallee, hname, confidence, hconf, rfl⟩ := mem_callerEdges.1 hmem
    exact ⟨caller, hcaller, callee, hcallee, rfl, rfl, hsource, hname, by rw [hconf]; rfl⟩
  · rintro ⟨caller, hcaller, callee, hcallee, rfl, rfl, hsource, hname, hconf⟩
    obtain ⟨confidence, hconf⟩ := Option.isSome_iff_exists.1 hconf
    have hedge := mem_callerEdges.2 ⟨hsource, callee, hcallee, hname, confidence, hconf, rfl⟩
    obtain ⟨best, hbest, hkey, -⟩ := exists_mem_keepBest ResolvedEdge.key
      ResolvedEdge.confidence (List.mem_flatMap.2 ⟨caller, hcaller, hedge⟩)
    obtain ⟨edge, hedge, hkey'⟩ := exists_mem_resolveEdges hbest
    obtain ⟨hsrc, hdst, hkind⟩ := ResolvedEdge.key_eq_iff.1 (hkey'.trans hkey)
    exact ⟨edge, hedge, hkind, hsrc, hdst⟩

end

end Cognis
