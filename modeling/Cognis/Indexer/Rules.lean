/-
  The rules of `resolve_edges` (`resolver.rs`), as relations on the set of symbols.

  * `CallEdge`, `BaseEdge`, `RouteEdge`, `ConfigReadEdge` and `SqlEdge` are the edges that
    each resolver proposes, `Proposes` their union;
  * `mem_resolveEdges_iff`: the edges of a batch are the proposed ones of the highest
    confidence;
  * `resolveEdges_perm`: they do not depend on the order of the batch.
-/
import Cognis.Indexer.Resolver

namespace Cognis

open Table

section
variable (unicode : UnicodeTables) (symbols : List Symbol) (edge : ResolvedEdge)

/-! ## The rules -/

/-- A call site of the caller names the callee. -/
def CallEdge : Prop :=
  ∃ caller ∈ symbols, ∃ callee ∈ symbols, isCallSource caller.kind = true ∧
    callee.name.toList ∈ calledNames unicode caller ∧
      ∃ confidence, callConfidence symbols caller callee = some confidence ∧
        edge = .new caller.id callee.id .calls confidence

/-- The other types of a name. -/
def typeCandidates (sym : Symbol) (baseName : List Char) : List Symbol :=
  symbols.filter fun c => isTypeKind c.kind && c.name.toList = baseName && c.id != sym.id

/-- The header of a type names a base. -/
def BaseEdge : Prop :=
  ∃ sym ∈ symbols, (isOopLanguage sym.language && isTypeKind sym.kind) = true ∧
    ∃ base ∈ OopResolver.bases unicode
        (Text.header ((sym.bodyExcerpt <|> sym.signature).getD "").toList) sym.language,
      ∃ dst ∈ typeCandidates symbols sym base.1,
        edge = .new sym.id dst.id (edgeKindFor base.2 dst.kind)
          (if (typeCandidates symbols sym base.1).length = 1 then 9 / 10 else 5 / 10)

/-- A handler declares the route. -/
def RouteEdge : Prop :=
  ∃ route ∈ integrationCandidates symbols, (route.kind = .route && !Text.isBlank route.name) = true ∧
    ∃ handler ∈ integrationCandidates symbols, isArtifactLanguage handler.language = false ∧
      route.name.toList ∈ declaredRouteLiterals handler ∧ handler.id ≠ route.id ∧
        edge = .new route.id handler.id .routesTo 1

/-- The readers of a configuration key. -/
def keyReaders (keySym : Symbol) : List Symbol :=
  ((integrationCandidates symbols).filter fun sym => !isArtifactLanguage sym.language).filter
    fun reader => reader.id != keySym.id &&
      (allStringLiterals reader).any (· ∈ configKeyLiterals keySym.name)

/-- A key is read at few enough sites. -/
def ConfigReadEdge : Prop :=
  ∃ keySym ∈ integrationCandidates symbols, isConfigKey keySym = true ∧
    (keyReaders symbols keySym).length ≤ crossFanoutCap ∧
      ∃ reader ∈ keyReaders symbols keySym, edge = .new reader.id keySym.id .reads (7 / 10)

/-- A query site names a table or a column. -/
def SqlEdge : Prop :=
  ∃ site ∈ integrationCandidates symbols, isArtifactLanguage site.language = false ∧
    ∃ kind, queryKind (Text.idents false site.queryText) = some kind ∧
      ∃ sqlSym ∈ integrationCandidates symbols, isSqlName sqlSym = true ∧
        Text.normalizeIdent unicode sqlSym.name ≠ "" ∧
        Text.normalizeIdent unicode sqlSym.name ∈
          ((Text.idents false site.queryText).map String.ofList ++ [site.name]).map
            (Text.normalizeIdent unicode) ∧
        sqlSym.id ≠ site.id ∧ edge = .new site.id sqlSym.id kind (65 / 100)

/-- A rule proposes the edge. -/
def Proposes : Prop :=
  CallEdge unicode symbols edge ∨ BaseEdge unicode symbols edge ∨ RouteEdge symbols edge ∨
    ConfigReadEdge symbols edge ∨ SqlEdge unicode symbols edge

end

section
variable {unicode : UnicodeTables} {symbols symbols' : List Symbol} {edge : ResolvedEdge}

/-! ## The resolvers follow the rules -/

/-- The resolver keeps the best of what the rule proposes. -/
def Follows (edges : List ResolvedEdge) (rule : ResolvedEdge → Prop) : Prop :=
  ∃ proposed, edges = bestEdges proposed ∧ ∀ edge, edge ∈ proposed ↔ rule edge

theorem follows_heuristicEdges :
    Follows (heuristicEdges unicode symbols) (CallEdge unicode symbols) := by
  refine ⟨_, rfl, fun edge => ?_⟩
  simp only [List.mem_flatMap, mem_callerEdges, CallEdge]
  constructor
  · rintro ⟨caller, hcaller, hsource, callee, hcallee, hrest⟩
    exact ⟨caller, hcaller, callee, hcallee, hsource, hrest⟩
  · rintro ⟨caller, hcaller, callee, hcallee, hsource, hrest⟩
    exact ⟨caller, hcaller, hsource, callee, hcallee, hrest⟩

theorem follows_oopEdges : Follows (oopEdges unicode symbols) (BaseEdge unicode symbols) := by
  refine ⟨_, rfl, fun edge => ?_⟩
  simp only [List.mem_flatMap, List.mem_map, List.mem_filter, BaseEdge, and_assoc]
  constructor
  · rintro ⟨sym, hsym, hkind, base, hbase, dst, hdst, hcond, rfl⟩
    exact ⟨sym, hsym, hkind, base, hbase, dst, List.mem_filter.2 ⟨hdst, hcond⟩, rfl⟩
  · rintro ⟨sym, hsym, hkind, base, hbase, dst, hdst, rfl⟩
    obtain ⟨hdst, hcond⟩ := List.mem_filter.1 hdst
    exact ⟨sym, hsym, hkind, base, hbase, dst, hdst, hcond, rfl⟩

theorem follows_routesToEdges : Follows (routesToEdges symbols) (RouteEdge symbols) := by
  refine ⟨_, rfl, fun edge => ?_⟩
  simp only [List.mem_flatMap, List.mem_map, List.mem_filter, RouteEdge, and_assoc,
    Bool.not_eq_true', Bool.and_eq_true, decide_eq_true_eq, bne_iff_ne]
  constructor
  · rintro ⟨route, hroute, hkind, hname, handler, hhandler, hlang, hmem, hne, rfl⟩
    exact ⟨route, hroute, hkind, hname, handler, hhandler, hlang, hmem, hne, rfl⟩
  · rintro ⟨route, hroute, hkind, hname, handler, hhandler, hlang, hmem, hne, rfl⟩
    exact ⟨route, hroute, hkind, hname, handler, hhandler, hlang, hmem, hne, rfl⟩

theorem follows_configReadsEdges :
    Follows (configReadsEdges symbols) (ConfigReadEdge symbols) := by
  refine ⟨_, rfl, fun edge => ?_⟩
  rw [List.mem_flatMap]
  constructor
  · rintro ⟨keySym, hkey, hmem⟩
    obtain ⟨hcandidate, hconfig⟩ := List.mem_filter.1 hkey
    dsimp only at hmem
    split_ifs at hmem with hcap
    · obtain ⟨reader, hreader, rfl⟩ := List.mem_map.1 hmem
      exact ⟨keySym, hcandidate, hconfig, hcap, reader, hreader, rfl⟩
    · cases hmem
  · rintro ⟨keySym, hcandidate, hconfig, hcap, reader, hreader, rfl⟩
    refine ⟨keySym, List.mem_filter.2 ⟨hcandidate, hconfig⟩, ?_⟩
    unfold keyReaders at hcap hreader
    dsimp only
    rw [if_pos hcap]
    exact List.mem_map.2 ⟨reader, hreader, rfl⟩

theorem follows_sqlEdges : Follows (sqlEdges unicode symbols) (SqlEdge unicode symbols) := by
  refine ⟨_, rfl, fun edge => ?_⟩
  rw [List.mem_flatMap]
  constructor
  · rintro ⟨site, hsite, hmem⟩
    obtain ⟨hcandidate, hlang⟩ := List.mem_filter.1 hsite
    dsimp only at hmem
    cases hkind : queryKind (Text.idents false site.queryText) with
    | none =>
      rw [hkind] at hmem
      cases hmem
    | some kind =>
      rw [hkind] at hmem
      obtain ⟨sqlSym, hsql, rfl⟩ := List.mem_map.1 hmem
      simp only [List.mem_filter, Bool.and_eq_true, decide_eq_true_eq, bne_iff_ne] at hsql
      obtain ⟨⟨hsqlc, hname, hnorm⟩, hmatch, hne⟩ := hsql
      exact ⟨site, hcandidate, by simpa using hlang, kind, hkind, sqlSym, hsqlc, hname, hnorm,
        hmatch, hne, rfl⟩
  · rintro ⟨site, hcandidate, hlang, kind, hkind, sqlSym, hsqlc, hname, hnorm, hmatch, hne, rfl⟩
    refine ⟨site, List.mem_filter.2 ⟨hcandidate, by simpa using hlang⟩, ?_⟩
    dsimp only
    rw [hkind]
    refine List.mem_map.2 ⟨sqlSym, ?_, rfl⟩
    simp only [List.mem_filter, Bool.and_eq_true, decide_eq_true_eq, bne_iff_ne]
    exact ⟨⟨hsqlc, hname, hnorm⟩, hmatch, hne⟩

theorem Follows.of_mem {edges : List ResolvedEdge} {rule : ResolvedEdge → Prop}
    (h : Follows edges rule) (hedge : edge ∈ edges) : rule edge := by
  obtain ⟨proposed, rfl, hrule⟩ := h
  exact (hrule edge).1 (mem_of_mem_bestEdges hedge)

theorem Follows.exists_mem {edges : List ResolvedEdge} {rule : ResolvedEdge → Prop}
    (h : Follows edges rule) (hedge : rule edge) :
    ∃ best ∈ edges, best.key = edge.key ∧ edge.confidence ≤ best.confidence := by
  obtain ⟨proposed, rfl, hrule⟩ := h
  exact exists_mem_keepBest _ _ ((hrule edge).2 hedge)

/-! ## Proposed edges -/

/-- A proposed edge joins two different symbols of the batch. -/
theorem Proposes.joins (h : Proposes unicode symbols edge) : Joins symbols edge := by
  rcases h with h | h | h | h | h
  · obtain ⟨caller, hcaller, callee, hcallee, -, -, confidence, hconf, rfl⟩ := h
    exact joins_new hcaller hcallee (callConfidence_ne hconf) _ _
  · obtain ⟨sym, hsym, -, base, -, dst, hdst, rfl⟩ := h
    obtain ⟨hdst, hcond⟩ := List.mem_filter.1 hdst
    simp only [Bool.and_eq_true, bne_iff_ne] at hcond
    exact joins_new hsym hdst hcond.2 _ _
  · obtain ⟨route, hroute, -, handler, hhandler, -, -, hne, rfl⟩ := h
    exact joins_new (mem_of_mem_integrationCandidates hroute)
      (mem_of_mem_integrationCandidates hhandler) hne _ _
  · obtain ⟨keySym, hkey, -, -, reader, hreader, rfl⟩ := h
    simp only [keyReaders, List.mem_filter, Bool.and_eq_true, bne_iff_ne] at hreader
    exact joins_new (mem_of_mem_integrationCandidates hreader.1.1)
      (mem_of_mem_integrationCandidates hkey) hreader.2.1.symm _ _
  · obtain ⟨site, hsite, -, kind, -, sqlSym, hsql, -, -, -, hne, rfl⟩ := h
    exact joins_new (mem_of_mem_integrationCandidates hsite)
      (mem_of_mem_integrationCandidates hsql) hne _ _

/-- A proposed edge is known by its key and its confidence. -/
theorem Proposes.eq {edge' : ResolvedEdge} (h : Proposes unicode symbols edge)
    (h' : Proposes unicode symbols edge') (hkey : edge.key = edge'.key)
    (hconf : edge.confidence = edge'.confidence) : edge = edge' := by
  obtain ⟨hsrc, hdst, hkind⟩ := ResolvedEdge.key_eq_iff.1 hkey
  rw [h.joins.eq_new, h'.joins.eq_new, hsrc, hdst, hkind, hconf]

/-- What the resolvers return. -/
theorem proposes_of_mem (h : edge ∈ heuristicEdges unicode symbols ++ oopEdges unicode symbols ++
    routesToEdges symbols ++ configReadsEdges symbols ++ sqlEdges unicode symbols) :
    Proposes unicode symbols edge := by
  simp only [List.mem_append] at h
  rcases h with (((h | h) | h) | h) | h
  · exact .inl (follows_heuristicEdges.of_mem h)
  · exact .inr (.inl (follows_oopEdges.of_mem h))
  · exact .inr (.inr (.inl (follows_routesToEdges.of_mem h)))
  · exact .inr (.inr (.inr (.inl (follows_configReadsEdges.of_mem h))))
  · exact .inr (.inr (.inr (.inr (follows_sqlEdges.of_mem h))))

/-- A resolver returns an edge for each proposed one. -/
theorem Proposes.exists_mem (h : Proposes unicode symbols edge) :
    ∃ best ∈ heuristicEdges unicode symbols ++ oopEdges unicode symbols ++
        routesToEdges symbols ++ configReadsEdges symbols ++ sqlEdges unicode symbols,
      best.key = edge.key ∧ edge.confidence ≤ best.confidence := by
  simp only [List.mem_append]
  rcases h with h | h | h | h | h
  · obtain ⟨best, hbest, hrest⟩ := follows_heuristicEdges.exists_mem h
    exact ⟨best, .inl (.inl (.inl (.inl hbest))), hrest⟩
  · obtain ⟨best, hbest, hrest⟩ := follows_oopEdges.exists_mem h
    exact ⟨best, .inl (.inl (.inl (.inr hbest))), hrest⟩
  · obtain ⟨best, hbest, hrest⟩ := follows_routesToEdges.exists_mem h
    exact ⟨best, .inl (.inl (.inr hbest)), hrest⟩
  · obtain ⟨best, hbest, hrest⟩ := follows_configReadsEdges.exists_mem h
    exact ⟨best, .inl (.inr hbest), hrest⟩
  · obtain ⟨best, hbest, hrest⟩ := follows_sqlEdges.exists_mem h
    exact ⟨best, .inr hbest, hrest⟩

/-- **The edges of a batch** are the proposed edges of the highest confidence. -/
theorem mem_resolveEdges_iff : edge ∈ resolveEdges unicode symbols ↔
    Best ResolvedEdge.key ResolvedEdge.confidence (Proposes unicode symbols) edge := by
  unfold resolveEdges bestEdges
  rw [mem_sortOn]
  exact mem_keepBest_iff (fun _ => proposes_of_mem) (fun _ => Proposes.exists_mem)
    fun _ _ => Proposes.eq

/-- Each proposed edge has its key in the batch. -/
theorem Proposes.exists_resolved (h : Proposes unicode symbols edge) :
    ∃ best ∈ resolveEdges unicode symbols, best.key = edge.key := by
  obtain ⟨found, hfound, hkey, -⟩ := h.exists_mem
  obtain ⟨best, hbest, hkey', -⟩ :=
    exists_mem_keepBest ResolvedEdge.key ResolvedEdge.confidence hfound
  exact ⟨best, mem_sortOn.2 hbest, hkey'.trans hkey⟩

/-! ## The order of the batch -/

theorem callConfidence_perm (h : symbols.Perm symbols') (caller callee : Symbol) :
    callConfidence symbols caller callee = callConfidence symbols' caller callee := by
  have hcount : crossCount symbols caller callee = crossCount symbols' caller callee :=
    h.countP_eq _
  unfold callConfidence
  rw [hcount]

theorem integrationCandidates_perm (h : symbols.Perm symbols') :
    (integrationCandidates symbols).Perm (integrationCandidates symbols') := h.filter _

theorem typeCandidates_perm (h : symbols.Perm symbols') (sym : Symbol) (baseName : List Char) :
    (typeCandidates symbols sym baseName).Perm (typeCandidates symbols' sym baseName) := h.filter _

theorem keyReaders_perm (h : symbols.Perm symbols') (keySym : Symbol) :
    (keyReaders symbols keySym).Perm (keyReaders symbols' keySym) :=
  ((integrationCandidates_perm h).filter _).filter _

/-- The rules see the set of symbols only. -/
theorem Proposes.perm (h : symbols.Perm symbols') :
    Proposes unicode symbols edge ↔ Proposes unicode symbols' edge := by
  unfold Proposes CallEdge BaseEdge RouteEdge ConfigReadEdge SqlEdge
  simp only [h.mem_iff, callConfidence_perm h, (typeCandidates_perm h _ _).mem_iff,
    (typeCandidates_perm h _ _).length_eq, (integrationCandidates_perm h).mem_iff,
    (keyReaders_perm h _).mem_iff, (keyReaders_perm h _).length_eq]

/-- **`resolve_edges` is a function of the set of symbols**, with one edge for each pair of ends
    and kind, of the highest confidence that a rule proposes, between two different symbols of
    the batch. -/
theorem resolveEdges_perm (unicode : UnicodeTables) {symbols symbols' : List Symbol}
    (h : symbols.Perm symbols') :
    resolveEdges unicode symbols' = resolveEdges unicode symbols ∧
    Keyed (fun edge => (edge.srcId, edge.dstId, edge.kind)) (resolveEdges unicode symbols) ∧
    (∀ edge, Proposes unicode symbols edge → ∃ best ∈ resolveEdges unicode symbols,
      best.srcId = edge.srcId ∧ best.dstId = edge.dstId ∧ best.kind = edge.kind) ∧
    ∀ edge ∈ resolveEdges unicode symbols, Joins symbols edge ∧ Proposes unicode symbols edge ∧
      ∀ other, Proposes unicode symbols other → other.srcId = edge.srcId →
        other.dstId = edge.dstId → other.kind = edge.kind → other.confidence ≤ edge.confidence := by
  refine ⟨?_, ?_, fun edge hedge => ?_, fun edge hedge => ?_⟩
  · have hmem : ∀ edge, edge ∈ resolveEdges unicode symbols' ↔ edge ∈ resolveEdges unicode symbols := by
      intro edge
      rw [mem_resolveEdges_iff, mem_resolveEdges_iff]
      simp only [Best, Proposes.perm h]
    have hperm := keyed_resolveEdges.perm keyed_resolveEdges hmem
    exact hperm.eq_of_pairwise
      (fun edge edge' hedge hedge' hle hle' =>
        keyed_resolveEdges.eq hedge ((hmem edge').2 hedge') (le_antisymm hle hle'))
      sorted_sortOn sorted_sortOn
  · have hkeyed : Keyed ResolvedEdge.key (resolveEdges unicode symbols) := keyed_resolveEdges
    refine List.Nodup.of_map (fun ends : String × String × EdgeKind =>
      (toLex (ends.1, toLex (ends.2.1, ends.2.2.toDbString)) : EdgeKey)) ?_
    rw [List.map_map]
    exact hkeyed
  · obtain ⟨best, hbest, hkey⟩ := hedge.exists_resolved
    exact ⟨best, hbest, ResolvedEdge.key_eq_iff.1 hkey⟩
  · obtain ⟨hproposed, hbest⟩ := mem_resolveEdges_iff.1 hedge
    exact ⟨hproposed.joins, hproposed, fun other hother hsrc hdst hkind =>
      hbest other hother (ResolvedEdge.key_eq_iff.2 ⟨hsrc, hdst, hkind⟩)⟩

end

section
/-- The tables of the ASCII characters. -/
def asciiTables : UnicodeTables where
  isWord c := c.isAlphanum || c = '_'
  isLowercase := Char.isLower
  toLowercase := Text.toAsciiLowercase

/-- A function of a module, with its body. -/
def ruleFunction (name body : String) : Symbol :=
  { id := "python:app.py:" ++ name ++ "@0", kind := .function, name, qualifiedName := name
    language := "python", module := "app", filePath := "app.py", lineStart := 1, lineEnd := 2
    contentHash := body, bodyExcerpt := some body }

theorem resolveEdges_perm_two :
    resolveEdges asciiTables [ruleFunction "bar" "", ruleFunction "foo" "bar()"] =
      [.new "python:app.py:foo@0" "python:app.py:bar@0" .calls 1] :=
  (resolveEdges_perm asciiTables (List.Perm.swap (ruleFunction "bar" "")
    (ruleFunction "foo" "bar()") [])).1.trans (by decide +kernel)

end

end Cognis
