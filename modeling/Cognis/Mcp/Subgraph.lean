/-
  The subgraph of the analysis tools (`load_analysis_subgraph`, `tools.rs`) on a store whose
  queries succeed.

  * `loadedSubgraph` is the result without the calls: the ids seen, the edges of the hops, or
    else the `fallbackEdges` made of traces;
  * `loadedSubgraph_of_lt`, `loadedSubgraph_of_eq`, `loadedSubgraph_of_cap_le`: what is loaded
    below the cap, at the cap, and around that many focus symbols;
  * `subgraphExact_iff`: when the subgraph is exact;
  * `not_alwaysSubgraphExact`: as many symbols as the cap, and an edge that is no call.
-/
import Cognis.Indexer.Integrity
import Cognis.Indexer.Propagation
import Cognis.Mcp.ReferenceScan

namespace Cognis

open Table Tools

namespace StoreEngine

variable (engine : StoreEngine) (db : Database)

/-- The answers to a tool when no statement fails and no deadline passes. -/
def steady : (op : ToolOp) → op.Answer
  | .gate _ => .ok .cont
  | .call c => engine.answer db (.ok db.buildCodeGraph) {} c

/-! ## The ids -/

/-- The ids that a query inserts. -/
def queryIds (query : String) : List String :=
  let q := String.ofList (Text.trim query.toList)
  if q = "" then []
  else
    (match if Text.isBlank q then none else db.resolveSymbol engine.sql q none with
    | some sym => [sym.id]
    | none => (db.ftsSearch engine.sql q 10).map Hit.symbolId) ++ db.symbolIdsInFile q

/-- The ids of the focus, in the order in which they are inserted. -/
def focusIds (focusQueries filePaths : List String) : List String :=
  filePaths.flatMap db.symbolIdsInFile ++ focusQueries.flatMap (engine.queryIds db)

end StoreEngine

namespace Database

variable (db : Database)

/-- `node_ids` of the code graph. -/
def nodeIds : List String := (sortOn Symbol.id db.symbols).map Symbol.id

theorem buildCodeGraph_nodeIds : db.buildCodeGraph.nodeIds = db.nodeIds :=
  CodeGraph.nodeIds_foldl _ _

/-- The edges of the store that are no imports, in the order of the key. -/
def activeEdges : List Edge := sortOn Edge.key (db.edges.filter (·.kind ≠ .imports))

@[simp] theorem mem_activeEdges {db : Database} {e : Edge} :
    e ∈ db.activeEdges ↔ e ∈ db.edges ∧ e.kind ≠ .imports := by
  simp [activeEdges]

/-- The hits of a trace of one hop from a symbol. -/
def traceHits (id : String) : List Hit :=
  ((db.edgesIncident [id] .outbound).foldl (StoreEngine.Trace.follow .outbound 1 id)
    { visited := [id] }).hits

/-- The edges that are made of a trace. -/
def synthesized (sym : Symbol) : List Edge :=
  (db.traceHits sym.id).map fun h => { srcId := sym.id, dstId := h.symbolId, kind := .calls }

/-- The edges that are made when the expansion has found none. -/
def fallbackEdges (symbols : List Symbol) : List Edge := (symbols.take 16).flatMap db.synthesized

/-- One hop. -/
def hop (c : Cone) : Cone :=
  let c := (db.edgesIncident c.frontier .both).foldl Cone.addEdge { c with nextFrontier := [] }
  { c with frontier := c.nextFrontier }

/-- The hops. -/
def expanded : ℕ → Cone → Cone
  | 0, c => c
  | hops + 1, c =>
    if c.frontier = [] ∨ analysisSubgraphCap ≤ c.seenIds.length then c else expanded hops (db.hop c)

end Database

namespace StoreEngine

variable (engine : StoreEngine) (db : Database) (focusQueries filePaths : List String)

/-- The seeds of the focus. -/
def focusSeeds : Seeds := (engine.focusIds db focusQueries filePaths).foldl Seeds.insert {}

/-- The seeds, with the nodes of the resident graph. -/
def allSeeds : Seeds :=
  let s := engine.focusSeeds db focusQueries filePaths
  if s.seedIds = [] ∨ db.nodeIds.length ≤ analysisSubgraphCap then
    (db.nodeIds.take analysisSubgraphCap).foldl Seeds.insert s
  else s

/-- The cone after the hops. -/
def cone : Cone :=
  let s := engine.allSeeds db focusQueries filePaths
  db.expanded 2 { seenIds := s.seenIds, frontier := s.seedIds }

/-- What `load_analysis_subgraph` returns. -/
def loadedSubgraph : List Symbol × List Edge :=
  let c := engine.cone db focusQueries filePaths
  let symbols := db.hydrateIds c.seenIds
  (symbols, if c.allEdges = [] then db.fallbackEdges symbols else c.allEdges)

/-! ## The calls -/

section
variable {engine db} {focusQueries filePaths : List String}

theorem settled_seedFile (path : String) (s : Seeds) :
    (seedFile path s).settled (engine.steady db) =
      .ok ((db.symbolIdsInFile path).foldl Seeds.insert s) := rfl

theorem steady_lookup (q : String) : engine.steady db (.call (.lookup q none)) =
    Except.ok (if Text.isBlank q then none else db.resolveSymbol engine.sql q none) := by
  change (if Text.isBlank q then Except.ok none
    else Except.ok (db.resolveSymbol engine.sql q none) : EngineResult (Option Symbol)) = _
  split <;> rfl

theorem settled_seedQuery (query : String) (s : Seeds) :
    (seedQuery query s).settled (engine.steady db) =
      .ok ((engine.queryIds db query).foldl Seeds.insert s) := by
  unfold seedQuery queryIds
  dsimp only
  generalize String.ofList (Text.trim query.toList) = q
  by_cases hq : q = ""
  · rw [if_pos hq, if_pos hq]
    rfl
  · rw [if_neg hq, if_neg hq, List.foldl_append, Prog.settled_ask, steady_lookup]
    generalize (if Text.isBlank q then none else db.resolveSymbol engine.sql q none) = found
    cases found with
    | some sym => exact settled_seedFile q _
    | none =>
      exact (Prog.settled_bind (a := ((db.ftsSearch engine.sql q 10).map Hit.symbolId).foldl
        Seeds.insert s) rfl _).trans (settled_seedFile q _)

/-- A loop whose body returns. -/
theorem settled_forEach (engine : StoreEngine) (db : Database) {α σ : Type}
    {body : α → σ → ToolProg σ} {step : σ → α → σ}
    (h : ∀ a s, (body a s).settled (engine.steady db) = .ok (step s a)) (as : List α) (s : σ) :
    (forEach body as s).settled (engine.steady db) = .ok (as.foldl step s) := by
  induction as generalizing s with
  | nil => rfl
  | cons a as ih => exact (Prog.settled_bind (h a s) _).trans (ih (step s a))

theorem settled_seedResident (s : Seeds) : (seedResident s).settled (engine.steady db) =
    .ok (if s.seedIds = [] ∨ db.nodeIds.length ≤ analysisSubgraphCap then
      (db.nodeIds.take analysisSubgraphCap).foldl Seeds.insert s else s) := by
  have hanswer : engine.steady db (.call .residentCodeGraph) = .ok db.buildCodeGraph := rfl
  rw [seedResident, Prog.settled_ask, hanswer]
  dsimp only
  rw [db.buildCodeGraph_nodeIds]
  split <;> rfl

theorem settled_expand (hops : ℕ) (c : Cone) :
    (expand hops c).settled (engine.steady db) = .ok (db.expanded hops c) := by
  induction hops generalizing c with
  | zero => rfl
  | succ hops ih =>
    rw [expand, Database.expanded]
    by_cases hstop : c.frontier = [] ∨ analysisSubgraphCap ≤ c.seenIds.length
    · rw [if_pos hstop, if_pos hstop]
      rfl
    · rw [if_neg hstop, if_neg hstop]
      exact (Prog.settled_bind (a := db.edgesIncident c.frontier .both) rfl _).trans (ih _)

theorem settled_hydrate (ids : List String) :
    (ToolProg.hydrate ids).settled (engine.steady db) = .ok (db.hydrateIds ids) := by
  cases ids with
  | nil =>
    have hnone : db.hydrateIds [] = [] := List.eq_nil_iff_forall_not_mem.2 fun s hs => by simp at hs
    rw [hnone]
    rfl
  | cons id ids => rfl

theorem settled_synthesizeEdges (sym : Symbol) (edges : List Edge) :
    (synthesizeEdges sym edges).settled (engine.steady db) = .ok (edges ++ db.synthesized sym) := by
  have hanswer : engine.steady db (.call (.dependencyTrace sym.id "out" 1)) =
      .ok (db.traceHits sym.id) := by
    change traceHops db {} .outbound 1 1 [sym.id] { visited := [sym.id] } = _
    unfold traceHops traceHops
    exact ite_self _
  rw [synthesizeEdges, Prog.settled_ask, hanswer]
  rfl

theorem settled_coneEdges (c : Cone) (symbols : List Symbol) :
    (coneEdges c symbols).settled (engine.steady db) =
      .ok (if c.allEdges = [] then db.fallbackEdges symbols else c.allEdges) := by
  unfold coneEdges
  by_cases hempty : c.allEdges = []
  · rw [if_pos hempty]
    cases symbols with
    | nil => rw [if_neg (by simp), hempty]; rfl
    | cons sym symbols =>
      rw [if_pos ⟨hempty, List.cons_ne_nil _ _⟩,
        settled_forEach engine db fun sym edges => settled_synthesizeEdges sym edges,
        Database.fallbackEdges, List.flatMap_eq_foldl]
  · rw [if_neg hempty, if_neg fun h => hempty h.1]
    rfl

theorem sortOn_hydrateIds (ids : List String) :
    sortOn Symbol.id (db.hydrateIds ids) = db.hydrateIds ids :=
  List.Pairwise.insertionSort_eq sorted_sortOn

/-- The program returns what is loaded. -/
theorem settled_loadAnalysisSubgraph :
    (loadAnalysisSubgraph focusQueries filePaths).settled (engine.steady db) =
      .ok (engine.loadedSubgraph db focusQueries filePaths) := by
  have hfiles := settled_forEach engine db
    (fun path s => settled_seedFile path s) filePaths {}
  have hqueries := settled_forEach engine db
    (fun query s => settled_seedQuery query s) focusQueries
  unfold loadAnalysisSubgraph
  rw [Prog.settled_bind hfiles, Prog.settled_bind (hqueries _), ← List.foldl_flatMap,
    ← List.foldl_flatMap, ← List.foldl_append, Prog.settled_bind (settled_seedResident _),
    Prog.settled_bind (settled_expand 2 _), Prog.settled_bind (settled_hydrate _)]
  dsimp only
  rw [Prog.settled_bind (settled_coneEdges _ _), sortOn_hydrateIds]
  rfl

end

end StoreEngine

/-! ## The seeds -/

/-- The seeds are the ids of a list, each once. -/
structure Tools.Seeds.Of (s : Seeds) (ids : List String) : Prop where
  seeds : s.seedIds = s.seenIds
  nodup : s.seenIds.Nodup
  mem : ∀ id, id ∈ s.seenIds ↔ id ∈ ids

theorem Tools.Seeds.Of.insert {s : Seeds} {ids : List String} (h : s.Of ids) (id : String) :
    (s.insert id).Of (ids ++ [id]) := by
  unfold Seeds.insert
  by_cases hid : id ∈ s.seenIds
  · rw [if_pos hid]
    refine ⟨h.seeds, h.nodup, fun id' => ?_⟩
    rw [h.mem, List.mem_append, List.mem_singleton, or_iff_left_of_imp]
    rintro rfl
    exact (h.mem _).1 hid
  · rw [if_neg hid]
    refine ⟨by rw [h.seeds], List.nodup_append.2 ⟨h.nodup, List.nodup_singleton _, ?_⟩, fun id' => ?_⟩
    · rintro a ha b hb rfl
      exact hid (List.mem_singleton.1 hb ▸ ha)
    · rw [List.mem_append, h.mem, List.mem_append]

theorem Tools.Seeds.Of.insertAll {s : Seeds} {ids : List String} (h : s.Of ids)
    (more : List String) : (more.foldl Seeds.insert s).Of (ids ++ more) := by
  induction more generalizing s ids with
  | nil => rwa [List.append_nil]
  | cons id more ih =>
    rw [List.append_cons]
    exact ih (h.insert id)

/-! ## The edges of a hop -/

/-- The key of `seen_edges`. -/
def Edge.triple (e : Edge) : String × String × EdgeKind := (e.srcId, e.dstId, e.kind)

theorem nodup_triple {edges : List Edge} (h : Keyed Edge.key edges) : (edges.map Edge.triple).Nodup :=
  List.Nodup.of_map
    (fun t : String × String × EdgeKind => (toLex (t.1, toLex (t.2.1, t.2.2.toDbString)) : EdgeKey))
    (by rw [List.map_map]; exact h)

namespace Tools.Cone

theorem visit_eq (c : Cone) (id : String) : (c.visit id).allEdges = c.allEdges ∧
    (c.visit id).seenEdges = c.seenEdges ∧ c.seenIds ⊆ (c.visit id).seenIds := by
  unfold visit
  split
  · exact ⟨rfl, rfl, List.subset_append_left _ _⟩
  · exact ⟨rfl, rfl, List.Subset.refl _⟩

theorem addEdge_of_seen {c : Cone} {e : Edge} (h : e.kind = .imports ∨ e.triple ∈ c.seenEdges) :
    c.addEdge e = c := if_pos h

theorem addEdge_of_new {c : Cone} {e : Edge} (hkind : e.kind ≠ .imports)
    (hnew : e.triple ∉ c.seenEdges) : (c.addEdge e).allEdges = c.allEdges ++ [e] ∧
    (c.addEdge e).seenEdges = c.seenEdges ++ [e.triple] ∧ c.seenIds ⊆ (c.addEdge e).seenIds := by
  have hif : ¬ (e.kind = .imports ∨ (e.srcId, e.dstId, e.kind) ∈ c.seenEdges) :=
    not_or.2 ⟨hkind, hnew⟩
  rw [addEdge, if_neg hif]
  dsimp only
  obtain ⟨hall, hseen, hids⟩ :=
    visit_eq { c with seenEdges := c.seenEdges ++ [(e.srcId, e.dstId, e.kind)] } e.srcId
  obtain ⟨hall', hseen', hids'⟩ :=
    visit_eq (visit { c with seenEdges := c.seenEdges ++ [(e.srcId, e.dstId, e.kind)] } e.srcId)
      e.dstId
  exact ⟨by rw [hall', hall], by rw [hseen', hseen]; rfl, List.Subset.trans hids hids'⟩

theorem addEdge_extends (c : Cone) (e : Edge) :
    c.allEdges <+: (c.addEdge e).allEdges ∧ c.seenIds ⊆ (c.addEdge e).seenIds := by
  by_cases h : e.kind = .imports ∨ e.triple ∈ c.seenEdges
  · rw [addEdge_of_seen h]
    exact ⟨List.prefix_rfl, List.Subset.refl _⟩
  · obtain ⟨hkind, hnew⟩ := not_or.1 h
    obtain ⟨hall, -, hids⟩ := addEdge_of_new hkind hnew
    exact ⟨hall ▸ List.prefix_append _ _, hids⟩

theorem addEdges_extends (edges : List Edge) (c : Cone) :
    c.allEdges <+: (edges.foldl addEdge c).allEdges ∧
      c.seenIds ⊆ (edges.foldl addEdge c).seenIds := by
  induction edges generalizing c with
  | nil => exact ⟨List.prefix_rfl, List.Subset.refl _⟩
  | cons e edges ih =>
    obtain ⟨hall, hids⟩ := addEdge_extends c e
    obtain ⟨hall', hids'⟩ := ih (c.addEdge e)
    exact ⟨hall.trans hall', List.Subset.trans hids hids'⟩

/-- Edges that are all seen change nothing. -/
theorem addEdges_of_seen {edges : List Edge} {c : Cone}
    (h : ∀ e ∈ edges, e.kind ≠ .imports → e.triple ∈ c.seenEdges) : edges.foldl addEdge c = c := by
  induction edges with
  | nil => rfl
  | cons e edges ih =>
    have he : e.kind = .imports ∨ e.triple ∈ c.seenEdges :=
      or_iff_not_imp_left.2 (h e List.mem_cons_self)
    rw [List.foldl_cons, addEdge_of_seen he]
    exact ih fun e' he' => h e' (List.mem_cons_of_mem _ he')

/-- New edges are added, but for the imports. -/
theorem addEdges_of_new {edges : List Edge} {c : Cone} (hkeys : (edges.map Edge.triple).Nodup)
    (hnew : ∀ e ∈ edges, e.triple ∉ c.seenEdges) :
    (edges.foldl addEdge c).allEdges = c.allEdges ++ edges.filter (·.kind ≠ .imports) ∧
      (edges.foldl addEdge c).seenEdges =
        c.seenEdges ++ (edges.filter (·.kind ≠ .imports)).map Edge.triple := by
  induction edges generalizing c with
  | nil => simp
  | cons e edges ih =>
    obtain ⟨he, hkeys⟩ := List.nodup_cons.1 hkeys
    have hrest : ∀ e' ∈ edges, e'.triple ∉ c.seenEdges :=
      fun e' he' => hnew e' (List.mem_cons_of_mem _ he')
    rw [List.foldl_cons]
    by_cases hkind : e.kind = .imports
    · rw [addEdge_of_seen (.inl hkind), List.filter_cons_of_neg (by simpa using hkind)]
      exact ih hkeys hrest
    · obtain ⟨hall, hseen, -⟩ := addEdge_of_new hkind (hnew e List.mem_cons_self)
      have hstep := ih (c := c.addEdge e) hkeys fun e' he' hmem => by
        rw [hseen, List.mem_append, List.mem_singleton] at hmem
        rcases hmem with hmem | hmem
        · exact hrest e' he' hmem
        · exact he (hmem ▸ List.mem_map_of_mem he')
      rw [hall, hseen] at hstep
      rw [List.filter_cons_of_pos (by simpa using hkind), List.map_cons,
        List.append_cons c.allEdges, List.append_cons c.seenEdges]
      exact hstep

end Tools.Cone

/-! ## The hops -/

section
variable {db : Database}

theorem Database.expanded_of_stop {c : Cone}
    (h : c.frontier = [] ∨ analysisSubgraphCap ≤ c.seenIds.length) (hops : ℕ) :
    db.expanded hops c = c := by
  cases hops with
  | zero => rfl
  | succ hops => rw [expanded, if_pos h]

theorem Database.expanded_extends (hops : ℕ) (c : Cone) :
    c.allEdges <+: (db.expanded hops c).allEdges ∧ c.seenIds ⊆ (db.expanded hops c).seenIds := by
  induction hops generalizing c with
  | zero => exact ⟨List.prefix_rfl, List.Subset.refl _⟩
  | succ hops ih =>
    by_cases hstop : c.frontier = [] ∨ analysisSubgraphCap ≤ c.seenIds.length
    · rw [expanded_of_stop hstop]
      exact ⟨List.prefix_rfl, List.Subset.refl _⟩
    · obtain ⟨hall, hids⟩ :=
        Cone.addEdges_extends (db.edgesIncident c.frontier .both) { c with nextFrontier := [] }
      obtain ⟨hall', hids'⟩ := ih (db.hop c)
      rw [expanded, if_neg hstop]
      exact ⟨hall.trans hall', List.Subset.trans hids hids'⟩

/-- Once all the stored edges are seen, no hop adds one. -/
theorem Database.expanded_of_seen (hops : ℕ) {c : Cone}
    (h : ∀ e ∈ db.edges, e.kind ≠ .imports → e.triple ∈ c.seenEdges) :
    (db.expanded hops c).allEdges = c.allEdges := by
  induction hops generalizing c with
  | zero => rfl
  | succ hops ih =>
    by_cases hstop : c.frontier = [] ∨ analysisSubgraphCap ≤ c.seenIds.length
    · rw [expanded_of_stop hstop]
    · have hseen : (db.edgesIncident c.frontier .both).foldl Cone.addEdge
          { c with nextFrontier := [] } = { c with nextFrontier := [] } :=
        Cone.addEdges_of_seen fun e he => h e (mem_sortOn.1 he |> List.mem_of_mem_filter)
      rw [expanded, if_neg hstop, hop, hseen]
      exact ih h

theorem Database.mem_edgesIncident_both {ids : List String} {e : Edge} :
    e ∈ db.edgesIncident ids .both ↔ e ∈ db.edges ∧ (e.srcId ∈ ids ∨ e.dstId ∈ ids) := by
  simp [edgesIncident, Direction.followsOutbound, Direction.followsInbound]

/-- The hops from a few ids: the first one reads all their edges. -/
theorem Database.expanded_of_lt (hedges : Keyed Edge.key db.edges) {ids : List String}
    (hne : ids ≠ []) (hlt : ids.length < analysisSubgraphCap) :
    (db.edgesIncident ids .both).filter (·.kind ≠ .imports) <+:
        (db.expanded 2 { seenIds := ids, frontier := ids }).allEdges ∧
      ((∀ e ∈ db.edges, e.srcId ∈ ids) →
        (db.expanded 2 { seenIds := ids, frontier := ids }).allEdges = db.activeEdges) := by
  have hincident : Keyed Edge.key (db.edgesIncident ids .both) := (hedges.filter _).sortOn
  obtain ⟨hall, hseen⟩ := Cone.addEdges_of_new (c := { seenIds := ids, frontier := ids })
    (nodup_triple hincident) fun e _ => List.not_mem_nil
  rw [List.nil_append] at hall hseen
  rw [expanded, if_neg (not_or.2 ⟨hne, not_le.2 hlt⟩)]
  refine ⟨?_, fun hsrc => ?_⟩
  · rw [← hall]
    exact (expanded_extends 1 (db.hop { seenIds := ids, frontier := ids })).1
  · rw [expanded_of_seen]
    · rw [hop]
      dsimp only
      rw [hall]
      have hboth : db.edges.filter (fun e => (Direction.both.followsOutbound && decide (e.srcId ∈ ids)) ||
          (Direction.both.followsInbound && decide (e.dstId ∈ ids))) = db.edges := by
        refine List.filter_eq_self.2 fun e he => ?_
        simp [Direction.followsOutbound, hsrc e he]
      rw [edgesIncident, hboth, sortOn_filter hedges]
      rfl
    · intro e he hkind
      rw [hop]
      dsimp only
      rw [hseen]
      exact List.mem_map_of_mem (List.mem_filter.2
        ⟨mem_edgesIncident_both.2 ⟨he, .inl (hsrc e he)⟩, by simpa using hkind⟩)

end

/-! ## The store -/

/-- The keys of the tables, and the symbols that their rows are about. -/
structure Database.WellKept (db : Database) : Prop where
  symbols : Keyed Symbol.id db.symbols
  edges : Keyed Edge.key db.edges
  fts_live : ∀ row ∈ db.fts, db.hasSymbol row.id = true
  src_live : ∀ e ∈ db.edges, db.hasSymbol e.srcId = true

theorem Linked.wellKept {db : Database} (h : Linked db) (hedges : Keyed Edge.key db.edges) :
    db.WellKept where
  symbols := h.keyed
  edges := hedges
  fts_live := h.integrity.fts_live
  src_live := h.src

/-- `MATCH` finds rows of the table. -/
def Sqlite.MatchesRows (sql : Sqlite) : Prop :=
  ∀ rows q k found, sql.ftsMatch rows q k = some found → ∀ m ∈ found, ∃ row ∈ rows, row.id = m.id

theorem Database.resolveSymbol_mem {sql : Sqlite} {db : Database} (h : Keyed Symbol.id db.symbols)
    {needle : String} {kind : Option String} {s : Symbol}
    (hs : db.resolveSymbol sql needle kind = some s) : s ∈ db.symbols := by
  have hkind : ∀ s ∈ db.symbolsOfKind kind, s ∈ db.symbols := fun s hs => List.mem_of_mem_filter hs
  have hexact : ∀ column value, db.resolveExact column value kind = some s → s ∈ db.symbols :=
    fun column value hs => hkind s ((resolveExact_eq_some h).1 hs).1.1
  unfold resolveSymbol at hs
  dsimp only at hs
  split at hs
  · cases hs
  · simp only [Option.orElse_eq_orElse, Option.orElse_eq_or, Option.or_eq_some_iff] at hs
    rcases hs with hs | ⟨-, hs | ⟨-, hs | ⟨-, hs | ⟨-, hs⟩⟩⟩⟩
    · exact hexact _ _ hs
    · exact hexact _ _ hs
    · exact hexact _ _ hs
    · exact hexact _ _ hs
    · have hkeyed : Keyed Symbol.id ((db.symbolsOfKind kind).mergeSort fun a b =>
          decide (toLex (sql.lower a.name, a.id) ≤ toLex (sql.lower b.name, b.id))) :=
        ((List.mergeSort_perm _ _).map Symbol.id).nodup_iff.2 (keyed_symbolsOfKind h)
      have hbest := ((bestCandidate_iff (hkeyed.sublist ((List.take_sublist _ _).map _)) s).1.1 hs).1
      exact hkind s ((List.mergeSort_perm _ _).mem_iff.1 (List.mem_of_mem_take hbest))

theorem Database.mem_nodeIds {db : Database} {id : String} :
    id ∈ db.nodeIds ↔ ∃ s ∈ db.symbols, s.id = id := by
  simp [nodeIds]

theorem Database.length_nodeIds (db : Database) : db.nodeIds.length = db.symbols.length := by
  rw [nodeIds, List.length_map, sortOn_perm.length_eq]

namespace StoreEngine

section
variable {engine : StoreEngine} {db : Database} {focusQueries filePaths : List String}

theorem symbolIdsInFile_live {path id : String} (hid : id ∈ db.symbolIdsInFile path) :
    ∃ s ∈ db.symbols, s.id = id := by
  obtain ⟨s, hs, rfl⟩ := List.mem_map.1 hid
  exact ⟨s, (Database.mem_symbolsInFile.1 hs).1, rfl⟩

theorem ftsSearch_live (h : db.WellKept) (hsql : engine.sql.MatchesRows) {q : String} {k : ℕ}
    {hit : Hit} (hhit : hit ∈ db.ftsSearch engine.sql q k) :
    ∃ s ∈ db.symbols, s.id = hit.symbolId := by
  unfold Database.ftsSearch at hhit
  split at hhit
  · cases hhit
  · split at hhit
    next rows hrows =>
      obtain ⟨m, hm, rfl⟩ := List.mem_map.1 hhit
      obtain ⟨row, hrow, hid⟩ := hsql _ _ _ _ hrows m hm
      obtain ⟨s, hs, hsid⟩ := Database.hasSymbol_iff.1 (h.fts_live row hrow)
      exact ⟨s, hs, hsid.trans hid⟩
    next => cases hhit

/-- The ids of the focus are ids of stored symbols. -/
theorem focusIds_live (h : db.WellKept) (hsql : engine.sql.MatchesRows) {id : String}
    (hid : id ∈ engine.focusIds db focusQueries filePaths) : ∃ s ∈ db.symbols, s.id = id := by
  rcases List.mem_append.1 hid with hid | hid
  · obtain ⟨path, -, hid⟩ := List.mem_flatMap.1 hid
    exact symbolIdsInFile_live hid
  · obtain ⟨query, -, hid⟩ := List.mem_flatMap.1 hid
    unfold queryIds at hid
    dsimp only at hid
    split at hid
    · cases hid
    · rcases List.mem_append.1 hid with hid | hid
      · split at hid
        next sym hsym =>
          rw [List.mem_singleton] at hid
          split at hsym
          · cases hsym
          · exact ⟨sym, Database.resolveSymbol_mem h.symbols hsym, hid.symm⟩
        next =>
          obtain ⟨hit, hhit, rfl⟩ := List.mem_map.1 hid
          exact ftsSearch_live h hsql hhit
      · exact symbolIdsInFile_live hid

theorem focusSeeds_of (engine : StoreEngine) (db : Database) (focusQueries filePaths : List String) :
    (engine.focusSeeds db focusQueries filePaths).Of (engine.focusIds db focusQueries filePaths) :=
  Seeds.Of.insertAll (s := {}) ⟨rfl, List.nodup_nil, fun _ => Iff.rfl⟩ _

theorem length_focusSeeds : (engine.focusSeeds db focusQueries filePaths).seenIds.length =
    (engine.focusIds db focusQueries filePaths).dedup.length := by
  have hof := focusSeeds_of engine db focusQueries filePaths
  refine ((List.perm_ext_iff_of_nodup hof.nodup (List.nodup_dedup _)).2 fun id => ?_).length_eq
  rw [hof.mem, List.mem_dedup]

/-- In a store of few symbols the seeds are all its ids. -/
theorem allSeeds_of_le (focusQueries filePaths : List String) (h : db.WellKept)
    (hsql : engine.sql.MatchesRows) (hn : db.symbols.length ≤ analysisSubgraphCap) :
    (engine.allSeeds db focusQueries filePaths).seedIds =
        (engine.allSeeds db focusQueries filePaths).seenIds ∧
      (engine.allSeeds db focusQueries filePaths).seenIds.Perm db.nodeIds := by
  have hnodup : db.nodeIds.Nodup := h.symbols.sortOn
  have hof : (engine.allSeeds db focusQueries filePaths).Of
      (engine.focusIds db focusQueries filePaths ++ db.nodeIds) := by
    unfold allSeeds
    dsimp only
    rw [if_pos (.inr (db.length_nodeIds ▸ hn)), List.take_of_length_le (db.length_nodeIds ▸ hn)]
    exact (focusSeeds_of engine db focusQueries filePaths).insertAll db.nodeIds
  refine ⟨hof.seeds, (List.perm_ext_iff_of_nodup hof.nodup hnodup).2 fun id => ?_⟩
  rw [hof.mem, List.mem_append, or_iff_right_of_imp]
  exact fun hid => Database.mem_nodeIds.2 (focusIds_live h hsql hid)

/-- In a store of many symbols the seeds are the focus, when there is one. -/
theorem allSeeds_of_lt (hn : analysisSubgraphCap < db.symbols.length)
    {id : String} (hid : id ∈ engine.focusIds db focusQueries filePaths) :
    engine.allSeeds db focusQueries filePaths = engine.focusSeeds db focusQueries filePaths := by
  have hof := focusSeeds_of engine db focusQueries filePaths
  unfold allSeeds
  dsimp only
  refine if_neg (not_or.2 ⟨fun hnil => ?_, db.length_nodeIds ▸ not_le.2 hn⟩)
  rw [← hof.mem, ← hof.seeds, hnil] at hid
  cases hid

end

end StoreEngine

/-! ## The edges that are made of traces -/

section
variable {db : Database}

/-- What the trace from a symbol holds after some of its edges. -/
structure TraceFrom (id : String) (edges : List Edge) (t : StoreEngine.Trace) : Prop where
  visited : t.visited = id :: t.hits.map Hit.symbolId
  nodup : t.visited.Nodup
  sublist : (t.hits.map Hit.symbolId).Sublist (edges.map Edge.dstId)
  mem : ∀ x, x ∈ t.hits.map Hit.symbolId ↔
    x ≠ id ∧ ∃ e ∈ edges, e.dstMissing = false ∧ e.dstId = x

theorem TraceFrom.follow {id : String} {edges : List Edge} {t : StoreEngine.Trace}
    (h : TraceFrom id edges t) {e : Edge} (hsrc : e.srcId = id) :
    TraceFrom id (edges ++ [e]) (t.follow .outbound 1 id e) := by
  have hskip : (e.dstMissing = true ∨ e.dstId ∈ t.visited) → TraceFrom id (edges ++ [e]) t := by
    intro hskip
    refine ⟨h.visited, h.nodup, ?_, fun x => ?_⟩
    · rw [List.map_append]
      exact h.sublist.trans (List.sublist_append_left _ _)
    · rw [h.mem]
      refine and_congr_right fun hx => ⟨?_, ?_⟩
      · rintro ⟨e', he', hlive⟩
        exact ⟨e', List.mem_append_left _ he', hlive⟩
      · rintro ⟨e', he', hlive, rfl⟩
        rcases List.mem_append.1 he' with he' | he'
        · exact ⟨e', he', hlive, rfl⟩
        · rw [List.mem_singleton.1 he'] at hlive hx ⊢
          rcases hskip with hmissing | hvisited
          · rw [hlive] at hmissing
            cases hmissing
          · rw [h.visited, List.mem_cons, or_iff_right hx, h.mem] at hvisited
            exact hvisited.2
  unfold StoreEngine.Trace.follow StoreEngine.neighbor
  dsimp only
  rw [if_pos hsrc]
  by_cases hmissing : e.dstMissing = true
  · rw [if_pos hmissing]
    exact hskip (.inl hmissing)
  · rw [if_neg hmissing]
    dsimp only
    by_cases hvisited : e.dstId ∈ t.visited
    · rw [if_pos hvisited]
      exact hskip (.inr hvisited)
    · rw [if_neg hvisited]
      refine ⟨?_, ?_, ?_, fun x => ?_⟩
      · dsimp only
        rw [h.visited, List.map_append]
        rfl
      · exact List.nodup_append.2 ⟨h.nodup, List.nodup_singleton _, fun a ha b hb hab =>
          hvisited (List.mem_singleton.1 hb ▸ hab ▸ ha)⟩
      · dsimp only
        rw [List.map_append, List.map_append]
        exact h.sublist.append (List.Sublist.refl _)
      · dsimp only
        rw [List.map_append, List.mem_append, h.mem, List.map_singleton, List.mem_singleton]
        constructor
        · rintro (⟨hx, e', he', hlive⟩ | rfl)
          · exact ⟨hx, e', List.mem_append_left _ he', hlive⟩
          · refine ⟨fun hx => hvisited ?_, e, by simp, by simpa using hmissing, rfl⟩
            rw [h.visited]
            exact hx ▸ List.mem_cons_self
        · rintro ⟨hx, e', he', hlive, rfl⟩
          rcases List.mem_append.1 he' with he' | he'
          · exact .inl ⟨hx, e', he', hlive, rfl⟩
          · exact .inr (by rw [List.mem_singleton.1 he'])

theorem TraceFrom.foldl {id : String} {edges : List Edge} {t : StoreEngine.Trace}
    (h : TraceFrom id edges t) {more : List Edge} (hsrc : ∀ e ∈ more, e.srcId = id) :
    TraceFrom id (edges ++ more) (more.foldl (StoreEngine.Trace.follow .outbound 1 id) t) := by
  induction more generalizing edges t with
  | nil => rwa [List.append_nil]
  | cons e more ih =>
    rw [List.append_cons]
    exact ih (h.follow (hsrc e List.mem_cons_self)) fun e' he' => hsrc e' (List.mem_cons_of_mem _ he')

theorem Database.srcId_of_edgesIncident {id : String} {e : Edge}
    (he : e ∈ db.edgesIncident [id] .outbound) : e ∈ db.edges ∧ e.srcId = id := by
  rw [mem_edgesIncident_outbound, List.mem_singleton] at he
  exact he

theorem Database.traceFrom_incident (id : String) :
    TraceFrom id (db.edgesIncident [id] .outbound)
      ((db.edgesIncident [id] .outbound).foldl (StoreEngine.Trace.follow .outbound 1 id)
        { visited := [id] }) := by
  have hstart : TraceFrom id [] { visited := [id] } :=
    ⟨rfl, List.nodup_singleton _, List.Sublist.refl _, fun x => by simp⟩
  exact hstart.foldl fun e he => (srcId_of_edgesIncident he).2

/-- The edge that a trace makes. -/
def Edge.plainCall (srcId dstId : String) : Edge := { srcId, dstId, kind := .calls }

theorem Database.synthesized_eq (sym : Symbol) : db.synthesized sym =
    ((db.traceHits sym.id).map Hit.symbolId).map (Edge.plainCall sym.id) := by
  rw [List.map_map]
  rfl

/-- An edge is made for each other live end of the edges of a symbol, whatever their kind. -/
theorem Database.mem_synthesized {sym : Symbol} {e : Edge} : e ∈ db.synthesized sym ↔
    e = .plainCall sym.id e.dstId ∧ e.dstId ≠ sym.id ∧
      ∃ e' ∈ db.edges, e'.srcId = sym.id ∧ e'.dstMissing = false ∧ e'.dstId = e.dstId := by
  have hmem := (db.traceFrom_incident sym.id).mem
  rw [synthesized_eq, List.mem_map]
  constructor
  · rintro ⟨x, hx, rfl⟩
    obtain ⟨hne, e', he', hlive, hdst⟩ := (hmem x).1 hx
    obtain ⟨hstored, hsrc⟩ := srcId_of_edgesIncident he'
    exact ⟨rfl, hne, e', hstored, hsrc, hlive, hdst⟩
  · rintro ⟨he, hne, e', hstored, hsrc, hlive, hdst⟩
    refine ⟨e.dstId, (hmem _).2 ⟨hne, e', ?_, hlive, hdst⟩, he.symm⟩
    exact mem_edgesIncident_outbound.2 ⟨hstored, List.mem_singleton.2 hsrc⟩

/-- The edges of a symbol are made in the order of the key. -/
theorem Database.pairwise_synthesized (sym : Symbol) :
    (db.synthesized sym).Pairwise fun e e' => e.key < e'.key := by
  have htrace := db.traceFrom_incident sym.id
  have hsorted : ((db.edgesIncident [sym.id] .outbound).map Edge.dstId).Pairwise (· ≤ ·) := by
    have hkeys : (db.edgesIncident [sym.id] .outbound).Pairwise fun e e' => e.key ≤ e'.key :=
      sorted_sortOn
    rw [List.pairwise_map]
    refine hkeys.imp_of_mem fun {e e'} he he' hle => ?_
    have hsrc := (srcId_of_edgesIncident he).2
    have hsrc' := (srcId_of_edgesIncident he').2
    rcases Prod.Lex.toLex_le_toLex.1 hle with hlt | ⟨-, hle⟩
    · exact absurd (hsrc.trans hsrc'.symm) (ne_of_lt hlt)
    · rcases Prod.Lex.toLex_le_toLex.1 hle with hlt | ⟨heq, -⟩
      · exact le_of_lt hlt
      · exact le_of_eq heq
  have hnodup : ((db.traceHits sym.id).map Hit.symbolId).Nodup := by
    have hvisited := htrace.nodup
    rw [htrace.visited] at hvisited
    exact (List.nodup_cons.1 hvisited).2
  have hids : ((db.traceHits sym.id).map Hit.symbolId).Pairwise (· < ·) :=
    ((hsorted.sublist htrace.sublist).and hnodup).imp fun h => lt_of_le_of_ne h.1 h.2
  rw [synthesized_eq, List.pairwise_map]
  refine hids.imp fun hlt => ?_
  exact Prod.Lex.toLex_lt_toLex.2 (.inr ⟨rfl, Prod.Lex.toLex_lt_toLex.2 (.inl hlt)⟩)

theorem Database.mem_fallbackEdges {symbols : List Symbol} {e : Edge} :
    e ∈ db.fallbackEdges symbols ↔ ∃ sym ∈ symbols.take 16, e ∈ db.synthesized sym := by
  rw [fallbackEdges, List.mem_flatMap]

theorem Database.pairwise_fallbackEdges {symbols : List Symbol}
    (h : symbols.Pairwise fun s s' => s.id < s'.id) :
    (db.fallbackEdges symbols).Pairwise fun e e' => e.key < e'.key := by
  refine List.pairwise_flatMap.2 ⟨fun sym _ => db.pairwise_synthesized sym, ?_⟩
  refine (h.sublist (List.take_sublist _ _)).imp fun {s s'} hlt e he e' he' => ?_
  have hsrc : e.srcId = s.id := congrArg Edge.srcId (mem_synthesized.1 he).1
  have hsrc' : e'.srcId = s'.id := congrArg Edge.srcId (mem_synthesized.1 he').1
  exact Prod.Lex.toLex_lt_toLex.2 (.inl (by rw [hsrc, hsrc']; exact hlt))

theorem Database.pairwise_hydrateIds (h : db.WellKept) (ids : List String) :
    (db.hydrateIds ids).Pairwise fun s s' => s.id < s'.id := by
  have hkeyed : Keyed Symbol.id (db.hydrateIds ids) := (h.symbols.filter _).sortOn
  have hsorted : (db.hydrateIds ids).Pairwise fun s s' => s.id ≤ s'.id := sorted_sortOn
  exact (hsorted.and (List.pairwise_map.1 hkeyed)).imp fun h => lt_of_le_of_ne h.1 h.2

theorem Database.hydrateIds_of_forall {ids : List String} (h : ∀ s ∈ db.symbols, s.id ∈ ids) :
    db.hydrateIds ids = sortOn Symbol.id db.symbols := by
  rw [hydrateIds, symbolsByValues, List.filter_eq_self.2 fun s hs => decide_eq_true (h s hs)]

theorem Database.hydrateIds_congr {ids ids' : List String} (h : ∀ id, id ∈ ids ↔ id ∈ ids') :
    db.hydrateIds ids = db.hydrateIds ids' := by
  rw [hydrateIds, hydrateIds, symbolsByValues, symbolsByValues]
  simp only [h]

/-- The made edges are the right ones when they are the right set. -/
theorem Database.fallbackEdges_eq_iff (h : db.WellKept) {symbols : List Symbol}
    (hsorted : symbols.Pairwise fun s s' => s.id < s'.id) :
    db.fallbackEdges symbols = db.activeEdges ↔
      ∀ e, e ∈ db.fallbackEdges symbols ↔ e ∈ db.edges ∧ e.kind ≠ .imports := by
  have hmade := db.pairwise_fallbackEdges hsorted
  constructor
  · intro heq e
    rw [heq, mem_activeEdges]
  · intro hmem
    have hactive : db.activeEdges.Nodup := ((h.edges.filter _).sortOn).nodup
    have hperm : (db.fallbackEdges symbols).Perm db.activeEdges :=
      (List.perm_ext_iff_of_nodup (hmade.imp fun hlt heq => ne_of_lt hlt (congrArg _ heq))
        hactive).2 fun e => (hmem e).trans mem_activeEdges.symm
    have hsorted : db.activeEdges.Pairwise fun e e' => e.key ≤ e'.key := sorted_sortOn
    refine hperm.eq_of_pairwise (fun e e' he he' hle hle' => ?_) (hmade.imp le_of_lt) hsorted
    exact h.edges.eq ((hmem e).1 he).1 (mem_activeEdges.1 he').1 (le_antisymm hle hle')

theorem Database.kind_of_fallbackEdges {symbols : List Symbol} {e : Edge}
    (he : e ∈ db.fallbackEdges symbols) : e.kind = .calls := by
  obtain ⟨sym, -, he⟩ := mem_fallbackEdges.1 he
  rw [(mem_synthesized.1 he).1]
  rfl

end

/-! ## What is loaded -/

namespace StoreEngine

section
variable {engine : StoreEngine} {db : Database} {focusQueries filePaths : List String}

/-- A store of few symbols: all of them, and their edges unless there is none or the cap is
    reached. -/
theorem loadedSubgraph_of_le (h : db.WellKept) (hsql : engine.sql.MatchesRows)
    (hn : db.symbols.length ≤ analysisSubgraphCap) :
    engine.loadedSubgraph db focusQueries filePaths =
      (sortOn Symbol.id db.symbols,
        if db.symbols.length < analysisSubgraphCap ∧ db.activeEdges ≠ [] then db.activeEdges
        else db.fallbackEdges (sortOn Symbol.id db.symbols)) := by
  obtain ⟨hseeds, hperm⟩ := allSeeds_of_le focusQueries filePaths h hsql hn
  unfold loadedSubgraph cone
  dsimp only
  rw [hseeds]
  generalize (engine.allSeeds db focusQueries filePaths).seenIds = ids at hperm
  have hlength : ids.length = db.symbols.length := hperm.length_eq.trans db.length_nodeIds
  have hids : ∀ s ∈ db.symbols, s.id ∈ ids := fun s hs =>
    hperm.mem_iff.2 (Database.mem_nodeIds.2 ⟨s, hs, rfl⟩)
  have hsrc : ∀ e ∈ db.edges, e.srcId ∈ ids := by
    intro e he
    obtain ⟨s, hs, hid⟩ := Database.hasSymbol_iff.1 (h.src_live e he)
    exact hid ▸ hids s hs
  have hseen : ids ⊆ (db.expanded 2 { seenIds := ids, frontier := ids }).seenIds :=
    (Database.expanded_extends 2 { seenIds := ids, frontier := ids }).2
  rw [Database.hydrateIds_of_forall fun s hs => hseen (hids s hs)]
  congr 1
  by_cases hstop : ids = [] ∨ analysisSubgraphCap ≤ ids.length
  · rw [Database.expanded_of_stop hstop, if_pos rfl, if_neg]
    rintro ⟨hlt, hactive⟩
    rcases hstop with hnil | hcap
    · refine hactive (List.eq_nil_iff_forall_not_mem.2 fun e he => ?_)
      have hmem := hsrc e (Database.mem_activeEdges.1 he).1
      rw [hnil] at hmem
      cases hmem
    · omega
  · obtain ⟨hne, hlt⟩ := not_or.1 hstop
    have hall := (Database.expanded_of_lt h.edges hne (not_le.1 hlt)).2 hsrc
    rw [hall]
    by_cases hactive : db.activeEdges = []
    · rw [if_pos hactive, if_neg fun hif => hif.2 hactive]
    · rw [if_neg hactive, if_pos ⟨by omega, hactive⟩]

/-- A focus of fewer symbols than the cap, in a larger store: its edges are all read. -/
theorem loadedSubgraph_of_lt (hedges : Keyed Edge.key db.edges)
    (hn : analysisSubgraphCap < db.symbols.length)
    (hlt : (engine.focusIds db focusQueries filePaths).dedup.length < analysisSubgraphCap)
    {id : String} (hid : id ∈ engine.focusIds db focusQueries filePaths) {e : Edge}
    (he : e ∈ db.edges) (hkind : e.kind ≠ .imports) (hends : e.srcId = id ∨ e.dstId = id) :
    e ∈ (engine.loadedSubgraph db focusQueries filePaths).2 := by
  have hof := focusSeeds_of engine db focusQueries filePaths
  unfold loadedSubgraph cone
  dsimp only
  rw [allSeeds_of_lt hn hid, hof.seeds]
  have hmem := (hof.mem id).2 hid
  rw [← length_focusSeeds] at hlt
  generalize (engine.focusSeeds db focusQueries filePaths).seenIds = ids at hmem hlt
  obtain ⟨hread, -⟩ := Database.expanded_of_lt hedges (List.ne_nil_of_mem hmem) hlt
  have hincident : e ∈ (db.edgesIncident ids .both).filter (·.kind ≠ .imports) := by
    refine List.mem_filter.2 ⟨Database.mem_edgesIncident_both.2 ⟨he, ?_⟩, by simpa using hkind⟩
    rcases hends with rfl | rfl
    · exact .inl hmem
    · exact .inr hmem
  have hfound := hread.subset hincident
  rw [if_neg (List.ne_nil_of_mem hfound)]
  exact hfound

/-- A focus of as many symbols as the cap, in a larger store: no edge is read. -/
theorem loadedSubgraph_of_cap_le (hn : analysisSubgraphCap < db.symbols.length)
    (hcap : analysisSubgraphCap ≤ (engine.focusIds db focusQueries filePaths).dedup.length) :
    (engine.loadedSubgraph db focusQueries filePaths).2 =
      db.fallbackEdges (db.hydrateIds (engine.focusIds db focusQueries filePaths)) := by
  have hof := focusSeeds_of engine db focusQueries filePaths
  obtain ⟨id, hid⟩ : ∃ id, id ∈ engine.focusIds db focusQueries filePaths := by
    refine List.exists_mem_of_length_pos ?_
    have hle := (List.dedup_sublist (engine.focusIds db focusQueries filePaths)).length_le
    have hpos : 0 < analysisSubgraphCap := by decide
    omega
  unfold loadedSubgraph cone
  dsimp only
  rw [allSeeds_of_lt hn hid, hof.seeds, Database.expanded_of_stop (.inr (length_focusSeeds ▸ hcap)), if_pos rfl,
    Database.hydrateIds_congr hof.mem]

/-- The symbols of the focus are loaded. -/
theorem mem_loadedSubgraph {id : String} (hid : id ∈ engine.focusIds db focusQueries filePaths)
    {s : Symbol} (hs : s ∈ db.symbols) (hsid : s.id = id) :
    s ∈ (engine.loadedSubgraph db focusQueries filePaths).1 := by
  have hof := focusSeeds_of engine db focusQueries filePaths
  have hall : id ∈ (engine.allSeeds db focusQueries filePaths).seenIds := by
    unfold allSeeds
    dsimp only
    split
    · exact ((hof.insertAll _).mem id).2 (List.mem_append_left _ hid)
    · exact (hof.mem id).2 hid
  exact Database.mem_hydrateIds.2 ⟨hs, hsid ▸ (Database.expanded_extends 2 _).2 hall⟩

end

end StoreEngine

/-! ## The analyses -/

/-- The queries of `inspect_symbol_complexity`. -/
def inspectedQueries (args : Json) : List String :=
  (argStr args "name_or_id" <|> argStr args "query").toList ++ (argStrs args "symbol_ids").getD []

theorem settled_inspectSymbolComplexity (engine : StoreEngine) (db : Database) (tb : Toolbox)
    (args : Json) : (inspectSymbolComplexity tb args).settled (engine.steady db) =
      .ok ⟨.analysis (tb.analyses.symbolReports
        (engine.loadedSubgraph db (inspectedQueries args) []).1
        (engine.loadedSubgraph db (inspectedQueries args) []).2 (inspectedQueries args)
        (tb.caps.clampK ((argI64 tb args "k").getD defaultK))), false⟩ :=
  (Prog.settled_ask _ _).trans (Prog.settled_bind StoreEngine.settled_loadAnalysisSubgraph _)

/-- The reports are those of the edges that are no imports. -/
def IgnoresImports (reports : List Symbol → List Edge → List String → ℕ → Json) : Prop :=
  ∀ symbols edges queries k,
    reports symbols edges queries k = reports symbols (edges.filter (·.kind ≠ .imports)) queries k

namespace Workspace

theorem callEdge_edges (ws : Workspace) (edges : List Edge) (e : Edge) :
    callEdge { ws with edges } e = ws.callEdge e := rfl

theorem calls_filter (ws : Workspace) :
    calls { ws with edges := ws.edges.filter (·.kind ≠ .imports) } = ws.calls := by
  have hresolved : resolvedCalls { ws with edges := ws.edges.filter (·.kind ≠ .imports) } =
      ws.resolvedCalls := by
    funext u
    unfold resolvedCalls
    dsimp only
    rw [List.filterMap_filter]
    refine List.filterMap_congr fun e _ => ?_
    by_cases hkind : e.kind = .imports
    · have hnone : ws.callEdge e = none := if_pos (.inl (by rw [hkind]; decide))
      rw [if_neg (by simpa using hkind), hnone]
      rfl
    · rw [if_pos (by simpa using hkind), callEdge_edges]
  funext u
  unfold calls selfCall
  rw [hresolved]
  rfl

/-- The tables are a function of the calls. -/
theorem propagate_of_calls {ws : Workspace} {edges : List Edge}
    (hcalls : calls { ws with edges } = ws.calls) :
    propagate { ws with edges } (sccs { ws with edges }) = ws.propagate ws.sccs := by
  have hsccs : sccs { ws with edges } = ws.sccs := by
    unfold sccs
    rw [hcalls]
  have hsolve : solveScc { ws with edges } = ws.solveScc := by
    funext scc p
    unfold solveScc isRecursiveScc sccTime sccSpace recurrence Recurrence.addMember
    simp only [hcalls]
    rfl
  have hstep : sccStep { ws with edges } = ws.sccStep := by
    funext p scc
    unfold sccStep memberStep
    simp only [hcalls, hsolve]
    rfl
  unfold propagate
  rw [hstep, hsccs]

/-- Reports made of the tables of `analyze_workspace_complexity` ignore the imports. -/
theorem ignoresImports_of_tables (walk : Symbol → String → AstComplexitySummary)
    (render : List Symbol → Propagation → List String → ℕ → Json) :
    IgnoresImports fun symbols edges queries k =>
      render symbols (propagate ⟨symbols, edges, fun _ => none, walk⟩
        (sccs ⟨symbols, edges, fun _ => none, walk⟩)) queries k := by
  intro symbols edges queries k
  dsimp only
  rw [← propagate_of_calls (calls_filter ⟨symbols, edges, fun _ => none, walk⟩)]

end Workspace

/-! ## Exactness -/

/-- **The analysis subgraph is exact**: in a store of at most as many symbols as the cap it has
    every symbol and every edge that is no import, and so do the reports; in every store it has
    the focus and its edges. -/
structure SubgraphExact (engine : StoreEngine) (db : Database)
    (focusQueries filePaths : List String) : Prop where
  whole : db.symbols.length ≤ analysisSubgraphCap → ∃ loaded : List Symbol × List Edge,
    (loadAnalysisSubgraph focusQueries filePaths).settled (engine.steady db) = .ok loaded ∧
      (∀ s ∈ db.symbols, s ∈ loaded.1) ∧ ∀ e ∈ db.edges, e.kind ≠ .imports → e ∈ loaded.2
  focus : ∃ loaded : List Symbol × List Edge,
    (loadAnalysisSubgraph focusQueries filePaths).settled (engine.steady db) = .ok loaded ∧
      ∀ id ∈ engine.focusIds db focusQueries filePaths,
        (∀ s ∈ db.symbols, s.id = id → s ∈ loaded.1) ∧
          ∀ e ∈ db.edges, e.kind ≠ .imports → (e.srcId = id ∨ e.dstId = id) → e ∈ loaded.2
  complexity : db.symbols.length ≤ analysisSubgraphCap → ∀ (tb : Toolbox) (args : Json),
    IgnoresImports tb.analyses.symbolReports →
      (inspectSymbolComplexity tb args).settled (engine.steady db) =
        .ok ⟨.analysis (tb.analyses.symbolReports (sortOn Symbol.id db.symbols)
          (sortOn Edge.key db.edges) (inspectedQueries args)
          (tb.caps.clampK ((argI64 tb args "k").getD defaultK))), false⟩

/-- An edge that is made of the trace from one of the first symbols: a call to the other end of
    one of its edges, of any kind, that is not flagged. -/
def Database.MadeOfTrace (db : Database) (symbols : List Symbol) (e : Edge) : Prop :=
  ∃ sym ∈ symbols.take 16, e = .plainCall sym.id e.dstId ∧ e.dstId ≠ sym.id ∧
    ∃ e' ∈ db.edges, e'.srcId = sym.id ∧ e'.dstMissing = false ∧ e'.dstId = e.dstId

theorem Database.mem_fallbackEdges_iff {db : Database} {symbols : List Symbol} {e : Edge} :
    e ∈ db.fallbackEdges symbols ↔ db.MadeOfTrace symbols e := by
  simp only [mem_fallbackEdges, mem_synthesized, MadeOfTrace]

/-- The edges are read from the store, or the traces make the same ones. -/
def EdgesRead (engine : StoreEngine) (db : Database) (focusQueries filePaths : List String) :
    Prop :=
  if db.symbols.length ≤ analysisSubgraphCap then
    (db.symbols.length < analysisSubgraphCap ∧ ∃ e ∈ db.edges, e.kind ≠ .imports) ∨
      ∀ e, db.MadeOfTrace (sortOn Symbol.id db.symbols) e ↔ e ∈ db.edges ∧ e.kind ≠ .imports
  else
    (engine.focusIds db focusQueries filePaths).dedup.length < analysisSubgraphCap ∨
      ∀ id ∈ engine.focusIds db focusQueries filePaths, ∀ e ∈ db.edges, e.kind ≠ .imports →
        (e.srcId = id ∨ e.dstId = id) →
          db.MadeOfTrace (db.hydrateIds (engine.focusIds db focusQueries filePaths)) e

namespace StoreEngine

section
variable {engine : StoreEngine} {db : Database}

/-- Below the cap, or at it: the loaded edges are the stored ones. -/
theorem loadedSubgraph_eq_iff (focusQueries filePaths : List String) (h : db.WellKept)
    (hsql : engine.sql.MatchesRows) (hn : db.symbols.length ≤ analysisSubgraphCap) :
    (engine.loadedSubgraph db focusQueries filePaths).2 = db.activeEdges ↔
      EdgesRead engine db focusQueries filePaths := by
  have hsorted : (sortOn Symbol.id db.symbols).Pairwise fun s s' => s.id < s'.id := by
    rw [← Database.hydrateIds_of_forall fun s hs => List.mem_map_of_mem (f := Symbol.id) hs]
    exact Database.pairwise_hydrateIds h _
  have hne : db.activeEdges ≠ [] ↔ ∃ e ∈ db.edges, e.kind ≠ .imports := by
    rw [ne_eq, List.eq_nil_iff_forall_not_mem, not_forall_not]
    exact exists_congr fun e => Database.mem_activeEdges
  have hmade := Database.fallbackEdges_eq_iff h hsorted
  simp only [Database.mem_fallbackEdges_iff] at hmade
  rw [EdgesRead, if_pos hn, ← hmade, ← hne, loadedSubgraph_of_le h hsql hn]
  dsimp only
  by_cases hread : db.symbols.length < analysisSubgraphCap ∧ db.activeEdges ≠ []
  · rw [if_pos hread]
    exact iff_of_true rfl (.inl hread)
  · rw [if_neg hread, or_iff_right hread]

/-- No import is loaded. -/
theorem loadedSubgraph_no_imports (focusQueries filePaths : List String) (h : db.WellKept)
    (hsql : engine.sql.MatchesRows) (hn : db.symbols.length ≤ analysisSubgraphCap) :
    (engine.loadedSubgraph db focusQueries filePaths).2.filter (·.kind ≠ .imports) =
      (engine.loadedSubgraph db focusQueries filePaths).2 := by
  refine List.filter_eq_self.2 fun e he => decide_eq_true ?_
  rw [loadedSubgraph_of_le h hsql hn] at he
  dsimp only at he
  split at he
  · exact (Database.mem_activeEdges.1 he).2
  · rw [Database.kind_of_fallbackEdges he]
    decide

end

end StoreEngine

/-- **The analysis subgraph** is exact exactly when its edges are read from the store, or the
    traces make the same ones. -/
theorem subgraphExact_iff (engine : StoreEngine) (db : Database) (h : db.WellKept)
    (hsql : engine.sql.MatchesRows) (focusQueries filePaths : List String) :
    SubgraphExact engine db focusQueries filePaths ↔ EdgesRead engine db focusQueries filePaths := by
  have hload : ∀ queries paths, (loadAnalysisSubgraph queries paths).settled (engine.steady db) =
      .ok (engine.loadedSubgraph db queries paths) :=
    fun _ _ => StoreEngine.settled_loadAnalysisSubgraph
  have hactive : (sortOn Edge.key db.edges).filter (·.kind ≠ .imports) = db.activeEdges :=
    sortOn_filter h.edges _
  constructor
  · intro hexact
    by_cases hn : db.symbols.length ≤ analysisSubgraphCap
    · -- an analysis that compares the edges with the stored ones
      let tb : Toolbox :=
        { (default : Toolbox) with
          analyses := { (default : Toolbox).analyses with
            symbolReports := fun _ edges _ _ =>
              .bool (edges.filter (·.kind ≠ .imports) = db.activeEdges) } }
      have hignores : IgnoresImports tb.analyses.symbolReports := fun _ edges _ _ => by
        simp [tb]
      have hreport := hexact.complexity hn tb .null hignores
      rw [settled_inspectSymbolComplexity] at hreport
      have hsame := Json.bool.inj (ToolResult.analysis.inj
        (ToolOutput.mk.inj (Except.ok.inj hreport)).1)
      rw [decide_eq_decide, StoreEngine.loadedSubgraph_no_imports _ _ h hsql hn, hactive] at hsame
      have hread := (StoreEngine.loadedSubgraph_eq_iff _ _ h hsql hn).1 (hsame.2 rfl)
      rw [EdgesRead, if_pos hn] at hread ⊢
      exact hread
    · rw [EdgesRead, if_neg hn]
      refine or_iff_not_imp_left.2 fun hcap id hid e he hkind hends => ?_
      obtain ⟨loaded, hloaded, hfocus⟩ := hexact.focus
      rw [hload] at hloaded
      cases hloaded
      have hmem := (hfocus id hid).2 e he hkind hends
      rw [StoreEngine.loadedSubgraph_of_cap_le (not_le.1 hn) (not_lt.1 hcap)] at hmem
      exact Database.mem_fallbackEdges_iff.1 hmem
  · intro hread
    have hedges : db.symbols.length ≤ analysisSubgraphCap → ∀ queries paths,
        engine.loadedSubgraph db queries paths = (sortOn Symbol.id db.symbols, db.activeEdges) := by
      intro hn queries paths
      have hread' : EdgesRead engine db queries paths := by
        rw [EdgesRead, if_pos hn] at hread ⊢
        exact hread
      refine Prod.ext ?_ ((StoreEngine.loadedSubgraph_eq_iff _ _ h hsql hn).2 hread')
      rw [StoreEngine.loadedSubgraph_of_le h hsql hn]
    refine ⟨fun hn => ?_, ?_, fun hn tb args hignores => ?_⟩
    · refine ⟨_, hload _ _, ?_⟩
      rw [hedges hn]
      exact ⟨fun s hs => mem_sortOn.2 hs, fun e he hkind => Database.mem_activeEdges.2 ⟨he, hkind⟩⟩
    · refine ⟨_, hload _ _, fun id hid => ⟨fun s hs => StoreEngine.mem_loadedSubgraph hid hs, ?_⟩⟩
      intro e he hkind hends
      by_cases hn : db.symbols.length ≤ analysisSubgraphCap
      · rw [hedges hn]
        exact Database.mem_activeEdges.2 ⟨he, hkind⟩
      · rw [EdgesRead, if_neg hn] at hread
        by_cases hlt : (engine.focusIds db focusQueries filePaths).dedup.length <
            analysisSubgraphCap
        · exact StoreEngine.loadedSubgraph_of_lt h.edges (not_le.1 hn) hlt hid he hkind hends
        · rw [StoreEngine.loadedSubgraph_of_cap_le (not_le.1 hn) (not_lt.1 hlt)]
          exact Database.mem_fallbackEdges_iff.2
            ((or_iff_right hlt).1 hread id hid e he hkind hends)
    · rw [settled_inspectSymbolComplexity, hedges hn, hignores _ (sortOn Edge.key db.edges), hactive]

/-! ## A store of as many symbols as the cap -/

namespace SubgraphExample

def engine : StoreEngine where
  sql := ScanExample.sql
  diffuseSeedHits _ _ _ _ _ := .ok []
  queryFingerprint := ""
  integrationEdgeContext := false

/-- `MATCH` finds no row. -/
theorem matchesRows : engine.sql.MatchesRows := by
  rintro rows q k found hfound
  cases hfound
  nofun

/-- 96 functions, and a test of one by another. -/
def full : Database where
  symbols := ScanExample.crowd.symbols.take analysisSubgraphCap
  edges := [{ srcId := .ofList [Char.ofNat 1000], dstId := .ofList [Char.ofNat 1001], kind := .tests }]

theorem wellKept_full : full.WellKept where
  symbols := ScanExample.keyed_crowd.sublist ((List.take_sublist _ _).map _)
  edges := List.nodup_singleton _
  fts_live := nofun
  src_live := by decide +kernel

end SubgraphExample

open SubgraphExample in
theorem subgraphExact_pair :
    SubgraphExact engine ScanExample.pair ["alpha"] ["src/lib.rs"] := by
  have hread : EdgesRead engine ScanExample.pair ["alpha"] ["src/lib.rs"] := by
    rw [EdgesRead, if_pos (by decide)]
    exact .inl ⟨by decide, _, List.mem_singleton_self _, by decide⟩
  exact (subgraphExact_iff engine ScanExample.pair
    ⟨by decide +kernel, by decide +kernel, nofun, by decide +kernel⟩ matchesRows _ _).2 hread

/-- The subgraph is exact in every store. -/
def AlwaysSubgraphExact : Prop :=
  ∀ (engine : StoreEngine) (db : Database), db.WellKept → engine.sql.MatchesRows →
    ∀ focusQueries filePaths : List String, SubgraphExact engine db focusQueries filePaths

open SubgraphExample in
/-- The cap is reached before the first hop, and the edge is not read. -/
theorem not_alwaysSubgraphExact : ¬ AlwaysSubgraphExact := by
  intro h
  have hlength : full.symbols.length = analysisSubgraphCap := by decide +kernel
  obtain ⟨loaded, hloaded, -, hedges⟩ := (h engine full wellKept_full matchesRows [] []).whole
    (le_of_eq hlength)
  rw [StoreEngine.settled_loadAnalysisSubgraph] at hloaded
  rw [← Except.ok.inj hloaded] at hedges
  have hmem := hedges _ (List.mem_singleton_self _) (by decide)
  rw [StoreEngine.loadedSubgraph_of_le wellKept_full matchesRows (le_of_eq hlength), if_neg] at hmem
  · exact absurd (Database.kind_of_fallbackEdges hmem) (by decide)
  · exact fun hlt => absurd hlength (ne_of_lt hlt.1)

end Cognis
