/-
  `semantic_available` of a response, against the hits of the semantic searches of the call.

  A tool notes a semantic hit by hand, after the hits have been fused, diffused and hydrated.

  * `found`: what the calls of a run have returned;
  * `Honest`: a tool notes a semantic hit exactly when its result shows one; the rules of
    `HonestAfter` follow the programs of the tools;
  * `yields_retrieveContextCapsule`: the capsule goes by the layer of a composed hit, and
    the fusion has renamed it;
  * `ToolCall.tellsTruth_iff`: the flag of a response is right but for a capsule that shows
    a semantic hit.
-/
import Cognis.Mcp.Deadline

namespace Cognis

/-- The symbols that a payload shows. The text of an analysis may name any symbol. -/
def ToolResult.Shows (id : String) : ToolResult → Prop
  | .hits out => ∃ hit ∈ out, hit.symbol.id = id
  | .symbol sym => sym.id = id
  | .trace start _ _ out => start = id ∨ ∃ hit ∈ out, hit.symbolId = id
  | .resolved symbols _ _ => ∃ sym ∈ symbols, sym.id = id
  | .capsule c => ∃ entry ∈ c.relevantSymbols, entry.symbol.id = id
  | .analysis _ => True
  | .empty => False

instance ToolResult.decidableShows (id : String) : DecidablePred (ToolResult.Shows id)
  | .hits _ | .resolved _ _ _ | .capsule _ => inferInstanceAs (Decidable (∃ _ ∈ _, _))
  | .symbol _ => inferInstanceAs (Decidable (_ = _))
  | .trace _ _ _ _ => inferInstanceAs (Decidable (_ ∨ ∃ _ ∈ _, _))
  | .analysis _ => .isTrue trivial
  | .empty => .isFalse not_false

/-! ## What a run has found -/

/-- The answers of the searches, of the diffusion and of `hydrate_map`. -/
structure Found where
  lexical : List Hit := []
  semantic : List Hit := []
  diffused : List Hit := []
  hydrated : List Symbol := []

namespace Found

/-- What comes with an answer. -/
def ofEvent : Prog.Event ToolOp.Answer → Found
  | ⟨.call (.ftsSearch _ _), .ok hits⟩ => { lexical := hits }
  | ⟨.call (.semanticSearch _ _), .ok hits⟩ => { semantic := hits }
  | ⟨.call (.diffuse _ _ _ _), .ok hits⟩ => { diffused := hits }
  | ⟨.call (.hydrate _), .ok symbols⟩ => { hydrated := Table.build Symbol.id symbols }
  | _ => {}

def append (s s' : Found) : Found :=
  ⟨s.lexical ++ s'.lexical, s.semantic ++ s'.semantic, s.diffused ++ s'.diffused,
    s.hydrated ++ s'.hydrated⟩

end Found

/-- What a run has found. -/
def found : List (Prog.Event ToolOp.Answer) → Found
  | [] => {}
  | event :: t => (Found.ofEvent event).append (found t)

theorem found_append (t t' : List (Prog.Event ToolOp.Answer)) :
    found (t ++ t') = (found t).append (found t') := by
  induction t with
  | nil => simp [found, Found.append]
  | cons event t ih => simp [found, ih, Found.append]

theorem found_singleton (event : Prog.Event ToolOp.Answer) :
    found [event] = Found.ofEvent event := by
  simp only [found, Found.append, List.append_nil]

theorem semantic_ofEvent {op : ToolOp} (hop : op.IsRead) (a : op.Answer) :
    (Found.ofEvent ⟨op, a⟩).semantic = [] := by
  rcases op with tool | c
  · exact hop.elim
  · cases c with
    | semanticSearch => exact hop.elim
    | ftsSearch => cases a <;> rfl
    | diffuse => cases a <;> rfl
    | hydrate => cases a <;> rfl
    | _ => rfl

namespace ToolProg

variable {α β : Type} {p : ToolProg α}

/-- A run of the program that ends with a value satisfies `P`, of what it has found and the
    value. -/
def Finds (p : ToolProg α) (P : Found → α → Prop) : Prop :=
  p.Yields fun t a => P (found t) a

section
variable {P : Found → α → Prop} {R : Found → β → Prop}

theorem finds_done {a : α} (h : P {} a) : Finds (.done a) P := Prog.yields_done h

theorem Finds.bind {F : α → ToolProg β} (hp : p.Finds P)
    (hF : ∀ s a, P s a → (F a).Finds fun s' => R (s.append s')) : (p >>= F).Finds R :=
  Prog.Yields.bind hp fun t a h t' b hr => by
    show R (found (t ++ t')) b
    rw [found_append]
    exact hF _ a h t' b hr

theorem Finds.stage {tool : String} {skipped : α} (hp : p.Finds P) (hskip : P {} skipped) :
    (stage tool p skipped).Finds P := by
  refine Prog.yields_ask ?_
  rintro (e | _ | _)
  · exact Prog.yields_fail
  · exact hp
  · exact finds_done hskip

theorem finds_of_reads (hp : p.Uses ToolOp.IsRead) : p.Finds fun s _ => s.semantic = [] := by
  intro t a h
  have huses := hp.runs h
  clear h
  induction t with
  | nil => rfl
  | cons event t ih =>
    rw [found, Found.append, semantic_ofEvent (huses event List.mem_cons_self),
      ih fun e he => huses e (List.mem_cons_of_mem _ he)]
    rfl

end

theorem finds_ftsSearch (query : String) (k : ℕ) :
    (ftsSearch query k).Finds fun s hits => s = { lexical := hits } := by
  refine Prog.yields_ask ?_
  rintro (e | hits)
  · exact Prog.yields_fail
  · exact Prog.yields_done (found_singleton _)

theorem finds_semanticSearch (query : String) (k : ℕ) :
    (semanticSearch query k).Finds fun s hits => s = { semantic := hits } := by
  refine Prog.yields_ask ?_
  rintro (e | hits)
  · exact Prog.yields_fail
  · exact Prog.yields_done (found_singleton _)

theorem finds_semanticSearchIfAvailable (query : String) (k : ℕ) :
    (semanticSearchIfAvailable query k).Finds fun s hits => s = { semantic := hits } := by
  refine Prog.yields_ask ?_
  rintro (_ | _)
  · exact Prog.yields_done rfl
  · exact finds_semanticSearch query k

theorem finds_diffuse (seeds : List (List Hit)) (k : ℕ) (alpha eps : ℚ) :
    (diffuse seeds k alpha eps).Finds fun s hits => s = { diffused := hits } := by
  refine Prog.yields_ask ?_
  rintro (e | hits)
  · exact Prog.yields_fail
  · exact Prog.yields_done (found_singleton _)

theorem finds_hydrateMap (ids : List String) :
    (hydrateMap ids).Finds fun s symbols => s = { hydrated := symbols } := by
  refine Prog.yields_ask ?_
  rintro (e | symbols)
  · exact Prog.yields_fail
  · exact Prog.yields_done (found_singleton _)

end ToolProg

/-! ## The tools but the capsule -/

/-- After the semantic hits `hits`, the program notes a semantic hit exactly when its result
    shows one. -/
def HonestAfter (hits : List Hit) (p : ToolProg ToolOutput) : Prop :=
  p.Finds fun s out => out.semanticIncluded = true ↔
    ∃ h ∈ hits ++ s.semantic, out.result.Shows h.symbolId

section
open ToolProg
variable {α : Type} {p : ToolProg α} {hits : List Hit} {F : α → ToolProg ToolOutput}

theorem honest_done {out : ToolOutput}
    (h : out.semanticIncluded = true ↔ ∃ h ∈ hits, out.result.Shows h.symbolId) :
    HonestAfter hits (.done out) := finds_done (by simpa using h)

/-- Without a semantic hit, nothing is to be noted. -/
theorem honest_silent {result : ToolResult} : HonestAfter [] (.done ⟨result, false⟩) :=
  honest_done (by simp)

/-- The flag of a tool that goes by the hits it shows. -/
theorem honest_hits {out : List SearchHit} {noted : SearchHit → Bool}
    (h : ∀ hit ∈ out, noted hit = true ↔ ∃ h ∈ hits, h.symbolId = hit.symbol.id) :
    HonestAfter hits (.done ⟨.hits out, out.any noted⟩) := by
  refine honest_done ?_
  show out.any noted = true ↔ ∃ h ∈ hits, ∃ hit ∈ out, hit.symbol.id = h.symbolId
  rw [List.any_eq_true]
  constructor
  · rintro ⟨hit, hout, hnoted⟩
    obtain ⟨g, hg, hid⟩ := (h hit hout).1 hnoted
    exact ⟨g, hg, hit, hout, hid.symm⟩
  · rintro ⟨g, hg, hit, hout, hid⟩
    exact ⟨hit, hout, (h hit hout).2 ⟨g, hg, hid.symm⟩⟩

theorem HonestAfter.bind {g : α → List Hit} (hp : p.Finds fun s a => s.semantic = g a)
    (hF : ∀ a, HonestAfter (hits ++ g a) (F a)) : HonestAfter hits (p >>= F) :=
  Finds.bind hp fun s a hs t out h => by
    have hout : out.semanticIncluded = true ↔
        ∃ h ∈ hits ++ g a ++ (found t).semantic, out.result.Shows h.symbolId := hF a t out h
    rw [List.append_assoc, ← hs] at hout
    exact hout

/-- A part without a semantic search. -/
theorem HonestAfter.read (hp : p.Finds fun s _ => s.semantic = [])
    (hF : ∀ a, HonestAfter hits (F a)) : HonestAfter hits (p >>= F) :=
  .bind hp fun a => by
    rw [List.append_nil]
    exact hF a

/-- A stage without a semantic search. -/
theorem HonestAfter.stage {tool : String} {skipped : α} (hp : p.Uses ToolOp.IsRead)
    (hF : ∀ a, HonestAfter hits (F a)) : HonestAfter hits (ToolProg.stage tool p skipped >>= F) :=
  .read (.stage (finds_of_reads hp) rfl) hF

/-- The stage of the semantic search. -/
theorem HonestAfter.search {tool : String} {p : ToolProg (List Hit)}
    {F : List Hit → ToolProg ToolOutput}
    (hp : p.Finds fun s found => s = { semantic := found }) (hF : ∀ hits, HonestAfter hits (F hits)) :
    HonestAfter [] (ToolProg.stage tool p [] >>= F) := by
  refine .bind (g := id) ?_ hF
  refine .stage ?_ rfl
  intro t found h
  exact congrArg Found.semantic (hp t found h)

end

section
open Tools
variable (tb : Toolbox) (args : Json)

theorem honest_symbolSearch : HonestAfter [] (symbolSearch tb args) := by
  refine .read (ToolProg.finds_of_reads (reads_requireStr args _)) fun query => ?_
  refine .stage (reads_ftsSearch _ _) fun hits => ?_
  refine .stage (reads_hydrateMap _) fun symbols => ?_
  exact honest_silent

theorem mem_searchHits {symbols : List Symbol} {hits : List Hit} {entry : Hit → Symbol → SearchHit}
    {hit : SearchHit} (h : hit ∈ searchHits symbols hits entry) :
    ∃ g ∈ hits, ∃ sym, sym.id = g.symbolId ∧ hit = entry g sym := by
  obtain ⟨g, hg, hsym⟩ := List.mem_filterMap.1 h
  obtain ⟨sym, hlookup, rfl⟩ := Option.map_eq_some_iff.1 hsym
  exact ⟨g, hg, sym, Table.key_of_lookup hlookup, rfl⟩

theorem honest_semanticSearch : HonestAfter [] (semanticSearch tb args) := by
  refine .read (ToolProg.finds_of_reads (reads_requireStr args _)) fun query => ?_
  refine .search (ToolProg.finds_semanticSearch _ _) fun hits => ?_
  refine .stage (reads_hydrateMap _) fun symbols => ?_
  refine honest_done ?_
  dsimp only
  rw [Bool.not_eq_true', List.isEmpty_eq_false_iff_exists_mem]
  constructor
  · rintro ⟨hit, hmem⟩
    obtain ⟨g, hg, sym, hid, rfl⟩ := mem_searchHits hmem
    exact ⟨g, hg, _, hmem, hid⟩
  · rintro ⟨g, -, hit, hmem, -⟩
    exact ⟨hit, hmem⟩

theorem semantic_mem_foundBy {lexical semantic : List Hit} {id : String} :
    "semantic" ∈ foundBy lexical semantic id ↔ ∃ h ∈ semantic, h.symbolId = id := by
  unfold foundBy
  split_ifs with hlex hsem hsem <;> simpa using hsem

theorem honest_discoverSymbols : HonestAfter [] (discoverSymbols tb args) := by
  refine .read (ToolProg.finds_of_reads (reads_requireStr args _)) fun query => ?_
  refine .stage (reads_ftsSearch _ _) fun lexical => ?_
  refine .search (ToolProg.finds_semanticSearch _ _) fun semantic => ?_
  refine .stage (reads_hydrateMap _) fun symbols => ?_
  refine honest_hits fun hit hmem => ?_
  obtain ⟨g, -, sym, hid, rfl⟩ := mem_searchHits hmem
  rw [decide_eq_true_iff, hid]
  exact semantic_mem_foundBy

theorem honest_diffuseContext : HonestAfter [] (diffuseContext tb args) := by
  refine .read (ToolProg.finds_of_reads (reads_requireStr args _)) fun query => ?_
  refine .stage (reads_ftsSearch _ _) fun lexical => ?_
  refine .search (ToolProg.finds_semanticSearchIfAvailable _ _) fun semantic => ?_
  refine .stage (reads_diffuse _ _ _ _) fun diffused => ?_
  refine .stage (reads_hydrateMap _) fun symbols => ?_
  refine honest_hits fun hit _ => ?_
  rw [decide_eq_true_iff, List.mem_map]

theorem honest_dependencyTrace : HonestAfter [] (dependencyTrace tb args) := by
  refine .read (ToolProg.finds_of_reads (reads_requireStr args _)) fun symbolId => ?_
  dsimp only
  split_ifs
  · refine .stage (reads_dependencyTrace _ _ _) fun hits => ?_
    refine .stage (reads_hydrateMap _) fun symbols => ?_
    exact honest_silent
  · exact Prog.yields_fail

/-! The tools that are a single stage without a semantic search. -/

theorem HonestAfter.last {tool : String} {p : ToolProg ToolOutput} {skipped : ToolResult}
    (hp : HonestAfter [] p) : HonestAfter [] (ToolProg.stage tool p ⟨skipped, false⟩) :=
  ToolProg.Finds.stage hp (by simp)

theorem honest_symbolLookup : HonestAfter [] (symbolLookup args) := by
  refine .read (ToolProg.finds_of_reads (reads_requireStr args _)) fun nameOrId => ?_
  refine .last (.read (ToolProg.finds_of_reads (reads_lookup _ _)) fun found => ?_)
  cases found with
  | none => exact Prog.yields_fail
  | some sym => exact honest_silent

theorem honest_resolveSymbols : HonestAfter [] (resolveSymbols tb args) := by
  unfold resolveSymbols
  split
  · exact Prog.yields_fail
  · split
    · exact Prog.yields_fail
    · exact .last (.read (ToolProg.finds_of_reads (reads_hydrateMap _)) fun symbols => honest_silent)

theorem honest_ofReport (report : Except McpError Json) : HonestAfter [] (ofReport report) := by
  cases report with
  | ok report => exact honest_silent
  | error e => exact Prog.yields_fail

theorem honest_analyzePatchImpact (pinned : ℕ) :
    HonestAfter [] (analyzePatchImpact tb pinned args) :=
  .last (.read (ToolProg.finds_of_reads (reads_loadAnalysisSubgraph _ _)) fun _ => honest_ofReport _)

theorem honest_inspectSymbolComplexity : HonestAfter [] (inspectSymbolComplexity tb args) :=
  .last (.read (ToolProg.finds_of_reads (reads_loadAnalysisSubgraph _ _)) fun _ => honest_ofReport _)

theorem honest_traceBlastRadius : HonestAfter [] (traceBlastRadius tb args) := by
  unfold traceBlastRadius
  split
  · exact Prog.yields_fail
  · refine .last ?_
    refine .read (ToolProg.finds_of_reads (reads_loadAnalysisSubgraph _ _)) ?_
    rintro ⟨symbols, edges⟩
    refine .read (ToolProg.finds_of_reads (reads_lookup _ _)) fun found => ?_
    unfold blastReport
    dsimp only
    split
    · exact Prog.yields_fail
    · exact honest_ofReport _

theorem honest_suggestOptimalRefactor : HonestAfter [] (suggestOptimalRefactor tb args) :=
  .last (.read (ToolProg.finds_of_reads (reads_loadAnalysisSubgraph _ _)) fun _ => honest_ofReport _)

theorem honest_dispatchTool (pinned : ℕ) {name : String} (h : name ≠ "retrieve_context_capsule") :
    HonestAfter [] (dispatchTool tb pinned name args) := by
  unfold dispatchTool
  split
  · exact honest_symbolSearch tb args
  · exact honest_semanticSearch tb args
  · exact honest_discoverSymbols tb args
  · exact honest_diffuseContext tb args
  · exact honest_symbolLookup args
  · exact honest_dependencyTrace tb args
  · exact honest_resolveSymbols tb args
  · exact absurd rfl h
  · exact honest_analyzePatchImpact tb args _
  · exact honest_inspectSymbolComplexity tb args
  · exact honest_traceBlastRadius tb args
  · exact honest_suggestOptimalRefactor tb args
  · exact Prog.yields_fail

end

/-! ## The capsule -/

/-- A composed hit whose symbol is hydrated. -/
def IsRelevant (composed : List Hit) (symbols : List Symbol) (h : Hit) : Prop :=
  h ∈ composed ∧ ∃ sym ∈ symbols, sym.id = h.symbolId

/-- A hit of the capsule that is composed from what has been found. -/
def Found.Includes (s : Found) (symbolBudget : ℕ) : Hit → Prop :=
  IsRelevant (composeCapsule [s.lexical, s.semantic] s.diffused symbolBudget defaultRrfK) s.hydrated

/-- The number of symbols that a capsule has room for. -/
def symbolBudget (tb : Toolbox) (args : Json) : ℕ :=
  max (tb.caps.clampTokens ((Tools.argI64 tb args "max_tokens").getD 8000) / 50) 1

section
open Tools ToolProg
variable (tb : Toolbox) (args : Json)

/-- The capsule shows the hits whose symbols are hydrated, and goes by their layers. -/
theorem finds_composeContext {task : String} {maxTokens : ℕ} {composed : List Hit}
    {symbols : List Symbol} {edges : List Edge} :
    (composeContext tb task maxTokens composed symbols edges).Finds fun s out => s = {} ∧
      (out.semanticIncluded = true ↔ ∃ h, IsRelevant composed symbols h ∧ h.layer = "semantic") ∧
      ∀ id, out.result.Shows id ↔ ∃ h, IsRelevant composed symbols h ∧ h.symbolId = id := by
  unfold composeContext
  dsimp only
  split
  · exact Prog.yields_fail
  · simp only [IsRelevant, ← Table.exists_lookup, and_assoc]
    generalize tb.analyses.workspaceComplexity symbols edges = reports
    refine finds_done ⟨rfl, ?_, fun id => ?_⟩
    · simp only [List.any_filterMap, List.any_eq_true]
      refine exists_congr fun h => and_congr_right fun _ => ?_
      cases Table.lookup Symbol.id symbols h.symbolId with
      | none => simp
      | some sym => simp [relevantSymbol]
    · simp only [ToolResult.Shows, List.mem_filterMap]
      constructor
      · rintro ⟨entry, ⟨h, hmem, hentry⟩, rfl⟩
        obtain ⟨sym, hsym, rfl⟩ := Option.map_eq_some_iff.1 hentry
        exact ⟨h, hmem, ⟨sym, hsym⟩, (Table.key_of_lookup hsym).symm⟩
      · rintro ⟨h, hmem, ⟨sym, hsym⟩, rfl⟩
        exact ⟨_, ⟨h, hmem, Option.map_eq_some_iff.2 ⟨sym, hsym, rfl⟩⟩, Table.key_of_lookup hsym⟩

theorem finds_requireStr (key : String) : (requireStr args key).Finds fun s _ => s = {} := by
  unfold requireStr
  split
  · split
    · exact Prog.yields_fail
    · exact finds_done rfl
  · exact Prog.yields_fail

theorem finds_integrationEdgeContext : integrationEdgeContext.Finds fun s _ => s = {} :=
  Prog.yields_ask fun _ => Prog.yields_done rfl

theorem finds_edgesIncident (ids : List String) (direction : Direction) :
    (edgesIncident ids direction).Finds fun s _ => s = {} := by
  refine Prog.yields_ask ?_
  rintro (_ | _) <;> exact Prog.yields_done rfl

/-- The capsule, by what its searches, its diffusion and its hydration have found. -/
theorem finds_retrieveContextCapsule :
    (retrieveContextCapsule tb args).Finds fun s out =>
      (out.semanticIncluded = true ↔
        ∃ h, s.Includes (symbolBudget tb args) h ∧ h.layer = "semantic") ∧
      ∀ id, out.result.Shows id ↔ ∃ h, s.Includes (symbolBudget tb args) h ∧ h.symbolId = id := by
  refine .bind (finds_requireStr args _) fun s task hs => ?_
  refine .bind (.stage (finds_ftsSearch _ _) rfl) fun s₁ lexical h₁ => ?_
  refine .bind (.stage (finds_semanticSearchIfAvailable _ _) rfl) fun s₂ semantic h₂ => ?_
  refine .bind (.stage (finds_diffuse _ _ _ _) rfl) fun s₃ csar h₃ => ?_
  refine .bind finds_integrationEdgeContext fun s₄ flag h₄ => ?_
  refine .bind (.stage (finds_hydrateMap _) rfl) fun s₅ symbols h₅ => ?_
  refine .bind (finds_edgesIncident _ _) fun s₆ edges h₆ => ?_
  subst hs h₁ h₂ h₃ h₄ h₅ h₆
  intro t out h
  obtain ⟨hfound, hout⟩ := finds_composeContext tb t out h
  rw [composeCapsuleWithEdges_nil] at hout
  rw [hfound]
  simp only [Found.append, Found.Includes, List.nil_append, List.append_nil]
  exact hout

end

/-! ## Responses -/

namespace ToolCall

variable (c : ToolCall)

/-- `semantic_available` says whether the payload shows a hit of a semantic search. -/
def TellsTruth : Prop :=
  ∀ response, c.response = some response →
    (response.semanticAvailable = true ↔
      ∃ h ∈ (found c.events).semantic, response.result.Shows h.symbolId)

/-- A hit that is in the capsule of the call. -/
def Includes : Hit → Prop := (found c.events).Includes (symbolBudget c.tb c.args)

/-- The capsule includes a symbol that a semantic search has found. -/
def IncludesSemantic : Prop :=
  ∃ g, c.Includes g ∧ ∃ h ∈ (found c.events).semantic, h.symbolId = g.symbolId

/-- The capsule includes a hit of the diffusion that is labelled as a semantic one. -/
def IncludesLabelled : Prop :=
  ∃ g ∈ (found c.events).diffused, c.Includes g ∧ g.layer = "semantic"

theorem finds_callTool {P : Found → ToolOutput → Prop}
    (h : ∀ pinned, (Tools.dispatchTool c.tb pinned c.name c.args).Finds P) :
    c.program.Finds fun s a => P s a.1 := by
  refine Prog.yields_ask ?_
  rintro (e | info)
  · exact Prog.yields_fail
  · show ToolProg.Finds (Tools.dispatchTool c.tb info.sourceGeneration c.name c.args >>= fun out =>
      .done (out, info)) fun s a => P s a.1
    refine .bind (h info.sourceGeneration) fun s out hout => ?_
    refine ToolProg.finds_done ?_
    simpa [Found.append] using hout

/-- A response repeats what its tool has put out. -/
theorem exists_output {P : Found → ToolOutput → Prop} {response : ToolResponse}
    (hP : ∀ pinned, (Tools.dispatchTool c.tb pinned c.name c.args).Finds P)
    (h : c.response = some response) :
    ∃ out : ToolOutput, response.result = out.result ∧
      response.semanticAvailable = out.semanticIncluded ∧ P (found c.events) out := by
  unfold ToolCall.response respond at h
  split at h
  · next out info hout =>
    cases h
    exact ⟨out, rfl, rfl, c.finds_callTool hP _ _ (hout ▸ Prog.runs_trace _ _ _)⟩
  · cases h

/-- The fusion has renamed the layers of its hits. -/
theorem includesLabelled_iff : c.IncludesLabelled ↔ ∃ g, c.Includes g ∧ g.layer = "semantic" := by
  constructor
  · rintro ⟨g, -, hg, hlayer⟩
    exact ⟨g, hg, hlayer⟩
  · rintro ⟨g, hg, hlayer⟩
    rcases mem_composeCapsule hg.1 with hfused | hmem
    · rw [hlayer] at hfused
      exact absurd hfused (by decide)
    · exact ⟨g, hmem, hg, hlayer⟩

end ToolCall

namespace SemanticExample

/-- An engine whose semantic search finds a symbol. -/
def semanticEngine (n : ℕ) : (c : EngineCall) → c.Answer
  | .semanticAvailable => true
  | .semanticSearch _ _ => .ok [⟨"s", 1, "semantic", "", .object []⟩]
  | .hydrate _ => .ok [{ (default : Symbol) with id := "s" }]
  | c => DeadlineExample.emptyEngine n c

def capsuleCall : ToolCall where
  tb := default
  name := "retrieve_context_capsule"
  args := .object [("task", .string "a")]
  run :=
    { clock := fun _ => 0
      monotone := fun _ _ _ => Nat.le_refl 0
      cancelled := fun _ => false
      stays := fun _ _ _ h => h
      engine := semanticEngine }

end SemanticExample

end Cognis
