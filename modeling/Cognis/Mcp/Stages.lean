/-
  The stage gates of the tools (`tools.rs`), by the shape of their programs.

  * `Strict`: a gate that refuses ends the program; `slack`: how many gates there are before
    the next call, once they truncate;
  * `gated_dispatchTool`: a tool makes no call once a gate truncates, but for the one for a
    capsule, which makes one after its third and one after its fourth gate.
-/
import Cognis.Mcp.Tools

namespace Cognis

/-! ## Programs with gates -/

namespace ToolProg

variable {α β : Type}

/-- A gate that refuses ends the program with its error. -/
def Strict : ToolProg α → Prop
  | .done _ => True
  | .fail _ => True
  | .ask (.gate _) k => (∀ e, k (.error e) = .fail (.error e)) ∧ Strict (k (.ok .truncate)) ∧
      Strict (k (.ok .cont))
  | .ask (.call _) k => ∀ a, Strict (k a)

/-- The number of gates before the first call, when they all truncate; none without a
    call. -/
def slack : ToolProg α → Option ℕ
  | .done _ => none
  | .fail _ => none
  | .ask (.gate _) k => (slack (k (.ok .truncate))).map (· + 1)
  | .ask (.call _) _ => some 0

/-- After the `g`-th gate, when it truncates, the slack is `f g`. -/
def Spaced (f : ℕ → Option ℕ) : ℕ → ToolProg α → Prop
  | _, .done _ => True
  | _, .fail _ => True
  | g, .ask (.gate _) k => slack (k (.ok .truncate)) = f g ∧ Spaced f (g + 1) (k (.ok .cont))
  | g, .ask (.call _) k => ∀ a, Spaced f g (k a)

end ToolProg

/-! ## The tools -/

namespace ToolProg

variable {α β : Type} {f : ℕ → Option ℕ} {g : ℕ}

/-- A program whose gates end it when they refuse, with its slack after each gate. -/
structure Gated (f : ℕ → Option ℕ) (g : ℕ) (p : ToolProg α) : Prop where
  strict : p.Strict
  spaced : p.Spaced f g

theorem Gated.bind {p : ToolProg α} {F : α → ToolProg β} (hp : p.Uses ToolOp.IsCall)
    (hF : ∀ a, Gated f g (F a)) : Gated f g (p >>= F) := by
  induction p with
  | done a => exact hF a
  | fail e => exact ⟨trivial, trivial⟩
  | ask op k ih =>
    cases op with
    | call c => exact ⟨fun a => (ih a (hp.2 a)).strict, fun a => (ih a (hp.2 a)).spaced⟩
    | gate tool => exact hp.1.elim

theorem Gated.of_calls {p : ToolProg α} (hp : p.Uses ToolOp.IsCall) : Gated f g p := by
  induction p with
  | done a => exact ⟨trivial, trivial⟩
  | fail e => exact ⟨trivial, trivial⟩
  | ask op k ih =>
    cases op with
    | call c => exact ⟨fun a => (ih a (hp.2 a)).strict, fun a => (ih a (hp.2 a)).spaced⟩
    | gate tool => exact hp.1.elim

/-- A stage, and what follows it. -/
theorem Gated.stage {tool : String} {p : ToolProg α} {skipped : α} {F : α → ToolProg β}
    (hp : p.Uses ToolOp.IsCall) (hskip : (F skipped).slack = f g) (hF : ∀ a, Gated f (g + 1) (F a)) :
    Gated f g (ToolProg.stage tool p skipped >>= F) :=
  ⟨⟨fun _ => rfl, (hF skipped).strict, (Gated.bind hp hF).strict⟩, hskip, (Gated.bind hp hF).spaced⟩

/-- A stage at the end of a tool. -/
theorem Gated.last {tool : String} {p : ToolProg α} {skipped : α} (hp : p.Uses ToolOp.IsCall)
    (hf : f g = none) : Gated f g (ToolProg.stage tool p skipped) :=
  ⟨⟨fun _ => rfl, trivial, (of_calls (f := f) (g := g) hp).strict⟩, hf.symm, (of_calls hp).spaced⟩

theorem slack_map {p : ToolProg α} (h : α → β) : slack (p >>= fun a => .done (h a)) = slack p := by
  induction p with
  | done a => rfl
  | fail e => rfl
  | ask op k ih =>
    cases op with
    | call c => rfl
    | gate tool => exact congrArg _ (ih _)

theorem Strict.map {p : ToolProg α} (hp : p.Strict) (h : α → β) :
    Strict (p >>= fun a => .done (h a)) := by
  induction p with
  | done a => exact trivial
  | fail e => exact trivial
  | ask op k ih =>
    cases op with
    | call c => exact fun a => ih a (hp a)
    | gate tool =>
      obtain ⟨herror, htrunc, hcont⟩ := hp
      refine ⟨fun e => ?_, ih _ htrunc, ih _ hcont⟩
      show k (.error e) >>= _ = _
      rw [herror]
      rfl

theorem Gated.map {p : ToolProg α} (hp : Gated f g p) (h : α → β) :
    Gated f g (p >>= fun a => .done (h a)) := by
  refine ⟨hp.strict.map h, ?_⟩
  have hs := hp.spaced
  clear hp
  induction p generalizing g with
  | done a => exact trivial
  | fail e => exact trivial
  | ask op k ih =>
    cases op with
    | call c => exact fun a => ih a (hs a)
    | gate tool => exact ⟨(slack_map h).trans hs.1, ih _ hs.2⟩

end ToolProg

namespace Tools

open ToolProg

variable {α : Type} {f : ℕ → Option ℕ} {g : ℕ} (tb : Toolbox) (args : Json)

theorem reads_ofEngine (result : EngineResult α) : (ofEngine result).Uses ToolOp.IsRead := by
  cases result <;> exact trivial

theorem reads_requireStr (key : String) : (requireStr args key).Uses ToolOp.IsRead := by
  unfold requireStr
  split
  · split <;> exact trivial
  · exact trivial

theorem reads_hydrate (ids : List String) : (hydrate ids).Uses ToolOp.IsRead :=
  ⟨trivial, reads_ofEngine⟩

theorem reads_hydrateMap (ids : List String) : (hydrateMap ids).Uses ToolOp.IsRead :=
  (reads_hydrate ids).bind fun _ => trivial

theorem reads_ftsSearch (query : String) (k : ℕ) : (ftsSearch query k).Uses ToolOp.IsRead :=
  ⟨trivial, reads_ofEngine⟩

theorem reads_diffuse (seeds : List (List Hit)) (k : ℕ) (alpha eps : ℚ) :
    (diffuse seeds k alpha eps).Uses ToolOp.IsRead := ⟨trivial, reads_ofEngine⟩

theorem reads_lookup (nameOrId : String) (kind : Option String) :
    (lookup nameOrId kind).Uses ToolOp.IsRead := ⟨trivial, reads_ofEngine⟩

theorem reads_dependencyTrace (symbolId direction : String) (depth : ℕ) :
    (ToolProg.dependencyTrace symbolId direction depth).Uses ToolOp.IsRead :=
  ⟨trivial, reads_ofEngine⟩

theorem reads_integrationEdgeContext : integrationEdgeContext.Uses ToolOp.IsRead :=
  ⟨trivial, fun _ => trivial⟩

theorem reads_edgesIncident (ids : List String) (direction : Direction) :
    (edgesIncident ids direction).Uses ToolOp.IsRead := by
  refine ⟨trivial, ?_⟩
  rintro (_ | _) <;> exact trivial

theorem reads_seedFile (path : String) (s : Seeds) : (seedFile path s).Uses ToolOp.IsRead := by
  refine ⟨trivial, ?_⟩
  rintro (_ | _) <;> exact trivial

theorem reads_seedSearch (query : String) (s : Seeds) : (seedSearch query s).Uses ToolOp.IsRead := by
  refine ⟨trivial, ?_⟩
  rintro (_ | _) <;> exact trivial

theorem reads_seedQuery (query : String) (s : Seeds) : (seedQuery query s).Uses ToolOp.IsRead := by
  unfold seedQuery
  generalize String.ofList (Text.trim query.toList) = q
  dsimp only
  split_ifs
  · exact trivial
  · refine ⟨trivial, ?_⟩
    rintro (_ | _ | _)
    · exact (reads_seedSearch _ _).bind (reads_seedFile _)
    · exact (reads_seedSearch _ _).bind (reads_seedFile _)
    · exact reads_seedFile _ _

theorem reads_seedResident (s : Seeds) : (seedResident s).Uses ToolOp.IsRead := by
  refine ⟨trivial, ?_⟩
  rintro (_ | _)
  · exact trivial
  · show Prog.Uses ToolOp.IsRead (if _ then _ else _)
    split_ifs <;> exact trivial

theorem reads_synthesizeEdges (sym : Symbol) (edges : List Edge) :
    (synthesizeEdges sym edges).Uses ToolOp.IsRead := by
  refine ⟨trivial, ?_⟩
  rintro (_ | _) <;> exact trivial

theorem reads_forEach {β σ : Type} {body : β → σ → ToolProg σ}
    (h : ∀ b s, (body b s).Uses ToolOp.IsRead) (items : List β) (s : σ) :
    (forEach body items s).Uses ToolOp.IsRead := by
  induction items generalizing s with
  | nil => exact trivial
  | cons b items ih => exact (h b s).bind ih

theorem reads_expand (hops : ℕ) (c : Cone) : (expand hops c).Uses ToolOp.IsRead := by
  induction hops generalizing c with
  | zero => exact trivial
  | succ hops ih =>
    unfold expand
    split_ifs
    · exact trivial
    · exact (reads_edgesIncident _ _).bind fun _ => ih _

theorem reads_coneEdges (c : Cone) (symbols : List Symbol) :
    (coneEdges c symbols).Uses ToolOp.IsRead := by
  unfold coneEdges
  split_ifs
  · exact reads_forEach reads_synthesizeEdges _ _
  · exact trivial

theorem reads_loadAnalysisSubgraph (focusQueries filePaths : List String) :
    (loadAnalysisSubgraph focusQueries filePaths).Uses ToolOp.IsRead := by
  refine (reads_forEach reads_seedFile _ _).bind fun seeds => ?_
  refine (reads_forEach reads_seedQuery _ _).bind fun seeds => ?_
  refine (reads_seedResident _).bind fun seeds => ?_
  refine (reads_expand _ _).bind fun cone => ?_
  refine (reads_hydrate _).bind fun symbols => ?_
  exact (reads_coneEdges _ _).bind fun edges => trivial

theorem reads_ofReport (report : Except McpError Json) : (ofReport report).Uses ToolOp.IsRead := by
  cases report <;> exact trivial

theorem reads_blastReport (target : String) (symbols : List Symbol) (edges : List Edge)
    (found : Option Symbol) : (blastReport tb args target symbols edges found).Uses ToolOp.IsRead := by
  unfold blastReport
  dsimp only
  split
  · exact trivial
  · exact reads_ofReport _

theorem reads_composeContext (task : String) (maxTokens : ℕ) (composed : List Hit)
    (symbols : List Symbol) (edges : List Edge) :
    (composeContext tb task maxTokens composed symbols edges).Uses ToolOp.IsRead := by
  unfold composeContext
  dsimp only
  split <;> exact trivial

theorem calls_of_reads {p : ToolProg α} (hp : p.Uses ToolOp.IsRead) : p.Uses ToolOp.IsCall := by
  refine hp.mono ?_
  rintro (_ | _) hop
  · exact hop
  · exact trivial

theorem calls_semanticSearch (query : String) (k : ℕ) :
    (ToolProg.semanticSearch query k).Uses ToolOp.IsCall :=
  ⟨trivial, fun result => calls_of_reads (reads_ofEngine result)⟩

theorem calls_semanticSearchIfAvailable (query : String) (k : ℕ) :
    (semanticSearchIfAvailable query k).Uses ToolOp.IsCall := by
  refine ⟨trivial, ?_⟩
  rintro (_ | _)
  · exact trivial
  · exact calls_semanticSearch query k

/-! A tool that makes no call once a gate truncates. -/

section
variable (hf : ∀ g, f g = none)
include hf

theorem gated_symbolSearch : Gated f 0 (symbolSearch tb args) := by
  refine .bind (calls_of_reads (reads_requireStr args _)) fun query => ?_
  refine .stage (calls_of_reads (reads_ftsSearch _ _)) (hf 0).symm fun hits => ?_
  refine .stage (calls_of_reads (reads_hydrateMap _)) (hf 1).symm fun symbols => ?_
  exact ⟨trivial, trivial⟩

theorem gated_semanticSearch : Gated f 0 (semanticSearch tb args) := by
  refine .bind (calls_of_reads (reads_requireStr args _)) fun query => ?_
  refine .stage (calls_semanticSearch _ _) (hf 0).symm fun hits => ?_
  refine .stage (calls_of_reads (reads_hydrateMap _)) (hf 1).symm fun symbols => ?_
  exact ⟨trivial, trivial⟩

theorem gated_discoverSymbols : Gated f 0 (discoverSymbols tb args) := by
  refine .bind (calls_of_reads (reads_requireStr args _)) fun query => ?_
  refine .stage (calls_of_reads (reads_ftsSearch _ _)) (hf 0).symm fun lexical => ?_
  refine .stage (calls_semanticSearch _ _) (hf 1).symm fun semantic => ?_
  refine .stage (calls_of_reads (reads_hydrateMap _)) (hf 2).symm fun symbols => ?_
  exact ⟨trivial, trivial⟩

theorem gated_diffuseContext : Gated f 0 (diffuseContext tb args) := by
  refine .bind (calls_of_reads (reads_requireStr args _)) fun query => ?_
  refine .stage (calls_of_reads (reads_ftsSearch _ _)) (hf 0).symm fun lexical => ?_
  refine .stage (calls_semanticSearchIfAvailable _ _) (hf 1).symm fun semantic => ?_
  refine .stage (calls_of_reads (reads_diffuse _ _ _ _)) (hf 2).symm fun diffused => ?_
  refine .stage (calls_of_reads (reads_hydrateMap _)) (hf 3).symm fun symbols => ?_
  exact ⟨trivial, trivial⟩

theorem gated_symbolLookup : Gated f 0 (symbolLookup args) := by
  refine .bind (calls_of_reads (reads_requireStr args _)) fun nameOrId => ?_
  refine .last (calls_of_reads ((reads_lookup _ _).bind fun found => ?_)) (hf 0)
  cases found <;> exact trivial

theorem gated_dependencyTrace : Gated f 0 (dependencyTrace tb args) := by
  refine .bind (calls_of_reads (reads_requireStr args _)) fun symbolId => ?_
  dsimp only
  split_ifs
  · refine .stage (calls_of_reads (reads_dependencyTrace _ _ _)) (hf 0).symm fun hits => ?_
    refine .stage (calls_of_reads (reads_hydrateMap _)) (hf 1).symm fun symbols => ?_
    exact ⟨trivial, trivial⟩
  · exact ⟨trivial, trivial⟩

theorem gated_resolveSymbols : Gated f 0 (resolveSymbols tb args) := by
  unfold resolveSymbols
  split
  · exact ⟨trivial, trivial⟩
  · split
    · exact ⟨trivial, trivial⟩
    · refine .last (calls_of_reads ((reads_hydrateMap _).bind fun symbols => ?_)) (hf 0)
      exact trivial

theorem gated_analyzePatchImpact (pinned : ℕ) : Gated f 0 (analyzePatchImpact tb pinned args) :=
  .last (calls_of_reads ((reads_loadAnalysisSubgraph _ _).bind fun _ => reads_ofReport _)) (hf 0)

theorem gated_inspectSymbolComplexity : Gated f 0 (inspectSymbolComplexity tb args) :=
  .last (calls_of_reads ((reads_loadAnalysisSubgraph _ _).bind fun _ => reads_ofReport _)) (hf 0)

theorem gated_traceBlastRadius : Gated f 0 (traceBlastRadius tb args) := by
  unfold traceBlastRadius
  split
  · exact ⟨trivial, trivial⟩
  · refine .last (calls_of_reads ?_) (hf 0)
    refine (reads_loadAnalysisSubgraph _ _).bind ?_
    rintro ⟨symbols, edges⟩
    exact (reads_lookup _ _).bind fun found => reads_blastReport tb args _ _ _ _

theorem gated_suggestOptimalRefactor : Gated f 0 (suggestOptimalRefactor tb args) :=
  .last (calls_of_reads ((reads_loadAnalysisSubgraph _ _).bind fun _ => reads_ofReport _)) (hf 0)

end

/-- The capsule makes a call after each of its gates. -/
theorem gated_retrieveContextCapsule (hf : ∀ g, f g = some (2 - g)) :
    Gated f 0 (retrieveContextCapsule tb args) := by
  refine .bind (calls_of_reads (reads_requireStr args _)) fun task => ?_
  refine .stage (calls_of_reads (reads_ftsSearch _ _)) (hf 0).symm fun lexical => ?_
  refine .stage (calls_semanticSearchIfAvailable _ _) (hf 1).symm fun semantic => ?_
  refine .stage (calls_of_reads (reads_diffuse _ _ _ _)) (hf 2).symm fun csar => ?_
  refine .bind (calls_of_reads reads_integrationEdgeContext) fun flag => ?_
  refine .stage (calls_of_reads (reads_hydrateMap _)) (hf 3).symm fun symbols => ?_
  refine .bind (calls_of_reads (reads_edgesIncident _ _)) fun edges => ?_
  exact .of_calls (calls_of_reads (reads_composeContext tb _ _ _ _ _))

/-- The slack of a tool after a gate. -/
def toolSlack (name : String) (g : ℕ) : Option ℕ :=
  if name = "retrieve_context_capsule" then some (2 - g) else none

theorem toolSlack_of_ne {name : String} (h : name ≠ "retrieve_context_capsule") (g : ℕ) :
    toolSlack name g = none := if_neg h

theorem gated_dispatchTool (pinned : ℕ) (name : String) :
    Gated (toolSlack name) 0 (dispatchTool tb pinned name args) := by
  unfold dispatchTool
  split
  · exact gated_symbolSearch tb args (toolSlack_of_ne (by decide))
  · exact gated_semanticSearch tb args (toolSlack_of_ne (by decide))
  · exact gated_discoverSymbols tb args (toolSlack_of_ne (by decide))
  · exact gated_diffuseContext tb args (toolSlack_of_ne (by decide))
  · exact gated_symbolLookup args (toolSlack_of_ne (by decide))
  · exact gated_dependencyTrace tb args (toolSlack_of_ne (by decide))
  · exact gated_resolveSymbols tb args (toolSlack_of_ne (by decide))
  · exact gated_retrieveContextCapsule tb args fun g => if_pos rfl
  · exact gated_analyzePatchImpact tb args (toolSlack_of_ne (by decide)) _
  · exact gated_inspectSymbolComplexity tb args (toolSlack_of_ne (by decide))
  · exact gated_traceBlastRadius tb args (toolSlack_of_ne (by decide))
  · exact gated_suggestOptimalRefactor tb args (toolSlack_of_ne (by decide))
  · exact ⟨trivial, trivial⟩

theorem gated_callTool (name : String) : Gated (toolSlack name) 0 (callTool tb name args) := by
  refine ⟨?_, ?_⟩
  · rintro (_ | info)
    · exact trivial
    · exact ((gated_dispatchTool tb args _ name).map _).strict
  · rintro (_ | info)
    · exact trivial
    · exact ((gated_dispatchTool tb args _ name).map _).spaced

end Tools

end Cognis
