/-
  The shadow analysis of `cognis-indexer` (`shadow.rs`): in-memory edits of files laid
  over an indexed base.

  * `ShadowInput` holds the base and the edits, with the parser and the resolver that the
    analysis runs; `Overlay` is the state of the loop over the edits;
  * `shadowSeeds` are the seeds of the impact analysis, of the symbols that the edits
    touch and of those they delete;
  * `deleted_caller_reported_iff`: when a caller of a deleted symbol is reported.
-/
import Cognis.Csar.Impact
import Cognis.Indexer.Propagation
import Cognis.Lib.Table

namespace Cognis

open Table

/-! ## Notation -/

/-- The function `notation` of a class. -/
def ComplexityClass.bigO : ComplexityClass → String
  | .constant => "O(1)"
  | .logarithmic power => logText power
  | .sqrt => "O(sqrt(n))"
  | .polynomial degree logPower =>
    if degree = 0 then logText logPower
    else
      let n := if degree = 1 then "n" else "n^" ++ toString degree.toNat
      if logPower = 0 then "O(" ++ n ++ ")"
      else if logPower = 1 then "O(" ++ n ++ " log n)"
      else "O(" ++ n ++ " (log n)^" ++ toString logPower.toNat ++ ")"
  | .exponential baseCalls => "O(" ++ toString (max baseCalls 2).toNat ++ "^n)"
  | .factorial => "O(n!)"
where
  /-- `O((log n)^power)` -/
  logText (power : UInt8) : String :=
    if power = 0 then "O(1)"
    else if power = 1 then "O(log n)"
    else "O((log n)^" ++ toString power.toNat ++ ")"

/-- `parse_notation_to_class` -/
def parseNotationToClass (text : String) : ComplexityClass :=
  match text with
  | "O(1)" => .constant
  | "O(log n)" => .logN
  | "O(sqrt(n))" => .sqrtN
  | "O(n)" => .linear
  | "O(n log n)" => .nLogN
  | "O(n^2)" => .polynomial 2 0
  | "O(n^3)" => .polynomial 3 0
  | "O(n!)" => .factorial
  | s =>
    if hasSubstring s "^n" then .exponential 2
    else if "O(n^".toList.isPrefixOf s.toList then .polynomial 4 0
    else .constant

/-! ## The overlay -/

/-- `ShadowFileEdit` -/
structure ShadowFileEdit where
  filePath : String
  newContent : String
  deriving DecidableEq, Repr

/-- The arguments of `analyze_shadow_patch`, with the code that it runs on them. -/
structure ShadowInput where
  baseSymbols : List Symbol
  baseEdges : List Edge
  fileEdits : List ShadowFileEdit
  targetQueries : List String
  /-- the symbols of `parse_source` -/
  parseSource : String → String → List Symbol
  /-- `to_edges(&resolve_edges(..))` -/
  resolveEdges : List Symbol → List Edge
  /-- the pass over the syntax tree of a body -/
  walk : Symbol → String → AstComplexitySummary

/-- The variables of the loop over the edits. -/
structure Overlay where
  symbols : List Symbol
  sourceOverrides : String → Option String
  touchedSymbolIds : List String

/-- The source of a symbol, by its lines in the text of the edit. -/
def fullSource (newContent : String) (sym : Symbol) : Option String :=
  let lines := Text.lines newContent.toList
  let startIdx := min (sym.lineStart.toNat - 1) lines.length
  let endIdx := min sym.lineEnd.toNat lines.length
  if startIdx < endIdx then
    some (String.ofList (Text.join ['\n'] ((lines.drop startIdx).take (endIdx - startIdx))))
  else none

namespace ShadowInput

variable (input : ShadowInput)

/-- `edited_paths` -/
def editedPaths : List String := input.fileEdits.map ShadowFileEdit.filePath

/-- The base symbols of the edited files. -/
def oldSymbols : List Symbol := input.baseSymbols.filter (·.filePath ∈ input.editedPaths)

/-- `old_by_file_and_qname`: the last symbol of a key wins. -/
def oldByFileAndQname : List Symbol :=
  build (fun sym => (sym.filePath, sym.qualifiedName)) input.oldSymbols

/-- `old_by_file_and_name` -/
def oldByFileAndName : List Symbol := build (fun sym => (sym.filePath, sym.name)) input.oldSymbols

/-- The old symbol that a symbol at a path stands for. -/
def oldSymbol (path : String) (sym : Symbol) : Option Symbol :=
  lookup (fun old => (old.filePath, old.qualifiedName)) input.oldByFileAndQname
      (path, sym.qualifiedName) <|>
    lookup (fun old => (old.filePath, old.name)) input.oldByFileAndName (path, sym.name)

/-- One symbol of an edit: it takes the id of the old symbol it stands for. -/
def overlaySymbol (edit : ShadowFileEdit) (o : Overlay) (newSym : Symbol) : Overlay :=
  let parsedId := newSym.id
  let overrides := match fullSource edit.newContent newSym with
    | some src => Function.update o.sourceOverrides parsedId (some src)
    | none => o.sourceOverrides
  match input.oldSymbol edit.filePath newSym with
  | none => ⟨o.symbols ++ [newSym], overrides, o.touchedSymbolIds ++ [parsedId]⟩
  | some old =>
    let overrides := match overrides parsedId with
      | some src => Function.update (Function.update overrides parsedId none) old.id (some src)
      | none => overrides
    ⟨o.symbols ++ [{ newSym with id := old.id }], overrides, o.touchedSymbolIds ++ [old.id]⟩

/-- One edit. -/
def overlayEdit (o : Overlay) (edit : ShadowFileEdit) : Overlay :=
  (input.parseSource edit.filePath edit.newContent).foldl (input.overlaySymbol edit) o

/-- The symbols that are in no edited file. -/
def keptSymbols : List Symbol := input.baseSymbols.filter (·.filePath ∉ input.editedPaths)

/-- The overlay after the loop over the edits. -/
def overlay : Overlay :=
  input.fileEdits.foldl input.overlayEdit ⟨input.keptSymbols, fun _ => none, []⟩

/-- Whether the first symbol of the id is in an edited file. -/
def inEditedFile (symbols : List Symbol) (id : String) : Bool :=
  (symbols.find? (·.id = id)).any (·.filePath ∈ input.editedPaths)

/-- `overlay_edges` -/
def overlayEdges : List Edge :=
  if input.fileEdits = [] then input.baseEdges
  else
    input.baseEdges.filter (!input.inEditedFile input.baseSymbols ·.srcId) ++
      (input.resolveEdges input.overlay.symbols).filter
        (input.inEditedFile input.overlay.symbols ·.srcId)

/-- The base workspace. -/
def baseWorkspace : Workspace where
  symbols := input.baseSymbols
  edges := input.baseEdges
  sourceOverrides := fun _ => none
  walk := input.walk

/-- The overlay workspace. -/
def overlayWorkspace : Workspace where
  symbols := input.overlay.symbols
  edges := input.overlayEdges
  sourceOverrides := input.overlay.sourceOverrides
  walk := input.walk

end ShadowInput

/-- `propagated_time` of the report of an id. -/
def Workspace.reportedTime (ws : Workspace) (id : String) : Option String :=
  (ws.idToIdx id).map fun u => (ws.propagatedTime u).bigO

/-- `edge_loop_depths`: the last edge between two symbols wins. -/
def Workspace.edgeLoopDepths (ws : Workspace) (ends : String × String) : Option UInt8 :=
  (ws.edges.reverse.find? fun edge =>
      (ws.callEdge edge).isSome && decide ((edge.srcId, edge.dstId) = ends)).bind fun edge =>
    (ws.callEdge edge).map fun call => call.2.2.loopDepth

/-! ## The seeds -/

namespace ShadowInput

variable (input : ShadowInput)

/-- `overlay_sym_map`: the last symbol of an id wins. -/
def overlaySymMap (id : String) : Option Symbol := input.overlay.symbols.reverse.find? (·.id = id)

/-- The symbols of a target query. -/
def queried (query : String) : List String :=
  let q := String.ofList (Text.trim query.toList)
  (input.overlay.symbols.filter fun sym =>
    sym.id = q || sym.qualifiedName = q || sym.name = q || sym.filePath = q).map Symbol.id

/-- `touched_symbol_ids`, with the `hotspots` that stand in when no symbol is edited or
    queried. -/
def touchedSymbolIds (hotspots : List String) : List String :=
  if input.overlay.touchedSymbolIds ≠ [] then input.overlay.touchedSymbolIds
  else
    let queried := input.targetQueries.flatMap input.queried
    if queried ≠ [] then queried else hotspots

/-- `contract_reason`: the signature of the symbol of the id has changed. -/
def contractReason (id : String) : Option String :=
  (input.overlaySymMap id).bind fun newSym =>
    (input.oldSymbol newSym.filePath newSym).bind fun old =>
      let oldSig := old.signature.getD ""
      if !hasSubstring oldSig "(..." && old.signature ≠ newSym.signature then
        some ("Signature changed from \x60" ++ oldSig ++ "\x60 to \x60" ++
          newSym.signature.getD "" ++ "\x60")
      else none

/-- The complexities of a symbol before and after the edits. -/
def oldAndNewComplexity (id : String) : Option (ComplexityClass × ComplexityClass) :=
  (input.overlayWorkspace.reportedTime id).map fun report =>
    let newCplx := parseNotationToClass report
    (((input.baseWorkspace.reportedTime id).map parseNotationToClass).getD newCplx, newCplx)

/-- The seed of a touched symbol. -/
def touchedSeed (id : String) : Option SymbolImpactSeed :=
  (input.oldAndNewComplexity id).map fun (oldCplx, newCplx) =>
    let reason := input.contractReason id
    ⟨id, if reason.isSome then 85 / 100 else 0, reason, oldCplx, newCplx⟩

/-- `complexity_regressions_count` -/
def complexityRegressionsCount (hotspots : List String) : ℕ :=
  (input.touchedSymbolIds hotspots).countP fun id =>
    (input.oldAndNewComplexity id).any fun (oldCplx, newCplx) =>
      oldCplx.effectiveDegree < newCplx.effectiveDegree

/-- `still_exists` -/
def stillExists (old : Symbol) : Bool :=
  input.overlay.symbols.any fun sym =>
    sym.id = old.id || sym.filePath = old.filePath &&
      (sym.qualifiedName = old.qualifiedName || sym.name = old.name)

/-- The seeds of the deleted symbols. -/
def deletedSeeds : List SymbolImpactSeed :=
  (input.oldByFileAndQname.filter (!input.stillExists ·)).map fun old =>
    .signatureEdit old.id 1
      ("Symbol \x60" ++ old.qualifiedName ++ "\x60 was deleted or renamed in \x60" ++
        old.filePath ++ "\x60") .constant .constant

/-- `impact_seeds` -/
def impactSeeds (hotspots : List String) : List SymbolImpactSeed :=
  (input.touchedSymbolIds hotspots).filterMap input.touchedSeed ++ input.deletedSeeds

/-- `impact_graph` -/
def impactGraph : ImpactGraph :=
  .build (input.overlay.symbols.map Symbol.id) input.overlayEdges
    input.overlayWorkspace.edgeLoopDepths

/-- `impact_report.breaking_call_sites` -/
def breakingSites (hotspots : List String) : List ContractBreakageSite :=
  breakingCallSites input.impactGraph input.overlaySymMap (input.impactSeeds hotspots)

end ShadowInput

/-- The verdict of the capsule. -/
inductive Verdict where
  | warnContractBreakage | warnComplexityRegression | warnOptimizationNeeded | okOptimal
  deriving DecidableEq, Repr

/-- What the rest of the analysis finds: the loop-amplified paths of the impact report, and
    an advisory of severity critical or high. -/
structure OtherFindings where
  hotspots : List String
  amplified : Bool
  urgentAdvisory : Bool

/-- `verdict` -/
def ShadowInput.verdict (input : ShadowInput) (other : OtherFindings) : Verdict :=
  if !(input.breakingSites other.hotspots).isEmpty then .warnContractBreakage
  else if 0 < input.complexityRegressionsCount other.hotspots || other.amplified then
    .warnComplexityRegression
  else if other.urgentAdvisory then .warnOptimizationNeeded
  else .okOptimal

/-! ## Callers of deleted symbols -/

namespace ShadowInput

variable {input : ShadowInput}

/-- An edit removes a base symbol from its file, and a symbol of an unedited file has a
    stored call to it. -/
structure LosesCallee (input : ShadowInput) (old caller : Symbol) : Prop where
  base : old ∈ input.baseSymbols
  edited : old.filePath ∈ input.editedPaths
  gone : ∀ sym ∈ input.overlay.symbols, sym.filePath = old.filePath →
    sym.id ≠ old.id ∧ sym.qualifiedName ≠ old.qualifiedName ∧ sym.name ≠ old.name
  callerBase : caller ∈ input.baseSymbols
  unedited : caller.filePath ∉ input.editedPaths
  calls : ∃ edge ∈ input.baseEdges, edge.kind = .calls ∧ edge.srcId = caller.id ∧
    edge.dstId = old.id

/-- The caller is listed, and the verdict warns. -/
def Reports (input : ShadowInput) (other : OtherFindings) (callerId : String) : Prop :=
  (∃ site ∈ input.breakingSites other.hotspots, site.callerId = callerId) ∧
    input.verdict other = .warnContractBreakage

/-- The caller is not touched itself, and has a usable edge to a symbol that stays with
    another signature. -/
def CallsChanged (input : ShadowInput) (other : OtherFindings) (callerId : String) : Prop :=
  callerId ∉ input.touchedSymbolIds other.hotspots ∧
    ∃ id ∈ input.touchedSymbolIds other.hotspots, (input.contractReason id).isSome = true ∧
      ∃ edge ∈ input.overlayEdges, edge.Usable ∧ edge.srcId = callerId ∧ edge.dstId = id

/-- The loop over the edits only adds symbols. -/
theorem mem_overlay_of_kept {sym : Symbol} (h : sym ∈ input.keptSymbols) :
    sym ∈ input.overlay.symbols := by
  have hsymbol : ∀ edit o new, sym ∈ o.symbols → sym ∈ (input.overlaySymbol edit o new).symbols := by
    intro edit o new ho
    unfold overlaySymbol
    dsimp only
    split
    · exact List.mem_append_left _ ho
    · exact List.mem_append_left _ ho
  have hsymbols : ∀ edit (news : List Symbol) o, sym ∈ o.symbols →
      sym ∈ (news.foldl (input.overlaySymbol edit) o).symbols := by
    intro edit news
    induction news with
    | nil => exact fun _ ho => ho
    | cons new news ih => exact fun o ho => ih _ (hsymbol edit o new ho)
  have hedits : ∀ (edits : List ShadowFileEdit) o, sym ∈ o.symbols →
      sym ∈ (edits.foldl input.overlayEdit o).symbols := by
    intro edits
    induction edits with
    | nil => exact fun _ ho => ho
    | cons edit edits ih => exact fun o ho => ih _ (hsymbols edit _ o ho)
  exact hedits _ _ h

/-- A symbol of the overlay has an entry, under its id. -/
theorem overlaySymMap_isSome {id : String} (h : id ∈ input.overlay.symbols.map Symbol.id) :
    ∃ sym, input.overlaySymMap id = some sym ∧ sym.id = id := by
  obtain ⟨sym, hsym, rfl⟩ := List.mem_map.1 h
  have hsome : (input.overlaySymMap sym.id).isSome = true := by
    rw [overlaySymMap, List.find?_isSome]
    exact ⟨sym, List.mem_reverse.2 hsym, by simp⟩
  obtain ⟨new, hnew⟩ := Option.isSome_iff_exists.1 hsome
  exact ⟨new, hnew, by simpa using List.find?_some hnew⟩

/-- An entry is a symbol of the overlay. -/
theorem mem_of_overlaySymMap {id : String} {sym : Symbol} (h : input.overlaySymMap id = some sym) :
    id ∈ input.overlay.symbols.map Symbol.id := by
  have hid : sym.id = id := by simpa using List.find?_some h
  exact hid ▸ List.mem_map_of_mem (List.mem_reverse.1 (List.mem_of_find?_eq_some h))

/-- The symbols of the overlay are the ones with a report. -/
theorem touchedSeed_isSome {id : String} :
    (input.touchedSeed id).isSome = true ↔ id ∈ input.overlay.symbols.map Symbol.id := by
  have hidx : (input.overlayWorkspace.idToIdx id).isSome = true ↔
      id ∈ input.overlay.symbols.map Symbol.id := by
    unfold Workspace.idToIdx
    rw [Option.isSome_map, List.find?_isSome]
    constructor
    · rintro ⟨⟨sym, i⟩, hmem, hid⟩
      obtain rfl : sym.id = id := by simpa using hid
      exact List.mem_map_of_mem (List.mem_of_getElem? (List.mk_mem_zipIdx_iff_getElem?.1
        (List.mem_reverse.1 hmem)))
    · intro h
      obtain ⟨sym, hsym, rfl⟩ := List.mem_map.1 h
      obtain ⟨i, hi⟩ := List.mem_iff_getElem?.1 hsym
      exact ⟨(sym, i), List.mem_reverse.2 (List.mk_mem_zipIdx_iff_getElem?.2 hi), by simp⟩
  unfold touchedSeed oldAndNewComplexity Workspace.reportedTime
  simpa only [Option.isSome_map] using hidx

/-- The seed of a touched symbol breaks a contract when the signature has changed. -/
theorem touchedSeed_severity {id : String} {s : SymbolImpactSeed}
    (h : input.touchedSeed id = some s) :
    s.symbolId = id ∧ (0 < s.contractSeverity ↔ (input.contractReason id).isSome = true) := by
  obtain ⟨⟨oldCplx, newCplx⟩, -, rfl⟩ := Option.map_eq_some_iff.1 h
  refine ⟨rfl, ?_⟩
  dsimp only
  split_ifs with hreason
  · exact iff_of_true (by norm_num) hreason
  · exact iff_of_false (lt_irrefl 0) hreason

/-- **A deleted symbol is no node**: its seed lists no caller. -/
theorem deletedSeed_notMem {s : SymbolImpactSeed} (h : s ∈ input.deletedSeeds) :
    s.symbolId ∉ input.overlay.symbols.map Symbol.id := by
  obtain ⟨old, hold, rfl⟩ := List.mem_map.1 h
  have hgone := (List.mem_filter.1 hold).2
  intro hmem
  obtain ⟨sym, hsym, hid⟩ := List.mem_map.1 hmem
  have hexists : input.stillExists old = true :=
    List.any_eq_true.2 ⟨sym, hsym, by simp [show sym.id = old.id from hid]⟩
  rw [hexists] at hgone
  cases hgone

/-- The callers that break are the ones that call a symbol with a changed signature. -/
theorem breaks_iff {other : OtherFindings} {callerId : String}
    (hcaller : callerId ∈ input.overlay.symbols.map Symbol.id) :
    Breaks (input.overlay.symbols.map Symbol.id) input.overlayEdges
        (input.impactSeeds other.hotspots) callerId ↔ input.CallsChanged other callerId := by
  have hseed : callerId ∉ (input.impactSeeds other.hotspots).map SymbolImpactSeed.symbolId ↔
      callerId ∉ input.touchedSymbolIds other.hotspots := by
    rw [not_iff_not, List.mem_map]
    constructor
    · rintro ⟨s, hs, rfl⟩
      rcases List.mem_append.1 hs with hs | hs
      · obtain ⟨id, hid, hs⟩ := List.mem_filterMap.1 hs
        rwa [(touchedSeed_severity hs).1]
      · exact absurd hcaller (deletedSeed_notMem hs)
    · intro htouched
      obtain ⟨s, hs⟩ := Option.isSome_iff_exists.1 (touchedSeed_isSome.2 hcaller)
      exact ⟨s, List.mem_append_left _ (List.mem_filterMap.2 ⟨callerId, htouched, hs⟩),
        (touchedSeed_severity hs).1⟩
  unfold Breaks CallsChanged
  rw [hseed]
  constructor
  · rintro ⟨-, hne, s, hs, hsev, hmem, edge, hedge, husable, hsrc, hdst⟩
    rcases List.mem_append.1 hs with hs | hs
    · obtain ⟨id, hid, hs⟩ := List.mem_filterMap.1 hs
      obtain ⟨rfl, hsev'⟩ := touchedSeed_severity hs
      exact ⟨hne, s.symbolId, hid, hsev'.1 hsev, edge, hedge, husable, hsrc, hdst⟩
    · exact absurd hmem (deletedSeed_notMem hs)
  · rintro ⟨hne, id, hid, hreason, edge, hedge, husable, hsrc, hdst⟩
    obtain ⟨reason, hr⟩ := Option.isSome_iff_exists.1 hreason
    obtain ⟨sym, hsym, -⟩ := Option.bind_eq_some_iff.1 hr
    have hmem := mem_of_overlaySymMap hsym
    obtain ⟨s, hs⟩ := Option.isSome_iff_exists.1 (touchedSeed_isSome.2 hmem)
    obtain ⟨rfl, hsev⟩ := touchedSeed_severity hs
    exact ⟨hcaller, hne, s, List.mem_append_left _ (List.mem_filterMap.2 ⟨_, hid, hs⟩),
      hsev.2 hreason, hmem, edge, hedge, husable, hsrc, hdst⟩

/-- A listed caller makes the verdict. -/
theorem reports_iff {other : OtherFindings} {callerId : String} :
    input.Reports other callerId ↔
      ∃ site ∈ input.breakingSites other.hotspots, site.callerId = callerId := by
  refine and_iff_left_of_imp ?_
  rintro ⟨site, hsite, -⟩
  rw [verdict, if_pos]
  simpa using List.ne_nil_of_mem hsite

end ShadowInput

open ShadowInput in
/-- **A caller of a deleted symbol is reported** exactly when it also calls a symbol that
    the edits keep with another signature, and is not touched itself: the seed of the
    deleted symbol is at no node of the graph. -/
theorem deleted_caller_reported_iff (input : ShadowInput) (other : OtherFindings)
    (old caller : Symbol) (h : input.LosesCallee old caller)
    (hfit : input.impactGraph.reverseStructural.nnz < 2 ^ 31) :
    input.Reports other caller.id ↔ input.CallsChanged other caller.id := by
  have hkept : caller ∈ input.keptSymbols :=
    List.mem_filter.2 ⟨h.callerBase, by simpa using h.unedited⟩
  have hcaller := List.mem_map_of_mem (f := Symbol.id) (mem_overlay_of_kept hkept)
  rw [reports_iff, ← breaks_iff hcaller]
  exact mem_breakingCallers_iff hfit fun id hid => overlaySymMap_isSome hid

namespace ShadowExample

/-- A function of a file, with its signature. -/
def function (file name signature : String) : Symbol where
  id := "python:" ++ file ++ ":" ++ name ++ "@0"
  kind := .function
  name := name
  qualifiedName := name
  language := "python"
  module := file
  filePath := file
  lineStart := 1
  lineEnd := 1
  signature := some signature
  contentHash := "0"

def call (src dst : Symbol) : Edge := { srcId := src.id, dstId := dst.id, kind := .calls }

/-- `foo` of an unedited file calls `bar` and `baz`. -/
def foo : Symbol := function "app.py" "foo" "def foo()"

def bar : Symbol := function "lib.py" "bar" "def bar()"

def baz : Symbol := function "lib.py" "baz" "def baz()"

/-- The edit leaves the given symbols in the file of `bar` and `baz`. -/
def input (left : List Symbol) : ShadowInput where
  baseSymbols := [foo, bar, baz]
  baseEdges := [call foo bar, call foo baz]
  fileEdits := [⟨"lib.py", ""⟩]
  targetQueries := []
  parseSource := fun _ _ => left
  resolveEdges := fun symbols => (symbols.filter (·.name = "baz")).map (call foo)
  walk := fun _ _ => .trivial

def other : OtherFindings := ⟨[], false, false⟩

theorem input_losesCallee (left : List Symbol) (hgone : ∀ sym ∈ (input left).overlay.symbols,
    sym.filePath = bar.filePath →
      sym.id ≠ bar.id ∧ sym.qualifiedName ≠ bar.qualifiedName ∧ sym.name ≠ bar.name) :
    (input left).LosesCallee bar foo where
  base := by simp [input]
  edited := List.mem_singleton.2 rfl
  gone := hgone
  callerBase := by simp [input]
  unedited := by
    change foo.filePath ∉ ["lib.py"]
    decide
  calls := ⟨call foo bar, by simp [input], rfl, rfl, rfl⟩

end ShadowExample

open ShadowExample in
/-- `bar` is deleted while `baz` gets a parameter: `foo` is reported, for `baz`. -/
theorem deleted_caller_reported_iff_changed :
    (input [function "lib.py" "baz" "def baz(a)"]).Reports other foo.id := by
  refine (deleted_caller_reported_iff _ other bar foo (input_losesCallee _ (by decide +kernel))
    (by decide +kernel)).2 ?_
  refine ⟨by decide +kernel, baz.id, by decide +kernel, by decide +kernel, call foo baz, ?_, ?_, rfl, rfl⟩
  · decide +kernel
  · exact ⟨rfl, by norm_num [call]⟩

/-- The property for every base and every list of edits. -/
def ReportsDeletions : Prop :=
  ∀ (input : ShadowInput) (other : OtherFindings) (old caller : Symbol),
    input.LosesCallee old caller → input.Reports other caller.id

open ShadowExample in
/-- `bar` is deleted and nothing else changes: `foo`, which calls it, is not listed, and
    the verdict is that all is well. -/
theorem not_reportsDeletions : ¬ ReportsDeletions := by
  intro h
  have hverdict := (h (input [baz]) other bar foo (input_losesCallee _ (by decide +kernel))).2
  exact absurd hverdict (by decide +kernel)

end Cognis
