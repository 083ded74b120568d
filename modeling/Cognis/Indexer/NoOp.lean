/-
  Patches that change nothing (`shadow.rs`): the base is the index of some files, and the
  edits have the text that some of these files have.

  * `oldSymbol_eq`: where the names of the edited files are told apart, a symbol of an edit
    stands for its own redacted copy in the base;
  * `costsOf_overlay`: the overlay has the costs of the base, when the full source of an
    edited symbol reads like its stored excerpt;
  * `noOpPatch_neutral_iff`: what else makes the patch neutral;
  * `not_noOpIsNeutral`: a file that defines a name twice.
-/
import Cognis.Indexer.Batch
import Cognis.Indexer.Enricher
import Cognis.Indexer.Reindex

namespace Cognis

open Table

namespace ShadowInput

/-! ## The patch -/

/-- The base is the index of some files, as the planner parses and the enricher redacts them,
    and the edits have the current text of some of the files. An id names its file and its
    qualified name. -/
structure NoOpPatch (planner : ChangePlanner) (e : Enricher) (files : List (String × ByteArray))
    (input : ShadowInput) : Prop where
  enrich : planner.frontend.enrich = fun s => (e.enrich s).symbol
  parse : input.parseSource = fun path content => (planner.frontend.parseSource path content).symbols
  resolve : input.resolveEdges = resolvedEdges planner.unicode
  ids : ∀ path path' content content', ∀ s ∈ (planner.parseText path content).symbols,
    ∀ s' ∈ (planner.parseText path' content').symbols, s.id = s'.id →
      path = path' ∧ s.qualifiedName = s'.qualifiedName
  paths : (files.map Prod.fst).Nodup
  symbols : input.baseSymbols.Perm
    (build Symbol.id (files.flatMap fun file => (planner.parseFile file.1 file.2 []).symbols))
  edges : input.baseEdges.Perm (resolvedEdges planner.unicode input.baseSymbols)
  edits : ∀ edit ∈ input.fileEdits, ∃ bytes, (edit.filePath, bytes) ∈ files ∧
    String.fromUTF8? bytes = some edit.newContent
  edited : input.editedPaths.Nodup

/-- No regression, no breaking call site, and the ids of the base, each once. -/
structure Neutral (input : ShadowInput) (hotspots : List String) : Prop where
  regressions : input.complexityRegressionsCount hotspots = 0
  contracts : input.breakingSites hotspots = []
  distinct : (input.overlay.symbols.map Symbol.id).Nodup
  ids : ∀ id, id ∈ input.overlay.symbols.map Symbol.id ↔ id ∈ input.baseSymbols.map Symbol.id

/-- The edited files are source files, not artifacts. -/
def EditsSource (planner : ChangePlanner) (input : ShadowInput) : Prop :=
  ∀ edit ∈ input.fileEdits, planner.parseText edit.filePath edit.newContent =
    planner.frontend.parseSource edit.filePath edit.newContent

/-- The full source of a symbol of an edit reads like its stored excerpt: it has the same
    costs, and the text that is parsed has the calls of the text that is stored. -/
structure ReadsAlike (unicode : UnicodeTables) (e : Enricher) (input : ShadowInput) : Prop where
  summary : ∀ edit ∈ input.fileEdits, ∀ s ∈ input.parseSource edit.filePath edit.newContent,
    analyzeSymbolAst input.walk s (fullSource edit.newContent s) =
      analyzeSymbolAst input.walk (e.enrich s).symbol none
  calls : ∀ edit ∈ input.fileEdits, ∀ s ∈ input.parseSource edit.filePath edit.newContent,
    ∀ name, name ∈ calledNames unicode s ↔ name ∈ calledNames unicode (e.enrich s).symbol

/-- The parser does not fall back on the edited files, and gives their symbols qualified names
    of their own. -/
structure Matchable (planner : ChangePlanner) (input : ShadowInput) : Prop where
  parsed : ∀ edit ∈ input.fileEdits,
    (planner.frontend.parseSource edit.filePath edit.newContent).status = .failed →
      input.parseSource edit.filePath edit.newContent = []
  names : ∀ edit ∈ input.fileEdits,
    ((input.parseSource edit.filePath edit.newContent).map Symbol.qualifiedName).Nodup

/-- The redacted signature of the symbol is taken for an old one. -/
def SignatureRedacted (e : Enricher) (s : Symbol) : Prop :=
  (e.enrich s).symbol.signature ≠ s.signature ∧
    ¬ hasSubstring ((e.enrich s).symbol.signature.getD "") "(..."

/-- No symbol of an unedited file has a usable edge to a symbol of an edit whose signature is
    redacted. -/
def KeepsContracts (e : Enricher) (input : ShadowInput) : Prop :=
  ∀ caller ∈ input.keptSymbols, ∀ s ∈ input.editedSymbols, ∀ edge ∈ input.baseEdges,
    edge.Usable → edge.srcId = caller.id → edge.dstId = s.id → ¬ SignatureRedacted e s

/-- What the base has for a symbol of the overlay. -/
def stored (e : Enricher) (input : ShadowInput) (s : Symbol) : Symbol :=
  if s.filePath ∈ input.editedPaths then (e.enrich s).symbol else s

/-- The base in the order of the overlay. -/
def storedWorkspace (e : Enricher) (input : ShadowInput) : Workspace where
  symbols := input.overlay.symbols.map (input.stored e)
  edges := input.baseEdges
  sourceOverrides := fun _ => none
  walk := input.walk

section
variable {planner : ChangePlanner} {e : Enricher} {files : List (String × ByteArray)}
  {input : ShadowInput}

/-! ## The symbols of the base -/

@[simp] theorem stored_id (s : Symbol) : (input.stored e s).id = s.id := by
  unfold stored
  split_ifs <;> rfl

@[simp] theorem stored_name (s : Symbol) : (input.stored e s).name = s.name := by
  unfold stored
  split_ifs <;> rfl

@[simp] theorem stored_kind (s : Symbol) : (input.stored e s).kind = s.kind := by
  unfold stored
  split_ifs <;> rfl

@[simp] theorem stored_filePath (s : Symbol) : (input.stored e s).filePath = s.filePath := by
  unfold stored
  split_ifs <;> rfl

@[simp] theorem stored_language (s : Symbol) : (input.stored e s).language = s.language := by
  unfold stored
  split_ifs <;> rfl

@[simp] theorem stored_lineStart (s : Symbol) : (input.stored e s).lineStart = s.lineStart := by
  unfold stored
  split_ifs <;> rfl

/-- The symbols of a file in the index. -/
theorem mem_parseFile {path : String} {bytes : ByteArray} {x : Symbol} :
    x ∈ (planner.parseFile path bytes []).symbols ↔ ∃ text, String.fromUTF8? bytes = some text ∧
      (planner.parseText path text).status ≠ .failed ∧
      ∃ s ∈ (planner.parseText path text).symbols, planner.frontend.enrich s = x := by
  unfold ChangePlanner.parseFile
  cases String.fromUTF8? bytes with
  | none => simp
  | some text =>
    dsimp only
    split_ifs with hfailed
    · simp [hfailed]
    · simp [hfailed]

/-- A file without symbols in the base. -/
theorem oldSymbol_eq_none {path : String} {s : Symbol} (h : ∀ old ∈ input.oldSymbols, old.filePath ≠ path) :
    input.oldSymbol path s = none := by
  have hqname : lookup (fun old => (old.filePath, old.qualifiedName)) input.oldByFileAndQname
      (path, s.qualifiedName) = none :=
    lookup_eq_none.2 fun old hold hkey => h old (mem_of_mem_build hold) (Prod.mk.inj hkey).1
  have hname : lookup (fun old => (old.filePath, old.name)) input.oldByFileAndName (path, s.name) = none :=
    lookup_eq_none.2 fun old hold hkey => h old (mem_of_mem_build hold) (Prod.mk.inj hkey).1
  rw [oldSymbol, hqname, hname]
  rfl

/-- A symbol that keeps its id: its full source is recorded under it. -/
theorem overlaySymbol_of_id {edit : ShadowFileEdit} {o : Overlay} {s old : Symbol}
    (hold : input.oldSymbol edit.filePath s = some old) (hid : old.id = s.id)
    (hnone : o.sourceOverrides s.id = none) :
    (input.overlaySymbol edit o s).sourceOverrides =
        Function.update o.sourceOverrides s.id (fullSource edit.newContent s) ∧
      (input.overlaySymbol edit o s).touchedSymbolIds = o.touchedSymbolIds ++ [s.id] := by
  unfold overlaySymbol
  rw [hold]
  dsimp only
  rw [hid]
  refine ⟨?_, rfl⟩
  cases hsource : fullSource edit.newContent s with
  | none =>
    have hsame : Function.update o.sourceOverrides s.id none = o.sourceOverrides := by
      rw [← hnone, Function.update_eq_self]
    simp only [hnone, hsame]
  | some src => simp only [Function.update_self, Function.update_idem]

/-- The loop over symbols that keep their ids. -/
theorem foldl_overlaySymbol_of_id {ps : List (ShadowFileEdit × Symbol)} {o : Overlay}
    (hids : (ps.map fun p => p.2.id).Nodup) (hnone : ∀ p ∈ ps, o.sourceOverrides p.2.id = none)
    (hold : ∀ p ∈ ps, ∃ old, input.oldSymbol p.1.filePath p.2 = some old ∧ old.id = p.2.id) :
    let o' := ps.foldl (fun o p => input.overlaySymbol p.1 o p.2) o
    (∀ p ∈ ps, o'.sourceOverrides p.2.id = fullSource p.1.newContent p.2) ∧
      (∀ id ∉ ps.map fun p => p.2.id, o'.sourceOverrides id = o.sourceOverrides id) ∧
      o'.touchedSymbolIds = o.touchedSymbolIds ++ ps.map fun p => p.2.id := by
  induction ps generalizing o with
  | nil => simp
  | cons p ps ih =>
    rw [List.map_cons, List.nodup_cons] at hids
    obtain ⟨old, hp, hid⟩ := hold p List.mem_cons_self
    obtain ⟨hoverrides, htouched⟩ := overlaySymbol_of_id hp hid (hnone p List.mem_cons_self)
    have hother : ∀ id ≠ p.2.id,
        (input.overlaySymbol p.1 o p.2).sourceOverrides id = o.sourceOverrides id := by
      intro id hne
      rw [hoverrides, Function.update_of_ne hne]
    have hne : ∀ q ∈ ps, q.2.id ≠ p.2.id := by
      intro q hq heq
      exact hids.1 (heq ▸ List.mem_map_of_mem hq)
    obtain ⟨hsources, hrest, htouched'⟩ := ih (o := input.overlaySymbol p.1 o p.2) hids.2
      (fun q hq => by rw [hother _ (hne q hq), hnone q (List.mem_cons_of_mem p hq)])
      fun q hq => hold q (List.mem_cons_of_mem p hq)
    refine ⟨fun q hq => ?_, fun id hid => ?_, ?_⟩
    · rcases List.mem_cons.1 hq with rfl | hq
      · rw [List.foldl_cons, hrest _ hids.1, hoverrides, Function.update_self]
      · exact hsources q hq
    · rw [List.map_cons, List.mem_cons, not_or] at hid
      rw [List.foldl_cons, hrest id hid.2, hother id hid.1]
    · rw [List.foldl_cons, htouched', htouched, List.append_assoc]
      rfl

namespace NoOpPatch

variable (h : NoOpPatch planner e files input)
include h

theorem parse_path {path content : String} {s : Symbol} (hs : s ∈ input.parseSource path content) :
    s.filePath = path := by
  rw [h.parse] at hs
  exact planner.frontend.parseSource_path path content s hs

theorem baseIds : Keyed Symbol.id input.baseSymbols :=
  (h.symbols.map _).nodup_iff.2 keyed_build

/-- A symbol of the base is the redacted copy of a parsed one. -/
theorem of_mem_base {x : Symbol} (hx : x ∈ input.baseSymbols) : ∃ file ∈ files, ∃ text,
    String.fromUTF8? file.2 = some text ∧ (planner.parseText file.1 text).status ≠ .failed ∧
      ∃ s ∈ (planner.parseText file.1 text).symbols, (e.enrich s).symbol = x := by
  obtain ⟨file, hfile, hx⟩ := List.mem_flatMap.1 (mem_of_mem_build (h.symbols.mem_iff.1 hx))
  obtain ⟨text, htext, hstatus, s, hs, rfl⟩ := mem_parseFile.1 hx
  exact ⟨file, hfile, text, htext, hstatus, s, hs, by rw [h.enrich]⟩

section
variable (hsource : input.EditsSource planner) {edit : ShadowFileEdit}
  (hedit : edit ∈ input.fileEdits)
include hsource hedit

/-- A base symbol of an edited file is the redacted copy of a symbol of the edit. -/
theorem of_mem_base_edited {x : Symbol} (hx : x ∈ input.baseSymbols) (hpath : x.filePath = edit.filePath) :
    (planner.frontend.parseSource edit.filePath edit.newContent).status ≠ .failed ∧
      ∃ s ∈ input.parseSource edit.filePath edit.newContent, (e.enrich s).symbol = x := by
  obtain ⟨⟨path, bytes⟩, hfile, text, htext, hstatus, s, hs, rfl⟩ := h.of_mem_base hx
  obtain rfl : path = edit.filePath := (ChangePlanner.parseText_path hs).symm.trans hpath
  obtain ⟨bytes', hfile', htext'⟩ := h.edits edit hedit
  obtain rfl : bytes = bytes' := congrArg Prod.snd (List.inj_on_of_nodup_map h.paths hfile hfile' rfl)
  obtain rfl : text = edit.newContent := Option.some.inj (htext.symm.trans htext')
  rw [hsource edit hedit] at hstatus hs
  refine ⟨hstatus, s, ?_, rfl⟩
  rw [h.parse]
  exact hs

/-- The base has a symbol for every symbol of an edit, with its id and its names, if the
    parser has not fallen back. -/
theorem exists_base (hstatus : (planner.frontend.parseSource edit.filePath edit.newContent).status ≠ .failed)
    {s : Symbol} (hs : s ∈ input.parseSource edit.filePath edit.newContent) :
    ∃ x ∈ input.baseSymbols, x.id = s.id ∧ x.filePath = edit.filePath ∧
      x.qualifiedName = s.qualifiedName := by
  obtain ⟨bytes, hfile, htext⟩ := h.edits edit hedit
  rw [h.parse] at hs
  have hs : s ∈ (planner.parseText edit.filePath edit.newContent).symbols := by
    rwa [hsource edit hedit]
  have hstored : (e.enrich s).symbol ∈
      files.flatMap fun file => (planner.parseFile file.1 file.2 []).symbols := by
    refine List.mem_flatMap.2 ⟨_, hfile, mem_parseFile.2 ⟨_, htext, ?_, s, hs, by rw [h.enrich]⟩⟩
    rwa [hsource edit hedit]
  obtain ⟨x, hx, hid⟩ : ∃ x ∈ build Symbol.id (files.flatMap fun file =>
      (planner.parseFile file.1 file.2 []).symbols), x.id = s.id := exists_mem_build hstored
  have hx := h.symbols.mem_iff.2 hx
  obtain ⟨file, -, text, -, -, s', hs', rfl⟩ := h.of_mem_base hx
  obtain ⟨hpath, hname⟩ := h.ids _ _ _ _ s' hs' s hs hid
  exact ⟨_, hx, hid, (ChangePlanner.parseText_path hs').trans hpath, hname⟩

/-- The base symbol of the qualified name of a symbol of an edit. -/
theorem exists_lookup_qname (hstatus : (planner.frontend.parseSource edit.filePath edit.newContent).status ≠ .failed)
    {s : Symbol} (hs : s ∈ input.parseSource edit.filePath edit.newContent) :
    ∃ old ∈ input.baseSymbols, old.filePath = edit.filePath ∧ old.qualifiedName = s.qualifiedName ∧
      lookup (fun old => (old.filePath, old.qualifiedName)) input.oldByFileAndQname
        (edit.filePath, s.qualifiedName) = some old := by
  obtain ⟨x, hx, -, hpath, hname⟩ := h.exists_base hsource hedit hstatus hs
  have hold : x ∈ input.oldSymbols := by
    refine List.mem_filter.2 ⟨hx, ?_⟩
    rw [hpath, decide_eq_true_eq]
    exact List.mem_map_of_mem hedit
  obtain ⟨y, hy, hkey⟩ : ∃ y ∈ input.oldByFileAndQname,
      (y.filePath, y.qualifiedName) = (x.filePath, x.qualifiedName) := exists_mem_build hold
  rw [hpath, hname] at hkey
  obtain ⟨hypath, hyname⟩ := Prod.mk.inj hkey
  exact ⟨y, (List.mem_filter.1 (mem_of_mem_build hy)).1, hypath, hyname,
    keyed_build.lookup_eq_some.2 ⟨hy, hkey⟩⟩

/-- The id in the overlay is that of the base symbol with the qualified name. -/
theorem overlayId_eq (hstatus : (planner.frontend.parseSource edit.filePath edit.newContent).status ≠ .failed)
    {s : Symbol} (hs : s ∈ input.parseSource edit.filePath edit.newContent) :
    input.overlayId edit s = ((lookup (fun old => (old.filePath, old.qualifiedName)) input.oldByFileAndQname
      (edit.filePath, s.qualifiedName)).map Symbol.id).getD "" := by
  obtain ⟨old, -, -, -, hlookup⟩ := h.exists_lookup_qname hsource hedit hstatus hs
  rw [overlayId, oldSymbol, hlookup]
  rfl

end

/-- **What neutrality needs**: a fallback symbol has an id that the base does not have, and two
    symbols of one qualified name get the same id. -/
theorem matchable_of_neutral (hsource : input.EditsSource planner)
    (hdistinct : (input.overlay.symbols.map Symbol.id).Nodup)
    (hids : ∀ id ∈ input.overlay.symbols.map Symbol.id, id ∈ input.baseSymbols.map Symbol.id) :
    input.Matchable planner := by
  have hoverlaid : ∀ edit ∈ input.fileEdits, ∀ s ∈ input.parseSource edit.filePath edit.newContent,
      input.overlaid edit s ∈ input.overlay.symbols := by
    intro edit hedit s hs
    rw [overlay_symbols]
    exact List.mem_append_right _ (List.mem_flatMap.2 ⟨edit, hedit, List.mem_map_of_mem hs⟩)
  have hparsed : ∀ edit ∈ input.fileEdits,
      (planner.frontend.parseSource edit.filePath edit.newContent).status = .failed →
        input.parseSource edit.filePath edit.newContent = [] := by
    intro edit hedit hfailed
    rw [List.eq_nil_iff_forall_not_mem]
    intro s hs
    obtain ⟨x, hx, hid⟩ := List.mem_map.1 (hids _ (List.mem_map_of_mem (hoverlaid edit hedit s hs)))
    -- no base symbol is in the file, so that the symbol keeps its parsed id
    have hnone : ∀ y ∈ input.baseSymbols, y.filePath ≠ edit.filePath := by
      intro y hy hpath
      exact (h.of_mem_base_edited hsource hedit hy hpath).1 hfailed
    have hold : (input.overlaid edit s).id = s.id := by
      rw [overlaid, overlayId, oldSymbol_eq_none fun y hy => hnone y (List.mem_filter.1 hy).1]
      rfl
    rw [hold] at hid
    obtain ⟨file, -, text, -, -, s', hs', rfl⟩ := h.of_mem_base hx
    have hs : s ∈ (planner.parseText edit.filePath edit.newContent).symbols := by
      rw [h.parse] at hs
      rwa [hsource edit hedit]
    exact hnone _ hx ((ChangePlanner.parseText_path hs').trans (h.ids _ _ _ _ s' hs' s hs hid).1)
  refine ⟨hparsed, fun edit hedit => ?_⟩
  by_cases hfailed : (planner.frontend.parseSource edit.filePath edit.newContent).status = .failed
  · rw [hparsed edit hedit hfailed]
    exact List.nodup_nil
  have hnodup : ((input.parseSource edit.filePath edit.newContent).map (input.overlayId edit)).Nodup := by
    rw [overlay_symbols, List.map_append, overlaidSymbols, List.map_flatMap] at hdistinct
    have hedits := (List.nodup_flatMap.1 (List.nodup_append.1 hdistinct).2.1).1 edit hedit
    rwa [List.map_map] at hedits
  -- the id is a function of the qualified name
  let idOf (name : String) : String :=
    ((lookup (fun old => (old.filePath, old.qualifiedName)) input.oldByFileAndQname
      (edit.filePath, name)).map Symbol.id).getD ""
  have hmap : (input.parseSource edit.filePath edit.newContent).map (input.overlayId edit) =
      ((input.parseSource edit.filePath edit.newContent).map Symbol.qualifiedName).map idOf := by
    rw [List.map_map]
    exact List.map_congr_left fun s hs => h.overlayId_eq hsource hedit hfailed hs
  rw [hmap] at hnodup
  exact hnodup.of_map idOf

section
variable (hsource : input.EditsSource planner) (hmatch : input.Matchable planner)
include hsource hmatch

/-- **A symbol of an edit stands for its redacted copy.** -/
theorem oldSymbol_eq {edit : ShadowFileEdit} (hedit : edit ∈ input.fileEdits) {s : Symbol}
    (hs : s ∈ input.parseSource edit.filePath edit.newContent) :
    (e.enrich s).symbol ∈ input.baseSymbols ∧
      input.oldSymbol edit.filePath s = some (e.enrich s).symbol := by
  have hstatus : (planner.frontend.parseSource edit.filePath edit.newContent).status ≠ .failed := by
    intro hfailed
    rw [hmatch.parsed edit hedit hfailed] at hs
    cases hs
  obtain ⟨old, hold, hpath, hname, hlookup⟩ := h.exists_lookup_qname hsource hedit hstatus hs
  obtain ⟨-, s', hs', rfl⟩ := h.of_mem_base_edited hsource hedit hold hpath
  obtain rfl : s' = s := List.inj_on_of_nodup_map (hmatch.names edit hedit) hs' hs hname
  refine ⟨hold, ?_⟩
  rw [oldSymbol, hlookup]
  rfl

theorem overlaidSymbols_eq : input.overlaidSymbols = input.editedSymbols := by
  refine List.flatMap_congr fun edit hedit => ?_
  refine (List.map_congr_left fun s hs => ?_).trans (List.map_id _)
  rw [overlaid, overlayId, (h.oldSymbol_eq hsource hmatch hedit hs).2]
  rfl

/-- **The overlay** has the symbols of the edits as they are parsed. -/
theorem overlay_eq : input.overlay.symbols = input.keptSymbols ++ input.editedSymbols := by
  rw [overlay_symbols, h.overlaidSymbols_eq hsource hmatch]

theorem keyed_editedSymbols : Keyed Symbol.id input.editedSymbols := by
  unfold Keyed editedSymbols
  rw [List.map_flatMap, List.nodup_flatMap]
  have hids : ∀ edit ∈ input.fileEdits, ∀ edit' ∈ input.fileEdits,
      ∀ s ∈ input.parseSource edit.filePath edit.newContent,
      ∀ s' ∈ input.parseSource edit'.filePath edit'.newContent, s.id = s'.id →
        edit.filePath = edit'.filePath ∧ s.qualifiedName = s'.qualifiedName := by
    intro edit hedit edit' hedit' s hs s' hs' hid
    rw [h.parse] at hs hs'
    exact h.ids edit.filePath edit'.filePath edit.newContent edit'.newContent s
      (by rwa [hsource edit hedit]) s' (by rwa [hsource edit' hedit']) hid
  constructor
  · intro edit hedit
    have hnames := hmatch.names edit hedit
    refine List.Nodup.map_on (fun s hs s' hs' hid => ?_) (hnames.of_map _)
    exact List.inj_on_of_nodup_map hnames hs hs' (hids edit hedit edit hedit s hs s' hs' hid).2
  · have hpaths : input.fileEdits.Pairwise fun edit edit' => edit.filePath ≠ edit'.filePath :=
      List.pairwise_map.1 h.edited
    refine hpaths.imp_of_mem fun {edit edit'} hedit hedit' hne id hid hid' => hne ?_
    obtain ⟨s, hs, rfl⟩ := List.mem_map.1 hid
    obtain ⟨s', hs', heq⟩ := List.mem_map.1 hid'
    exact (hids edit hedit edit' hedit' s hs s' hs' heq.symm).1

/-- The redacted copies of the symbols of the edits are in the base. -/
theorem enrich_mem_base {s : Symbol} (hs : s ∈ input.editedSymbols) :
    (e.enrich s).symbol ∈ input.baseSymbols ∧ s.filePath ∈ input.editedPaths := by
  obtain ⟨edit, hedit, hs⟩ := List.mem_flatMap.1 hs
  refine ⟨(h.oldSymbol_eq hsource hmatch hedit hs).1, ?_⟩
  rw [h.parse_path hs]
  exact List.mem_map_of_mem hedit

/-- An unedited file has no symbol of an edit. -/
theorem id_ne_of_kept {x s : Symbol} (hx : x ∈ input.keptSymbols) (hs : s ∈ input.editedSymbols) :
    x.id ≠ s.id := by
  intro hid
  obtain ⟨hbase, hpath⟩ := h.enrich_mem_base hsource hmatch hs
  obtain ⟨hxbase, hxpath⟩ := List.mem_filter.1 hx
  have heq : x = (e.enrich s).symbol := h.baseIds.eq hxbase hbase hid
  rw [heq, decide_eq_true_eq] at hxpath
  exact hxpath hpath

/-- **The overlay has an id for each symbol.** -/
theorem overlayIds : Keyed Symbol.id input.overlay.symbols := by
  rw [h.overlay_eq hsource hmatch]
  exact (h.baseIds.filter _).append (h.keyed_editedSymbols hsource hmatch) fun x hx s hs =>
    h.id_ne_of_kept hsource hmatch hx hs

/-- **The base** has the redacted copies. -/
theorem base_perm : input.baseSymbols.Perm
    (input.keptSymbols ++ input.editedSymbols.map fun s => (e.enrich s).symbol) := by
  have hcopies : Keyed Symbol.id (input.editedSymbols.map fun s => (e.enrich s).symbol) := by
    unfold Keyed
    rw [List.map_map]
    exact h.keyed_editedSymbols hsource hmatch
  refine h.baseIds.perm ((h.baseIds.filter _).append hcopies fun x hx y hy => ?_) fun x => ?_
  · obtain ⟨s, hs, rfl⟩ := List.mem_map.1 hy
    have hne : x.id ≠ s.id := h.id_ne_of_kept hsource hmatch hx hs
    exact hne
  · rw [List.mem_append]
    constructor
    · intro hx
      by_cases hpath : x.filePath ∈ input.editedPaths
      · obtain ⟨edit, hedit, hpath⟩ := List.mem_map.1 hpath
        obtain ⟨-, s, hs, rfl⟩ := h.of_mem_base_edited hsource hedit hx hpath.symm
        exact .inr (List.mem_map_of_mem (List.mem_flatMap.2 ⟨edit, hedit, hs⟩))
      · exact .inl (List.mem_filter.2 ⟨hx, by simpa using hpath⟩)
    · rintro (hx | hx)
      · exact (List.mem_filter.1 hx).1
      · obtain ⟨s, hs, rfl⟩ := List.mem_map.1 hx
        exact (h.enrich_mem_base hsource hmatch hs).1

theorem layered : input.Layered planner.unicode where
  parse_path _ _ _ := h.parse_path
  resolve := h.resolve
  baseEdges := h.edges
  baseIds := h.baseIds
  overlayIds := h.overlayIds hsource hmatch

/-! ## The costs -/

/-- **The state after the loop over the edits**: the full source of each symbol of an edit, under
    its id, and the ids of these symbols as the touched ones. -/
theorem overlay_spec :
    (∀ edit ∈ input.fileEdits, ∀ s ∈ input.parseSource edit.filePath edit.newContent,
      input.overlay.sourceOverrides s.id = fullSource edit.newContent s) ∧
    (∀ id ∉ input.editedSymbols.map Symbol.id, input.overlay.sourceOverrides id = none) ∧
    input.overlay.touchedSymbolIds = input.editedSymbols.map Symbol.id := by
  -- the two nested loops as one
  let pairs := input.fileEdits.flatMap fun edit =>
    (input.parseSource edit.filePath edit.newContent).map fun s => (edit, s)
  have hmem : ∀ p ∈ pairs, p.1 ∈ input.fileEdits ∧ p.2 ∈ input.parseSource p.1.filePath p.1.newContent := by
    intro p hp
    obtain ⟨edit, hedit, hp⟩ := List.mem_flatMap.1 hp
    obtain ⟨s, hs, rfl⟩ := List.mem_map.1 hp
    exact ⟨hedit, hs⟩
  have hids : (pairs.map fun p => p.2.id) = input.editedSymbols.map Symbol.id := by
    simp only [pairs, editedSymbols, List.map_flatMap, List.map_map]
    rfl
  have hloop : input.overlay = pairs.foldl (fun o p => input.overlaySymbol p.1 o p.2)
      ⟨input.keptSymbols, fun _ => none, []⟩ := by
    simp only [pairs, List.foldl_flatMap, List.foldl_map]
    rfl
  have hkeyed : (pairs.map fun p => p.2.id).Nodup := by
    rw [hids]
    exact h.keyed_editedSymbols hsource hmatch
  obtain ⟨hsources, hrest, htouched⟩ := foldl_overlaySymbol_of_id
    (o := ⟨input.keptSymbols, fun _ => none, []⟩) hkeyed (fun _ _ => rfl)
    fun p hp => ⟨_, (h.oldSymbol_eq hsource hmatch (hmem p hp).1 (hmem p hp).2).2, rfl⟩
  rw [← hloop] at hsources hrest htouched
  refine ⟨fun edit hedit s hs => ?_, fun id hid => ?_, ?_⟩
  · exact hsources (edit, s) (List.mem_flatMap.2 ⟨edit, hedit, List.mem_map_of_mem hs⟩)
  · rw [← hids] at hid
    exact hrest id hid
  · rw [htouched, hids]
    rfl

/-- The symbols that the base has for those of the overlay. -/
theorem map_stored : input.overlay.symbols.map (input.stored e) =
    input.keptSymbols ++ input.editedSymbols.map fun s => (e.enrich s).symbol := by
  rw [h.overlay_eq hsource hmatch, List.map_append]
  congr 1
  · refine (List.map_congr_left fun s hs => ?_).trans (List.map_id _)
    have hpath := (List.mem_filter.1 hs).2
    rw [stored, if_neg (by simpa using hpath)]
    rfl
  · refine List.map_congr_left fun s hs => ?_
    rw [stored, if_pos (h.enrich_mem_base hsource hmatch hs).2]

theorem storedWorkspace_perm : (input.storedWorkspace e).symbols.Perm input.baseSymbols := by
  show (input.overlay.symbols.map (input.stored e)).Perm input.baseSymbols
  rw [h.map_stored hsource hmatch]
  exact (h.base_perm hsource hmatch).symm

theorem stored_mem_base {s : Symbol} (hs : s ∈ input.overlay.symbols) :
    input.stored e s ∈ input.baseSymbols :=
  (h.storedWorkspace_perm hsource hmatch).mem_iff.1 (List.mem_map_of_mem hs)

theorem plain_stored : (input.storedWorkspace e).Plain where
  symbols := ((h.storedWorkspace_perm hsource hmatch).map _).nodup_iff.2 h.baseIds
  edges := (h.edges.map _).nodup_iff.2 keyed_resolvedEdges
  depth _ hedge := metaLoopDepth_resolvedEdges (h.edges.mem_iff.1 hedge)

theorem mem_editedSymbols_iff {s : Symbol} (hs : s ∈ input.overlay.symbols) :
    s ∈ input.editedSymbols ↔ s.filePath ∈ input.editedPaths := by
  refine ⟨fun hs => (h.enrich_mem_base hsource hmatch hs).2, fun hpath => ?_⟩
  rw [h.overlay_eq hsource hmatch, List.mem_append] at hs
  refine hs.resolve_left fun hkept => ?_
  have hnot := (List.mem_filter.1 hkept).2
  rw [decide_eq_true_eq] at hnot
  exact hnot hpath

/-- The symbols of a name in other files are as many. -/
theorem callConfidence_stored {s t : Symbol} :
    callConfidence input.baseSymbols (input.stored e s) (input.stored e t) =
      callConfidence input.overlay.symbols s t := by
  have hcount : crossCount input.baseSymbols (input.stored e s) (input.stored e t) =
      crossCount input.overlay.symbols s t := by
    unfold crossCount
    rw [← (h.storedWorkspace_perm hsource hmatch).countP_eq, storedWorkspace, List.countP_map]
    refine List.countP_congr fun c _ => ?_
    simp
  unfold callConfidence
  rw [hcount]
  simp

section
variable (hreads : input.ReadsAlike planner.unicode e)
include hreads

/-- **The calls of an edited file** are the stored ones. -/
theorem callsTo_stored {s t : Symbol} (hs : s ∈ input.overlay.symbols) :
    CallsTo planner.unicode input.baseSymbols (input.stored e s) (input.stored e t) ↔
      CallsTo planner.unicode input.overlay.symbols s t := by
  have hcalled : t.name.toList ∈ calledNames planner.unicode (input.stored e s) ↔
      t.name.toList ∈ calledNames planner.unicode s := by
    by_cases hpath : s.filePath ∈ input.editedPaths
    · obtain ⟨edit, hedit, hparsed⟩ := List.mem_flatMap.1
        ((h.mem_editedSymbols_iff hsource hmatch hs).2 hpath)
      rw [stored, if_pos hpath]
      exact (hreads.calls edit hedit s hparsed _).symm
    · rw [stored, if_neg hpath]
  constructor
  · rintro ⟨hkind, hname, hconfident⟩
    rw [h.callConfidence_stored hsource hmatch] at hconfident
    rw [stored_name] at hname
    rw [stored_kind] at hkind
    exact ⟨hkind, hcalled.1 hname, hconfident⟩
  · rintro ⟨hkind, hname, hconfident⟩
    refine ⟨?_, ?_, ?_⟩
    · rwa [stored_kind]
    · rw [stored_name]
      exact hcalled.2 hname
    · rwa [h.callConfidence_stored hsource hmatch]

theorem hasCall_stored {s t : Symbol} (hs : s ∈ input.overlay.symbols) (ht : t ∈ input.overlay.symbols) :
    input.overlayWorkspace.HasCall s.id t.id ↔ input.baseWorkspace.HasCall s.id t.id := by
  have hlayered := h.layered hsource hmatch
  by_cases hpath : s.filePath ∈ input.editedPaths
  · have hbase := hlayered.hasCall_base (h.stored_mem_base hsource hmatch hs) t.id
    rw [stored_id] at hbase
    rw [hlayered.hasCall_overlay_edited hs ht hpath, hbase,
      ← h.callsTo_stored hsource hmatch hreads hs]
    constructor
    · intro hcalls
      exact ⟨_, h.stored_mem_base hsource hmatch ht, stored_id t, hcalls⟩
    · rintro ⟨old, hold, hid, hcalls⟩
      have heq : input.stored e t = old :=
        h.baseIds.eq (h.stored_mem_base hsource hmatch ht) hold ((stored_id t).trans hid.symm)
      rwa [heq]
  · exact hlayered.hasCall_overlay_kept hs hpath t.id

/-- The full source of an edited symbol has the costs of its stored excerpt. -/
theorem summary_stored {s : Symbol} (hs : s ∈ input.overlay.symbols) :
    analyzeSymbolAst input.walk s (input.overlay.sourceOverrides s.id) =
      analyzeSymbolAst input.walk (input.stored e s) none := by
  obtain ⟨hsources, hnone, -⟩ := h.overlay_spec hsource hmatch
  by_cases hpath : s.filePath ∈ input.editedPaths
  · obtain ⟨edit, hedit, hparsed⟩ := List.mem_flatMap.1
      ((h.mem_editedSymbols_iff hsource hmatch hs).2 hpath)
    rw [hsources edit hedit s hparsed, stored, if_pos hpath]
    exact hreads.summary edit hedit s hparsed
  · have hid : s.id ∉ input.editedSymbols.map Symbol.id := by
      intro hmem
      obtain ⟨s', hs', hid⟩ := List.mem_map.1 hmem
      rw [(h.overlayIds hsource hmatch).eq (h.overlay_eq hsource hmatch ▸ List.mem_append_right _ hs') hs hid]
        at hs'
      exact hpath ((h.mem_editedSymbols_iff hsource hmatch hs).1 hs')
    rw [hnone _ hid, stored, if_neg hpath]

/-- **The overlay has the call graph of the base.** -/
theorem mirrors : (input.storedWorkspace e).Mirrors input.overlayWorkspace := by
  have hplain := h.plain_stored hsource hmatch
  have hplain' := (h.layered hsource hmatch).plain_overlay
  have hlength : input.overlayWorkspace.symbols.length = (input.storedWorkspace e).symbols.length :=
    (List.length_map _).symm
  have hget : ∀ u < (input.storedWorkspace e).symbols.length,
      input.overlayWorkspace.symbols[u]? = some (input.overlayWorkspace.symbol u) := fun u hu =>
    Workspace.getElem?_symbol (hlength ▸ hu)
  have hmem : ∀ u < (input.storedWorkspace e).symbols.length,
      input.overlayWorkspace.symbol u ∈ input.overlay.symbols := fun u hu =>
    List.mem_of_getElem? (hget u hu)
  have hsymbol : ∀ u < (input.storedWorkspace e).symbols.length,
      (input.storedWorkspace e).symbol u = input.stored e (input.overlayWorkspace.symbol u) := by
    intro u hu
    refine Workspace.symbol_eq ?_
    exact List.getElem?_map.trans (congrArg (Option.map (input.stored e)) (hget u hu))
  refine ⟨hlength, fun u hu => ?_, fun u hu => ?_, fun u hu => ?_, fun u hu v hv => ?_⟩
  · rw [hsymbol u hu, stored_name]
  · rw [hsymbol u hu, stored_lineStart]
  · rw [Workspace.ast_eq_analyze hplain'.symbols (hlength ▸ hu), Workspace.ast_eq_analyze hplain.symbols hu,
      hsymbol u hu]
    exact h.summary_stored hsource hmatch hreads (hmem u hu)
  · rw [hsymbol u hu, hsymbol v hv, stored_id, stored_id]
    exact h.hasCall_stored hsource hmatch hreads (hmem u hu) (hmem v hv)

/-- **The overlay has the costs of the base.** -/
theorem costsOf_overlay (hdecided : input.baseWorkspace.NoneAmbiguous) {s : Symbol}
    (hs : s ∈ input.overlay.symbols) :
    input.overlayWorkspace.costsOf s.id = input.baseWorkspace.costsOf s.id := by
  have hplain := h.plain_stored hsource hmatch
  have hplain' := (h.layered hsource hmatch).plain_overlay
  have hmirrors := h.mirrors hsource hmatch hreads
  have hreorders : Workspace.Reorders input.baseWorkspace (input.storedWorkspace e) :=
    ⟨h.storedWorkspace_perm hsource hmatch, .refl _, rfl, rfl⟩
  -- the number of the symbol in the overlay, and that in the base
  obtain ⟨v, hv⟩ := List.mem_iff_getElem?.1 hs
  have hv : input.overlayWorkspace.symbols[v]? = some s := hv
  have hstored : (input.storedWorkspace e).symbols[v]? = some (input.stored e s) :=
    List.getElem?_map.trans (congrArg (Option.map (input.stored e)) hv)
  have hidx : (input.storedWorkspace e).idToIdx s.id = some v :=
    (Workspace.idToIdx_eq_some hplain.symbols).2 ⟨_, hstored, stored_id s⟩
  rw [hreorders.idToIdx_eq h.baseIds] at hidx
  obtain ⟨u, hu, rfl⟩ := Option.map_eq_some_iff.1 hidx
  have hcosts := ((hreorders.relabels h.baseIds).trans (hmirrors.relabels hplain hplain')).costs_eq
    hdecided (Workspace.idToIdx_lt hu)
  unfold Workspace.costsOf
  rw [(Workspace.idToIdx_eq_some hplain'.symbols).2 ⟨s, hv, rfl⟩, hu]
  exact congrArg some hcosts

/-- **No regression.** -/
theorem regressions_eq (hdecided : input.baseWorkspace.NoneAmbiguous) (hotspots : List String) :
    input.complexityRegressionsCount hotspots = 0 := by
  have htime : ∀ (ws : Workspace) id, ws.reportedTime id = (ws.costsOf id).map fun c => c.1.bigO := by
    intro ws id
    unfold Workspace.reportedTime Workspace.costsOf
    rw [Option.map_map]
    rfl
  refine List.countP_eq_zero.2 fun id _ => ?_
  rw [Bool.not_eq_true, oldAndNewComplexity, Option.any_map]
  cases hreport : input.overlayWorkspace.reportedTime id with
  | none => rfl
  | some report =>
    obtain ⟨s, hs, rfl⟩ : ∃ s ∈ input.overlay.symbols, s.id = id := by
      obtain ⟨u, hu, -⟩ := Option.map_eq_some_iff.1 hreport
      have hsymbol := (Workspace.idToIdx_eq_some
        (h.layered hsource hmatch).plain_overlay.symbols).1 hu
      obtain ⟨s, hs, hid⟩ := hsymbol
      exact ⟨s, List.mem_of_getElem? hs, hid⟩
    have hbase : input.baseWorkspace.reportedTime s.id = some report := by
      rw [htime, ← h.costsOf_overlay hsource hmatch hreads hdecided hs, ← htime, hreport]
    simp [hbase]

end

/-! ## The call sites -/

theorem overlaySymMap_eq {s : Symbol} (hs : s ∈ input.overlay.symbols) :
    input.overlaySymMap s.id = some s := by
  have hrev : Keyed Symbol.id input.overlay.symbols.reverse := by
    unfold Keyed
    rw [List.map_reverse, List.nodup_reverse]
    exact h.overlayIds hsource hmatch
  exact hrev.lookup_eq_some.2 ⟨List.mem_reverse.2 hs, rfl⟩

/-- **A contract changes** where a signature has been redacted. -/
theorem contractReason_isSome {s : Symbol} (hs : s ∈ input.overlay.symbols) :
    (input.contractReason s.id).isSome = true ↔ s ∈ input.editedSymbols ∧ SignatureRedacted e s := by
  rw [contractReason, h.overlaySymMap_eq hsource hmatch hs, Option.bind_some]
  by_cases hpath : s.filePath ∈ input.editedPaths
  · obtain ⟨edit, hedit, hparsed⟩ := List.mem_flatMap.1
      ((h.mem_editedSymbols_iff hsource hmatch hs).2 hpath)
    rw [and_iff_right ((h.mem_editedSymbols_iff hsource hmatch hs).2 hpath), h.parse_path hparsed,
      (h.oldSymbol_eq hsource hmatch hedit hparsed).2, Option.bind_some]
    unfold SignatureRedacted
    dsimp only
    split_ifs with hredacted
    · simp only [Bool.and_eq_true, Bool.not_eq_true', decide_eq_true_eq] at hredacted
      exact iff_of_true rfl ⟨hredacted.2, by simp [hredacted.1]⟩
    · simp only [Bool.and_eq_true, Bool.not_eq_true', decide_eq_true_eq] at hredacted
      refine iff_of_false (by simp) fun hboth => hredacted ⟨?_, hboth.1⟩
      simpa using hboth.2
  · rw [oldSymbol_eq_none fun old hold hpath' => ?_]
    · simp [h.mem_editedSymbols_iff hsource hmatch hs, hpath]
    · have hmem := (List.mem_filter.1 hold).2
      rw [hpath', decide_eq_true_eq] at hmem
      exact hpath hmem

/-- The ids that count as touched, when there is a symbol of an edit. -/
theorem touchedSymbolIds_eq (hne : input.editedSymbols ≠ []) (hotspots : List String) :
    input.touchedSymbolIds hotspots = input.editedSymbols.map Symbol.id := by
  have htouched := (h.overlay_spec hsource hmatch).2.2
  unfold touchedSymbolIds
  rw [if_pos, htouched]
  rw [htouched]
  simpa using hne

/-- **The breaking call sites.** -/
theorem callsChanged_iff (hotspots : List String) :
    (∃ callerId ∈ input.overlay.symbols.map Symbol.id,
      input.CallsChanged ⟨hotspots, false, false⟩ callerId) ↔ ¬ input.KeepsContracts e := by
  have hids := h.overlayIds hsource hmatch
  have hmem : ∀ s ∈ input.editedSymbols, s ∈ input.overlay.symbols := by
    intro s hs
    rw [h.overlay_eq hsource hmatch]
    exact List.mem_append_right _ hs
  unfold KeepsContracts CallsChanged
  push Not
  rw [overlayEdges_eq]
  constructor
  · rintro ⟨_, hmapped, hne, id, hid, hreason, edge, hedge, husable, hsrc, hdst⟩
    obtain ⟨caller, hcaller, rfl⟩ := List.mem_map.1 hmapped
    obtain ⟨s, hs, rfl⟩ : ∃ s ∈ input.overlay.symbols, s.id = id := by
      obtain ⟨reason, hr⟩ := Option.isSome_iff_exists.1 hreason
      obtain ⟨s, hs, -⟩ := Option.bind_eq_some_iff.1 hr
      exact List.mem_map.1 (mem_of_overlaySymMap hs)
    obtain ⟨hs, hredacted⟩ := (h.contractReason_isSome hsource hmatch hs).1 hreason
    have hpath : caller.filePath ∉ input.editedPaths := by
      intro hpath
      rw [h.touchedSymbolIds_eq hsource hmatch (List.ne_nil_of_mem hs)] at hne
      exact hne (List.mem_map_of_mem ((h.mem_editedSymbols_iff hsource hmatch hcaller).2 hpath))
    refine ⟨caller, (h.layered hsource hmatch).mem_kept.2 ⟨hcaller, hpath⟩, s, hs, edge, ?_, husable,
      hsrc, hdst, hredacted⟩
    rcases List.mem_append.1 hedge with hedge | hedge
    · exact (List.mem_filter.1 hedge).1
    · -- a new edge leaves a symbol of an edit
      have hedited := (List.mem_filter.1 hedge).2
      rw [hsrc, inEditedFile_eq hids hcaller, decide_eq_true_eq] at hedited
      exact absurd hedited hpath
  · rintro ⟨caller, hcaller, s, hs, edge, hedge, husable, hsrc, hdst, hredacted⟩
    have htouched := h.touchedSymbolIds_eq hsource hmatch (List.ne_nil_of_mem hs) hotspots
    have hkept := ((h.layered hsource hmatch).mem_kept.1 hcaller)
    refine ⟨caller.id, List.mem_map_of_mem hkept.1, ?_, s.id, ?_, ?_, edge, ?_, husable, hsrc, hdst⟩
    · rw [htouched]
      intro hid
      obtain ⟨s', hs', hid⟩ := List.mem_map.1 hid
      exact h.id_ne_of_kept hsource hmatch hcaller hs' hid.symm
    · rw [htouched]
      exact List.mem_map_of_mem hs
    · exact (h.contractReason_isSome hsource hmatch (hmem s hs)).2 ⟨hs, hredacted⟩
    · refine List.mem_append_left _ (List.mem_filter.2 ⟨hedge, ?_⟩)
      rw [hsrc, inEditedFile_eq h.baseIds (List.mem_filter.1 hcaller).1]
      simpa using hkept.2

/-- A call site breaks where a symbol of an unedited file uses one whose signature has been
    redacted. -/
theorem breakingSites_eq_nil_iff (hotspots : List String)
    (hfit : input.impactGraph.reverseStructural.nnz < 2 ^ 31) :
    input.breakingSites hotspots = [] ↔ input.KeepsContracts e := by
  have hbreaks : ∀ callerId, (∃ site ∈ input.breakingSites hotspots, site.callerId = callerId) ↔
      Breaks (input.overlay.symbols.map Symbol.id) input.overlayEdges (input.impactSeeds hotspots)
        callerId := fun callerId => mem_breakingCallers_iff hfit fun id hid => overlaySymMap_isSome hid
  rw [← not_iff_not, ← h.callsChanged_iff hsource hmatch hotspots]
  constructor
  · intro hne
    obtain ⟨site, hsite⟩ := List.exists_mem_of_ne_nil _ hne
    have hbreak := (hbreaks site.callerId).1 ⟨site, hsite, rfl⟩
    have hchanged : input.CallsChanged ⟨hotspots, false, false⟩ site.callerId :=
      (breaks_iff hbreak.1).1 hbreak
    exact ⟨_, hbreak.1, hchanged⟩
  · rintro ⟨callerId, hcaller, hchanged⟩ hnil
    obtain ⟨site, hsite, -⟩ := (hbreaks callerId).2 ((breaks_iff hcaller).2 hchanged)
    rw [hnil] at hsite
    cases hsite

/-- The overlay has the ids of the base. -/
theorem overlayIds_perm :
    (input.overlay.symbols.map Symbol.id).Perm (input.baseSymbols.map Symbol.id) := by
  have hperm := (h.storedWorkspace_perm hsource hmatch).map Symbol.id
  rw [storedWorkspace, List.map_map] at hperm
  refine .trans (.of_eq ?_) hperm
  exact List.map_congr_left fun s _ => (stored_id s).symm

end

end NoOpPatch

end

/-- **A patch that changes nothing** is neutral exactly when the edited files are parsed, with a
    qualified name for each symbol, and no symbol of an unedited file uses one whose signature
    has been redacted; given that the full sources read like the stored excerpts, and that no
    component of the base is ambiguous. -/
theorem noOpPatch_neutral_iff (planner : ChangePlanner) (e : Enricher)
    (files : List (String × ByteArray)) (input : ShadowInput) (hotspots : List String)
    (h : NoOpPatch planner e files input) (hsource : input.EditsSource planner)
    (hreads : input.ReadsAlike planner.unicode e) (hdecided : input.baseWorkspace.NoneAmbiguous)
    (hfit : input.impactGraph.reverseStructural.nnz < 2 ^ 31) :
    input.Neutral hotspots ↔ input.Matchable planner ∧ input.KeepsContracts e := by
  constructor
  · intro hneutral
    have hmatch := h.matchable_of_neutral hsource hneutral.distinct fun id hid => (hneutral.ids id).1 hid
    exact ⟨hmatch, (h.breakingSites_eq_nil_iff hsource hmatch hotspots hfit).1 hneutral.contracts⟩
  · rintro ⟨hmatch, hkeeps⟩
    exact
      { regressions := h.regressions_eq hsource hmatch hreads hdecided hotspots
        contracts := (h.breakingSites_eq_nil_iff hsource hmatch hotspots hfit).2 hkeeps
        distinct := h.overlayIds hsource hmatch
        ids := fun id => (h.overlayIds_perm hsource hmatch).mem_iff }

end ShadowInput

namespace NoOpExample

open ReindexExample

def libText : String := "def bar(xs): return max(xs)"

def bar : Symbol := function "lib.py" "bar" libText

/-- Another definition of `bar` in its file. -/
def bar' : Symbol := function "lib.py" "bar" "def bar(xs): return sum(xs)"

/-- A parser that finds the given symbols in their files. -/
def parse (symbols : List Symbol) (path : String) : ParseOutput where
  status := .ok
  language := some "python"
  symbols := symbols.filter (·.filePath = path)

def frontend (symbols : List Symbol) : Frontend where
  parseSource path _ := parse symbols path
  extractArtifact _ path _ := parse symbols path
  enrich s := (Enricher.ascii.enrich s).symbol
  exactByteHash bytes := toString bytes.size
  parseSource_path _ _ _ hs := of_decide_eq_true (List.mem_filter.1 hs).2
  extractArtifact_path _ _ _ _ hs := of_decide_eq_true (List.mem_filter.1 hs).2
  enrich_path _ := rfl

def planner (symbols : List Symbol) : ChangePlanner where
  config := ⟨[], ["python"], false, []⟩
  unicode := unicode
  frontend := frontend symbols
  ftsSearch _ _ _ := []
  now := 0

def files : List (String × ByteArray) := [("app.py", "".toUTF8), ("lib.py", libText.toUTF8)]

/-- `lib.py` is submitted as it is. -/
def input (symbols : List Symbol) : ShadowInput where
  baseSymbols := symbols
  baseEdges := resolvedEdges unicode symbols
  fileEdits := [⟨"lib.py", libText⟩]
  targetQueries := []
  parseSource path _ := (parse symbols path).symbols
  resolveEdges := resolvedEdges unicode
  walk := walk

theorem parseText_eq (symbols : List Symbol) (path content : String) :
    (planner symbols).parseText path content = parse symbols path := by
  unfold ChangePlanner.parseText
  split_ifs
  · rfl
  · split <;> rfl

theorem input_noOpPatch (symbols : List Symbol)
    (hids : ∀ s ∈ symbols, ∀ s' ∈ symbols, s.id = s'.id →
      s.filePath = s'.filePath ∧ s.qualifiedName = s'.qualifiedName)
    (hsymbols : symbols.Perm (build Symbol.id (files.flatMap fun file =>
      ((planner symbols).parseFile file.1 file.2 []).symbols))) :
    ShadowInput.NoOpPatch (planner symbols) Enricher.ascii files (input symbols) where
  enrich := rfl
  parse := rfl
  resolve := rfl
  ids path path' content content' s hs s' hs' hid := by
    rw [parseText_eq] at hs hs'
    obtain ⟨hs, hpath⟩ := List.mem_filter.1 hs
    obtain ⟨hs', hpath'⟩ := List.mem_filter.1 hs'
    rw [← of_decide_eq_true hpath, ← of_decide_eq_true hpath']
    exact hids s hs s' hs' hid
  paths := by decide
  symbols := hsymbols
  edges := .refl _
  edits edit hedit := by
    obtain rfl := List.mem_singleton.1 hedit
    exact ⟨libText.toUTF8, by simp [files], dif_pos libText.isValidUTF8⟩
  edited := List.nodup_singleton _

theorem enrich_bar : (Enricher.ascii.enrich bar).symbol = bar := by decide +kernel

end NoOpExample

open NoOpExample ReindexExample in
/-- `foo` calls `bar`, whose file is submitted as it is. -/
theorem noOpPatch_neutral_iff_bar : (input [foo, bar]).Neutral [] := by
  have hsccs : (input [foo, bar]).baseWorkspace.sccs = [[1], [0]] := by decide +kernel
  have hedited : ∀ s ∈ (input [foo, bar]).editedSymbols, s = bar := by decide +kernel
  refine (ShadowInput.noOpPatch_neutral_iff (planner [foo, bar]) Enricher.ascii files _ []
    (input_noOpPatch _ (by decide) (by decide +kernel)) ?_ ⟨?_, ?_⟩ ?_ (by decide +kernel)).2
    ⟨⟨?_, ?_⟩, ?_⟩
  · intro edit _
    rw [parseText_eq]
    rfl
  · decide +kernel
  · intro edit hedit s hs name
    rw [hedited s (List.mem_flatMap.2 ⟨edit, hedit, hs⟩), enrich_bar]
  · unfold Workspace.NoneAmbiguous
    rw [hsccs]
    exact Loop.forall_split_iff.2 (by decide +kernel)
  · intro edit _ hfailed
    cases hfailed
  · decide +kernel
  · rintro caller - s hs edge - - - - ⟨hne, -⟩
    rw [hedited s hs, enrich_bar] at hne
    exact hne rfl

/-- The property for every index and every part of its files. -/
def NoOpIsNeutral : Prop :=
  ∀ (planner : ChangePlanner) (e : Enricher) (files : List (String × ByteArray))
    (input : ShadowInput) (hotspots : List String),
    ShadowInput.NoOpPatch planner e files input → input.Neutral hotspots

open NoOpExample ReindexExample in
/-- The file defines `bar` twice: in the overlay both have the id of the last one. -/
theorem not_noOpIsNeutral : ¬ NoOpIsNeutral := by
  intro h
  have hneutral := h (planner [foo, bar, bar']) Enricher.ascii files (input [foo, bar, bar']) []
    (input_noOpPatch _ (by decide) (by decide +kernel))
  exact absurd hneutral.distinct (by decide +kernel)

end Cognis
