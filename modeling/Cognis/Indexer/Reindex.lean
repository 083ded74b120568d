/-
  The shadow analysis against indexing the edited files (`shadow.rs`).

  * `overlay_symbols`: the overlay has the symbols of the edited files, under the ids of
    the old symbols they stand for (`parsedId` undoes this);
  * `hasCall_overlay_kept`, `hasCall_overlay_edited`: the calls in the overlay, stored for
    unedited files and resolved for edited ones;
  * `shadow_eq_reindex`: the costs are those of the new index with the stored calls of
    unedited files, hence of the new index when these calls are settled (`Settled`);
  * `not_shadowEqualsReindex`: an edit adds the function that an unedited file calls.
-/
import Cognis.Indexer.Rename
import Cognis.Indexer.Shadow

namespace Cognis

open Table

namespace ShadowInput

variable (input : ShadowInput)

/-! ## The new index -/

/-- The code that the analysis runs: the parser gives the symbols of a file its path, the
    edges are those of the resolver, and the pass over a body does not look at the id. -/
structure RunsIndexer (unicode : UnicodeTables) : Prop where
  parse_path : ∀ path content, ∀ s ∈ input.parseSource path content, s.filePath = path
  resolve : input.resolveEdges = resolvedEdges unicode
  walk_id : ∀ (s : Symbol) (rename : String → String) source,
    input.walk (s.withId rename) source = input.walk s source

/-- The symbols and the edges of some files, in any order. -/
structure Indexes (files : List (String × String)) (indexed : List Symbol) (resolved : List Edge) :
    Prop where
  symbols : indexed.Perm (files.flatMap fun file => input.parseSource file.1 file.2)
  edges : resolved.Perm (input.resolveEdges indexed)

/-- The files after the edits. -/
def editedFiles (files : List (String × String)) : List (String × String) :=
  files.filter (·.1 ∉ input.editedPaths) ++
    input.fileEdits.map fun edit => (edit.filePath, edit.newContent)

/-- The id in the overlay of a symbol of an edit. -/
def overlayId (edit : ShadowFileEdit) (s : Symbol) : String :=
  ((input.oldSymbol edit.filePath s).map Symbol.id).getD s.id

/-- The ids of the symbols of the edits, in the overlay and as they are parsed. -/
def idPairs : List (String × String) := input.fileEdits.flatMap fun edit =>
  (input.parseSource edit.filePath edit.newContent).map fun s => (input.overlayId edit s, s.id)

/-- The parsed id of an id of the overlay. -/
def parsedId (id : String) : String := ((lookup Prod.fst input.idPairs id).map Prod.snd).getD id

/-- The id in the overlay of a parsed id. -/
def preservedId (id : String) : String := ((lookup Prod.snd input.idPairs id).map Prod.fst).getD id

/-- A new index, with the source overrides of the overlay. -/
def reindexWorkspace (symbols : List Symbol) (edges : List Edge) : Workspace where
  symbols := symbols
  edges := edges
  sourceOverrides id := input.overlay.sourceOverrides (input.preservedId id)
  walk := input.walk

/-- Every symbol of the overlay has the `propagated_time` that it has in the workspace. -/
def AgreesWith (ws : Workspace) : Prop :=
  ∀ s ∈ input.overlay.symbols, (ws.costsOf (input.parsedId s.id)).map Prod.fst =
    (input.overlayWorkspace.costsOf s.id).map Prod.fst

/-- The stored edges of unedited files, to the symbols that stay. -/
def storedEdges : List Edge :=
  (input.baseEdges.filter fun edge => !input.inEditedFile input.baseSymbols edge.srcId &&
      decide (edge.dstId ∈ input.overlay.symbols.map Symbol.id)).map fun edge =>
    { edge with dstId := input.parsedId edge.dstId }

/-- The edges of a new index, with the stored ones of unedited files. -/
def reindexedEdges (symbols : List Symbol) (resolved : List Edge) : List Edge :=
  input.storedEdges ++ resolved.filter (input.inEditedFile symbols ·.srcId)

/-- The symbols of unedited files call the same symbols of the overlay as of the base. -/
def Settled (unicode : UnicodeTables) : Prop :=
  ∀ caller ∈ input.keptSymbols, ∀ callee ∈ input.overlay.symbols,
    CallsTo unicode input.overlay.symbols caller callee ↔
      ∃ old ∈ input.baseSymbols, old.id = callee.id ∧ CallsTo unicode input.baseSymbols caller old

/-- An index of some files, one of the files after the edits, and the overlay, each with
    ids of its own for its symbols; no component of the overlay is ambiguous. -/
structure Reindexing (unicode : UnicodeTables) (files : List (String × String))
    (symbols : List Symbol) (resolved : List Edge) : Prop extends input.RunsIndexer unicode where
  base : input.Indexes files input.baseSymbols input.baseEdges
  reindexed : input.Indexes (input.editedFiles files) symbols resolved
  baseIds : Keyed Symbol.id input.baseSymbols
  overlayIds : Keyed Symbol.id input.overlay.symbols
  reindexedIds : Keyed Symbol.id symbols
  decided : input.overlayWorkspace.NoneAmbiguous

variable {input}

/-! ## The overlay -/

/-- A symbol of an edit, as the overlay has it. -/
def overlaid (input : ShadowInput) (edit : ShadowFileEdit) (s : Symbol) : Symbol :=
  { s with id := input.overlayId edit s }

/-- The symbols of the edits, as the overlay has them. -/
def overlaidSymbols (input : ShadowInput) : List Symbol := input.fileEdits.flatMap fun edit =>
  (input.parseSource edit.filePath edit.newContent).map (input.overlaid edit)

/-- The symbols of the edits, as they are parsed. -/
def editedSymbols (input : ShadowInput) : List Symbol :=
  input.fileEdits.flatMap fun edit => input.parseSource edit.filePath edit.newContent

theorem overlaySymbol_symbols (edit : ShadowFileEdit) (o : Overlay) (s : Symbol) :
    (input.overlaySymbol edit o s).symbols = o.symbols ++ [input.overlaid edit s] := by
  unfold overlaySymbol overlaid overlayId
  dsimp only
  cases input.oldSymbol edit.filePath s <;> rfl

/-- **The symbols of the overlay.** -/
theorem overlay_symbols : input.overlay.symbols = input.keptSymbols ++ input.overlaidSymbols := by
  have hsymbols : ∀ edit (news : List Symbol) o,
      (news.foldl (input.overlaySymbol edit) o).symbols =
        o.symbols ++ news.map (input.overlaid edit) := by
    intro edit news
    induction news with
    | nil => simp
    | cons new news ih =>
      intro o
      rw [List.foldl_cons, ih, overlaySymbol_symbols, List.append_assoc]
      rfl
  have hedits : ∀ (edits : List ShadowFileEdit) o, (edits.foldl input.overlayEdit o).symbols =
      o.symbols ++ edits.flatMap fun edit =>
        (input.parseSource edit.filePath edit.newContent).map (input.overlaid edit) := by
    intro edits
    induction edits with
    | nil => simp
    | cons edit edits ih =>
      intro o
      rw [List.foldl_cons, ih, overlayEdit, hsymbols, List.append_assoc, List.flatMap_cons]
  exact hedits _ _

theorem idPairs_fst : input.idPairs.map Prod.fst = input.overlaidSymbols.map Symbol.id := by
  simp only [idPairs, overlaidSymbols, List.map_flatMap, List.map_map]
  rfl

theorem idPairs_snd : input.idPairs.map Prod.snd = input.editedSymbols.map Symbol.id := by
  simp only [idPairs, editedSymbols, List.map_flatMap, List.map_map]
  rfl

section
variable (hids : Keyed Symbol.id input.overlay.symbols)
include hids

theorem overlaidIds_nodup : (input.keptSymbols.map Symbol.id ++ input.idPairs.map Prod.fst).Nodup := by
  unfold Keyed at hids
  rwa [overlay_symbols, List.map_append, ← idPairs_fst] at hids

/-- A symbol of an unedited file keeps its id. -/
theorem parsedId_kept {s : Symbol} (hs : s ∈ input.keptSymbols) : input.parsedId s.id = s.id := by
  have hnone : lookup Prod.fst input.idPairs s.id = none := by
    rw [lookup_eq_none]
    intro pair hpair he
    exact (List.nodup_append.1 (overlaidIds_nodup hids)).2.2 _ (List.mem_map_of_mem hs) _
      (List.mem_map_of_mem hpair) he.symm
  rw [parsedId, hnone]
  rfl

/-- A symbol of an edit has been parsed with an id of its own. -/
theorem parsedId_overlaid {pair : String × String} (hpair : pair ∈ input.idPairs) :
    input.parsedId pair.1 = pair.2 := by
  have hkeyed : Keyed Prod.fst input.idPairs :=
    (List.nodup_append.1 (overlaidIds_nodup hids)).2.1
  rw [parsedId, hkeyed.lookup_eq_some.2 ⟨hpair, rfl⟩]
  rfl

/-- **The overlay is the new index under other ids.** -/
theorem overlay_parsed : input.overlay.symbols.map (Symbol.withId input.parsedId) =
    input.keptSymbols ++ input.editedSymbols := by
  have hkept : input.keptSymbols.map (Symbol.withId input.parsedId) = input.keptSymbols := by
    refine (List.map_congr_left fun s hs => ?_).trans (List.map_id _)
    rw [Symbol.withId, parsedId_kept hids hs, id]
  have hedited : input.overlaidSymbols.map (Symbol.withId input.parsedId) = input.editedSymbols := by
    unfold overlaidSymbols editedSymbols
    rw [List.map_flatMap]
    refine List.flatMap_congr fun edit hedit => ?_
    rw [List.map_map]
    refine (List.map_congr_left fun s hs => ?_).trans (List.map_id _)
    have hpair : (input.overlayId edit s, s.id) ∈ input.idPairs :=
      List.mem_flatMap.2 ⟨edit, hedit, List.mem_map.2 ⟨s, hs, rfl⟩⟩
    have hid : input.parsedId (input.overlayId edit s) = s.id := parsedId_overlaid hids hpair
    simp only [Function.comp_apply, overlaid, Symbol.withId, hid, id]
  rw [overlay_symbols, List.map_append, hkept, hedited]

end

/-! ## The calls of the overlay -/

/-- The edges of the base are those of the resolver, and the symbols have ids of their own in
    the base and in the overlay. -/
structure Layered (input : ShadowInput) (unicode : UnicodeTables) : Prop where
  parse_path : ∀ path content, ∀ s ∈ input.parseSource path content, s.filePath = path
  resolve : input.resolveEdges = resolvedEdges unicode
  baseEdges : input.baseEdges.Perm (resolvedEdges unicode input.baseSymbols)
  baseIds : Keyed Symbol.id input.baseSymbols
  overlayIds : Keyed Symbol.id input.overlay.symbols

/-- Where the symbol of an id is. -/
theorem inEditedFile_eq {symbols : List Symbol} (hids : Keyed Symbol.id symbols) {s : Symbol}
    (hs : s ∈ symbols) : input.inEditedFile symbols s.id = decide (s.filePath ∈ input.editedPaths) := by
  have hlookup : symbols.find? (·.id = s.id) = some s := hids.lookup_eq_some.2 ⟨hs, rfl⟩
  rw [inEditedFile, hlookup]
  rfl

/-- Without edits all edges are stored ones. -/
theorem overlayEdges_eq : input.overlayEdges =
    input.baseEdges.filter (!input.inEditedFile input.baseSymbols ·.srcId) ++
      (input.resolveEdges input.overlay.symbols).filter
        (input.inEditedFile input.overlay.symbols ·.srcId) := by
  unfold overlayEdges
  split_ifs with hedits
  · have hfalse : ∀ symbols id, input.inEditedFile symbols id = false := by
      intro symbols id
      simp [inEditedFile, editedPaths, hedits]
    simp [hfalse]
  · rfl

namespace Layered

variable {unicode : UnicodeTables} (h : input.Layered unicode)
include h

theorem mem_kept {s : Symbol} : s ∈ input.keptSymbols ↔
    s ∈ input.overlay.symbols ∧ s.filePath ∉ input.editedPaths := by
  rw [overlay_symbols, List.mem_append]
  constructor
  · intro hs
    exact ⟨.inl hs, by simpa using (List.mem_filter.1 hs).2⟩
  · rintro ⟨hs | hs, hpath⟩
    · exact hs
    · obtain ⟨edit, hedit, hs⟩ := List.mem_flatMap.1 hs
      obtain ⟨t, ht, rfl⟩ := List.mem_map.1 hs
      refine absurd ?_ hpath
      rw [show (input.overlaid edit t).filePath = edit.filePath from h.parse_path _ _ t ht]
      exact List.mem_map_of_mem hedit

theorem mem_base {s : Symbol} (hs : s ∈ input.overlay.symbols) (hpath : s.filePath ∉ input.editedPaths) :
    s ∈ input.baseSymbols :=
  (List.mem_filter.1 (h.mem_kept.2 ⟨hs, hpath⟩)).1

/-- The source of a stored edge of an unedited file is a kept symbol. -/
theorem kept_of_stored {edge : Edge} (hedge : edge ∈ input.baseEdges)
    (hunedited : input.inEditedFile input.baseSymbols edge.srcId = false) :
    ∃ s ∈ input.keptSymbols, s.id = edge.srcId := by
  obtain ⟨found, hfound, rfl⟩ := List.mem_map.1 (h.baseEdges.mem_iff.1 hedge)
  obtain ⟨s, hs, hid⟩ := (joins_resolveEdges hfound).src
  refine ⟨s, List.mem_filter.2 ⟨hs, ?_⟩, hid⟩
  have hlookup : input.baseSymbols.find? (·.id = s.id) = some s :=
    h.baseIds.lookup_eq_some.2 ⟨hs, rfl⟩
  have hsrc : found.toEdge.srcId = s.id := hid.symm
  rw [hsrc, inEditedFile, hlookup] at hunedited
  simpa using hunedited

/-- **The calls of an unedited file** are the stored ones. -/
theorem hasCall_overlay_kept {s : Symbol} (hs : s ∈ input.overlay.symbols)
    (hpath : s.filePath ∉ input.editedPaths) (dstId : String) :
    input.overlayWorkspace.HasCall s.id dstId ↔ input.baseWorkspace.HasCall s.id dstId := by
  have hbase : input.inEditedFile input.baseSymbols s.id = false := by
    rw [inEditedFile_eq h.baseIds (h.mem_base hs hpath), decide_eq_false_iff_not]
    exact hpath
  have hoverlay : input.inEditedFile input.overlay.symbols s.id = false := by
    rw [inEditedFile_eq h.overlayIds hs, decide_eq_false_iff_not]
    exact hpath
  unfold Workspace.HasCall overlayWorkspace baseWorkspace
  rw [overlayEdges_eq]
  constructor
  · rintro ⟨edge, hedge, hkind, hflag, hsrc, hdst⟩
    rcases List.mem_append.1 hedge with hedge | hedge
    · exact ⟨edge, (List.mem_filter.1 hedge).1, hkind, hflag, hsrc, hdst⟩
    · have hedited := (List.mem_filter.1 hedge).2
      rw [hsrc, hoverlay] at hedited
      cases hedited
  · rintro ⟨edge, hedge, hkind, hflag, hsrc, hdst⟩
    refine ⟨edge, List.mem_append_left _ (List.mem_filter.2 ⟨hedge, ?_⟩), hkind, hflag, hsrc, hdst⟩
    rw [hsrc, hbase]
    rfl

/-- **The calls of an edited file** are resolved in the overlay. -/
theorem hasCall_overlay_edited {s t : Symbol} (hs : s ∈ input.overlay.symbols)
    (ht : t ∈ input.overlay.symbols) (hpath : s.filePath ∈ input.editedPaths) :
    input.overlayWorkspace.HasCall s.id t.id ↔ CallsTo unicode input.overlay.symbols s t := by
  have hoverlay : input.inEditedFile input.overlay.symbols s.id = true := by
    rw [inEditedFile_eq h.overlayIds hs, decide_eq_true_eq]
    exact hpath
  rw [← hasCall_resolvedEdges h.overlayIds hs ht]
  unfold Workspace.HasCall overlayWorkspace
  rw [overlayEdges_eq, h.resolve]
  constructor
  · rintro ⟨edge, hedge, hkind, hflag, hsrc, hdst⟩
    rcases List.mem_append.1 hedge with hedge | hedge
    · -- a stored edge leaves a kept symbol
      obtain ⟨hedge, hunedited⟩ := List.mem_filter.1 hedge
      obtain ⟨k, hk, hid⟩ := h.kept_of_stored hedge (by simpa using hunedited)
      have hkept := h.mem_kept.1 hk
      rw [h.overlayIds.eq hkept.1 hs (hid.trans hsrc)] at hkept
      exact absurd hpath hkept.2
    · exact ⟨edge, (List.mem_filter.1 hedge).1, hkind, hflag, hsrc, hdst⟩
  · rintro ⟨edge, hedge, hkind, hflag, hsrc, hdst⟩
    refine ⟨edge, List.mem_append_right _ (List.mem_filter.2 ⟨hedge, ?_⟩), hkind, hflag, hsrc, hdst⟩
    rw [hsrc, hoverlay]

/-- The edges of the overlay are plain. -/
theorem plain_overlay : input.overlayWorkspace.Plain where
  symbols := h.overlayIds
  edges := by
    have hbase : Keyed Edge.key input.baseEdges :=
      (h.baseEdges.map _).nodup_iff.2 keyed_resolvedEdges
    have hresolve : Keyed Edge.key (input.resolveEdges input.overlay.symbols) := by
      rw [h.resolve]
      exact keyed_resolvedEdges
    show Keyed Edge.key input.overlayEdges
    rw [overlayEdges_eq]
    refine (hbase.filter _).append (hresolve.filter _) fun e he e' he' => Edge.key_ne_of_src fun hsrc => ?_
    obtain ⟨he, hunedited⟩ := List.mem_filter.1 he
    have hedited := (List.mem_filter.1 he').2
    obtain ⟨s, hs, hid⟩ := h.kept_of_stored he (by simpa using hunedited)
    obtain ⟨hs, hpath⟩ := h.mem_kept.1 hs
    rw [← hsrc, ← hid, inEditedFile_eq h.overlayIds hs, decide_eq_true_eq] at hedited
    exact hpath hedited
  depth edge hedge := by
    change edge ∈ input.overlayEdges at hedge
    rw [overlayEdges_eq, h.resolve] at hedge
    rcases List.mem_append.1 hedge with hedge | hedge
    · exact metaLoopDepth_resolvedEdges (h.baseEdges.mem_iff.1 (List.mem_filter.1 hedge).1)
    · exact metaLoopDepth_resolvedEdges (List.mem_filter.1 hedge).1

/-- The stored calls of a symbol of an unedited file. -/
theorem hasCall_base {s : Symbol} (hs : s ∈ input.baseSymbols) (dstId : String) :
    input.baseWorkspace.HasCall s.id dstId ↔
      ∃ old ∈ input.baseSymbols, old.id = dstId ∧ CallsTo unicode input.baseSymbols s old := by
  unfold Workspace.HasCall
  constructor
  · rintro ⟨edge, hedge, hkind, hflag, hsrc, rfl⟩
    have hmem := h.baseEdges.mem_iff.1 hedge
    obtain ⟨found, hfound, rfl⟩ := List.mem_map.1 hmem
    obtain ⟨old, hold, hid⟩ := (joins_resolveEdges hfound).dst
    exact ⟨old, hold, hid, (hasCall_resolvedEdges h.baseIds hs hold).1
      ⟨found.toEdge, hmem, hkind, hflag, hsrc, hid.symm⟩⟩
  · rintro ⟨old, hold, rfl, hcalls⟩
    obtain ⟨edge, hedge, hcall⟩ := (hasCall_resolvedEdges h.baseIds hs hold).2 hcalls
    exact ⟨edge, h.baseEdges.mem_iff.2 hedge, hcall⟩

end Layered

/-! ## The symbols -/

/-- The symbols of the files outside some paths. -/
theorem RunsIndexer.filter_parsed {unicode : UnicodeTables} (h : input.RunsIndexer unicode)
    (files : List (String × String)) (paths : List String) :
    (files.flatMap fun file => input.parseSource file.1 file.2).filter (·.filePath ∉ paths) =
      (files.filter (·.1 ∉ paths)).flatMap fun file => input.parseSource file.1 file.2 := by
  induction files with
  | nil => rfl
  | cons file files ih =>
    have hpath := h.parse_path file.1 file.2
    rw [List.flatMap_cons, List.filter_append, ih]
    by_cases hfile : file.1 ∈ paths
    · have hnone : (input.parseSource file.1 file.2).filter (·.filePath ∉ paths) = [] := by
        rw [List.filter_eq_nil_iff]
        intro s hs
        simpa [hpath s hs] using hfile
      rw [hnone, List.filter_cons_of_neg (by simpa using hfile), List.nil_append]
    · have hall : (input.parseSource file.1 file.2).filter (·.filePath ∉ paths) =
          input.parseSource file.1 file.2 := by
        rw [List.filter_eq_self]
        intro s hs
        simpa [hpath s hs] using hfile
      rw [hall, List.filter_cons_of_pos (by simpa using hfile), List.flatMap_cons]

namespace Reindexing

variable {unicode : UnicodeTables} {files : List (String × String)} {symbols : List Symbol}
  {resolved : List Edge} (h : input.Reindexing unicode files symbols resolved)
include h

theorem layered : input.Layered unicode where
  parse_path := h.parse_path
  resolve := h.resolve
  baseEdges := by
    rw [← h.resolve]
    exact h.base.edges
  baseIds := h.baseIds
  overlayIds := h.overlayIds

/-- The symbols of the unedited files. -/
theorem kept_perm : input.keptSymbols.Perm ((files.filter (·.1 ∉ input.editedPaths)).flatMap fun file =>
    input.parseSource file.1 file.2) :=
  (h.base.symbols.filter _).trans (.of_eq (h.filter_parsed files input.editedPaths))

/-- **The symbols of the new index.** -/
theorem symbols_perm : symbols.Perm (input.overlay.symbols.map (Symbol.withId input.parsedId)) := by
  rw [overlay_parsed h.overlayIds]
  refine h.reindexed.symbols.trans ?_
  unfold editedFiles
  rw [List.flatMap_append]
  refine h.kept_perm.symm.append (.of_eq ?_)
  rw [List.flatMap_map]
  rfl

theorem withId_mem {s : Symbol} (hs : s ∈ input.overlay.symbols) :
    s.withId input.parsedId ∈ symbols :=
  h.symbols_perm.mem_iff.2 (List.mem_map_of_mem hs)

theorem keyed_withId : Keyed Symbol.id (input.overlay.symbols.map (Symbol.withId input.parsedId)) :=
  (h.symbols_perm.map _).nodup_iff.1 h.reindexedIds

theorem parsedId_inj {s t : Symbol} (hs : s ∈ input.overlay.symbols) (ht : t ∈ input.overlay.symbols)
    (hst : input.parsedId s.id = input.parsedId t.id) : s.id = t.id := by
  have hkeyed := h.keyed_withId
  unfold Keyed at hkeyed
  rw [List.map_map] at hkeyed
  rw [List.inj_on_of_nodup_map hkeyed hs ht hst]

/-- The source override of a symbol is the one of the overlay. -/
theorem preservedId_parsedId {s : Symbol} (hs : s ∈ input.overlay.symbols) :
    input.preservedId (input.parsedId s.id) = s.id := by
  have hnodup : (input.keptSymbols.map Symbol.id ++ input.idPairs.map Prod.snd).Nodup := by
    have hkeyed := h.keyed_withId
    unfold Keyed at hkeyed
    rwa [overlay_parsed h.overlayIds, List.map_append, ← idPairs_snd] at hkeyed
  have hparts := List.nodup_append.1 hnodup
  rw [overlay_symbols, List.mem_append] at hs
  rcases hs with hs | hs
  · have hnone : lookup Prod.snd input.idPairs s.id = none := by
      rw [lookup_eq_none]
      intro pair hpair he
      exact hparts.2.2 _ (List.mem_map_of_mem hs) _ (List.mem_map_of_mem hpair) he.symm
    rw [parsedId_kept h.overlayIds hs, preservedId, hnone]
    rfl
  · have hid : s.id ∈ input.idPairs.map Prod.fst := by
      rw [idPairs_fst]
      exact List.mem_map_of_mem hs
    obtain ⟨pair, hpair, hfst⟩ := List.mem_map.1 hid
    have hkeyed : Keyed Prod.snd input.idPairs := hparts.2.1
    rw [← hfst, parsedId_overlaid h.overlayIds hpair, preservedId,
      hkeyed.lookup_eq_some.2 ⟨hpair, rfl⟩]
    rfl

/-! ## The calls -/

theorem resolved_edges : resolved.Perm (resolvedEdges unicode symbols) := by
  rw [← h.resolve]
  exact h.reindexed.edges

/-- A kept symbol is in the new index, outside the edited files. -/
theorem notEdited_of_kept {s : Symbol} (hs : s ∈ input.keptSymbols) :
    input.inEditedFile symbols s.id = false := by
  obtain ⟨hmem, hpath⟩ := h.layered.mem_kept.1 hs
  have hre := h.withId_mem hmem
  have hid : (s.withId input.parsedId).id = s.id := parsedId_kept h.overlayIds hs
  rw [← hid, inEditedFile_eq h.reindexedIds hre, decide_eq_false_iff_not]
  exact hpath

theorem keyed_reindexedEdges : Keyed Edge.key (input.reindexedEdges symbols resolved) := by
  have hbase : Keyed Edge.key input.baseEdges :=
    (h.layered.baseEdges.map _).nodup_iff.2 keyed_resolvedEdges
  have hresolved : Keyed Edge.key resolved :=
    (h.resolved_edges.map _).nodup_iff.2 keyed_resolvedEdges
  have hstored : Keyed Edge.key input.storedEdges := by
    unfold Keyed storedEdges
    rw [List.map_map]
    refine List.Nodup.map_on (fun e he e' he' hkey => ?_) (hbase.filter _).nodup
    simp only [List.mem_filter, Bool.and_eq_true, decide_eq_true_eq, List.mem_map] at he he'
    obtain ⟨he, -, s, hs, hdst⟩ := he
    obtain ⟨he', -, s', hs', hdst'⟩ := he'
    -- the parsed ids tell the destinations apart
    have hsrc : e.srcId = e'.srcId := congrArg (fun k : EdgeKey => (ofLex k).1) hkey
    have hparsed : input.parsedId e.dstId = input.parsedId e'.dstId :=
      congrArg (fun k : EdgeKey => (ofLex (ofLex k).2).1) hkey
    have hkind : e.kind.toDbString = e'.kind.toDbString :=
      congrArg (fun k : EdgeKey => (ofLex (ofLex k).2).2) hkey
    rw [← hdst, ← hdst'] at hparsed
    have hid : e.dstId = e'.dstId := by
      rw [← hdst, ← hdst']
      exact h.parsedId_inj hs hs' hparsed
    refine hbase.eq he he' ?_
    unfold Edge.key
    rw [hsrc, hid, hkind]
  refine hstored.append (hresolved.filter _) fun _ hmem e' he' => Edge.key_ne_of_src fun hsrc => ?_
  obtain ⟨e, he, rfl⟩ := List.mem_map.1 hmem
  simp only [List.mem_filter, Bool.and_eq_true, Bool.not_eq_true'] at he
  obtain ⟨s, hs, hid⟩ := h.layered.kept_of_stored he.1 he.2.1
  have hedited := (List.mem_filter.1 he').2
  rw [← hsrc, ← hid, h.notEdited_of_kept hs] at hedited
  cases hedited

/-- The stored calls of an unedited file, in the new index. -/
theorem hasCall_reindexed_kept {s t : Symbol} (hs : s ∈ input.overlay.symbols)
    (ht : t ∈ input.overlay.symbols) (hpath : s.filePath ∉ input.editedPaths) :
    (input.reindexWorkspace symbols (input.reindexedEdges symbols resolved)).HasCall
      (input.parsedId s.id) (input.parsedId t.id) ↔ input.baseWorkspace.HasCall s.id t.id := by
  have hkept := h.layered.mem_kept.2 ⟨hs, hpath⟩
  have hbase : input.inEditedFile input.baseSymbols s.id = false := by
    rw [inEditedFile_eq h.baseIds (h.layered.mem_base hs hpath), decide_eq_false_iff_not]
    exact hpath
  rw [parsedId_kept h.overlayIds hkept]
  constructor
  · rintro ⟨edge, hedge, hkind, hflag, hsrc, hdst⟩
    rcases List.mem_append.1 hedge with hedge | hedge
    · obtain ⟨e, he, rfl⟩ := List.mem_map.1 hedge
      simp only [List.mem_filter, Bool.and_eq_true, decide_eq_true_eq, List.mem_map] at he
      obtain ⟨he, -, t', ht', hid⟩ := he
      refine ⟨e, he, hkind, hflag, hsrc, ?_⟩
      rw [← hid]
      rw [← hid] at hdst
      exact h.parsedId_inj ht' ht hdst
    · have hedited := (List.mem_filter.1 hedge).2
      rw [hsrc, h.notEdited_of_kept hkept] at hedited
      cases hedited
  · rintro ⟨edge, hedge, hkind, hflag, hsrc, hdst⟩
    refine ⟨{ edge with dstId := input.parsedId edge.dstId }, List.mem_append_left _ <|
      List.mem_map.2 ⟨edge, List.mem_filter.2 ⟨hedge, ?_⟩, rfl⟩, hkind, hflag, hsrc,
      congrArg input.parsedId hdst⟩
    rw [hsrc, hbase, hdst]
    simpa using List.mem_map_of_mem ht

/-- The calls of an edited file, in the new index. -/
theorem hasCall_reindexed_edited {s : Symbol} (hs : s ∈ input.overlay.symbols)
    (hpath : s.filePath ∈ input.editedPaths) (dstId : String) :
    (input.reindexWorkspace symbols (input.reindexedEdges symbols resolved)).HasCall
      (input.parsedId s.id) dstId ↔
      (input.reindexWorkspace symbols resolved).HasCall (input.parsedId s.id) dstId := by
  have hedited : input.inEditedFile symbols (input.parsedId s.id) = true := by
    refine (inEditedFile_eq h.reindexedIds (h.withId_mem hs)).trans ?_
    rw [decide_eq_true_eq]
    exact hpath
  constructor
  · rintro ⟨edge, hedge, hkind, hflag, hsrc, hdst⟩
    rcases List.mem_append.1 hedge with hedge | hedge
    · -- a stored edge leaves a kept symbol
      obtain ⟨e, he, rfl⟩ := List.mem_map.1 hedge
      simp only [List.mem_filter, Bool.and_eq_true, Bool.not_eq_true'] at he
      obtain ⟨k, hk, hid⟩ := h.layered.kept_of_stored he.1 he.2.1
      have hnot := h.notEdited_of_kept hk
      rw [hid, show e.srcId = input.parsedId s.id from hsrc, hedited] at hnot
      cases hnot
    · exact ⟨edge, (List.mem_filter.1 hedge).1, hkind, hflag, hsrc, hdst⟩
  · rintro ⟨edge, hedge, hkind, hflag, hsrc, hdst⟩
    refine ⟨edge, List.mem_append_right _ (List.mem_filter.2 ⟨hedge, ?_⟩), hkind, hflag, hsrc, hdst⟩
    rw [hsrc, hedited]

/-- The calls that the new index resolves. -/
theorem hasCall_reindexed {s t : Symbol} (hs : s ∈ input.overlay.symbols)
    (ht : t ∈ input.overlay.symbols) :
    (input.reindexWorkspace symbols resolved).HasCall (input.parsedId s.id) (input.parsedId t.id) ↔
      CallsTo unicode input.overlay.symbols s t := by
  rw [← callsTo_withId h.symbols_perm (fun s hs t ht => h.parsedId_inj hs ht) hs ht,
    ← hasCall_resolvedEdges h.reindexedIds (h.withId_mem hs) (h.withId_mem ht)]
  unfold Workspace.HasCall
  exact exists_congr fun edge => and_congr_left fun _ => h.resolved_edges.mem_iff

/-! ## The costs -/

/-- The overlay agrees with a new index whose edges record the same calls. -/
theorem agreesWith_of_calls {edges : List Edge} (hkeyed : Keyed Edge.key edges)
    (hdepth : ∀ edge ∈ edges, Workspace.metaLoopDepth edge = 0)
    (hcalls : ∀ s ∈ input.overlay.symbols, ∀ t ∈ input.overlay.symbols,
      (input.reindexWorkspace symbols edges).HasCall (input.parsedId s.id) (input.parsedId t.id) ↔
        input.overlayWorkspace.HasCall s.id t.id) :
    input.AgreesWith (input.reindexWorkspace symbols edges) := by
  -- the new index in the order of the overlay
  let renamed := input.reindexWorkspace (input.overlay.symbols.map (Symbol.withId input.parsedId)) edges
  have hrenames : Workspace.Renames input.overlayWorkspace renamed input.parsedId :=
    { symbols := rfl
      sourceOverrides := fun s hs => congrArg input.overlay.sourceOverrides (h.preservedId_parsedId hs)
      walk := fun s source => h.walk_id s input.parsedId source
      calls := hcalls }
  have hplain : renamed.Plain := ⟨h.keyed_withId, hkeyed, hdepth⟩
  have hreorders : Workspace.Reorders renamed (input.reindexWorkspace symbols edges) :=
    ⟨h.symbols_perm, .refl _, rfl, rfl⟩
  intro s hs
  rw [hrenames.costsOf_eq h.layered.plain_overlay hplain hreorders h.decided hs]

/-- **What the shadow analysis computes**: the costs of the new index, with the stored calls
    of unedited files. -/
theorem agreesWith_stored : input.AgreesWith
    (input.reindexWorkspace symbols (input.reindexedEdges symbols resolved)) := by
  refine h.agreesWith_of_calls h.keyed_reindexedEdges (fun edge hedge => ?_) fun s hs t ht => ?_
  · rcases List.mem_append.1 hedge with hedge | hedge
    · obtain ⟨e, he, rfl⟩ := List.mem_map.1 hedge
      have hdepth : Workspace.metaLoopDepth e = 0 :=
        metaLoopDepth_resolvedEdges (h.layered.baseEdges.mem_iff.1 (List.mem_filter.1 he).1)
      exact hdepth
    · exact metaLoopDepth_resolvedEdges (h.resolved_edges.mem_iff.1 (List.mem_filter.1 hedge).1)
  · by_cases hpath : s.filePath ∈ input.editedPaths
    · rw [h.hasCall_reindexed_edited hs hpath, h.hasCall_reindexed hs ht,
        h.layered.hasCall_overlay_edited hs ht hpath]
    · rw [h.hasCall_reindexed_kept hs ht hpath, h.layered.hasCall_overlay_kept hs hpath]

/-- When the calls of unedited files are settled, the costs are those of the new index. -/
theorem agreesWith_of_settled (hsettled : input.Settled unicode) :
    input.AgreesWith (input.reindexWorkspace symbols resolved) := by
  refine h.agreesWith_of_calls ((h.resolved_edges.map _).nodup_iff.2 keyed_resolvedEdges)
    (fun edge hedge => metaLoopDepth_resolvedEdges (h.resolved_edges.mem_iff.1 hedge))
    fun s hs t ht => ?_
  rw [h.hasCall_reindexed hs ht]
  by_cases hpath : s.filePath ∈ input.editedPaths
  · rw [h.layered.hasCall_overlay_edited hs ht hpath]
  · rw [h.layered.hasCall_overlay_kept hs hpath, h.layered.hasCall_base (h.layered.mem_base hs hpath),
      hsettled s (h.layered.mem_kept.2 ⟨hs, hpath⟩) t ht]

end Reindexing

/-- **Shadow analysis against re-indexing**: the propagated times of the overlay are those of
    the new index in which the calls of unedited files are the stored ones, and those of the
    new index itself when these calls are settled. -/
theorem shadow_eq_reindex (unicode : UnicodeTables) (input : ShadowInput)
    (files : List (String × String)) (symbols : List Symbol) (resolved : List Edge)
    (h : input.Reindexing unicode files symbols resolved) :
    input.AgreesWith (input.reindexWorkspace symbols (input.reindexedEdges symbols resolved)) ∧
      (input.Settled unicode → input.AgreesWith (input.reindexWorkspace symbols resolved)) :=
  ⟨h.agreesWith_stored, h.agreesWith_of_settled⟩

instance (unicode : UnicodeTables) : Decidable (input.Settled unicode) := by
  unfold Settled
  infer_instance

end ShadowInput

namespace ReindexExample

def function (file name body : String) : Symbol where
  id := "python:" ++ file ++ ":" ++ name ++ "@" ++ body
  kind := .function
  name := name
  qualifiedName := name
  language := "python"
  module := file
  filePath := file
  lineStart := 1
  lineEnd := 1
  contentHash := body
  bodyExcerpt := some body

def foo : Symbol := function "app.py" "foo" "def foo(xs): bar(xs)"

/-- `app.py` has `foo`, any other file that is not empty a `bar`. -/
def parse (path content : String) : List Symbol :=
  if path = "app.py" then [{ foo with filePath := path }]
  else if content = "" then []
  else [function path "bar" content]

def unicode : UnicodeTables where
  isWord c := c.isAlphanum || c = '_'
  isLowercase := Char.isLower
  toLowercase := Text.toAsciiLowercase

/-- `foo` calls `bar`, which has a loop. -/
def walk (s : Symbol) (_ : String) : AstComplexitySummary :=
  if s.name = "bar" then ⟨.linear, .constant, [], [], false, false⟩
  else ⟨.constant, .constant, [⟨"bar", 1, 0, 1, .none⟩], [], false, false⟩

def newText : String := "def bar(xs): return max(x for x in xs)"

def files (text : String) : List (String × String) := [("app.py", ""), ("lib.py", text)]

def indexed (text : String) : List Symbol := (files text).flatMap fun file => parse file.1 file.2

/-- `lib.py` is edited, `app.py` is not. -/
def input (oldText : String) : ShadowInput where
  baseSymbols := indexed oldText
  baseEdges := resolvedEdges unicode (indexed oldText)
  fileEdits := [⟨"lib.py", newText⟩]
  targetQueries := []
  parseSource := parse
  resolveEdges := resolvedEdges unicode
  walk := walk

theorem input_runsIndexer (oldText : String) : (input oldText).RunsIndexer unicode where
  parse_path path content s hs := by
    change s ∈ parse path content at hs
    unfold parse at hs
    split_ifs at hs with happ hempty
    · rw [List.mem_singleton.1 hs]
    · cases hs
    · rw [List.mem_singleton.1 hs]
      rfl
  resolve := rfl
  walk_id _ _ _ := rfl

theorem input_base (oldText : String) :
    (input oldText).Indexes (files oldText) (indexed oldText) (input oldText).baseEdges :=
  ⟨.refl _, .refl _⟩

theorem input_reindexed (oldText : String) : (input oldText).Indexes
    ((input oldText).editedFiles (files oldText)) (indexed newText)
    (resolvedEdges unicode (indexed newText)) := by
  have hfiles : (input oldText).editedFiles (files oldText) = files newText := by
    simp [ShadowInput.editedFiles, ShadowInput.editedPaths, files, input]
  rw [hfiles]
  exact ⟨.refl _, .refl _⟩

end ReindexExample

open ReindexExample in
/-- The edit changes the body of a `bar` that `foo` has a stored call to. -/
theorem shadow_eq_reindex_changed :
    (input "def bar(xs): pass").AgreesWith ((input "def bar(xs): pass").reindexWorkspace
      (indexed newText) (resolvedEdges unicode (indexed newText))) := by
  have hsccs : (input "def bar(xs): pass").overlayWorkspace.sccs = [[1], [0]] := by decide +kernel
  refine (ShadowInput.shadow_eq_reindex unicode _ (files "def bar(xs): pass") _ _
    { toRunsIndexer := input_runsIndexer _
      base := input_base _
      reindexed := input_reindexed _
      baseIds := by decide +kernel
      overlayIds := by decide +kernel
      reindexedIds := by decide +kernel
      decided := ?_ }).2 (by decide +kernel)
  unfold Workspace.NoneAmbiguous
  rw [hsccs]
  exact Loop.forall_split_iff.2 (by decide +kernel)

/-- The property for every indexed base and every list of edits. -/
def ShadowEqualsReindex : Prop :=
  ∀ (unicode : UnicodeTables) (input : ShadowInput) (files : List (String × String))
    (symbols : List Symbol) (resolved : List Edge), input.RunsIndexer unicode →
      (files.map Prod.fst).Nodup → input.editedPaths.Nodup →
      input.Indexes files input.baseSymbols input.baseEdges →
      input.Indexes (input.editedFiles files) symbols resolved →
      input.AgreesWith (input.reindexWorkspace symbols resolved)

open ReindexExample in
/-- The edit adds the `bar` that `foo` calls: the overlay has no edge to it, and `foo` stays
    `O(1)`, where the new index has it `O(n)`. -/
theorem not_shadowEqualsReindex : ¬ ShadowEqualsReindex := by
  intro h
  have hfoo := h unicode (input "") (files "") (indexed newText) (resolvedEdges unicode (indexed newText))
    (input_runsIndexer _) (by decide) (by decide) (input_base _) (input_reindexed _) foo
    (by decide +kernel)
  have hoverlay : ((input "").overlayWorkspace.costsOf foo.id).map Prod.fst = some .constant := by
    decide +kernel
  have hreindex : (((input "").reindexWorkspace (indexed newText)
      (resolvedEdges unicode (indexed newText))).costsOf ((input "").parsedId foo.id)).map Prod.fst =
        some .linear := by
    decide +kernel
  rw [hoverlay, hreindex] at hfoo
  cases hfoo

end Cognis
