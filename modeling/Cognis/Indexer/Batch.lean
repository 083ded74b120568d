/-
  What `ChangePlanner::plan` puts into a batch (`planner.rs`).

  * `planFiles_from`: the files it writes are in the tree and carry what the index has of
    them, the files it deletes are gone from the tree;
  * `buildBatch_spec`: the rows of the batch in terms of these files.
-/
import Cognis.Indexer.Planner

namespace Cognis

open Table

/-! ## The planned files -/

/-- The symbols to write. -/
def PlannedFiles.newSymbols (files : PlannedFiles) : List Symbol :=
  files.changed.flatMap PlannedFile.symbols

/-- The file is written or deleted. -/
def PlannedFiles.Covers (files : PlannedFiles) (path : String) : Prop :=
  (∃ file ∈ files.changed, file.row.path = path) ∨ path ∈ files.deleted

/-- A planned file, with what the index has of it. -/
structure PlannedFile.Of (db : Database) (file : PlannedFile) : Prop where
  oldSymbols : file.oldSymbols = db.symbolsInFile file.row.path
  symbols : ∀ s ∈ file.symbols, s.filePath = file.row.path

/-- The path is out of the view of the tree: the request does not admit it, or it cannot
    be read. -/
def ChangePlanner.Gone (planner : ChangePlanner) (tree : SourceTree) (path : String) :
    PlanRequest String → Prop
  | .touched _ => tree.isAdmitted planner.config path = false ∨
      ∃ e, tree.readExactBytes path = .error e
  | .reconcile | .full => path ∉ tree.admittedRelPaths planner.config ∨
      ∃ e, tree.readExactBytes path = .error e

/-- The planned files come from the tree, the deleted ones are gone from it. -/
structure PlannedFiles.From (planner : ChangePlanner) (db : Database) (tree : SourceTree)
    (request : PlanRequest String) (files : PlannedFiles) : Prop where
  file : ∀ file ∈ files.changed, file.Of db
  present : ∀ file ∈ files.changed, ¬ planner.Gone tree file.row.path request
  gone : ∀ path ∈ files.deleted, planner.Gone tree path request

namespace ChangePlanner

variable {planner : ChangePlanner} {db : Database} {tree : SourceTree}
  {request : PlanRequest String} {files : PlannedFiles}

theorem parseText_path {path source : String} {s : Symbol}
    (h : s ∈ (planner.parseText path source).symbols) : s.filePath = path := by
  unfold parseText at h
  split_ifs at h
  · exact planner.frontend.parseSource_path path source s h
  · split at h
    · exact planner.frontend.extractArtifact_path _ path source s h
    · exact planner.frontend.parseSource_path path source s h

@[simp]
theorem parseFile_path (path : String) (bytes : ByteArray) (oldSymbols : List Symbol) :
    (planner.parseFile path bytes oldSymbols).row.path = path := by
  unfold parseFile
  split <;> rfl

theorem parseFile_of (path : String) (bytes : ByteArray) :
    (planner.parseFile path bytes (db.symbolsInFile path)).Of db := by
  refine ⟨?_, fun s hs => ?_⟩
  · rw [parseFile_path]
    unfold parseFile
    split <;> rfl
  · rw [parseFile_path]
    unfold parseFile at hs
    split at hs
    · cases hs
    · dsimp only at hs
      split_ifs at hs
      · cases hs
      · obtain ⟨parsed, hparsed, rfl⟩ := List.mem_map.1 hs
        exact (planner.frontend.enrich_path parsed).trans (parseText_path hparsed)

/-- A readable file that is admitted on its own is in every view of the tree. -/
theorem not_gone_of_isAdmitted {path : String} {bytes : ByteArray}
    (hadmitted : tree.isAdmitted planner.config path = true)
    (hread : tree.readExactBytes path = .ok bytes) : ¬ planner.Gone tree path request := by
  have herror : ¬ ∃ e, tree.readExactBytes path = .error e := by
    rintro ⟨e, he⟩
    rw [hread] at he
    cases he
  cases request with
  | touched paths => simp [Gone, hadmitted, herror]
  | reconcile | full =>
    simp [Gone, SourceTree.mem_admittedRelPaths_of_isAdmitted hadmitted, herror]

/-- The candidates are in the view of the tree, if they can be read. -/
theorem candidates_present {path : String} {bytes : ByteArray}
    (h : path ∈ (planner.candidates db tree request).1)
    (hread : tree.readExactBytes path = .ok bytes) : ¬ planner.Gone tree path request := by
  have herror : ¬ ∃ e, tree.readExactBytes path = .error e := by
    rintro ⟨e, he⟩
    rw [hread] at he
    cases he
  cases request with
  | touched paths =>
    have hadmitted := (List.mem_filter.1 (mem_btreeSet.1 h)).2
    simp [Gone, hadmitted, herror]
  | reconcile | full =>
    have hadmitted := mem_btreeSet.1 h
    simp [Gone, hadmitted, herror]

theorem candidates_gone {path : String} (h : path ∈ (planner.candidates db tree request).2) :
    planner.Gone tree path request := by
  cases request with
  | touched paths =>
    have hgone := (List.mem_filter.1 (mem_btreeSet.1 h)).2
    rw [Bool.and_eq_true, Bool.not_eq_true'] at hgone
    exact .inl hgone.1
  | reconcile | full =>
    have hgone := (List.mem_filter.1 (mem_btreeSet.1 h)).2
    exact .inl (by simpa using hgone)

/-- A touched file is a candidate that has been read. -/
theorem mem_touchedFiles {file : PlannedFile}
    (h : file ∈ (planner.touchedFiles db tree request).changed) :
    ∃ path ∈ (planner.candidates db tree request).1, ∃ bytes,
      tree.readExactBytes path = .ok bytes ∧
      file = planner.parseFile path bytes (db.symbolsInFile path) := by
  obtain ⟨path, hpath, hfile⟩ := List.mem_filterMap.1 h
  split at hfile
  · cases hfile
  · rename_i bytes hread
    split_ifs at hfile
    cases hfile
    exact ⟨path, hpath, bytes, hread, rfl⟩

theorem touchedFiles_from : PlannedFiles.From planner db tree request
    (planner.touchedFiles db tree request) := by
  refine ⟨fun file hfile => ?_, fun file hfile => ?_, fun path hpath => ?_⟩
  · obtain ⟨path, -, bytes, -, rfl⟩ := mem_touchedFiles hfile
    exact parseFile_of path bytes
  · obtain ⟨path, hpath, bytes, hread, rfl⟩ := mem_touchedFiles hfile
    rw [parseFile_path]
    exact candidates_present hpath hread
  · have hmem := mem_btreeSet.1 hpath
    rcases List.mem_append.1 hmem with hmem | hmem
    · exact candidates_gone hmem
    · have hread := (List.mem_filter.1 hmem).2
      have herror : ∃ e, tree.readExactBytes path = .error e := by
        cases htree : tree.readExactBytes path with
        | error e => exact ⟨e, rfl⟩
        | ok bytes => simp [htree] at hread
      cases request <;> exact .inr herror

/-- **Dependents** are in the tree. -/
theorem addFiles_from {skip : Symbol → Bool} {changed changed' : List PlannedFile}
    {symbols : List Symbol} {deleted : List String}
    (h : planner.addFiles db tree skip changed symbols = .ok changed')
    (hfrom : PlannedFiles.From planner db tree request ⟨changed, deleted⟩) :
    PlannedFiles.From planner db tree request ⟨changed', deleted⟩ := by
  induction symbols generalizing changed with
  | nil => cases h; exact hfrom
  | cons symbol symbols ih =>
    simp only [addFiles] at h
    split_ifs at h with hskip
    · exact ih h hfrom
    · split at h
      · cases h
      · rename_i file hfile
        refine ih h ?_
        simp only [Bool.or_eq_true, not_or, Bool.not_eq_true, Bool.not_eq_false'] at hskip
        unfold reparse at hfile
        split at hfile
        · cases hfile
        · rename_i bytes hread
          cases hfile
          refine ⟨fun f hf => ?_, fun f hf => ?_, hfrom.gone⟩
          · rcases List.mem_append.1 hf with hf | hf
            · exact hfrom.file f hf
            · rw [List.mem_singleton.1 hf]
              exact parseFile_of _ bytes
          · rcases List.mem_append.1 hf with hf | hf
            · exact hfrom.present f hf
            · rw [List.mem_singleton.1 hf, parseFile_path]
              exact not_gone_of_isAdmitted hskip.2 hread

/-- The planned files stay, and the files of the symbols that are not passed over join
    them. -/
theorem mem_addFiles {skip : Symbol → Bool} {changed changed' : List PlannedFile}
    {symbols : List Symbol} (h : planner.addFiles db tree skip changed symbols = .ok changed') :
    (∀ file ∈ changed, file ∈ changed') ∧ ∀ symbol ∈ symbols, skip symbol = false →
      tree.isAdmitted planner.config symbol.filePath = true →
      ∃ file ∈ changed', file.row.path = symbol.filePath := by
  induction symbols generalizing changed with
  | nil =>
    cases h
    exact ⟨fun _ hfile => hfile, fun _ hnil => absurd hnil List.not_mem_nil⟩
  | cons symbol symbols ih =>
    simp only [addFiles] at h
    split_ifs at h with hskip
    · obtain ⟨hkept, hrest⟩ := ih h
      refine ⟨hkept, List.forall_mem_cons.2 ⟨fun hnot hadmitted => ?_, hrest⟩⟩
      simp only [hnot, hadmitted, Bool.or_false, Bool.not_true, List.any_eq_true,
        decide_eq_true_eq] at hskip
      obtain ⟨file, hfile, hpath⟩ := hskip
      exact ⟨file, hkept file hfile, hpath⟩
    · split at h
      · cases h
      · rename_i file hfile
        obtain ⟨hkept, hrest⟩ := ih h
        refine ⟨fun f hf => hkept f (List.mem_append_left _ hf),
          List.forall_mem_cons.2 ⟨fun _ _ => ?_, hrest⟩⟩
        refine ⟨file, hkept file (List.mem_append_right _ (List.mem_singleton.2 rfl)), ?_⟩
        unfold reparse at hfile
        split at hfile
        · cases hfile
        · cases hfile
          rw [parseFile_path]

/-- The source file of an edge into a trigger is added, if it is admitted. -/
theorem mem_withAffectedDependents {changed changed' : List PlannedFile} {triggers : List String}
    (h : planner.withAffectedDependents db tree changed triggers = .ok changed') {e : Edge}
    (he : e ∈ db.edges) (htrigger : e.dstId ∈ triggers) {s : Symbol} (hs : s ∈ db.symbols)
    (hid : s.id = e.srcId) (hadmitted : tree.isAdmitted planner.config s.filePath = true) :
    ∃ file ∈ changed', file.row.path = s.filePath := by
  have hsource : s ∈ db.hydrateIds (btreeSet ((db.edgesIncident triggers .inbound).map Edge.srcId)) := by
    rw [Database.mem_hydrateIds, mem_btreeSet, hid]
    exact ⟨hs, List.mem_map.2 ⟨e, Database.mem_edgesIncident_inbound.2 ⟨he, htrigger⟩, rfl⟩⟩
  unfold withAffectedDependents at h
  exact (mem_addFiles h).2 s hsource rfl hadmitted

/-- **Dependents are re-resolved with their target**: the source file of an edge into a
    symbol that a changed file has or had is planned, if it is admitted. -/
theorem covers_dependent (h : planner.planFiles db tree request = .ok files) {e : Edge}
    (he : e ∈ db.edges)
    (htrigger : e.dstId ∈ triggerIds db (planner.touchedFiles db tree request)) {s : Symbol}
    (hs : s ∈ db.symbols) (hid : s.id = e.srcId)
    (hadmitted : tree.isAdmitted planner.config s.filePath = true) :
    files.Covers s.filePath := by
  unfold planFiles at h
  dsimp only at h
  split at h
  · cases h
  · rename_i affected haffected
    split at h
    · cases h
    · rename_i changed hchanged
      cases h
      obtain ⟨file, hfile, hpath⟩ := mem_withAffectedDependents haffected he htrigger hs hid hadmitted
      unfold withReferenceDependents at hchanged
      exact .inl ⟨file, (mem_addFiles hchanged).1 file hfile, hpath⟩

/-- **The files of a plan.** -/
theorem planFiles_from (h : planner.planFiles db tree request = .ok files) :
    files.From planner db tree request := by
  unfold planFiles at h
  dsimp only at h
  split at h
  · cases h
  · rename_i affected haffected
    split at h
    · cases h
    · rename_i changed hchanged
      cases h
      exact addFiles_from hchanged (addFiles_from haffected touchedFiles_from)

end ChangePlanner

/-! ## The batch -/

/-- The rows of a batch that writes and deletes some files. -/
structure PlannedBatch (db : Database) (files : PlannedFiles) (batch : PublishBatch) : Prop where
  upserts : ∀ s, s ∈ batch.symbolUpserts ↔ s ∈ files.newSymbols
  deletes : ∀ id, id ∈ batch.symbolDeletes ↔
    (∃ s ∈ db.symbols, s.id = id ∧ files.Covers s.filePath) ∧ ∀ s ∈ files.newSymbols, s.id ≠ id
  fileDeletes : ∀ path, path ∈ batch.fileDeletes ↔ path ∈ files.deleted
  enqueue : ∀ q ∈ batch.queueEnqueue, ∃ s ∈ files.newSymbols, s.id = q.symbolId
  edges : ∀ e ∈ batch.edgeUpserts, e.dstMissing = false ∧
    (∃ s ∈ files.newSymbols, s.id = e.srcId) ∧
    ((∃ s ∈ files.newSymbols, s.id = e.dstId) ∨
      ∃ s ∈ db.symbols, s.id = e.dstId ∧ ¬ files.Covers s.filePath)
  edgeDeletes : ∀ key, key ∈ batch.edgeDeletes ↔
    (∃ e ∈ db.edges, e.key = key ∧ ∃ s ∈ db.symbols, s.id = e.srcId ∧ files.Covers s.filePath) ∧
      ∀ e ∈ batch.edgeUpserts, e.key ≠ key

namespace ChangePlanner

variable {planner : ChangePlanner} {db : Database} {tree : SourceTree}
  {request : PlanRequest String} {files : PlannedFiles}

/-- The table of the resolver: the new symbols, and live ones of other files. -/
theorem mem_boundedResolverSymbols {newSymbols : List Symbol} {excludedPaths : List String}
    {s : Symbol} (h : s ∈ planner.boundedResolverSymbols db newSymbols excludedPaths) :
    s ∈ newSymbols ∨ s ∈ db.symbols ∧ s.filePath ∉ excludedPaths := by
  unfold boundedResolverSymbols at h
  dsimp only at h
  have hmem := mem_of_mem_build (mem_sortOn.1 h)
  simp only [List.mem_append, List.mem_filter, decide_eq_true_eq, List.mem_flatMap] at hmem
  rcases hmem with ⟨hmem, hpath⟩ | hmem
  · refine .inr ⟨?_, hpath⟩
    rcases hmem with (hmem | hmem) | ⟨literal, -, hmem⟩
    · exact (Database.mem_symbolsByValues.1 hmem).1
    · exact (Database.mem_symbolsByValues.1 hmem).1
    · exact (Database.mem_hydrateIds.1 hmem).1
  · exact .inl hmem

/-- **An edge of the batch** leaves a new symbol, for a new one or a live one of another
    file. -/
theorem edgeUpsert_spec {newSymbols : List Symbol} {owned deleted : List String} {e : Edge}
    (hnew : ∀ s ∈ newSymbols, s ∈ files.newSymbols)
    (hcovers : ∀ path, files.Covers path → path ∈ owned ++ deleted)
    (he : e ∈ resolvedEdges planner.unicode
      (planner.boundedResolverSymbols db newSymbols (owned ++ deleted)))
    (howner : ((planner.boundedResolverSymbols db newSymbols (owned ++ deleted)).find?
      (·.id = e.srcId)).any (·.filePath ∈ owned) = true) :
    e.dstMissing = false ∧ (∃ s ∈ files.newSymbols, s.id = e.srcId) ∧
      ((∃ s ∈ files.newSymbols, s.id = e.dstId) ∨
        ∃ s ∈ db.symbols, s.id = e.dstId ∧ ¬ files.Covers s.filePath) := by
  obtain ⟨edge, hedge, rfl⟩ := List.mem_map.1 he
  refine ⟨edge.toEdge_dstMissing, ?_, ?_⟩
  · -- the symbol that owns the edge is found by its id
    obtain ⟨s, hs, hpath⟩ := Option.any_eq_true _ _ |>.1 howner
    have hid : s.id = edge.toEdge.srcId := by simpa using List.find?_some hs
    rcases mem_boundedResolverSymbols (List.mem_of_find?_eq_some hs) with hmem | ⟨-, hother⟩
    · exact ⟨s, hnew s hmem, hid⟩
    · exact absurd (List.mem_append_left _ (of_decide_eq_true hpath)) hother
  · obtain ⟨s, hs, hid⟩ := (joins_resolveEdges hedge).dst
    rcases mem_boundedResolverSymbols hs with hmem | ⟨hlive, hother⟩
    · exact .inl ⟨s, hnew s hmem, hid⟩
    · exact .inr ⟨s, hlive, hid, fun h => hother (hcovers _ h)⟩

/-- **The rows of a planned batch.** -/
theorem buildBatch_spec (hof : ∀ file ∈ files.changed, file.Of db) (reason : PublishReason) :
    PlannedBatch db files (planner.buildBatch db reason files) := by
  have hnew : ∀ s, s ∈ (sortOn (·.row.path) files.changed).flatMap PlannedFile.symbols ↔
      s ∈ files.newSymbols := by
    intro s
    simp [PlannedFiles.newSymbols]
  have howned : ∀ path, path ∈ (sortOn (·.row.path) files.changed).map (·.row.path) ++ files.deleted ↔
      files.Covers path := by
    intro path
    simp [PlannedFiles.Covers]
  have hold : ∀ s, s ∈ (sortOn (·.row.path) files.changed).flatMap PlannedFile.oldSymbols ++
      files.deleted.flatMap db.symbolsInFile ↔ s ∈ db.symbols ∧ files.Covers s.filePath := by
    intro s
    simp only [List.mem_append, List.mem_flatMap, mem_sortOn, Database.mem_symbolsInFile]
    constructor
    · rintro (⟨file, hfile, hs⟩ | ⟨path, hpath, hs, rfl⟩)
      · rw [(hof file hfile).oldSymbols, Database.mem_symbolsInFile] at hs
        exact ⟨hs.1, .inl ⟨file, hfile, hs.2.symm⟩⟩
      · exact ⟨hs, .inr hpath⟩
    · rintro ⟨hs, ⟨file, hfile, hpath⟩ | hpath⟩
      · refine .inl ⟨file, hfile, ?_⟩
        rw [(hof file hfile).oldSymbols, Database.mem_symbolsInFile]
        exact ⟨hs, hpath.symm⟩
      · exact .inr ⟨s.filePath, hpath, hs, rfl⟩
  refine ⟨fun s => ?_, fun id => ?_, fun path => mem_btreeSet, fun q hq => ?_,
    fun e he => ?_, fun key => ?_⟩
  · exact mem_sortOn.trans (hnew s)
  · -- the stale ids are the old ones without a new symbol
    simp only [buildBatch, mem_btreeSet, List.mem_filter, List.mem_map, decide_eq_true_eq, hold,
      hnew]
    constructor
    · rintro ⟨⟨s, hs, rfl⟩, hne⟩
      exact ⟨⟨s, hs.1, rfl, hs.2⟩, fun s' hs' he => hne ⟨s', hs', he⟩⟩
    · rintro ⟨⟨s, hs, rfl, hcovers⟩, hne⟩
      refine ⟨⟨s, ⟨hs, hcovers⟩, rfl⟩, ?_⟩
      rintro ⟨s', hs', he⟩
      exact hne s' hs' he
  · obtain ⟨s, hs, rfl⟩ := List.mem_map.1 (mem_sortOn.1 hq)
    exact ⟨s, (hnew s).1 hs, rfl⟩
  · simp only [buildBatch, mem_sortOn, List.mem_filter] at he
    obtain ⟨he, howner⟩ := he
    exact edgeUpsert_spec (fun s => (hnew s).1) (fun path => (howned path).2) he howner
  · simp only [buildBatch, mem_btreeSet, List.mem_filter, List.mem_map, decide_eq_true_eq,
      Database.mem_edgesIncident_outbound, mem_sortOn, hold]
    constructor
    · rintro ⟨⟨e, ⟨he, s, ⟨hs, hcovers⟩, hid⟩, rfl⟩, hne⟩
      exact ⟨⟨e, he, rfl, s, hs, hid, hcovers⟩, fun e' he' hk => hne ⟨e', he', hk⟩⟩
    · rintro ⟨⟨e, he, rfl, s, hs, hid, hcovers⟩, hne⟩
      refine ⟨⟨e, ⟨he, s, ⟨hs, hcovers⟩, hid⟩, rfl⟩, ?_⟩
      rintro ⟨e', he', hk⟩
      exact hne e' he' hk

end ChangePlanner

end Cognis
