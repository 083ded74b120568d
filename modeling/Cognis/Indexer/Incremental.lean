/-
  The symbol and file rows of an incremental index against those of a clean one (`planner.rs`).

  * `Reflects`: the rows of a path are those of the parse of its bytes, or none;
  * `Planned`: the files that a plan writes carry what the tree has of them;
    `reflects_of_written`, `reflects_of_deleted` and `reflects_of_uncovered` are one publish, path
    by path, and `reflects_of_unplanned` is what the test of the cache gives;
  * `incremental_rows_eq_clean`: the run.

  The edges are those of `bounded_eq_global_iff` and `dependents_resolved_iff`.
-/
import Cognis.Indexer.Rebuild

namespace Cognis

open Table

/-! ## What a path holds -/

/-- The bytes of a readable file that the walk meets. -/
def SourceTree.indexedBytes (tree : SourceTree) (config : IndexConfig) (path : String) :
    Option ByteArray :=
  if path ∈ tree.admittedRelPaths config then (tree.readExactBytes path).toOption else none

/-- A row without the time of its parse. -/
def FileCacheRow.undated (row : FileCacheRow) : FileCacheRow := { row with parsedAt := 0 }

namespace ChangePlanner

variable (planner : ChangePlanner)

/-- The symbols of the bytes of a path. -/
def symbolsOf (path : String) : Option ByteArray → List Symbol
  | none => []
  | some bytes => (planner.parseFile path bytes []).symbols

/-- The row of the bytes of a path. -/
def rowOf (path : String) : Option ByteArray → Option FileCacheRow
  | none => none
  | some bytes => some (planner.parseFile path bytes []).row.undated

/-- The hash tells contents apart, and the id of a symbol names its file. -/
structure Collisionless : Prop where
  hash : Function.Injective planner.frontend.exactByteHash
  ids : ∀ path content path' content', ∀ s ∈ planner.symbolsOf path content,
    ∀ t ∈ planner.symbolsOf path' content', s.id = t.id → path = path'

end ChangePlanner

/-- The rows of a path are those of some bytes, or none. -/
structure Reflects (planner : ChangePlanner) (db : Database) (path : String)
    (content : Option ByteArray) : Prop where
  symbols : ∀ s, s.filePath = path →
    (s ∈ db.symbols ↔ s ∈ build Symbol.id (planner.symbolsOf path content))
  row : ∀ row, row.path = path →
    (row ∈ db.files.map FileCacheRow.undated ↔ planner.rowOf path content = some row)

/-- A request whose planner has the configuration and the parsers of another; a single path of its
    tree is tested as the walk does. -/
structure IndexRequest.Uses (r : IndexRequest) (planner : ChangePlanner) : Prop where
  config : r.planner.config = planner.config
  frontend : r.planner.frontend = planner.frontend
  uniform : ∀ path ∈ r.tree.admittedRelPaths planner.config,
    r.tree.isAdmitted planner.config path = true

/-- The request looks at the path. -/
def IndexRequest.Asks (r : IndexRequest) (path : String) : Prop :=
  match r.request with
  | .touched paths => path ∈ paths
  | .reconcile | .full => True

section
variable {planner : ChangePlanner} {db : Database} {path : String} {content : Option ByteArray}

theorem reflects_empty : Reflects planner Database.empty path none where
  symbols s _ := by simp [ChangePlanner.symbolsOf, Database.empty, build, upsertAll]
  row row _ := by simp [ChangePlanner.rowOf, Database.empty]

theorem symbolsOf_path {s : Symbol} (h : s ∈ planner.symbolsOf path content) : s.filePath = path := by
  cases content with
  | none => cases h
  | some bytes =>
    have hof := (@ChangePlanner.parseFile_of planner .empty path bytes).symbols
      s h
    rwa [ChangePlanner.parseFile_path] at hof

theorem rowOf_path {row : FileCacheRow} (h : planner.rowOf path content = some row) : row.path = path := by
  cases content with
  | none => cases h
  | some bytes =>
    cases h
    exact ChangePlanner.parseFile_path path bytes []

/-- A row without its time, of the same path. -/
theorem exists_undated {rows : List FileCacheRow} {row : FileCacheRow} :
    row ∈ rows.map FileCacheRow.undated ↔ ∃ x ∈ rows, x.path = row.path ∧ x.undated = row := by
  rw [List.mem_map]
  constructor
  · rintro ⟨x, hx, rfl⟩
    exact ⟨x, hx, rfl, rfl⟩
  · rintro ⟨x, hx, -, rfl⟩
    exact ⟨x, hx, rfl⟩

/-- The parse depends on the parsers only, but for its time. -/
theorem IndexRequest.Uses.parseFile {r : IndexRequest} (h : r.Uses planner) (path : String)
    (bytes : ByteArray) (oldSymbols : List Symbol) :
    (r.planner.parseFile path bytes oldSymbols).symbols = planner.symbolsOf path (some bytes) ∧
      planner.rowOf path (some bytes) =
        some (r.planner.parseFile path bytes oldSymbols).row.undated := by
  have htext : ∀ source, r.planner.parseText path source = planner.parseText path source := by
    intro source
    unfold ChangePlanner.parseText
    rw [h.config, h.frontend]
  have hlanguage : r.planner.admittedLanguage path = planner.admittedLanguage path := by
    unfold ChangePlanner.admittedLanguage
    rw [h.config]
  unfold ChangePlanner.symbolsOf ChangePlanner.rowOf ChangePlanner.parseFile
  dsimp only
  cases String.fromUTF8? bytes with
  | none =>
    rw [hlanguage, h.frontend]
    exact ⟨rfl, rfl⟩
  | some source =>
    dsimp only
    rw [htext, hlanguage, h.frontend]
    exact ⟨rfl, rfl⟩

end

/-! ## The files of a plan -/

/-- The files to write are parsed from the tree, each path once. -/
structure Planned (planner : ChangePlanner) (db : Database) (tree : SourceTree)
    (changed : List PlannedFile) : Prop where
  file : ∀ file ∈ changed, ∃ path bytes, tree.indexedBytes planner.config path = some bytes ∧
    file = planner.parseFile path bytes (db.symbolsInFile path)
  keyed : Keyed (fun file : PlannedFile => file.row.path) changed

section
variable {planner : ChangePlanner} {db : Database} {tree : SourceTree} {request : PlanRequest String}
  {changed changed' : List PlannedFile}

theorem indexedBytes_of_isAdmitted {path : String} {bytes : ByteArray}
    (hadmitted : tree.isAdmitted planner.config path = true)
    (hread : tree.readExactBytes path = .ok bytes) :
    tree.indexedBytes planner.config path = some bytes := by
  rw [SourceTree.indexedBytes, if_pos (SourceTree.mem_admittedRelPaths_of_isAdmitted hadmitted), hread]
  rfl

theorem planned_touchedFiles : Planned planner db tree (planner.touchedFiles db tree request).changed where
  file file hfile := by
    obtain ⟨path, hpath, bytes, hread, rfl⟩ := ChangePlanner.mem_touchedFiles hfile
    refine ⟨path, bytes, ?_, rfl⟩
    rw [SourceTree.indexedBytes, if_pos (ChangePlanner.mem_walk_of_candidate hpath), hread]
    rfl
  keyed := ChangePlanner.keyed_touchedFiles

theorem Planned.addFiles {skip : Symbol → Bool} {symbols : List Symbol}
    (h : Planned planner db tree changed)
    (hadd : planner.addFiles db tree skip changed symbols = .ok changed') :
    Planned planner db tree changed' := by
  induction symbols generalizing changed with
  | nil =>
    cases hadd
    exact h
  | cons symbol symbols ih =>
    simp only [ChangePlanner.addFiles] at hadd
    split_ifs at hadd with hskip
    · exact ih h hadd
    · split at hadd
      · cases hadd
      · rename_i file hfile
        simp only [Bool.or_eq_true, not_or, Bool.not_eq_true, Bool.not_eq_false'] at hskip
        unfold ChangePlanner.reparse at hfile
        split at hfile
        · cases hfile
        · rename_i bytes hread
          cases hfile
          refine ih ⟨fun f hf => ?_, h.keyed.append (by simp [Keyed]) fun f hf g hg => ?_⟩ hadd
          · rcases List.mem_append.1 hf with hf | hf
            · exact h.file f hf
            · exact ⟨symbol.filePath, bytes, indexedBytes_of_isAdmitted hskip.2 hread,
                List.mem_singleton.1 hf⟩
          · have hnot := List.any_eq_false.1 hskip.1.1 f hf
            rw [decide_eq_true_eq] at hnot
            rw [List.mem_singleton.1 hg, ChangePlanner.parseFile_path]
            exact hnot

/-- **The files of a plan**: those that have changed are among them. -/
theorem planned_planFiles {files : PlannedFiles} (h : planner.planFiles db tree request = .ok files) :
    Planned planner db tree files.changed ∧
      (∀ file ∈ (planner.touchedFiles db tree request).changed, file ∈ files.changed) ∧
      files.deleted = (planner.touchedFiles db tree request).deleted := by
  unfold ChangePlanner.planFiles at h
  dsimp only at h
  split at h
  · cases h
  · rename_i affected haffected
    split at h
    · cases h
    · rename_i changed hchanged
      cases h
      refine ⟨(planned_touchedFiles.addFiles haffected).addFiles hchanged, fun file hfile => ?_, rfl⟩
      exact (ChangePlanner.mem_addFiles hchanged).1 file
        ((ChangePlanner.mem_addFiles haffected).1 file hfile)

/-- A deleted path has no bytes to index. -/
theorem indexedBytes_of_gone {path : String}
    (huniform : ∀ path ∈ tree.admittedRelPaths planner.config,
      tree.isAdmitted planner.config path = true)
    (h : planner.Gone tree path request) : tree.indexedBytes planner.config path = none := by
  have hnone : path ∉ tree.admittedRelPaths planner.config ∨
      (∃ e, tree.readExactBytes path = .error e) → tree.indexedBytes planner.config path = none := by
    rintro (hpath | ⟨e, he⟩)
    · rw [SourceTree.indexedBytes, if_neg hpath]
    · rw [SourceTree.indexedBytes, he]
      exact ite_self none
  cases request with
  | touched paths =>
    rcases h with hadmitted | herror
    · refine hnone (.inl fun hpath => ?_)
      rw [huniform path hpath] at hadmitted
      cases hadmitted
    · exact hnone (.inr herror)
  | reconcile | full => exact hnone h

end

/-! ## One publish -/

section
variable {planner : ChangePlanner} {r : IndexRequest} {ext : VecExtension} {now : ℤ}
  {db written db' : Database} {files : PlannedFiles} {path : String} {content : Option ByteArray}

/-- The symbols of some files, by path. -/
theorem mem_build_freshSymbols (hcoll : planner.Collisionless) (huses : r.Uses planner)
    (hplanned : Planned r.planner db r.tree files.changed) {file : PlannedFile}
    (hfile : file ∈ files.changed) {s : Symbol} (hs : s.filePath = file.row.path) :
    s ∈ build Symbol.id files.freshSymbols ↔ s ∈ build Symbol.id file.symbols := by
  have hof : ∀ f ∈ files.changed, ∃ content, f.symbols = planner.symbolsOf f.row.path content := by
    intro f hf
    obtain ⟨path, bytes, -, rfl⟩ := hplanned.file f hf
    rw [ChangePlanner.parseFile_path]
    exact ⟨some bytes, (huses.parseFile path bytes _).1⟩
  have hids : ∀ f ∈ files.changed, ∀ g ∈ files.changed, ∀ a ∈ f.symbols, ∀ b ∈ g.symbols,
      a.id = b.id → f = g := by
    intro f hf g hg a ha b hb hab
    obtain ⟨content, hfcontent⟩ := hof f hf
    obtain ⟨content', hgcontent⟩ := hof g hg
    rw [hfcontent] at ha
    rw [hgcontent] at hb
    exact hplanned.keyed.eq hf hg (hcoll.ids _ _ _ _ a ha b hb hab)
  rw [PlannedFiles.freshSymbols, mem_build_flatMap hplanned.keyed.sortOn.nodup fun f hf g hg hne a ha
    b hb hab => hne (hids f (mem_sortOn.1 hf) g (mem_sortOn.1 hg) a ha b hb hab)]
  constructor
  · rintro ⟨f, hf, hmem⟩
    obtain ⟨content, hfcontent⟩ := hof f (mem_sortOn.1 hf)
    have hpath : s.filePath = f.row.path := symbolsOf_path (hfcontent ▸ mem_of_mem_build hmem)
    rwa [hplanned.keyed.eq hfile (mem_sortOn.1 hf) (hs.symm.trans hpath)]
  · exact fun hmem => ⟨file, mem_sortOn.2 hfile, hmem⟩

section
variable (hcoll : planner.Collisionless) (huses : r.Uses planner) (hstocked : Stocked db)
  (hplanned : Planned r.planner db r.tree files.changed)
  (hfrom : files.From r.planner db r.tree r.request) {reason : PublishReason}
  (hpub : Published ext now db (r.prepare (r.planner.buildBatch db reason files)) written db')

include hstocked hfrom hpub in
theorem mem_published_symbols {s : Symbol} : s ∈ db'.symbols ↔
    (s ∈ db.symbols ∧ ¬ files.Covers s.filePath ∧ ∀ new ∈ files.freshSymbols, s.id ≠ new.id) ∨
      s ∈ build Symbol.id files.freshSymbols := by
  have hplan : PlannedBatch db files (r.prepare (r.planner.buildBatch db reason files)) :=
    IndexRequest.planned_prepare (ChangePlanner.buildBatch_spec hfrom.file _)
  rw [(published_symbols hstocked.keyed hfrom hplan (r.prepare_rows _).1 hpub).mem_iff,
    PlannedFiles.mem_liveSymbols, List.mem_append, PlannedFiles.mem_owned]
  rfl

include hfrom in
/-- A new symbol is of a written file. -/
theorem exists_changed_of_fresh {s : Symbol} (h : s ∈ build Symbol.id files.freshSymbols) :
    ∃ file ∈ files.changed, file.row.path = s.filePath :=
  PlannedFiles.mem_owned.1 (PlannedFiles.filePath_owned hfrom.file (mem_of_mem_build h))

include hcoll huses hstocked hplanned hfrom hpub

/-- **A written path** has the rows of its bytes. -/
theorem reflects_of_written {file : PlannedFile} (hfile : file ∈ files.changed) :
    Reflects planner db' file.row.path (r.tree.indexedBytes planner.config file.row.path) := by
  obtain ⟨path, bytes, hview, heq⟩ := hplanned.file file hfile
  have hpath : file.row.path = path := by rw [heq, ChangePlanner.parseFile_path]
  obtain ⟨hparsed, hrow⟩ := huses.parseFile path bytes (db.symbolsInFile path)
  rw [← heq] at hparsed hrow
  rw [← huses.config, hpath, hview]
  have hcovered : files.Covers path := .inl ⟨file, hfile, hpath⟩
  constructor
  · intro s hs
    rw [mem_published_symbols hstocked hfrom hpub, hs,
      mem_build_freshSymbols hcoll huses hplanned hfile (hs.trans hpath.symm), hparsed]
    exact or_iff_right fun hold => hold.2.1 hcovered
  · intro row hrowPath
    rw [exists_undated, hrow, Option.some.injEq]
    constructor
    · rintro ⟨x, hx, hxpath, rfl⟩
      rcases (mem_published_files hfrom hplanned.keyed hpub).1 hx with
        ⟨-, huncovered⟩ | ⟨f, hf, rfl⟩
      · exact absurd (by rwa [hxpath, hrowPath]) huncovered
      · rw [hplanned.keyed.eq hfile hf (hpath.trans (hxpath.trans hrowPath).symm)]
    · rintro rfl
      exact ⟨file.row, (mem_published_files hfrom hplanned.keyed hpub).2 (.inr ⟨file, hfile, rfl⟩),
        rfl, rfl⟩

omit hcoll in
/-- **A deleted path** has no rows. -/
theorem reflects_of_deleted (hdeleted : path ∈ files.deleted) :
    Reflects planner db' path (r.tree.indexedBytes planner.config path) := by
  have hgone := hfrom.gone _ hdeleted
  have huniform : ∀ path ∈ r.tree.admittedRelPaths r.planner.config,
      r.tree.isAdmitted r.planner.config path = true := by
    rw [huses.config]
    exact huses.uniform
  rw [← huses.config, indexedBytes_of_gone huniform hgone]
  have hnot : ¬ ∃ file ∈ files.changed, file.row.path = path := by
    rintro ⟨file, hfile, hpath⟩
    exact hfrom.present file hfile (hpath ▸ hgone)
  constructor
  · intro s hs
    rw [mem_published_symbols hstocked hfrom hpub, hs]
    refine iff_of_false ?_ List.not_mem_nil
    rintro (⟨-, huncovered, -⟩ | hfresh)
    · exact huncovered (.inr hdeleted)
    · exact hnot (hs ▸ exists_changed_of_fresh hfrom hfresh)
  · intro row hrowPath
    rw [exists_undated]
    refine iff_of_false ?_ nofun
    rintro ⟨x, hx, hxpath, -⟩
    rcases (mem_published_files hfrom hplanned.keyed hpub).1 hx with
      ⟨-, huncovered⟩ | ⟨file, hfile, rfl⟩
    · exact huncovered (by rw [hxpath, hrowPath]; exact .inr hdeleted)
    · exact hnot ⟨file, hfile, hxpath.trans hrowPath⟩

/-- **Any other path** keeps its rows. -/
theorem reflects_of_uncovered (huncovered : ¬ files.Covers path)
    (hreflects : Reflects planner db path content) : Reflects planner db' path content := by
  have hnot : ¬ ∃ file ∈ files.changed, file.row.path = path := fun h => huncovered (.inl h)
  constructor
  · intro s hs
    rw [mem_published_symbols hstocked hfrom hpub, hs, ← hreflects.symbols s hs]
    constructor
    · rintro (⟨hold, -⟩ | hfresh)
      · exact hold
      · exact absurd (hs ▸ exists_changed_of_fresh hfrom hfresh) hnot
    · refine fun hold => .inl ⟨hold, huncovered, fun new hnew hid => hnot ?_⟩
      -- an id names its file
      obtain ⟨file, hfile, hmem⟩ := List.mem_flatMap.1 hnew
      obtain ⟨path', bytes, -, heq⟩ := hplanned.file file (mem_sortOn.1 hfile)
      rw [heq, (huses.parseFile path' bytes _).1] at hmem
      have hmemOld := mem_of_mem_build ((hreflects.symbols s hs).1 hold)
      refine ⟨file, mem_sortOn.1 hfile, ?_⟩
      rw [heq, ChangePlanner.parseFile_path]
      exact (hcoll.ids _ _ _ _ s hmemOld new hmem hid).symm
  · intro row hrow
    rw [← hreflects.row row hrow, exists_undated, exists_undated]
    constructor
    · rintro ⟨x, hx, hxpath, hxrow⟩
      rcases (mem_published_files hfrom hplanned.keyed hpub).1 hx with ⟨hold, -⟩ | ⟨file, hfile, rfl⟩
      · exact ⟨x, hold, hxpath, hxrow⟩
      · exact absurd ⟨file, hfile, hxpath.trans hrow⟩ hnot
    · rintro ⟨x, hx, hxpath, hxrow⟩
      refine ⟨x, (mem_published_files hfrom hplanned.keyed hpub).2 (.inl ⟨hx, ?_⟩), hxpath, hxrow⟩
      rwa [hxpath, hrow]

end

/-- **A path that a request looks at and does not plan** has the rows of its bytes already. -/
theorem reflects_of_unplanned (hcoll : planner.Collisionless) (huses : r.Uses planner)
    (hplan : r.planner.planFiles db r.tree r.request = .ok files)
    (hasks : r.Asks path) (huncovered : ¬ files.Covers path)
    (hreflects : Reflects planner db path content) :
    content = r.tree.indexedBytes planner.config path := by
  obtain ⟨-, htouched, hdeleted⟩ := planned_planFiles hplan
  have hnotTouched : ¬ ∃ file ∈ (r.planner.touchedFiles db r.tree r.request).changed,
      file.row.path = path := fun ⟨file, hfile, hpath⟩ =>
    huncovered (.inl ⟨file, htouched file hfile, hpath⟩)
  have hnotDeleted : path ∉ (r.planner.touchedFiles db r.tree r.request).deleted := fun h =>
    huncovered (.inr (by rwa [hdeleted]))
  have hcandidate : path ∈ r.tree.admittedRelPaths planner.config →
      path ∈ (r.planner.candidates db r.tree r.request).1 := by
    intro hpath
    rw [← huses.config] at hpath
    unfold IndexRequest.Asks at hasks
    unfold ChangePlanner.candidates
    cases hrequest : r.request with
    | touched paths =>
      rw [hrequest] at hasks
      refine mem_btreeSet.2 (List.mem_filter.2 ⟨hasks, ?_⟩)
      rw [huses.config] at hpath ⊢
      exact huses.uniform path hpath
    | reconcile | full => exact mem_btreeSet.2 hpath
  cases hview : r.tree.indexedBytes planner.config path with
  | some bytes =>
    -- the file is read, and the cache has its hash
    unfold SourceTree.indexedBytes at hview
    split_ifs at hview with hpath
    have hread : r.tree.readExactBytes path = .ok bytes := by
      cases hread : r.tree.readExactBytes path with
      | error e => rw [hread] at hview; cases hview
      | ok bytes' =>
        rw [hread] at hview
        exact congrArg Except.ok (Option.some.inj hview)
    have hunchanged : r.planner.unchanged db path bytes = true := by
      by_contra hchanged
      refine hnotTouched ⟨r.planner.parseFile path bytes (db.symbolsInFile path), ?_,
        ChangePlanner.parseFile_path path bytes _⟩
      refine List.mem_filterMap.2 ⟨path, hcandidate hpath, ?_⟩
      simp only [hread]
      exact if_neg fun h => hchanged h.2
    unfold ChangePlanner.unchanged at hunchanged
    dsimp only at hunchanged
    obtain ⟨row, hrow, hsame⟩ := Option.any_eq_true _ _ |>.1 hunchanged
    simp only [Bool.and_eq_true, decide_eq_true_eq] at hsame
    have hkey : row.path = path := key_of_lookup hrow
    have hmem : row ∈ db.files := List.mem_of_find?_eq_some hrow
    have hcached := (hreflects.row row.undated hkey).1 (List.mem_map.2 ⟨row, hmem, rfl⟩)
    cases content with
    | none => cases hcached
    | some cached =>
      have hhash : (planner.parseFile path cached []).row.contentHash =
          planner.frontend.exactByteHash cached := by
        unfold ChangePlanner.parseFile
        split <;> rfl
      have hrowHash : (planner.parseFile path cached []).row.undated.contentHash =
          row.undated.contentHash := by
        rw [Option.some.inj hcached]
      have hequal : planner.frontend.exactByteHash cached = planner.frontend.exactByteHash bytes := by
        rw [← hhash, ← huses.frontend, ← hsame.1.1]
        exact hrowHash
      rw [hcoll.hash hequal]
  | none =>
    -- a row of the cache would be deleted
    cases content with
    | none => rfl
    | some cached =>
      refine absurd ?_ hnotDeleted
      have hcached : (planner.parseFile path cached []).row.undated ∈ db.files.map FileCacheRow.undated :=
        (hreflects.row (planner.parseFile path cached []).row.undated
          (ChangePlanner.parseFile_path path cached [])).2 rfl
      obtain ⟨row, hrow, hrowPath, -⟩ := exists_undated.1 hcached
      have hkey : row.path = path := hrowPath.trans (ChangePlanner.parseFile_path path cached [])
      have hany : db.files.any (·.path = path) = true :=
        List.any_eq_true.2 ⟨row, hrow, decide_eq_true hkey⟩
      by_cases hpath : path ∈ r.tree.admittedRelPaths planner.config
      · cases hread : r.tree.readExactBytes path with
        | error e =>
          refine mem_btreeSet.2 (List.mem_append_right _ (List.mem_filter.2 ⟨hcandidate hpath, ?_⟩))
          simp only [hread, hany, Bool.true_and]
        | ok bytes =>
          rw [SourceTree.indexedBytes, if_pos hpath, hread] at hview
          cases hview
      · refine mem_btreeSet.2 (List.mem_append_left _ ?_)
        rw [← huses.config] at hpath
        unfold IndexRequest.Asks at hasks
        cases hrequest : r.request with
        | touched paths =>
          rw [hrequest] at hasks
          refine mem_btreeSet.2 (List.mem_filter.2 ⟨hasks, ?_⟩)
          rw [hany, Bool.and_true, Bool.not_eq_true', Bool.eq_false_iff]
          exact fun hadmitted => hpath (SourceTree.mem_admittedRelPaths_of_isAdmitted hadmitted)
        | reconcile | full =>
          exact mem_btreeSet.2 (List.mem_filter.2 ⟨List.mem_map.2 ⟨row, hrow, hkey⟩, decide_eq_true hpath⟩)

/-- A request that returns leaves the store, of a plan of no files, or publishes the batch of its
    plan. -/
theorem IndexRequest.tryRequest_cases (hok : r.tryRequest db = .ok db') :
    ∃ files, r.planner.planFiles db r.tree r.request = .ok files ∧
      (db' = db ∧ (∀ path, ¬ files.Covers path) ∨ ∃ reason receipt,
        publish r.ext r.now db (r.prepare (r.planner.buildBatch db reason files)) =
          .ok (db', receipt)) := by
  unfold tryRequest ChangePlanner.plan at hok
  dsimp only at hok
  split at hok
  · cases hok
  · rename_i batch hbatch
    split at hbatch
    · cases hbatch
    · rename_i files hfiles
      cases hbatch
      refine ⟨files, hfiles, ?_⟩
      split_ifs at hok with hskip
      · cases hok
        refine .inl ⟨rfl, ?_⟩
        simp only [PublishBatch.isEmpty, Bool.and_eq_true, List.isEmpty_iff] at hskip
        obtain ⟨-, ⟨⟨⟨⟨⟨⟨⟨⟨⟨-, -⟩, -⟩, -⟩, -⟩, -⟩, hrows⟩, hdeleted⟩, -⟩, -⟩⟩ := hskip
        exact not_covers_of_isEmpty hrows hdeleted
      · split at hok
        · cases hok
        · rename_i published receipt hpublish
          cases hok
          exact .inr ⟨_, receipt, hpublish⟩

/-! ## Runs -/

/-- **One request**: the paths that it looks at have the rows of their bytes after it, and any other
    path has those or its own. -/
theorem Reflects.request (hcoll : planner.Collisionless) (huses : r.Uses planner)
    (hstocked : Stocked db) (hreflects : Reflects planner db path content)
    (hok : r.tryRequest db = .ok db') :
    Reflects planner db' path (r.tree.indexedBytes planner.config path) ∨
      ¬ r.Asks path ∧ Reflects planner db' path content := by
  obtain ⟨files, hfiles, hcases⟩ := r.tryRequest_cases hok
  have hunplanned : ¬ files.Covers path → r.Asks path →
      content = r.tree.indexedBytes planner.config path := fun huncovered hasks =>
    reflects_of_unplanned hcoll huses hfiles hasks huncovered hreflects
  have hfrom := ChangePlanner.planFiles_from hfiles
  obtain ⟨hplanned, -, -⟩ := planned_planFiles hfiles
  by_cases hcovers : files.Covers path
  · rcases hcases with ⟨-, hnone⟩ | ⟨reason, receipt, hpublish⟩
    · exact absurd hcovers (hnone path)
    · obtain ⟨written, hpub⟩ := publish_spec hpublish
      rcases hcovers with ⟨file, hfile, rfl⟩ | hdeleted
      · exact .inl (reflects_of_written hcoll huses hstocked hplanned hfrom hpub hfile)
      · exact .inl (reflects_of_deleted huses hstocked hplanned hfrom hpub hdeleted)
  · have hkept : Reflects planner db' path content := by
      rcases hcases with ⟨rfl, -⟩ | ⟨reason, receipt, hpublish⟩
      · exact hreflects
      · obtain ⟨written, hpub⟩ := publish_spec hpublish
        exact reflects_of_uncovered hcoll huses hstocked hplanned hfrom hpub hcovers hreflects
    by_cases hasks : r.Asks path
    · exact .inl (hunplanned hcovers hasks ▸ hkept)
    · exact .inr ⟨hasks, hkept⟩

/-- A request that fails leaves the rows. -/
theorem Reflects.step (hcoll : planner.Collisionless) (huses : r.Uses planner)
    (hstocked : Stocked db) (hreflects : Reflects planner db path content) :
    ∃ content', Reflects planner (r.publishRequest db) path content' ∧
      (content' = content ∨ content' = r.tree.indexedBytes planner.config path) := by
  rw [r.publishRequest_eq]
  cases hok : r.tryRequest db with
  | error e => exact ⟨content, hreflects, .inl rfl⟩
  | ok db' =>
    rcases hreflects.request hcoll huses hstocked hok with hview | ⟨-, hkept⟩
    · exact ⟨_, hview, .inr rfl⟩
    · exact ⟨content, hkept, .inl rfl⟩

end

/-- The path is looked at by a request that returns, and has the same bytes from then on; or no
    request has seen it. -/
def Delivered (planner : ChangePlanner) (requests : List IndexRequest) (path : String)
    (content : Option ByteArray) : Prop :=
  (∃ before r after db, requests = before ++ r :: after ∧
      Transition.exec IndexRequest.step Database.empty before = some db ∧
      (r.tryRequest db).isOk = true ∧ r.Asks path ∧
      ∀ r' ∈ r :: after, r'.tree.indexedBytes planner.config path = content) ∨
    content = none ∧ ∀ r ∈ requests, r.tree.indexedBytes planner.config path = none

section
variable {planner : ChangePlanner} {db db' : Database} {requests : List IndexRequest} {path : String}
  {content : Option ByteArray}

theorem stocked_exec (hstocked : Stocked db)
    (h : Transition.exec IndexRequest.step db requests = some db') : Stocked db' :=
  Transition.exec_preserves (fun s r t hs hst => by cases hst; exact hs.publishRequest r) h hstocked

/-- Every path has the rows of some bytes, in every run. -/
theorem exists_reflects (hcoll : planner.Collisionless) (huses : ∀ r ∈ requests, r.Uses planner)
    (hstocked : Stocked db) (hreflects : Reflects planner db path content)
    (h : Transition.exec IndexRequest.step db requests = some db') :
    ∃ content', Reflects planner db' path content' ∧ (content' = content ∨
      ∃ r ∈ requests, content' = r.tree.indexedBytes planner.config path) := by
  induction requests generalizing db content with
  | nil =>
    cases h
    exact ⟨content, hreflects, .inl rfl⟩
  | cons r requests ih =>
    simp only [Transition.exec, IndexRequest.step] at h
    obtain ⟨content₁, hreflects₁, hcontent₁⟩ :=
      hreflects.step hcoll (huses r List.mem_cons_self) hstocked
    obtain ⟨content', hreflects', hcontent'⟩ :=
      ih (fun r' hr' => huses r' (List.mem_cons_of_mem _ hr')) (hstocked.publishRequest r) hreflects₁ h
    refine ⟨content', hreflects', ?_⟩
    rcases hcontent' with rfl | ⟨r', hr', rfl⟩
    · exact hcontent₁.imp_right fun heq => ⟨r, List.mem_cons_self, heq⟩
    · exact .inr ⟨r', List.mem_cons_of_mem _ hr', rfl⟩

/-- **A delivered path** has the rows of its bytes. -/
theorem reflects_of_delivered (hcoll : planner.Collisionless) (huses : ∀ r ∈ requests, r.Uses planner)
    (hrun : Transition.exec IndexRequest.step Database.empty requests = some db)
    (hdelivered : Delivered planner requests path content) : Reflects planner db path content := by
  rcases hdelivered with ⟨before, r, after, db₀, rfl, hbefore, hreturns, hasks, hviews⟩ | ⟨rfl, hviews⟩
  · have hstocked₀ : Stocked db₀ := stocked_exec stocked_empty hbefore
    obtain ⟨content₀, hreflects₀, -⟩ := exists_reflects hcoll
      (fun r' hr' => huses r' (List.mem_append_left _ hr')) stocked_empty reflects_empty hbefore
    rw [Transition.exec_append hbefore] at hrun
    simp only [Transition.exec, IndexRequest.step] at hrun
    obtain ⟨db₁, hok⟩ : ∃ db₁, r.tryRequest db₀ = .ok db₁ := by
      cases hok : r.tryRequest db₀ with
      | error e => rw [hok] at hreturns; cases hreturns
      | ok db₁ => exact ⟨db₁, rfl⟩
    have huses₁ : r.Uses planner := huses r (List.mem_append_right _ List.mem_cons_self)
    have hreflects₁ : Reflects planner (r.publishRequest db₀) path content := by
      rw [r.publishRequest_eq, hok, ← hviews r List.mem_cons_self]
      rcases hreflects₀.request hcoll huses₁ hstocked₀ hok with hview | ⟨hnot, -⟩
      · exact hview
      · exact absurd hasks hnot
    obtain ⟨content', hreflects, hcontent⟩ := exists_reflects hcoll
      (fun r' hr' => huses r' (List.mem_append_right _ (List.mem_cons_of_mem _ hr')))
      (hstocked₀.publishRequest r) hreflects₁ hrun
    rcases hcontent with rfl | ⟨r', hr', rfl⟩
    · exact hreflects
    · rwa [hviews r' (List.mem_cons_of_mem _ hr')] at hreflects
  · obtain ⟨content', hreflects, hcontent⟩ :=
      exists_reflects hcoll huses stocked_empty reflects_empty hrun
    rcases hcontent with rfl | ⟨r', hr', rfl⟩
    · exact hreflects
    · rwa [hviews r' hr'] at hreflects

/-- Two stores whose paths have the same rows. -/
theorem perm_of_reflects (hstocked : Stocked db) (hstocked' : Stocked db')
    (h : ∀ path, ∃ content, Reflects planner db path content ∧ Reflects planner db' path content) :
    db.symbols.Perm db'.symbols ∧
      (db.files.map FileCacheRow.undated).Perm (db'.files.map FileCacheRow.undated) := by
  have hkeyed : ∀ db : Database, Stocked db → Keyed FileCacheRow.path
      (db.files.map FileCacheRow.undated) := fun db hdb => hdb.paths.map fun _ => rfl
  constructor
  · refine hstocked.keyed.perm hstocked'.keyed fun s => ?_
    obtain ⟨content, hreflects, hreflects'⟩ := h s.filePath
    rw [hreflects.symbols s rfl, hreflects'.symbols s rfl]
  · refine (hkeyed db hstocked).perm (hkeyed db' hstocked') fun row => ?_
    obtain ⟨content, hreflects, hreflects'⟩ := h row.path
    rw [hreflects.row row rfl, hreflects'.row row rfl]

end

namespace IncrementalExample

open IntegrityExample

/-- A function in each file, with the text of the file. -/
def parse (path source : String) : ParseOutput where
  status := .ok
  language := some "python"
  symbols := [{ callee with id := path, filePath := path, bodyExcerpt := some source }]

/-- The bytes, as characters. -/
def hash (bytes : ByteArray) : String :=
  String.ofList (bytes.data.toList.map Char.ofUInt8)

theorem filePath_of_mem_parse (path source : String) :
    ∀ s ∈ (parse path source).symbols, s.filePath = path := by
  intro s hs
  rw [List.mem_singleton.1 hs]

def planner : ChangePlanner :=
  { IntegrityExample.planner with
    frontend :=
      { parseSource := parse
        extractArtifact := fun _ => parse
        enrich := fun s => s
        exactByteHash := hash
        parseSource_path := filePath_of_mem_parse
        extractArtifact_path := fun _ => filePath_of_mem_parse
        enrich_path := IntegrityExample.planner.frontend.enrich_path } }

def tree (files : List (String × String)) : SourceTree where
  root := "/repo"
  files := files.map fun file => (file.1, .ok file.2.toUTF8)

def index (files : List (String × String)) (request : PlanRequest String) : IndexRequest :=
  ⟨planner, tree files, request, none, 0, none⟩

/-- A file is written, changed and removed, another is added; each report comes after the
    change. -/
def requests : List IndexRequest :=
  [index [("p.py", "one")] .full, index [("p.py", "two"), ("w.py", "new")] (.touched ["p.py"]),
    index [("p.py", "two"), ("w.py", "new")] (.touched ["w.py"]),
    index [("w.py", "new")] (.touched ["p.py"])]

def clean : IndexRequest := index [("w.py", "new")] .full

theorem hash_injective : Function.Injective hash := by
  intro a b h
  have hchar : Function.Injective Char.ofUInt8 := fun x y hxy =>
    UInt8.toUInt32_inj.1 (congrArg Char.val hxy)
  have hlist := hchar.list_map (String.ofList_injective h)
  exact ByteArray.ext (Array.toList_inj.1 hlist)

theorem collisionless : planner.Collisionless where
  hash := hash_injective
  ids path content path' content' s hs t ht hid := by
    have hpath : ∀ path content, ∀ s ∈ planner.symbolsOf path content, s.id = path := by
      intro path content s hs
      cases content with
      | none => cases hs
      | some bytes =>
        unfold ChangePlanner.symbolsOf ChangePlanner.parseFile at hs
        dsimp only at hs
        split at hs
        · cases hs
        · rename_i source _
          have htext : planner.parseText path source = parse path source := by
            unfold ChangePlanner.parseText
            split_ifs
            · rfl
            · split <;> rfl
          rw [htext] at hs
          obtain ⟨s', hs', rfl⟩ := List.mem_map.1 hs
          rw [List.mem_singleton.1 hs']
          rfl
    rw [← hpath path content s hs, ← hpath path' content' t ht, hid]

theorem uses : ∀ r ∈ clean :: requests, r.Uses planner := by
  intro r hr
  simp only [requests, List.mem_cons, List.not_mem_nil, or_false] at hr
  rcases hr with rfl | rfl | rfl | rfl | rfl
  all_goals exact ⟨rfl, rfl, by decide +kernel⟩

theorem delivered (path : String) :
    Delivered planner requests path (clean.tree.indexedBytes planner.config path) := by
  have hreturns : ∀ (before : List IndexRequest) (r : IndexRequest), (Transition.exec IndexRequest.step Database.empty before).map
      (fun db => (r.tryRequest db).isOk) = some true →
      ∃ db, Transition.exec IndexRequest.step Database.empty before = some db ∧
        (r.tryRequest db).isOk = true := fun before r h => Option.map_eq_some_iff.1 h
  by_cases hp : path = "p.py"
  · subst hp
    obtain ⟨db, hdb, hok⟩ := hreturns (requests.take 3) (index [("w.py", "new")] (.touched ["p.py"]))
      (by decide +kernel)
    refine .inl ⟨_, _, [], db, rfl, hdb, hok, List.mem_singleton_self _, ?_⟩
    intro r hr
    rw [List.mem_singleton.1 hr]
    rfl
  · by_cases hw : path = "w.py"
    · subst hw
      obtain ⟨db, hdb, hok⟩ := hreturns (requests.take 2)
        (index [("p.py", "two"), ("w.py", "new")] (.touched ["w.py"])) (by decide +kernel)
      refine .inl ⟨_, _, [index [("w.py", "new")] (.touched ["p.py"])], db, rfl, hdb, hok,
        List.mem_singleton_self _, ?_⟩
      decide +kernel
    · have hother : ∀ r ∈ clean :: requests, r.tree.indexedBytes planner.config path = none := by
        intro r hr
        have hfiles : ∀ p ∈ r.tree.admittedRelPaths planner.config, p = "p.py" ∨ p = "w.py" := by
          simp only [requests, List.mem_cons, List.not_mem_nil, or_false] at hr
          rcases hr with rfl | rfl | rfl | rfl | rfl
          all_goals decide +kernel
        exact if_neg fun hpath => (hfiles path hpath).elim hp hw
      refine .inr ⟨hother clean List.mem_cons_self, fun r hr => hother r (List.mem_cons_of_mem _ hr)⟩

end IncrementalExample

end Cognis
