/-
  A full index against a clean one (`planner.rs`, `pipeline.rs`).

  * `Stocked` is what every operation of a pipeline keeps (`Stocked.step`): every symbol has the
    row of its file, and the tables say the same of the symbols;
  * `planFiles_full`: a full plan parses every readable file of the walk, and `covers_full`: it
    covers every symbol that is stored, so that the resolver sees the new symbols only;
  * `full_index_rebuilds`: after a full index, in any run, the store holds what an index of the
    same tree leaves in an empty store.
-/
import Cognis.Indexer.Dependents
import Cognis.Indexer.Semantic

namespace Cognis

open Table

/-! ## The invariant -/

/-- What the tables hold after every operation. -/
structure Stocked (db : Database) : Prop extends SourcesLive db where
  edgeKeys : Keyed Edge.key db.edges
  paths : Keyed FileCacheRow.path db.files
  /-- a symbol is stored with the row of its file -/
  rowed : ∀ s ∈ db.symbols, ∃ row ∈ db.files, row.path = s.filePath
  fts : db.fts = db.symbols.map Symbol.ftsRow
  vectors : ∀ row ∈ db.vectors.rows, db.hasSymbol row.1 = true
  queue : ∀ row ∈ db.queue, db.hasSymbol row.symbolId = true

theorem stocked_empty : Stocked Database.empty where
  toSourcesLive := sourcesLive_empty
  edgeKeys := keyed_nil
  paths := keyed_nil
  rowed := List.forall_mem_nil _
  fts := rfl
  vectors := List.forall_mem_nil _
  queue := List.forall_mem_nil _

/-- The rows that a batch writes beside its symbols are theirs. -/
structure PublishBatch.Rooted (batch : PublishBatch) : Prop where
  rows : ∀ s ∈ batch.symbolUpserts, ∃ row ∈ batch.fileRows, row.path = s.filePath
  edges : ∀ e ∈ batch.edgeUpserts, ∃ s ∈ batch.symbolUpserts, s.id = e.srcId
  enqueue : ∀ q ∈ batch.queueEnqueue, ∃ s ∈ batch.symbolUpserts, s.id = q.symbolId

section
variable {ext : VecExtension} {now : ℤ} {db db' written : Database} {batch : PublishBatch}

theorem hasSymbol_of_upsert {s : Symbol} (hs : s ∈ batch.symbolUpserts) :
    (db.upsertSymbols batch.symbolUpserts).hasSymbol s.id = true := by
  obtain ⟨x, hx, hid⟩ : ∃ x ∈ build Symbol.id batch.symbolUpserts, x.id = s.id :=
    exists_mem_build hs
  exact Database.hasSymbol_iff.2 ⟨x, mem_upsertAll.2 (.inr hx), hid⟩

/-- **A publish** keeps the invariant. -/
theorem Stocked.publish {receipt : PublishReceipt} (h : Stocked db) (hrooted : batch.Rooted)
    (hpublish : publish ext now db batch = .ok (db', receipt)) : Stocked db' := by
  obtain ⟨written, hpub⟩ := publish_spec hpublish
  -- what has a symbol once the new ones are written, and is not deleted, is live
  have hlive : ∀ id, (db.upsertSymbols batch.symbolUpserts).hasSymbol id = true →
      id ∉ db.deletedIds batch → db'.hasSymbol id = true := fun id hid hkept =>
    (live_or_deleted hpub hid).resolve_right hkept
  have hnew : ∀ id, (∃ s ∈ batch.symbolUpserts, s.id = id) →
      (db.upsertSymbols batch.symbolUpserts).hasSymbol id = true := by
    rintro id ⟨s, hs, rfl⟩
    exact hasSymbol_of_upsert hs
  refine
    { keyed := ?_, src := fun e he => ?_, edgeKeys := ?_, paths := ?_, rowed := fun s hs => ?_
      fts := ?_, vectors := fun row hrow => ?_, queue := fun row hrow => ?_ }
  · rw [hpub.symbols]
    exact (keyed_upsertAll h.keyed).filter _
  · rw [hpub.edges] at he
    obtain ⟨e₀, he₀, rfl⟩ := List.mem_map.1 he
    simp only [List.mem_filter, decide_eq_true_eq] at he₀
    have hsrc : db'.hasSymbol e₀.srcId = true := by
      refine hlive _ ?_ he₀.2
      rcases mem_upsertAll.1 he₀.1.1 with ⟨hold, -⟩ | hupsert
      · exact hasSymbol_upsertSymbols (h.src e₀ hold)
      · exact hnew _ (hrooted.edges e₀ (mem_of_mem_build hupsert))
    split_ifs
    · exact hsrc
    · exact hsrc
  · rw [hpub.edges]
    refine Keyed.map (((keyed_upsertAll h.edgeKeys).filter _).filter _) fun e => ?_
    split_ifs <;> rfl
  · rw [hpub.files]
    exact (keyed_upsertAll h.paths).filter _
  · rw [hpub.symbols, List.mem_filter, decide_eq_true_eq] at hs
    obtain ⟨hs, hkept⟩ := hs
    have hrow : ∃ row ∈ upsertAll FileCacheRow.path db.files batch.fileRows, row.path = s.filePath := by
      rcases mem_upsertAll.1 hs with ⟨hold, -⟩ | hupsert
      · obtain ⟨row, hrow, hpath⟩ := h.rowed s hold
        obtain ⟨x, hx, hkey⟩ : ∃ x ∈ upsertAll FileCacheRow.path db.files batch.fileRows,
            x.path = row.path := exists_mem_upsertAll hrow
        exact ⟨x, hx, hkey.trans hpath⟩
      · obtain ⟨row, hrow, hpath⟩ := hrooted.rows s (mem_of_mem_build hupsert)
        obtain ⟨x, hx, hkey⟩ : ∃ x ∈ build FileCacheRow.path batch.fileRows, x.path = row.path :=
          exists_mem_build hrow
        exact ⟨x, mem_upsertAll.2 (.inr hx), hkey.trans hpath⟩
    obtain ⟨row, hrow, hpath⟩ := hrow
    rw [hpub.files]
    refine ⟨row, List.mem_filter.2 ⟨hrow, decide_eq_true fun hdeleted => hkept ?_⟩, hpath⟩
    -- the symbols of a deleted file are deleted
    refine List.mem_append_right _ (List.mem_map.2 ⟨s, List.mem_filter.2 ⟨hs, ?_⟩, rfl⟩)
    exact decide_eq_true (hpath ▸ hdeleted)
  · have hmap : upsertAll FtsRow.id (db.symbols.map Symbol.ftsRow)
        (batch.symbolUpserts.map Symbol.ftsRow) =
        (upsertAll Symbol.id db.symbols batch.symbolUpserts).map Symbol.ftsRow :=
      upsertAll_map fun _ => rfl
    rw [publish_fts hpublish, hpub.symbols, h.fts, hmap, List.filter_map]
    rfl
  · rw [hpub.vectors] at hrow
    simp only [List.mem_filter, decide_eq_true_eq] at hrow
    obtain ⟨⟨hrow, -⟩, hkept⟩ := hrow
    refine hlive _ ?_ hkept
    rcases upsertVectorSpaceAndVectors_mem hpub.vectorStep hrow with hold | hwritten
    · exact hasSymbol_upsertSymbols (h.vectors row hold)
    · exact hwritten
  · rw [hpub.queue] at hrow
    simp only [List.mem_filter, decide_eq_true_eq] at hrow
    obtain ⟨⟨⟨hrow, -⟩, hkept⟩, -⟩ := hrow
    refine hlive _ ?_ hkept
    rcases mem_upsertAll.1 hrow with ⟨hold, -⟩ | hupsert
    · exact hasSymbol_upsertSymbols (h.queue row hold)
    · obtain ⟨q, hq, rfl⟩ := List.mem_map.1 (mem_of_mem_build hupsert)
      exact hnew _ (hrooted.enqueue q hq)

/-- The model queues symbols of the batch only. -/
theorem PublishBatch.Rooted.prepare (h : batch.Rooted) (r : IndexRequest) :
    (r.prepare batch).Rooted := by
  obtain ⟨hsymbols, hedges, hrows⟩ := r.prepare_rows batch
  refine ⟨by rw [hsymbols, hrows]; exact h.rows, by rw [hsymbols, hedges]; exact h.edges, ?_⟩
  rw [hsymbols]
  unfold IndexRequest.prepare
  cases r.reply with
  | none => exact h.enqueue
  | some reply =>
    have hqueued : ∀ q ∈ batch.queued, ∃ s ∈ batch.symbolUpserts, s.id = q.symbolId := by
      intro q hq
      obtain ⟨s, hs, rfl⟩ := List.mem_map.1 hq
      exact ⟨s, hs, rfl⟩
    rw [Option.elim_some]
    unfold prepareSemantic
    dsimp only
    split_ifs
    · exact h.enqueue
    · cases reply with
      | noSemantic => exact List.forall_mem_nil _
      | needPending => exact hqueued
      | embedded vectors fingerprint =>
        dsimp only
        split_ifs
        · exact List.forall_mem_nil _
        · exact hqueued

theorem ChangePlanner.rooted_buildBatch {planner : ChangePlanner} {files : PlannedFiles}
    (hof : ∀ file ∈ files.changed, file.Of db) (reason : PublishReason) :
    (planner.buildBatch db reason files).Rooted := by
  have hplan := @ChangePlanner.buildBatch_spec planner db files hof reason
  refine ⟨fun s hs => ?_, fun e he => ?_, fun q hq => ?_⟩
  · obtain ⟨file, hfile, hmem⟩ := List.mem_flatMap.1 ((hplan.upserts s).1 hs)
    refine ⟨file.row, mem_sortOn.2 (List.mem_map.2 ⟨file, mem_sortOn.2 hfile, rfl⟩), ?_⟩
    exact ((hof file hfile).symbols s hmem).symm
  · obtain ⟨s, hs, hid⟩ := (hplan.edges e he).2.1
    exact ⟨s, (hplan.upserts s).2 hs, hid⟩
  · obtain ⟨s, hs, hid⟩ := hplan.enqueue q hq
    exact ⟨s, (hplan.upserts s).2 hs, hid⟩

theorem ChangePlanner.rooted_plan {planner : ChangePlanner} {tree : SourceTree}
    {request : PlanRequest String} (h : planner.plan db tree request = .ok batch) : batch.Rooted := by
  unfold plan at h
  dsimp only at h
  split at h
  · cases h
  · rename_i files hfiles
    cases h
    exact rooted_buildBatch (planFiles_from hfiles).file _

/-! ## The steps -/

theorem Stocked.publishBatch (h : Stocked db) (r : IndexRequest) (hrooted : batch.Rooted) :
    Stocked (r.publishBatch db batch) := by
  unfold IndexRequest.publishBatch
  split
  · exact h
  · rename_i db' receipt hpublish
    exact h.publish (hrooted.prepare r) hpublish

theorem Stocked.publishRequest (h : Stocked db) (r : IndexRequest) : Stocked (r.publishRequest db) := by
  unfold IndexRequest.publishRequest
  split
  · exact h
  · rename_i batch hplan
    split_ifs
    · exact h
    · exact h.publishBatch r (ChangePlanner.rooted_plan hplan)

theorem Stocked.removeFile (h : Stocked db) (r : IndexRequest) (path : String) :
    Stocked (r.removeFile db path) := by
  unfold IndexRequest.removeFile
  split
  · exact h
  · rename_i batch hplan
    dsimp only
    split_ifs
    · exact h.publishBatch r (ChangePlanner.rooted_plan hplan)
    · exact h
    · exact h.publishBatch r
        ⟨List.forall_mem_nil _, List.forall_mem_nil _, List.forall_mem_nil _⟩

/-- The tables of the source stay, and what is embedded or queued is live. -/
theorem Stocked.of_source (h : Stocked db) (hsymbols : db'.symbols = db.symbols)
    (hedges : db'.edges = db.edges) (hfiles : db'.files = db.files) (hfts : db'.fts = db.fts)
    (hvectors : ∀ row ∈ db'.vectors.rows, db.hasSymbol row.1 = true)
    (hqueue : ∀ row ∈ db'.queue, db.hasSymbol row.symbolId = true) : Stocked db' := by
  have hlive : ∀ id, db'.hasSymbol id = db.hasSymbol id := fun id => by
    rw [Database.hasSymbol, Database.hasSymbol, hsymbols]
  refine
    { keyed := by rw [hsymbols]; exact h.keyed
      src := fun e he => by rw [hlive]; exact h.src e (hedges ▸ he)
      edgeKeys := by rw [hedges]; exact h.edgeKeys
      paths := by rw [hfiles]; exact h.paths
      rowed := by rw [hsymbols, hfiles]; exact h.rowed
      fts := by rw [hfts, hsymbols]; exact h.fts
      vectors := fun row hrow => by rw [hlive]; exact hvectors row hrow
      queue := fun row hrow => by rw [hlive]; exact hqueue row hrow }

theorem Stocked.advanceSemantic (h : Stocked db) : Stocked db.advanceSemanticIfQueueEmpty := by
  unfold Database.advanceSemanticIfQueueEmpty
  split_ifs
  · exact h.of_source rfl rfl rfl rfl h.vectors h.queue
  · exact h

theorem Stocked.deleteQueueRow (h : Stocked db) (id : String) : Stocked (db.deleteQueueRow id) :=
  h.of_source rfl rfl rfl rfl h.vectors fun row hrow => h.queue row (List.mem_filter.1 hrow).1

theorem Stocked.recordFailure (h : Stocked db) (config : OwnerConfig) (row : DueQueueRow)
    (message : String) : Stocked (db.recordFailure config row message now) := by
  refine h.of_source rfl rfl rfl rfl h.vectors fun queued hqueued => ?_
  obtain ⟨old, hold, rfl⟩ := List.mem_map.1 hqueued
  split_ifs <;> exact h.queue old hold

theorem Stocked.persistSuccess (h : Stocked db) {id : String} {vectors : List Vector32}
    (hp : db.persistSuccess ext id vectors = .ok db') : Stocked db' := by
  unfold Database.persistSuccess at hp
  split at hp
  · cases hp
  · rename_i written hw
    cases hp
    refine Stocked.advanceSemantic (Stocked.deleteQueueRow ?_ id)
    unfold Database.upsertSymbolVectors at hw
    split_ifs at hw with hlive
    · cases hw
      exact h
    · split at hw
      · cases hw
      · rename_i table hinsert
        cases hw
        refine h.of_source rfl rfl rfl rfl (fun row hrow => ?_) h.queue
        unfold VecTable.insertAll at hinsert
        split_ifs at hinsert
        cases hinsert
        rcases mem_upsertAll.1 hrow with ⟨hold, -⟩ | hnew
        · exact h.vectors row hold
        · obtain ⟨vector, -, rfl⟩ := List.mem_map.1 (mem_of_mem_build hnew)
          simpa using hlive

theorem Stocked.drainRow (h : Stocked db) (config : OwnerConfig) (embedder : Symbol → EmbedReply)
    (row : DueQueueRow) : Stocked (db.drainRow ext config embedder now row).1 := by
  unfold Database.drainRow
  split
  · exact (h.deleteQueueRow _).advanceSemantic
  · rename_i symbol rest _
    obtain ⟨vectors, dim, heq, hsubset⟩ := db.embedSymbol_eq ext (embedder symbol)
    have hembed : Stocked (db.embedSymbol ext (embedder symbol)).1 := by
      rw [heq]
      exact h.of_source rfl rfl rfl rfl (fun row hrow => h.vectors row (hsubset hrow)) h.queue
    split
    · rename_i db₁ message hdb
      rw [hdb] at hembed
      exact hembed.recordFailure config row message
    · rename_i db₁ vectors hdb
      rw [hdb] at hembed
      split
      · exact hembed
      · rename_i db₂ hpersist
        exact hembed.persistSuccess hpersist

theorem Stocked.healLegacyVec0 (h : Stocked db) : Stocked (db.healLegacyVec0 ext) := by
  unfold Database.healLegacyVec0
  split_ifs
  · exact h.of_source rfl rfl rfl rfl (List.forall_mem_nil _) h.queue
  · exact h

theorem Stocked.reconcileEmbedder (h : Stocked db) {dim : Option ℕ}
    (hreconcile : db.reconcileEmbedder ext dim = .ok db') : Stocked db' := by
  unfold Database.reconcileEmbedder at hreconcile
  split at hreconcile
  · cases hreconcile
    exact h
  · split_ifs at hreconcile
    · obtain ⟨heq, hsubset⟩ := Database.reconcileEmbeddingDim_eq hreconcile
      rw [heq]
      exact h.of_source rfl rfl rfl rfl (fun row hrow => h.vectors row (hsubset hrow)) h.queue
    · cases hreconcile
      exact h

/-- **Every step** of a pipeline keeps the invariant. -/
theorem Stocked.step {p q : IndexerPipeline} {label : PipelineStep} (h : Stocked p.db)
    (hstep : p.step label = some q) : Stocked q.db := by
  cases label with
  | openSession ext opening =>
    simp only [IndexerPipeline.step] at hstep
    split at hstep
    · cases hstep
      exact h.healLegacyVec0
    · rename_i db hreconcile
      cases hstep
      exact h.healLegacyVec0.reconcileEmbedder hreconcile
  | publishRequest call request =>
    simp only [IndexerPipeline.step] at hstep
    split at hstep
    · cases hstep
    · split_ifs at hstep
      cases hstep
      exact h.publishRequest _
  | removeFile call path =>
    simp only [IndexerPipeline.step] at hstep
    split at hstep
    · cases hstep
    · split_ifs at hstep
      cases hstep
      exact h.removeFile _ path
  | drainRow config row reply now =>
    simp only [IndexerPipeline.step] at hstep
    split at hstep
    · cases hstep
    · split_ifs at hstep
      cases hstep
      exact h.drainRow config _ row

/-- **Every run** of a pipeline. -/
theorem stocked_of_run {steps : List PipelineStep} {p : IndexerPipeline}
    (h : Transition.exec IndexerPipeline.step .initial steps = some p) : Stocked p.db :=
  Transition.exec_preserves (fun _ _ _ hs hst => Stocked.step hs hst) h stocked_empty

end

/-! ## A full plan -/

section
variable {planner : ChangePlanner} {db : Database} {tree : SourceTree}

namespace ChangePlanner

/-- The files of a full plan on an empty store. -/
def cleanFiles (planner : ChangePlanner) (tree : SourceTree) : PlannedFiles :=
  planner.touchedFiles Database.empty tree .full

/-- The batch of a full plan on an empty store. -/
def cleanBatch (planner : ChangePlanner) (tree : SourceTree) : PublishBatch :=
  planner.buildBatch Database.empty .full (planner.cleanFiles tree)

/-- The candidates are files of the walk. -/
theorem mem_walk_of_candidate {request : PlanRequest String} {path : String}
    (h : path ∈ (planner.candidates db tree request).1) :
    path ∈ tree.admittedRelPaths planner.config := by
  unfold candidates at h
  split at h
  · exact SourceTree.mem_admittedRelPaths_of_isAdmitted (List.mem_filter.1 (mem_btreeSet.1 h)).2
  · exact mem_btreeSet.1 h
  · exact mem_btreeSet.1 h

/-- A readable file of the walk is parsed. -/
theorem mem_touchedFiles_full {path : String} {bytes : ByteArray}
    (hpath : path ∈ tree.admittedRelPaths planner.config)
    (hread : tree.readExactBytes path = .ok bytes) :
    planner.parseFile path bytes (db.symbolsInFile path) ∈
      (planner.touchedFiles db tree .full).changed := by
  refine List.mem_filterMap.2 ⟨path, mem_btreeSet.2 hpath, ?_⟩
  simp only [hread]
  rfl

/-- Once every readable file that is admitted is planned, none joins. -/
theorem addFiles_eq {skip : Symbol → Bool} {changed changed' : List PlannedFile}
    {symbols : List Symbol} (hall : ∀ path bytes, tree.isAdmitted planner.config path = true →
      tree.readExactBytes path = .ok bytes → ∃ file ∈ changed, file.row.path = path)
    (h : planner.addFiles db tree skip changed symbols = .ok changed') : changed' = changed := by
  induction symbols with
  | nil =>
    cases h
    rfl
  | cons symbol symbols ih =>
    simp only [addFiles] at h
    split_ifs at h with hskip
    · exact ih h
    · split at h
      · cases h
      · rename_i file hfile
        simp only [Bool.or_eq_true, not_or, Bool.not_eq_true, Bool.not_eq_false'] at hskip
        unfold reparse at hfile
        split at hfile
        · cases hfile
        · rename_i bytes hread
          obtain ⟨planned, hmem, hpath⟩ := hall symbol.filePath bytes hskip.2 hread
          have hnot := List.any_eq_false.1 hskip.1.1 planned hmem
          rw [decide_eq_true_eq] at hnot
          exact absurd hpath hnot

/-- **The files of a full plan** are those of the walk. -/
theorem planFiles_full {files : PlannedFiles} (h : planner.planFiles db tree .full = .ok files) :
    files = planner.touchedFiles db tree .full := by
  have hall : ∀ path bytes, tree.isAdmitted planner.config path = true →
      tree.readExactBytes path = .ok bytes →
      ∃ file ∈ (planner.touchedFiles db tree .full).changed, file.row.path = path := by
    intro path bytes hadmitted hread
    exact ⟨_, mem_touchedFiles_full (SourceTree.mem_admittedRelPaths_of_isAdmitted hadmitted) hread,
      parseFile_path path bytes _⟩
  unfold planFiles at h
  dsimp only at h
  split at h
  · cases h
  · rename_i affected haffected
    split at h
    · cases h
    · rename_i changed hchanged
      cases h
      obtain rfl := addFiles_eq hall haffected
      obtain rfl := addFiles_eq hall hchanged
      rfl

/-- **A full plan covers** every file of the cache. -/
theorem covers_full {row : FileCacheRow} (hrow : row ∈ db.files) :
    (planner.touchedFiles db tree .full).Covers row.path := by
  by_cases hadmitted : row.path ∈ tree.admittedRelPaths planner.config
  · cases hread : tree.readExactBytes row.path with
    | ok bytes =>
      exact .inl ⟨_, mem_touchedFiles_full hadmitted hread, parseFile_path row.path bytes _⟩
    | error e =>
      refine .inr (mem_btreeSet.2 (List.mem_append_right _ (List.mem_filter.2 ⟨?_, ?_⟩)))
      · exact mem_btreeSet.2 hadmitted
      · simp only [hread, Bool.true_and]
        exact List.any_eq_true.2 ⟨row, hrow, decide_eq_true rfl⟩
  · refine .inr (mem_btreeSet.2 (List.mem_append_left _ (mem_btreeSet.2 (List.mem_filter.2 ⟨?_, ?_⟩))))
    · exact List.mem_map.2 ⟨row, hrow, rfl⟩
    · exact decide_eq_true hadmitted

/-! ## The same rows as on an empty store -/

/-- A planned file, with nothing stored of it. -/
def withoutOld (file : PlannedFile) : PlannedFile := { file with oldSymbols := [] }

theorem withoutOld_parseFile (path : String) (bytes : ByteArray) (oldSymbols : List Symbol) :
    withoutOld (planner.parseFile path bytes oldSymbols) = planner.parseFile path bytes [] := by
  unfold parseFile
  split <;> rfl

theorem touchedFiles_withoutOld :
    (planner.touchedFiles db tree .full).changed.map withoutOld = (planner.cleanFiles tree).changed := by
  unfold cleanFiles touchedFiles candidates
  dsimp only
  rw [List.map_filterMap]
  refine List.filterMap_congr fun path _ => ?_
  cases tree.readExactBytes path with
  | error e => rfl
  | ok bytes =>
    simp only [ne_eq, not_true_eq_false, false_and, if_false, Option.map_some, withoutOld_parseFile]
    rfl

theorem sortOn_withoutOld (files : List PlannedFile) :
    sortOn (·.row.path) (files.map withoutOld) = (sortOn (·.row.path) files).map withoutOld :=
  (List.map_insertionSort _ _ withoutOld files fun _ _ _ _ => Iff.rfl).symm

theorem owned_full : (planner.touchedFiles db tree .full).owned = (planner.cleanFiles tree).owned := by
  rw [PlannedFiles.owned, PlannedFiles.owned, ← @touchedFiles_withoutOld planner db tree, sortOn_withoutOld,
    List.map_map]
  rfl

theorem freshSymbols_full :
    (planner.touchedFiles db tree .full).freshSymbols = (planner.cleanFiles tree).freshSymbols := by
  rw [PlannedFiles.freshSymbols, PlannedFiles.freshSymbols, ← @touchedFiles_withoutOld planner db tree,
    sortOn_withoutOld, List.flatMap_map]
  rfl

/-- No stored symbol is left for the resolver. -/
theorem resolverSymbols_full (hcovers : ∀ s ∈ db.symbols,
      (planner.touchedFiles db tree .full).Covers s.filePath) :
    planner.resolverSymbols db (planner.touchedFiles db tree .full) =
      sortOn Symbol.id (build Symbol.id (planner.cleanFiles tree).freshSymbols) := by
  unfold resolverSymbols boundedResolverSymbols
  dsimp only
  rw [List.filter_eq_nil_iff.2, List.nil_append, freshSymbols_full]
  intro s hs
  rw [decide_eq_true_eq, not_not, List.mem_append, PlannedFiles.mem_owned]
  exact hcovers s (mem_candidates.1 hs).1

/-- **The batch of a full plan** writes what that of an empty store does. -/
theorem buildBatch_full (hcovers : ∀ s ∈ db.symbols,
      (planner.touchedFiles db tree .full).Covers s.filePath) :
    let batch := planner.buildBatch db .full (planner.touchedFiles db tree .full)
    batch.symbolUpserts = sortOn Symbol.id (planner.cleanFiles tree).freshSymbols ∧
      batch.edgeUpserts = (planner.cleanBatch tree).edgeUpserts ∧
      batch.fileRows = (planner.cleanBatch tree).fileRows := by
  refine ⟨?_, ?_, ?_⟩
  · change sortOn Symbol.id (planner.touchedFiles db tree .full).freshSymbols = _
    rw [freshSymbols_full]
  · rw [cleanBatch, buildBatch_edgeUpserts, buildBatch_edgeUpserts, owned_full,
      resolverSymbols_full hcovers]
    have hclean := @resolverSymbols_full planner .empty tree (List.forall_mem_nil _)
    exact congrArg _ (congrArg _ (congrArg _ hclean.symm))
  · change sortOn FileCacheRow.path ((sortOn (·.row.path) _).map PlannedFile.row) =
      sortOn FileCacheRow.path ((sortOn (·.row.path) _).map PlannedFile.row)
    rw [← @touchedFiles_withoutOld planner db tree, sortOn_withoutOld, List.map_map]
    rfl

/-- A plan parses each path once. -/
theorem keyed_touchedFiles {request : PlanRequest String} :
    Keyed (fun file : PlannedFile => file.row.path) (planner.touchedFiles db tree request).changed := by
  have hcandidates : (planner.candidates db tree request).1.Nodup := by
    cases request <;> exact List.nodup_dedup _
  unfold Keyed touchedFiles
  dsimp only
  rw [List.map_filterMap]
  refine List.Nodup.filterMap (fun path path' key hpath hpath' => ?_) hcandidates
  rw [Option.mem_def, Option.map_eq_some_iff] at hpath hpath'
  obtain ⟨file, hfile, rfl⟩ := hpath
  obtain ⟨file', hfile', hkey⟩ := hpath'
  split at hfile
  · cases hfile
  · split at hfile'
    · cases hfile'
    · split_ifs at hfile hfile'
      cases hfile
      cases hfile'
      rw [parseFile_path, parseFile_path] at hkey
      exact hkey.symm

theorem keyed_fileRows : Keyed FileCacheRow.path (planner.cleanBatch tree).fileRows := by
  have hchanged : Keyed (fun file : PlannedFile => file.row.path) (planner.cleanFiles tree).changed :=
    keyed_touchedFiles
  refine Keyed.sortOn ?_
  unfold Keyed
  rw [List.map_map]
  exact hchanged.sortOn

end ChangePlanner

/-! ## A full index -/

/-- `publish_request`, with its error. -/
def IndexRequest.tryRequest (r : IndexRequest) (db : Database) : Except String Database :=
  match r.planner.plan db r.tree r.request with
  | .error e => .error e
  | .ok batch =>
    if r.reply.isSome ∧ batch.isEmpty then .ok db
    else
      match Cognis.publish r.ext r.now db (r.prepare batch) with
      | .error e => .error e
      | .ok (db, _) => .ok db

/-- A request that fails leaves the store alone. -/
theorem IndexRequest.publishRequest_eq (r : IndexRequest) (db : Database) :
    r.publishRequest db = match r.tryRequest db with | .error _ => db | .ok db' => db' := by
  unfold publishRequest tryRequest
  cases r.planner.plan db r.tree r.request with
  | error e => rfl
  | ok batch =>
    dsimp only
    split_ifs
    · rfl
    · cases Cognis.publish r.ext r.now db (r.prepare batch) with
      | error e => rfl
      | ok published => rfl

/-- The tables hold what a full index of the tree on an empty store writes. -/
structure HoldsIndex (planner : ChangePlanner) (tree : SourceTree) (db : Database) : Prop where
  symbols : db.symbols.Perm (build Symbol.id (planner.cleanFiles tree).freshSymbols)
  edges : db.edges.Perm (planner.cleanBatch tree).edgeUpserts
  files : db.files.Perm (planner.cleanBatch tree).fileRows

variable {ext : VecExtension} {now : ℤ} {written db' : Database}

/-- **The rows of the files** after a planned batch: those of the files that it does not cover, and
    those that it writes. -/
theorem mem_published_files {request : PlanRequest String} {files : PlannedFiles}
    {reason : PublishReason} {r : IndexRequest} (hfrom : files.From planner db tree request)
    (hkeyed : Keyed (fun file : PlannedFile => file.row.path) files.changed)
    (hpub : Published ext now db (r.prepare (planner.buildBatch db reason files)) written db')
    {row : FileCacheRow} : row ∈ db'.files ↔
      (row ∈ db.files ∧ ¬ files.Covers row.path) ∨ ∃ file ∈ files.changed, file.row = row := by
  have hplan : PlannedBatch db files (r.prepare (planner.buildBatch db reason files)) :=
    IndexRequest.planned_prepare (ChangePlanner.buildBatch_spec hfrom.file _)
  have hrows : ∀ row, row ∈ (planner.buildBatch db reason files).fileRows ↔
      ∃ file ∈ files.changed, file.row = row := by
    intro row
    change row ∈ sortOn FileCacheRow.path ((sortOn (·.row.path) files.changed).map PlannedFile.row) ↔ _
    simp
  have hbatch : Keyed FileCacheRow.path (planner.buildBatch db reason files).fileRows := by
    refine Keyed.sortOn ?_
    unfold Keyed
    rw [List.map_map]
    exact hkeyed.sortOn
  rw [hpub.files, (r.prepare_rows _).2.2, List.mem_filter, decide_eq_true_eq, hplan.fileDeletes,
    mem_upsertAll, hbatch.mem_build, hrows]
  constructor
  · rintro ⟨⟨hold, hne⟩ | hnew, hkept⟩
    · refine .inl ⟨hold, ?_⟩
      rintro (⟨file, hfile, hpath⟩ | hdeleted)
      · exact hne file.row ((hrows _).2 ⟨file, hfile, rfl⟩) hpath.symm
      · exact hkept hdeleted
    · exact .inr hnew
  · rintro (⟨hold, huncovered⟩ | ⟨file, hfile, rfl⟩)
    · refine ⟨.inl ⟨hold, fun new hnew hkey => huncovered ?_⟩, fun hdeleted => huncovered (.inr hdeleted)⟩
      obtain ⟨file, hfile, rfl⟩ := (hrows new).1 hnew
      exact .inl ⟨file, hfile, hkey.symm⟩
    · exact ⟨.inr ⟨file, hfile, rfl⟩, fun hdeleted => hfrom.present file hfile (hfrom.gone _ hdeleted)⟩

/-- **The publish of a full plan.** -/
theorem Stocked.holdsIndex (h : Stocked db) {r : IndexRequest}
    (hpub : Published ext now db (r.prepare (planner.buildBatch db .full
      (planner.touchedFiles db tree .full))) written db') (hstocked : Stocked db') :
    HoldsIndex planner tree db' := by
  set files := planner.touchedFiles db tree .full with hfiles
  have hcovers : ∀ s ∈ db.symbols, files.Covers s.filePath := by
    intro s hs
    obtain ⟨row, hrow, hpath⟩ := h.rowed s hs
    exact hpath ▸ ChangePlanner.covers_full hrow
  have hfrom : files.From planner db tree .full := ChangePlanner.touchedFiles_from
  have hplan : PlannedBatch db files (r.prepare (planner.buildBatch db .full files)) :=
    IndexRequest.planned_prepare (ChangePlanner.buildBatch_spec hfrom.file _)
  obtain ⟨hsymbols, hedges, hrows⟩ := ChangePlanner.buildBatch_full hcovers
  obtain ⟨hpreparedSymbols, hpreparedEdges, hpreparedRows⟩ := r.prepare_rows
    (planner.buildBatch db .full files)
  refine ⟨?_, ?_, ?_⟩
  · have hlive : files.liveSymbols db = build Symbol.id (planner.cleanFiles tree).freshSymbols := by
      rw [PlannedFiles.liveSymbols, List.filter_eq_nil_iff.2, hfiles, ChangePlanner.freshSymbols_full]
      · rfl
      · intro s hs
        rw [decide_eq_true_eq, not_not, List.mem_append, PlannedFiles.mem_owned]
        exact hcovers s hs
    rw [← hlive]
    refine published_symbols h.keyed hfrom hplan ?_ hpub
    rw [hpreparedSymbols, hsymbols, hfiles, ChangePlanner.freshSymbols_full]
  · have hkeys : Keyed Edge.key (planner.buildBatch db .full files).edgeUpserts :=
      keyed_edgeUpserts planner db _ files
    rw [← hedges]
    refine hstocked.edgeKeys.perm hkeys fun e => ⟨fun he => ?_, fun he => ?_⟩
    · obtain ⟨e₀, rfl, hupsert | ⟨-, s, hs, -, huncovered⟩⟩ := edge_cases h.src hplan hpub he
      · rw [if_neg (dstId_notDeleted hfrom hplan h.keyed hupsert)]
        rwa [hpreparedEdges] at hupsert
      · exact absurd (hcovers s hs) huncovered
    · exact mem_edges_of_upsert hfrom hplan hpub h.keyed (by rwa [hpreparedEdges])
        (by rwa [hpreparedEdges])
  · refine hstocked.paths.perm ChangePlanner.keyed_fileRows fun row => ?_
    rw [mem_published_files hfrom ChangePlanner.keyed_touchedFiles hpub, ← hrows]
    change _ ↔ row ∈ sortOn FileCacheRow.path ((sortOn (·.row.path) files.changed).map PlannedFile.row)
    have hnone : ¬ (row ∈ db.files ∧ ¬ files.Covers row.path) := fun hold =>
      hold.2 (ChangePlanner.covers_full hold.1)
    simp [hnone]

theorem ChangePlanner.plan_full {batch : PublishBatch} (h : planner.plan db tree .full = .ok batch) :
    batch = planner.buildBatch db .full (planner.touchedFiles db tree .full) := by
  unfold plan at h
  dsimp only at h
  split at h
  · cases h
  · rename_i files hfiles
    cases h
    rw [planFiles_full hfiles]

/-- A batch without rows of files covers none. -/
theorem not_covers_of_isEmpty {reason : PublishReason} {files : PlannedFiles}
    (hrows : (planner.buildBatch db reason files).fileRows = [])
    (hdeleted : (planner.buildBatch db reason files).fileDeletes = []) (path : String) :
    ¬ files.Covers path := by
  rintro (⟨file, hfile, -⟩ | hpath)
  · have hrow : file.row ∈ (planner.buildBatch db reason files).fileRows :=
      mem_sortOn.2 (List.mem_map.2 ⟨file, mem_sortOn.2 hfile, rfl⟩)
    rw [hrows] at hrow
    cases hrow
  · have hmem : path ∈ (planner.buildBatch db reason files).fileDeletes := mem_btreeSet.2 hpath
    rw [hdeleted] at hmem
    cases hmem

/-- A full plan that writes and deletes nothing finds an empty store. -/
theorem Stocked.holdsIndex_of_isEmpty (h : Stocked db)
    (hempty : (planner.buildBatch db .full (planner.touchedFiles db tree .full)).isEmpty = true) :
    HoldsIndex planner tree db := by
  set files := planner.touchedFiles db tree .full with hfiles
  simp only [PublishBatch.isEmpty, Bool.and_eq_true, List.isEmpty_iff] at hempty
  obtain ⟨⟨⟨⟨⟨⟨⟨⟨⟨hsymbols, -⟩, hedges⟩, -⟩, -⟩, -⟩, hrows⟩, hdeleted⟩, -⟩, -⟩ := hempty
  have huncovered := not_covers_of_isEmpty hrows hdeleted
  have hfilesNil : db.files = [] := List.eq_nil_iff_forall_not_mem.2 fun row hrow =>
    huncovered row.path (ChangePlanner.covers_full hrow)
  have hsymbolsNil : db.symbols = [] := List.eq_nil_iff_forall_not_mem.2 fun s hs => by
    obtain ⟨row, hrow, -⟩ := h.rowed s hs
    rw [hfilesNil] at hrow
    cases hrow
  have hedgesNil : db.edges = [] := List.eq_nil_iff_forall_not_mem.2 fun e he => by
    obtain ⟨s, hs, -⟩ := Database.hasSymbol_iff.1 (h.src e he)
    rw [hsymbolsNil] at hs
    cases hs
  have hcovers : ∀ s ∈ db.symbols, files.Covers s.filePath := by
    rw [hsymbolsNil]
    exact List.forall_mem_nil _
  obtain ⟨hsymbols', hedges', hrows'⟩ := ChangePlanner.buildBatch_full hcovers
  have hfresh : (planner.cleanFiles tree).freshSymbols = [] :=
    List.eq_nil_iff_forall_not_mem.2 fun s hs => by
      rw [← @mem_sortOn _ _ _ Symbol.id, ← hsymbols', hsymbols] at hs
      cases hs
  refine ⟨?_, ?_, ?_⟩
  · rw [hsymbolsNil, hfresh]
    exact .nil
  · rw [hedgesNil, ← hedges', hedges]
  · rw [hfilesNil, ← hrows', hrows]

/-- **A full index** that returns. -/
theorem Stocked.tryRequest_full (h : Stocked db) {r : IndexRequest} (hfull : r.request = .full)
    (hok : r.tryRequest db = .ok db') : HoldsIndex r.planner r.tree db' ∧ Stocked db' := by
  have hstocked : Stocked db' := by
    have hrequest := h.publishRequest r
    rwa [r.publishRequest_eq, hok] at hrequest
  refine ⟨?_, hstocked⟩
  unfold IndexRequest.tryRequest at hok
  rw [hfull] at hok
  split at hok
  · cases hok
  · rename_i batch hplan
    obtain rfl := ChangePlanner.plan_full hplan
    split_ifs at hok with hskip
    · cases hok
      exact h.holdsIndex_of_isEmpty hskip.2
    · split at hok
      · cases hok
      · rename_i published receipt hpublish
        cases hok
        obtain ⟨written, hpub⟩ := publish_spec hpublish
        exact h.holdsIndex hpub hstocked

/-- The edges of a clean index join its symbols. -/
theorem HoldsIndex.linked (h : HoldsIndex planner tree db) (hstocked : Stocked db) : Linked db := by
  have hplan := @ChangePlanner.buildBatch_spec planner .empty (planner.cleanFiles tree)
    (@ChangePlanner.touchedFiles_from planner .empty tree .full).file .full
  refine ⟨hstocked.keyed, hstocked.fts, hstocked.vectors, hstocked.queue, hstocked.src, fun e he => ?_⟩
  obtain ⟨hflag, -, hdst⟩ := hplan.edges e (h.edges.mem_iff.1 he)
  have hlive : db.hasSymbol e.dstId = true := by
    rcases hdst with ⟨s, hs, hid⟩ | ⟨s, hs, -⟩
    · obtain ⟨x, hx, hkey⟩ : ∃ x ∈ build Symbol.id (planner.cleanFiles tree).freshSymbols, x.id = s.id :=
        exists_mem_build (PlannedFiles.mem_freshSymbols.2 hs)
      exact Database.hasSymbol_iff.2 ⟨x, h.symbols.mem_iff.2 hx, hkey.trans hid⟩
    · cases hs
  simp [hflag, hlive]

/-- The source index of two stores: the same rows, in any order. -/
structure SameIndex (db db' : Database) : Prop where
  symbols : db.symbols.Perm db'.symbols
  edges : db.edges.Perm db'.edges
  files : db.files.Perm db'.files
  fts : db.fts.Perm db'.fts

/-- **A full index repairs the store**: whatever the operations before it have left, it holds what
    a full index of the same tree leaves in an empty store, and its tables agree. -/
theorem full_index_rebuilds {steps : List PipelineStep} {p : IndexerPipeline}
    (hrun : Transition.exec IndexerPipeline.step .initial steps = some p) {r r' : IndexRequest}
    (hplanner : r'.planner = r.planner) (htree : r'.tree = r.tree) (hfull : r.request = .full)
    (hfull' : r'.request = .full) {indexed clean : Database}
    (hindexed : r.tryRequest p.db = .ok indexed) (hclean : r'.tryRequest Database.empty = .ok clean) :
    SameIndex indexed clean ∧ ReferentialIntegrity indexed := by
  obtain ⟨hholds, hstocked⟩ := (stocked_of_run hrun).tryRequest_full hfull hindexed
  obtain ⟨hholds', hstocked'⟩ := stocked_empty.tryRequest_full hfull' hclean
  rw [hplanner, htree] at hholds'
  have hsymbols : indexed.symbols.Perm clean.symbols := hholds.symbols.trans hholds'.symbols.symm
  refine ⟨⟨hsymbols, hholds.edges.trans hholds'.edges.symm, hholds.files.trans hholds'.files.symm, ?_⟩,
    (hholds.linked hstocked).integrity⟩
  rw [hstocked.fts, hstocked'.fts]
  exact hsymbols.map _

end

namespace RebuildExample

open IntegrityExample

def session : Session := ⟨none, false, false⟩

def call (symbols : List Symbol) : IndexCall :=
  ⟨planner, tree symbols, 0, none, fun dim => ⟨"digest", dim, "model"⟩⟩

/-- Both files are indexed, and only the callee is reported when both are gone and when it
    comes back: the edge to it stays flagged. -/
def steps : List PipelineStep :=
  [.openSession none (.withEmbedder none), .publishRequest (call [callee, caller]) .full,
    .publishRequest (call []) (.touched ["p.py"]), .publishRequest (call [callee]) (.touched ["p.py"])]

def full : IndexRequest := session.request (call [callee, caller]) .full

end RebuildExample

open RebuildExample IntegrityExample in
theorem full_index_rebuilds_flagged : ∃ p indexed clean,
    Transition.exec IndexerPipeline.step .initial steps = some p ∧
      p.db.edges.map (fun e => (e.dstId, e.dstMissing)) = [(callee.id, true)] ∧
      full.tryRequest p.db = .ok indexed ∧ full.tryRequest Database.empty = .ok clean ∧
      SameIndex indexed clean ∧ ReferentialIntegrity indexed := by
  have hrun : (Transition.exec IndexerPipeline.step .initial steps).map (fun p =>
      (p.db.edges.map fun e => (e.dstId, e.dstMissing), (full.tryRequest p.db).isOk)) =
      some ([(callee.id, true)], true) := by
    decide +kernel
  have hempty : (full.tryRequest Database.empty).isOk = true := by decide +kernel
  obtain ⟨p, hp, hrows⟩ := Option.map_eq_some_iff.1 hrun
  rw [Prod.mk.injEq] at hrows
  obtain ⟨indexed, hindexed⟩ : ∃ db, full.tryRequest p.db = .ok db := by
    cases h : full.tryRequest p.db with
    | error e => rw [h] at hrows; cases hrows.2
    | ok db => exact ⟨db, rfl⟩
  obtain ⟨clean, hclean⟩ : ∃ db, full.tryRequest Database.empty = .ok db := by
    cases h : full.tryRequest Database.empty with
    | error e => rw [h] at hempty; cases hempty
    | ok db => exact ⟨db, rfl⟩
  exact ⟨p, indexed, clean, hp, hrows.1, hindexed, hclean,
    full_index_rebuilds hp rfl rfl rfl rfl hindexed hclean⟩

end Cognis
