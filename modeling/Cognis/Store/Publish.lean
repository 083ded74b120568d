/-
  `publish` of `cognis-store` (`publish.rs`): one change batch applied in one
  transaction.

  * `PublishBatch` is the batch, `publish` the transaction, with the mutations in the
    order of the source; an error leaves the database as it was;
  * `publish_spec`: the rows of each table after a committed transaction (`Published`),
    in terms of its vector step;
  * `publish_fts`: those of `symbol_fts`.
-/
import Cognis.Store.Database

namespace Cognis

open Table

/-! ## The batch -/

/-- `QueuedSymbol` -/
structure QueuedSymbol where
  symbolId : String
  filePath : String
  deriving DecidableEq, Repr

/-- `PublishBatch` -/
structure PublishBatch where
  symbolUpserts : List Symbol := []
  symbolDeletes : List String := []
  edgeUpserts : List Edge := []
  edgeDeletes : List EdgeKey := []
  vectorUpserts : List (String × Vector32) := []
  vectorDeletes : List String := []
  fileRows : List FileCacheRow := []
  fileDeletes : List String := []
  queueEnqueue : List QueuedSymbol := []
  queueRemove : List String := []
  fingerprint : Option VectorSpaceFingerprint := none
  reason : PublishReason
  deriving DecidableEq

/-- `PublishReceipt` -/
structure PublishReceipt where
  sourceGeneration : ℕ
  semanticGeneration : ℕ
  pendingVectorCount : ℕ
  files : List String
  deriving DecidableEq, Repr

namespace PublishBatch

variable (batch : PublishBatch)

/-- `is_empty` -/
def isEmpty : Bool :=
  batch.symbolUpserts.isEmpty && batch.symbolDeletes.isEmpty && batch.edgeUpserts.isEmpty &&
    batch.edgeDeletes.isEmpty && batch.vectorUpserts.isEmpty && batch.vectorDeletes.isEmpty &&
    batch.fileRows.isEmpty && batch.fileDeletes.isEmpty && batch.queueEnqueue.isEmpty &&
    batch.queueRemove.isEmpty

/-- `covered_paths` -/
def coveredPaths : List String :=
  (sortOn id (batch.fileRows.map FileCacheRow.path ++ batch.fileDeletes)).dedup

end PublishBatch

/-! ## The mutations -/

/-- `json_patch` of `meta` with `dst_missing: true`. -/
def Edge.flagDstMissing (edge : Edge) : Edge :=
  let others := edge.metaFields.filter (·.1 ≠ "dst_missing")
  { edge with metaFields := others ++ [("dst_missing", .bool true)] }

namespace Database

variable (db : Database)

/-- `classify_file_changes` -/
def classifyFileChanges (batch : PublishBatch) (files : List String) :
    List (String × FileChange) :=
  files.map fun path =>
    (path, if path ∈ batch.fileDeletes then .removed
      else if db.files.any (·.path = path) then .changed else .added)

/-- `upsert_symbols` -/
def upsertSymbols (symbols : List Symbol) : Database :=
  { db with
    symbols := upsertAll Symbol.id db.symbols symbols
    fts := upsertAll FtsRow.id db.fts (symbols.map Symbol.ftsRow) }

/-- `upsert_edges` -/
def upsertEdges (edges : List Edge) : Database :=
  { db with edges := upsertAll Edge.key db.edges edges }

/-- The rows of the old space that a new vector table keeps
    (`read_compatible_blob_vectors`): none, unless the plain table of the same space is
    upgraded. -/
def preservedVectors (ext : VecExtension) (fingerprint : VectorSpaceFingerprint)
    (spaceChanged dimChanged : Bool) : List (String × Vector32) :=
  if !spaceChanged && !dimChanged && !db.vectors.isVec0 && ext.isSome then
    db.vectors.rows.filter (·.2.length = fingerprint.dim)
  else []

/-- The stored space has another digest. -/
def spaceChanged (fingerprint : VectorSpaceFingerprint) : Bool :=
  db.vectorSpace.any fun persisted =>
    persisted.digest ≠ "" && persisted.digest ≠ fingerprint.digest

/-- The table has another width. -/
def dimChanged (fingerprint : VectorSpaceFingerprint) : Bool :=
  db.vectors.dim.any (· ≠ fingerprint.dim)

/-- The vector table that a fingerprint calls for. -/
def vectorTableFor (ext : VecExtension) (fingerprint : VectorSpaceFingerprint) :
    Except String VecTable :=
  let spaceChanged := db.spaceChanged fingerprint
  let dimChanged := db.dimChanged fingerprint
  if ext.isSome ≠ db.vectors.isVec0 || dimChanged then
    match recreateVecTable ext ext.isSome fingerprint.dim with
    | .error e => .error e
    | .ok vectors =>
      .ok { vectors with rows := db.preservedVectors ext fingerprint spaceChanged dimChanged }
  -- no vector of the old space survives under the new one
  else if spaceChanged then .ok { db.vectors with rows := [] }
  else .ok db.vectors

/-- The vector table and the stored space under the fingerprint of a batch. -/
def establishVectorSpace (ext : VecExtension) :
    Option VectorSpaceFingerprint → Except String Database
  | none => .ok db
  | some fingerprint =>
    match db.vectorTableFor ext fingerprint with
    | .error e => .error e
    | .ok vectors => .ok { db with vectors, vectorSpace := some fingerprint }

/-- `upsert_vector_space_and_vectors` -/
def upsertVectorSpaceAndVectors (ext : VecExtension) (batch : PublishBatch) :
    Except String Database :=
  let rows := batch.vectorUpserts.filter fun row => db.hasSymbol row.1
  if rows = [] then .ok db
  else
    match (batch.fingerprint <|> db.vectorSpace).map VectorSpaceFingerprint.dim with
    | none => .error "first vector write requires a vector-space fingerprint"
    | some activeDim =>
      match rows.find? fun row => row.2.length ≠ activeDim with
      | some (symbolId, vector) =>
        .error ("vector for " ++ symbolId.quote ++ " has dimension " ++ toString vector.length ++
          ", expected " ++ toString activeDim)
      | none =>
        match db.establishVectorSpace ext batch.fingerprint with
        | .error e => .error e
        | .ok db =>
          match db.vectors.insertAll ext rows with
          | .error e => .error e
          | .ok vectors => .ok { db with vectors }

/-- `upsert_file_rows` -/
def upsertFileRows (rows : List FileCacheRow) : Database :=
  { db with files := upsertAll FileCacheRow.path db.files rows }

/-- `enqueue_symbols` -/
def enqueueSymbols (symbols : List QueuedSymbol) (now : ℤ) : Database :=
  let rows := symbols.map fun symbol => (⟨symbol.symbolId, symbol.filePath, now, 0, 0, none⟩ : QueueRow)
  { db with queue := upsertAll QueueRow.symbolId db.queue rows }

/-- `delete_edges` -/
def deleteEdges (keys : List EdgeKey) : Database :=
  { db with edges := db.edges.filter (·.key ∉ keys) }

/-- `delete_vectors` -/
def deleteVectors (ids : List String) : Database :=
  { db with vectors := { db.vectors with rows := db.vectors.rows.filter (·.1 ∉ ids) } }

/-- `remove_queued_symbols` -/
def removeQueuedSymbols (ids : List String) : Database :=
  { db with queue := db.queue.filter (·.symbolId ∉ ids) }

/-- `collect_file_symbol_ids` -/
def collectFileSymbolIds (paths : List String) : List String :=
  (db.symbols.filter (·.filePath ∈ paths)).map Symbol.id

/-- `delete_symbols`: the outbound edges go, the inbound ones are flagged. -/
def deleteSymbols (ids : List String) : Database :=
  { db with
    symbols := db.symbols.filter (·.id ∉ ids)
    fts := db.fts.filter (·.id ∉ ids)
    vectors := { db.vectors with rows := db.vectors.rows.filter (·.1 ∉ ids) }
    queue := db.queue.filter (·.symbolId ∉ ids)
    edges := (db.edges.filter (·.srcId ∉ ids)).map fun edge =>
      if edge.dstId ∈ ids then edge.flagDstMissing else edge }

/-- `delete_file_queue_rows` -/
def deleteFileQueueRows (paths : List String) : Database :=
  { db with queue := db.queue.filter (·.filePath ∉ paths) }

/-- `delete_file_rows` -/
def deleteFileRows (paths : List String) : Database :=
  { db with files := db.files.filter (·.path ∉ paths) }

/-- `UPDATE generation`: the semantic generation follows when nothing is pending. -/
def advanceGeneration : Database :=
  { db with
    sourceGeneration := db.sourceGeneration + 1
    semanticGeneration :=
      if db.queue = [] then db.sourceGeneration + 1 else db.semanticGeneration }

end Database

/-- `publish` at the time `now`. -/
def publish (ext : VecExtension) (now : ℤ) (db : Database) (batch : PublishBatch) :
    Except String (Database × PublishReceipt) :=
  let files := batch.coveredPaths
  let fileChanges := db.classifyFileChanges batch files
  let db := (db.upsertSymbols batch.symbolUpserts).upsertEdges batch.edgeUpserts
  match db.upsertVectorSpaceAndVectors ext batch with
  | .error e => .error e
  | .ok db =>
    let db := (db.upsertFileRows batch.fileRows).enqueueSymbols batch.queueEnqueue now
    let db := db.deleteEdges batch.edgeDeletes
    if !db.vectors.usable ext then .error "no such module: vec0"
    else
      let db := (db.deleteVectors batch.vectorDeletes).removeQueuedSymbols batch.queueRemove
      let symbolDeletes := batch.symbolDeletes ++ db.collectFileSymbolIds batch.fileDeletes
      let db := (db.deleteSymbols symbolDeletes).deleteFileQueueRows batch.fileDeletes
      let db := (db.deleteFileRows batch.fileDeletes).advanceGeneration
      let published : PublishedBatch :=
        ⟨db.sourceGeneration, files.length, batch.reason, fileChanges⟩
      .ok ({ db with batches := db.batches ++ [published] },
        ⟨db.sourceGeneration, db.semanticGeneration, db.queue.length, files⟩)

/-! ## What a committed transaction has written -/

/-- The ids whose rows a batch deletes. -/
def Database.deletedIds (db : Database) (batch : PublishBatch) : List String :=
  batch.symbolDeletes ++
    (db.upsertSymbols batch.symbolUpserts).collectFileSymbolIds batch.fileDeletes

/-- The rows of the tables after a committed transaction; `written` is the state after
    its vector step. -/
structure Published (ext : VecExtension) (now : ℤ) (db : Database) (batch : PublishBatch)
    (written db' : Database) : Prop where
  vectorStep : ((db.upsertSymbols batch.symbolUpserts).upsertEdges batch.edgeUpserts
    |>.upsertVectorSpaceAndVectors ext batch) = .ok written
  symbols : db'.symbols = (upsertAll Symbol.id db.symbols batch.symbolUpserts).filter
    (·.id ∉ db.deletedIds batch)
  edges : db'.edges = (((upsertAll Edge.key db.edges batch.edgeUpserts).filter
      (·.key ∉ batch.edgeDeletes)).filter (·.srcId ∉ db.deletedIds batch)).map
    fun edge => if edge.dstId ∈ db.deletedIds batch then edge.flagDstMissing else edge
  vectors : db'.vectors.rows = (written.vectors.rows.filter (·.1 ∉ batch.vectorDeletes)).filter
    (·.1 ∉ db.deletedIds batch)
  vectorForm : db'.vectors.form = written.vectors.form
  files : db'.files = (upsertAll FileCacheRow.path db.files batch.fileRows).filter
    (·.path ∉ batch.fileDeletes)
  queue : db'.queue = (((upsertAll QueueRow.symbolId db.queue
      (batch.queueEnqueue.map fun symbol => ⟨symbol.symbolId, symbol.filePath, now, 0, 0, none⟩)).filter
        (·.symbolId ∉ batch.queueRemove)).filter (·.symbolId ∉ db.deletedIds batch)).filter
    (·.filePath ∉ batch.fileDeletes)
  sourceGeneration : db'.sourceGeneration = db.sourceGeneration + 1
  semanticGeneration : db'.semanticGeneration =
    if db'.queue = [] then db.sourceGeneration + 1 else db.semanticGeneration

/-- The vector step writes the vector table and the stored space. -/
theorem upsertVectorSpaceAndVectors_eq {ext : VecExtension} {db db' : Database}
    {batch : PublishBatch} (h : db.upsertVectorSpaceAndVectors ext batch = .ok db') :
    db' = { db with vectors := db'.vectors, vectorSpace := db'.vectorSpace } := by
  unfold Database.upsertVectorSpaceAndVectors at h
  have hest : ∀ fp db₁, db.establishVectorSpace ext fp = .ok db₁ →
      db₁ = { db with vectors := db₁.vectors, vectorSpace := db₁.vectorSpace } := by
    intro fp db₁ h₁
    unfold Database.establishVectorSpace at h₁
    split at h₁
    · cases h₁
      rfl
    · split at h₁
      · cases h₁
      · cases h₁
        rfl
  dsimp only at h
  split at h
  · cases h
    rfl
  · split at h
    · cases h
    · split at h
      · cases h
      · split at h
        · cases h
        · rename_i db₁ h₁
          split at h
          · cases h
          · cases h
            have := hest _ _ h₁
            rw [this]

theorem publish_spec {ext : VecExtension} {now : ℤ} {db db' : Database} {batch : PublishBatch}
    {receipt : PublishReceipt} (h : publish ext now db batch = .ok (db', receipt)) :
    ∃ written, Published ext now db batch written db' := by
  unfold publish at h
  dsimp only at h
  split at h
  · cases h
  · rename_i written hwritten
    have heq := upsertVectorSpaceAndVectors_eq hwritten
    have hsym : written.symbols = upsertAll Symbol.id db.symbols batch.symbolUpserts := by
      rw [heq]; rfl
    have hedge : written.edges = upsertAll Edge.key db.edges batch.edgeUpserts := by
      rw [heq]; rfl
    have hfiles : written.files = db.files := by rw [heq]; rfl
    have hqueue : written.queue = db.queue := by rw [heq]; rfl
    have hsource : written.sourceGeneration = db.sourceGeneration := by rw [heq]; rfl
    have hsemantic : written.semanticGeneration = db.semanticGeneration := by rw [heq]; rfl
    split at h
    · cases h
    · simp only [Except.ok.injEq, Prod.mk.injEq] at h
      obtain ⟨rfl, -⟩ := h
      have hids : db.deletedIds batch = batch.symbolDeletes ++
          (written.symbols.filter (·.filePath ∈ batch.fileDeletes)).map Symbol.id := by
        rw [hsym]; rfl
      refine ⟨written, ?_⟩
      exact
        { vectorStep := hwritten
          symbols := by rw [hids, ← hsym]; rfl
          edges := by rw [hids, ← hedge]; rfl
          vectors := by rw [hids]; rfl
          vectorForm := rfl
          files := by rw [← hfiles]; rfl
          queue := by rw [hids, ← hqueue]; rfl
          sourceGeneration := by rw [← hsource]; rfl
          semanticGeneration := by rw [← hsource, ← hsemantic]; rfl }

/-- A fingerprint makes no new rows. -/
theorem establishVectorSpace_mem {ext : VecExtension} {db db' : Database}
    {fingerprint : Option VectorSpaceFingerprint}
    (h : db.establishVectorSpace ext fingerprint = .ok db') {row : String × Vector32}
    (hrow : row ∈ db'.vectors.rows) : row ∈ db.vectors.rows := by
  unfold Database.establishVectorSpace at h
  split at h
  · cases h
    exact hrow
  · split at h
    · cases h
    · rename_i fingerprint _ vectors htable
      cases h
      unfold Database.vectorTableFor at htable
      dsimp only at htable
      split_ifs at htable
      · split at htable
        · cases htable
        · cases htable
          unfold Database.preservedVectors at hrow
          dsimp only at hrow
          split_ifs at hrow
          · exact (List.mem_filter.1 hrow).1
          · cases hrow
      · cases htable
        cases hrow
      · cases htable
        exact hrow

/-- The vector step adds rows of live symbols only. -/
theorem upsertVectorSpaceAndVectors_mem {ext : VecExtension} {db db' : Database}
    {batch : PublishBatch} (h : db.upsertVectorSpaceAndVectors ext batch = .ok db')
    {row : String × Vector32} (hrow : row ∈ db'.vectors.rows) :
    row ∈ db.vectors.rows ∨ db.hasSymbol row.1 = true := by
  unfold Database.upsertVectorSpaceAndVectors at h
  dsimp only at h
  split at h
  · cases h
    exact .inl hrow
  · split at h
    · cases h
    · split at h
      · cases h
      · split at h
        · cases h
        · rename_i established hest
          split at h
          · cases h
          · rename_i vectors hinsert
            cases h
            unfold VecTable.insertAll at hinsert
            split_ifs at hinsert
            cases hinsert
            rcases mem_upsertAll.1 hrow with ⟨hold, -⟩ | hnew
            · exact .inl (establishVectorSpace_mem hest hold)
            · exact .inr (List.mem_filter.1 (mem_of_mem_build hnew)).2

/-- The rows of `symbol_fts` after a committed transaction. -/
theorem publish_fts {ext : VecExtension} {now : ℤ} {db db' : Database} {batch : PublishBatch}
    {receipt : PublishReceipt} (h : publish ext now db batch = .ok (db', receipt)) :
    db'.fts = (upsertAll FtsRow.id db.fts (batch.symbolUpserts.map Symbol.ftsRow)).filter
      (·.id ∉ db.deletedIds batch) := by
  unfold publish at h
  dsimp only at h
  split at h
  · cases h
  · rename_i written hwritten
    have heq := upsertVectorSpaceAndVectors_eq hwritten
    have hsym : written.symbols = upsertAll Symbol.id db.symbols batch.symbolUpserts := by
      rw [heq]; rfl
    have hfts : written.fts =
        upsertAll FtsRow.id db.fts (batch.symbolUpserts.map Symbol.ftsRow) := by
      rw [heq]; rfl
    split at h
    · cases h
    · simp only [Except.ok.injEq, Prod.mk.injEq] at h
      obtain ⟨rfl, -⟩ := h
      have hids : db.deletedIds batch = batch.symbolDeletes ++
          (written.symbols.filter (·.filePath ∈ batch.fileDeletes)).map Symbol.id := by
        rw [hsym]; rfl
      rw [hids, ← hfts]
      rfl

section Rows
variable {ext : VecExtension} {now : ℤ} {db db' written : Database} {batch : PublishBatch}

/-- A symbol of the table after a publish was there before and is not written, or is the
    one written; it is not deleted. -/
theorem Published.mem_symbols (hp : Published ext now db batch written db') {symbol : Symbol} :
    symbol ∈ db'.symbols ↔
      ((symbol ∈ db.symbols ∧ ∀ new ∈ batch.symbolUpserts, symbol.id ≠ new.id) ∨
        symbol ∈ build Symbol.id batch.symbolUpserts) ∧ symbol.id ∉ db.deletedIds batch := by
  rw [hp.symbols, List.mem_filter, mem_upsertAll, decide_eq_true_eq]

/-- A live symbol is not in a deleted file. -/
theorem Published.filePath_notMem (hp : Published ext now db batch written db') {symbol : Symbol}
    (hs : symbol ∈ db'.symbols) : symbol.filePath ∉ batch.fileDeletes := by
  intro hpath
  rw [hp.symbols, List.mem_filter, decide_eq_true_eq] at hs
  refine hs.2 (List.mem_append_right _ (List.mem_map.2 ⟨symbol, ?_, rfl⟩))
  exact List.mem_filter.2 ⟨hs.1, decide_eq_true hpath⟩

/-- A queue row of a live symbol stays, unless the batch removes it. -/
theorem Published.awaits_of_mem (hp : Published ext now db batch written db') {symbol : Symbol}
    (hs : symbol ∈ db'.symbols) (hremove : symbol.id ∉ batch.queueRemove) {queued : QueueRow}
    (hid : queued.symbolId = symbol.id) (hfile : queued.filePath = symbol.filePath)
    (hq : queued ∈ upsertAll QueueRow.symbolId db.queue (batch.queueEnqueue.map fun symbol =>
      ⟨symbol.symbolId, symbol.filePath, now, 0, 0, none⟩)) : db'.Awaits symbol := by
  refine ⟨queued, ?_, hid, hfile⟩
  rw [hp.queue]
  simp only [List.mem_filter, decide_eq_true_eq]
  rw [hid, hfile]
  exact ⟨⟨⟨hq, hremove⟩, (hp.mem_symbols.1 hs).2⟩, hp.filePath_notMem hs⟩

end Rows

/-! ## The vectors that a publish keeps -/

/-- The rows of `symbol_vec` that stay under the fingerprint of a batch. -/
def Database.keptVectors (db : Database) (ext : VecExtension)
    (fingerprint : VectorSpaceFingerprint) : List (String × Vector32) :=
  let spaceChanged := db.spaceChanged fingerprint
  let dimChanged := db.dimChanged fingerprint
  if ext.isSome ≠ db.vectors.isVec0 || dimChanged then
    db.preservedVectors ext fingerprint spaceChanged dimChanged
  else if spaceChanged then []
  else db.vectors.rows

theorem vectorTableFor_rows {ext : VecExtension} {db : Database}
    {fingerprint : VectorSpaceFingerprint} {vectors : VecTable}
    (h : db.vectorTableFor ext fingerprint = .ok vectors) :
    vectors.rows = db.keptVectors ext fingerprint := by
  unfold Database.vectorTableFor at h
  unfold Database.keptVectors
  dsimp only at h ⊢
  split_ifs at h ⊢
  · split at h
    · cases h
    · cases h
      rfl
  · cases h
    rfl
  · cases h
    rfl

/-- A batch without vectors writes none. -/
theorem upsertVectorSpaceAndVectors_nil {ext : VecExtension} {db : Database} {batch : PublishBatch}
    (h : batch.vectorUpserts = []) : db.upsertVectorSpaceAndVectors ext batch = .ok db := by
  unfold Database.upsertVectorSpaceAndVectors
  simp only [h, List.filter_nil, ↓reduceIte]

/-- The rows after the vector step of a batch that writes a vector of a live symbol. -/
theorem upsertVectorSpaceAndVectors_rows {ext : VecExtension} {db db' : Database}
    {batch : PublishBatch} {fingerprint : VectorSpaceFingerprint}
    (h : db.upsertVectorSpaceAndVectors ext batch = .ok db')
    (hfingerprint : batch.fingerprint = some fingerprint)
    (hne : ∃ row ∈ batch.vectorUpserts, db.hasSymbol row.1 = true) :
    db'.vectors.rows = upsertAll Prod.fst (db.keptVectors ext fingerprint)
      (batch.vectorUpserts.filter fun row => db.hasSymbol row.1) := by
  obtain ⟨row, hrow, hlive⟩ := hne
  have hrows : batch.vectorUpserts.filter (fun row => db.hasSymbol row.1) ≠ [] :=
    List.ne_nil_of_mem (List.mem_filter.2 ⟨hrow, hlive⟩)
  unfold Database.upsertVectorSpaceAndVectors at h
  dsimp only at h
  rw [if_neg hrows] at h
  split at h
  · cases h
  · split at h
    · cases h
    · split at h
      · cases h
      · rename_i established hest
        split at h
        · cases h
        · rename_i vectors hinsert
          cases h
          unfold VecTable.insertAll at hinsert
          split_ifs at hinsert
          cases hinsert
          rw [hfingerprint] at hest
          unfold Database.establishVectorSpace at hest
          dsimp only at hest
          split at hest
          · cases hest
          · rename_i table htable
            cases hest
            rw [← vectorTableFor_rows htable]

/-- A row that stays is one of the space that was recorded. -/
theorem mem_keptVectors {ext : VecExtension} {db : Database} {fingerprint : VectorSpaceFingerprint}
    {row : String × Vector32} (h : row ∈ db.keptVectors ext fingerprint) :
    row ∈ db.vectors.rows ∧ db.spaceChanged fingerprint = false := by
  unfold Database.keptVectors at h
  dsimp only at h
  split_ifs at h with htable hchanged
  · unfold Database.preservedVectors at h
    split_ifs at h with hkeep
    · simp only [Bool.and_eq_true, Bool.not_eq_true'] at hkeep
      exact ⟨(List.mem_filter.1 h).1, hkeep.1.1.1⟩
    · cases h
  · cases h
  · exact ⟨h, by simpa using hchanged⟩

/-- A batch without a vector of a live symbol writes none. -/
theorem upsertVectorSpaceAndVectors_unwritten {ext : VecExtension} {db : Database}
    {batch : PublishBatch} (h : ∀ row ∈ batch.vectorUpserts, ¬ db.hasSymbol row.1 = true) :
    db.upsertVectorSpaceAndVectors ext batch = .ok db := by
  unfold Database.upsertVectorSpaceAndVectors
  dsimp only
  rw [if_pos (List.filter_eq_nil_iff.2 h)]

/-- The recorded space after the vector step. -/
theorem upsertVectorSpaceAndVectors_vectorSpace {ext : VecExtension} {db db' : Database}
    {batch : PublishBatch} {fingerprint : VectorSpaceFingerprint}
    (h : db.upsertVectorSpaceAndVectors ext batch = .ok db')
    (hfingerprint : batch.fingerprint = some fingerprint)
    (hne : ∃ row ∈ batch.vectorUpserts, db.hasSymbol row.1 = true) :
    db'.vectorSpace = some fingerprint := by
  obtain ⟨row, hrow, hlive⟩ := hne
  have hrows : batch.vectorUpserts.filter (fun row => db.hasSymbol row.1) ≠ [] :=
    List.ne_nil_of_mem (List.mem_filter.2 ⟨hrow, hlive⟩)
  unfold Database.upsertVectorSpaceAndVectors at h
  dsimp only at h
  rw [if_neg hrows] at h
  split at h
  · cases h
  · split at h
    · cases h
    · split at h
      · cases h
      · rename_i established hest
        split at h
        · cases h
        · cases h
          rw [hfingerprint] at hest
          unfold Database.establishVectorSpace at hest
          dsimp only at hest
          split at hest
          · cases hest
          · cases hest
            rfl

/-- The vectors that are written have the dimension of the fingerprint. -/
theorem upsertVectorSpaceAndVectors_dim {ext : VecExtension} {db db' : Database}
    {batch : PublishBatch} {fingerprint : VectorSpaceFingerprint}
    (h : db.upsertVectorSpaceAndVectors ext batch = .ok db')
    (hfingerprint : batch.fingerprint = some fingerprint) {row : String × Vector32}
    (hrow : row ∈ batch.vectorUpserts.filter fun row => db.hasSymbol row.1) :
    row.2.length = fingerprint.dim := by
  unfold Database.upsertVectorSpaceAndVectors at h
  dsimp only at h
  rw [if_neg (List.ne_nil_of_mem hrow), hfingerprint] at h
  change (match (batch.vectorUpserts.filter fun row => db.hasSymbol row.1).find? fun row =>
    row.2.length ≠ fingerprint.dim with | some (symbolId, vector) => _ | none => _) = _ at h
  split at h
  · cases h
  next hnone =>
    have hall := List.find?_eq_none.1 hnone row hrow
    simpa using hall

/-- The recorded space is the one after the vector step. -/
theorem publish_vectorSpace {ext : VecExtension} {now : ℤ} {db db' written : Database}
    {batch : PublishBatch} {receipt : PublishReceipt}
    (h : publish ext now db batch = .ok (db', receipt))
    (hp : Published ext now db batch written db') : db'.vectorSpace = written.vectorSpace := by
  unfold publish at h
  dsimp only at h
  rw [hp.vectorStep] at h
  dsimp only at h
  split at h
  · cases h
  · simp only [Except.ok.injEq, Prod.mk.injEq] at h
    obtain ⟨rfl, -⟩ := h
    rfl

end Cognis
