/-
  `publish_request` of `cognis-indexer` (`pipeline.rs`): plan a batch, let the model embed
  its symbols, publish it.

  * `prepareSemantic` fills the vectors and the queue rows of a batch in;
  * `ChangePlanner.publishes`: the state after a request, which an error leaves alone.
-/
import Cognis.Indexer.Batch

namespace Cognis

open Table

/-- The reply of the model for the symbols of a batch. -/
inductive ModelReply where
  /-- no model is resident, and none may be loaded -/
  | noSemantic
  /-- no model, or it failed -/
  | needPending
  /-- the vectors of `embed_batch`, and `vector_fingerprint` -/
  | embedded (vectors : List Vector32) (fingerprint : ℕ → VectorSpaceFingerprint)

namespace PublishBatch

variable (batch : PublishBatch)

/-- The rows `queued` of the symbols of a batch. -/
def queued : List QueuedSymbol := batch.symbolUpserts.map fun symbol => ⟨symbol.id, symbol.filePath⟩

/-- `ModelOutcome::NeedPending` -/
def prepareNeedPending : PublishBatch :=
  { batch with
    vectorUpserts := []
    queueEnqueue := batch.queued
    queueRemove := btreeSet batch.queueRemove }

/-- `prepare_semantic_batch` -/
def prepareSemantic (reply : ModelReply) : PublishBatch :=
  let symbolIds := batch.symbolUpserts.map Symbol.id
  if batch.symbolUpserts = [] then batch
  else
    match reply with
    | .noSemantic =>
      { batch with queueEnqueue := [], queueRemove := btreeSet (batch.queueRemove ++ symbolIds) }
    | .needPending => batch.prepareNeedPending
    | .embedded vectors fingerprint =>
      if vectors.length = batch.symbolUpserts.length then
        { batch with
          vectorUpserts := symbolIds.zip vectors
          queueEnqueue := []
          queueRemove := btreeSet (batch.queueRemove ++ symbolIds)
          fingerprint := some (fingerprint ((vectors.head?.map List.length).getD 0)) }
      else batch.prepareNeedPending

end PublishBatch

/-- A view of the tree that is indexed: the planner with its clock, the request, and what
    the store and the model do. -/
structure IndexRequest where
  planner : ChangePlanner
  tree : SourceTree
  request : PlanRequest String
  ext : VecExtension
  now : ℤ
  /-- none when the batch is published as it was planned -/
  reply : Option ModelReply

namespace IndexRequest

variable (r : IndexRequest)

/-- The batch that is published. -/
def prepare (batch : PublishBatch) : PublishBatch := r.reply.elim batch batch.prepareSemantic

/-- `publish_request`, up to the drain of the queue. -/
def publishRequest (db : Database) : Database :=
  match r.planner.plan db r.tree r.request with
  | .error _ => db
  | .ok batch =>
    if r.reply.isSome ∧ batch.isEmpty then db
    else
      match publish r.ext r.now db (r.prepare batch) with
      | .error _ => db
      | .ok (db, _) => db

end IndexRequest

namespace IndexRequest

variable (r : IndexRequest)

/-- `publish_batch`, up to the drain of the queue. -/
def publishBatch (db : Database) (batch : PublishBatch) : Database :=
  match publish r.ext r.now db (r.prepare batch) with
  | .error _ => db
  | .ok (db, _) => db

/-- `remove_file` of a path under the root, up to the drain of the queue. -/
def removeFile (db : Database) (path : String) : Database :=
  match r.planner.plan db r.tree (.touched [path]) with
  | .error _ => db
  | .ok batch =>
    if !batch.isEmpty then r.publishBatch db batch
    else
      let ids := db.symbolIdsInFile path
      if ids = [] then db
      else
        r.publishBatch db
          { symbolDeletes := ids, vectorDeletes := ids, queueRemove := ids, reason := .incremental }

end IndexRequest

/-! ## What the model changes -/

section Frame
variable {batch : PublishBatch} {reply : ModelReply}

/-- The model writes the vectors and the queue rows of a batch. -/
theorem PublishBatch.prepareSemantic_eq (batch : PublishBatch) (reply : ModelReply) :
    ∃ vectorUpserts queueEnqueue queueRemove fingerprint, batch.prepareSemantic reply =
      { batch with vectorUpserts, queueEnqueue, queueRemove, fingerprint } := by
  unfold prepareSemantic
  dsimp only
  split_ifs
  · exact ⟨_, _, _, _, rfl⟩
  · cases reply with
    | noSemantic | needPending => exact ⟨_, _, _, _, rfl⟩
    | embedded vectors fingerprint =>
      dsimp only
      split_ifs <;> exact ⟨_, _, _, _, rfl⟩

@[simp] theorem PublishBatch.prepareSemantic_symbolUpserts :
    (batch.prepareSemantic reply).symbolUpserts = batch.symbolUpserts := by
  obtain ⟨_, _, _, _, heq⟩ := batch.prepareSemantic_eq reply
  rw [heq]

@[simp] theorem PublishBatch.prepareSemantic_vectorDeletes :
    (batch.prepareSemantic reply).vectorDeletes = batch.vectorDeletes := by
  obtain ⟨_, _, _, _, heq⟩ := batch.prepareSemantic_eq reply
  rw [heq]

@[simp] theorem Database.deletedIds_prepareSemantic {db : Database} :
    db.deletedIds (batch.prepareSemantic reply) = db.deletedIds batch := by
  obtain ⟨_, _, _, _, heq⟩ := batch.prepareSemantic_eq reply
  rw [heq]
  rfl

end Frame


/-- The model leaves the rows of a planned batch to the planner, but for the vectors and
    the queue rows, and these are of new symbols. -/
theorem PlannedBatch.prepareSemantic {db : Database} {files : PlannedFiles} {batch : PublishBatch}
    (h : PlannedBatch db files batch) (reply : ModelReply) :
    PlannedBatch db files (batch.prepareSemantic reply) := by
  have hqueued : ∀ q ∈ batch.queued, ∃ s ∈ files.newSymbols, s.id = q.symbolId := by
    intro q hq
    obtain ⟨s, hs, rfl⟩ := List.mem_map.1 hq
    exact ⟨s, (h.upserts s).1 hs, rfl⟩
  unfold PublishBatch.prepareSemantic
  dsimp only
  split_ifs
  · exact h
  · cases reply with
    | noSemantic => exact { h with enqueue := nofun }
    | needPending => exact { h with enqueue := hqueued }
    | embedded vectors fingerprint =>
      dsimp only
      split_ifs
      · exact { h with enqueue := nofun }
      · exact { h with enqueue := hqueued }

theorem IndexRequest.planned_prepare {r : IndexRequest} {db : Database} {files : PlannedFiles}
    {batch : PublishBatch} (h : PlannedBatch db files batch) :
    PlannedBatch db files (r.prepare batch) := by
  unfold IndexRequest.prepare
  cases r.reply with
  | none => exact h
  | some reply => exact h.prepareSemantic reply

/-- **A request** leaves the database alone, or publishes a batch that its files plan. -/
theorem IndexRequest.publishRequest_cases (r : IndexRequest) (db : Database) :
    r.publishRequest db = db ∨ ∃ files batch receipt,
      r.planner.planFiles db r.tree r.request = .ok files ∧
      files.From r.planner db r.tree r.request ∧ PlannedBatch db files batch ∧
      publish r.ext r.now db batch = .ok (r.publishRequest db, receipt) := by
  unfold IndexRequest.publishRequest
  split
  · exact .inl rfl
  · rename_i batch hplan
    split_ifs
    · exact .inl rfl
    · split
      · exact .inl rfl
      · rename_i db' receipt hpublish
        unfold ChangePlanner.plan at hplan
        dsimp only at hplan
        split at hplan
        · cases hplan
        · rename_i files hfiles
          cases hplan
          have hfrom := ChangePlanner.planFiles_from hfiles
          exact .inr ⟨files, _, receipt, hfiles, hfrom,
            planned_prepare (ChangePlanner.buildBatch_spec hfrom.file _), hpublish⟩

end Cognis
