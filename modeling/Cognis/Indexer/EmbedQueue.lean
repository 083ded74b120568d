/-
  The embedding queue drain of `cognis-indexer` (`embed_queue.rs`) on the tables of the
  store.

  * `dueRows` reads the rows to embed; `removeStaleQueueRow`, `persistSuccess` and
    `recordFailure` are the writes of the drain, `drain` one pass over the due rows;
  * `StoreOp` is a write on the store, of a publish or of a drain; an error rolls it back;
  * `generation_sound`: after every sequence of writes, the semantic generation is the
    source generation exactly when nothing is queued.
-/
import Cognis.Store.Publish
import Mathlib.Algebra.Order.Ring.Int
import Mathlib.Data.List.GetD

namespace Cognis

open Table

/-! ## The rows to embed -/

/-- `OwnerConfig`, the fields of the drain. -/
structure OwnerConfig where
  embedBatchBudget : UInt32 := 64
  embedBackoffMs : List UInt64 := [1000, 5000, 30000, 300000]

/-- `backoff_ms_for_attempt`: the ladder, clamped at its last step. -/
def OwnerConfig.backoffMsForAttempt (config : OwnerConfig) (attempt : UInt32) : UInt64 :=
  if config.embedBackoffMs.isEmpty then 0
  else config.embedBackoffMs.getD (min attempt.toNat (config.embedBackoffMs.length - 1)) 0

/-- The backoff is a step of the ladder: it never grows past it. -/
theorem OwnerConfig.backoffMsForAttempt_mem {config : OwnerConfig} (attempt : UInt32)
    (h : config.embedBackoffMs ≠ []) :
    config.backoffMsForAttempt attempt ∈ config.embedBackoffMs := by
  have hpos : 0 < config.embedBackoffMs.length := List.length_pos_of_ne_nil h
  have hlt : min attempt.toNat (config.embedBackoffMs.length - 1) < config.embedBackoffMs.length := by
    omega
  rw [backoffMsForAttempt, if_neg (by simpa using h), List.getD_eq_getElem _ _ hlt]
  exact List.getElem_mem hlt

/-- `embedding_text` -/
def Symbol.embeddingText (symbol : Symbol) : String :=
  let parts := symbol.qualifiedName ::
    (symbol.signature.toList ++ symbol.docstring.toList ++ symbol.bodyExcerpt.toList)
  String.intercalate "\n" (parts.filter (· ≠ ""))

/-- `DueQueueRow` -/
structure DueQueueRow where
  symbolId : String
  filePath : String
  attempts : UInt32
  deriving DecidableEq, Repr

/-- `i64::saturating_add` of a time and a delay. -/
def saturatingAddI64 (now : ℤ) (delay : ℕ) : ℤ := min (now + delay) (2 ^ 63 - 1)

/-- `u32::saturating_add` -/
def saturatingAddU32 (a b : UInt32) : UInt32 := if a ≤ a + b then a + b else 0xFFFFFFFF

namespace Database

variable (db : Database)

/-- `due_rows` -/
def dueRows (now : ℤ) (budget : ℕ) : List DueQueueRow :=
  let due := db.queue.filter (·.nextAttemptAt ≤ now)
  let ordered := sortOn (fun row => toLex (row.nextAttemptAt, toLex (row.enqueuedAt, row.symbolId))) due
  (ordered.take budget).map fun row => ⟨row.symbolId, row.filePath, row.attempts⟩

/-! ## The writes of the drain -/

/-- `delete_queue_row` -/
def deleteQueueRow (symbolId : String) : Database :=
  { db with queue := db.queue.filter (·.symbolId ≠ symbolId) }

/-- `advance_semantic_if_queue_empty` -/
def advanceSemanticIfQueueEmpty : Database :=
  if db.queue = [] then { db with semanticGeneration := db.sourceGeneration } else db

/-- `remove_stale_queue_row` -/
def removeStaleQueueRow (symbolId : String) : Database :=
  (db.deleteQueueRow symbolId).advanceSemanticIfQueueEmpty

/-- `upsert_symbol_vectors` -/
def upsertSymbolVectors (ext : VecExtension) (symbolId : String) (vectors : List Vector32) :
    Except String Database :=
  if !db.hasSymbol symbolId then .ok db
  else
    match db.vectors.insertAll ext (vectors.map (symbolId, ·)) with
    | .error e => .error e
    | .ok table => .ok { db with vectors := table }

/-- `persist_success` -/
def persistSuccess (ext : VecExtension) (symbolId : String) (vectors : List Vector32) :
    Except String Database :=
  match db.upsertSymbolVectors ext symbolId vectors with
  | .error e => .error e
  | .ok db => .ok (db.deleteQueueRow symbolId).advanceSemanticIfQueueEmpty

/-- `record_failure` at the time `now`. -/
def recordFailure (config : OwnerConfig) (row : DueQueueRow) (message : String) (now : ℤ) :
    Database :=
  let attempts := saturatingAddU32 row.attempts 1
  let backoffMs := config.backoffMsForAttempt (attempts - 1)
  let nextAttemptAt := saturatingAddI64 now ((backoffMs.toNat + 999) / 1000)
  { db with
    queue := db.queue.map fun queued =>
      if queued.symbolId = row.symbolId then
        { queued with attempts, lastError := some message, nextAttemptAt }
      else queued }

end Database

/-! ## One pass of the drain -/

/-- What the model slot and the embedder answer to one text. -/
inductive EmbedReply where
  | unavailable
  /-- an embedder of the dimension, with its answer to the batch of one text -/
  | answered (dim : ℕ) (answer : Except String (List Vector32))

/-- `embed_symbol`: the stored dimension is reconciled before the text is embedded. -/
def Database.embedSymbol (db : Database) (ext : VecExtension) :
    EmbedReply → Database × Except String (List Vector32)
  | .unavailable => (db, .error "embedder unavailable")
  | .answered dim answer =>
    let reconciled := if 0 < dim then db.reconcileEmbeddingDim ext dim else .ok db
    match reconciled with
    | .error e => (db, .error e)
    | .ok db =>
      match answer with
      | .error e => (db, .error e)
      | .ok vectors =>
        if vectors.length = 1 then (db, .ok vectors)
        else (db, .error ("embed batch length mismatch: expected 1, got " ++
          toString vectors.length))

/-- The body of the loop of `drain` over the due rows; `embedder` answers for the text of
    a symbol. An error of `persist_success` ends the pass. -/
def Database.drainRow (ext : VecExtension) (config : OwnerConfig) (embedder : Symbol → EmbedReply)
    (now : ℤ) (db : Database) (row : DueQueueRow) : Database × Except String ℕ :=
  match db.hydrateIds [row.symbolId] with
  | [] => (db.removeStaleQueueRow row.symbolId, .ok 0)
  | symbol :: _ =>
    match db.embedSymbol ext (embedder symbol) with
    | (db, .error message) => (db.recordFailure config row message now, .ok 0)
    | (db, .ok vectors) =>
      match db.persistSuccess ext row.symbolId vectors with
      | .error e => (db, .error e)
      | .ok db => (db, .ok 1)

/-- The loop of `drain`, with the number of rows drained. -/
def Database.drainRows (ext : VecExtension) (config : OwnerConfig) (embedder : Symbol → EmbedReply)
    (now : ℤ) (db : Database) : List DueQueueRow → Database × Except String ℕ
  | [] => (db, .ok 0)
  | row :: rows =>
    match db.drainRow ext config embedder now row with
    | (db, .error e) => (db, .error e)
    | (db, .ok drained) =>
      let (db, rest) := db.drainRows ext config embedder now rows
      (db, rest.map (drained + ·))

/-- `drain` at the time `now`. -/
def Database.drain (ext : VecExtension) (config : OwnerConfig) (embedder : Symbol → EmbedReply)
    (now : ℤ) (db : Database) (budget : ℕ) : Database × Except String ℕ :=
  if budget = 0 then (db, .ok 0)
  else db.drainRows ext config embedder now (db.dueRows now budget)

/-! ## The writes on the store -/

/-- A write on the store: a transaction of its own. -/
inductive StoreOp where
  | publish (ext : VecExtension) (now : ℤ) (batch : PublishBatch)
  | drainSuccess (ext : VecExtension) (symbolId : String) (vectors : List Vector32)
  | staleRemoval (symbolId : String)
  | failureRecord (config : OwnerConfig) (row : DueQueueRow) (message : String) (now : ℤ)

/-- The write, when it commits. -/
def StoreOp.commit (db : Database) : StoreOp → Except String Database
  | .publish ext now batch =>
    match Cognis.publish ext now db batch with
    | .error e => .error e
    | .ok (db, _) => .ok db
  | .drainSuccess ext symbolId vectors => db.persistSuccess ext symbolId vectors
  | .staleRemoval symbolId => .ok (db.removeStaleQueueRow symbolId)
  | .failureRecord config row message now => .ok (db.recordFailure config row message now)

/-- The write with its rollback. -/
def StoreOp.apply (db : Database) (op : StoreOp) : Database :=
  match op.commit db with
  | .error _ => db
  | .ok db => db

/-- The counters against the queue. -/
structure Generations (db : Database) : Prop where
  le : db.semanticGeneration ≤ db.sourceGeneration
  eq_iff : db.semanticGeneration = db.sourceGeneration ↔ db.queue = []

/-- What a write does to the counters. -/
structure Advances (db db' : Database) : Prop where
  source : db.sourceGeneration ≤ db'.sourceGeneration
  semantic : db.semanticGeneration ≤ db'.semanticGeneration
  generations : Generations db'

namespace Database

variable {db db' : Database}

theorem generations_empty : Generations empty := ⟨Nat.le_refl 0, by decide⟩

/-- The queue loses rows: the semantic generation catches up if none is left. -/
theorem advances_advanceSemantic (h : Generations db) (hsource : db'.sourceGeneration = db.sourceGeneration)
    (hsemantic : db'.semanticGeneration = db.semanticGeneration)
    (hqueue : db.queue = [] → db'.queue = []) : Advances db db'.advanceSemanticIfQueueEmpty := by
  have hle := h.le
  unfold advanceSemanticIfQueueEmpty
  split_ifs with hempty
  · refine ⟨hsource.ge, ?_, ⟨Nat.le_refl _, ?_⟩⟩
    · dsimp only
      omega
    · exact iff_of_true rfl hempty
  · refine ⟨hsource.ge, hsemantic.ge, ⟨by omega, ?_⟩⟩
    have hlive : ¬ db.queue = [] := fun e => hempty (hqueue e)
    have hne : ¬ db.semanticGeneration = db.sourceGeneration := fun e => hlive (h.eq_iff.1 e)
    rw [hsource, hsemantic]
    exact iff_of_false hne hempty

theorem deleteQueueRow_queue {symbolId : String} (h : db.queue = []) :
    (db.deleteQueueRow symbolId).queue = [] := by
  rw [deleteQueueRow, h]
  rfl

theorem advances_removeStaleQueueRow (h : Generations db) (symbolId : String) :
    Advances db (db.removeStaleQueueRow symbolId) :=
  advances_advanceSemantic h rfl rfl deleteQueueRow_queue

/-- `upsert_symbol_vectors` writes vectors only. -/
theorem upsertSymbolVectors_eq {ext : VecExtension} {symbolId : String} {vectors : List Vector32}
    (h : db.upsertSymbolVectors ext symbolId vectors = .ok db') :
    db' = { db with vectors := db'.vectors } := by
  unfold upsertSymbolVectors at h
  split at h
  · cases h
    rfl
  · split at h
    · cases h
    · cases h
      rfl

theorem advances_persistSuccess (h : Generations db) {ext : VecExtension} {symbolId : String}
    {vectors : List Vector32} (hp : db.persistSuccess ext symbolId vectors = .ok db') :
    Advances db db' := by
  unfold persistSuccess at hp
  split at hp
  · cases hp
  · rename_i written hw
    cases hp
    have heq := upsertSymbolVectors_eq hw
    refine advances_advanceSemantic h ?_ ?_ fun e => deleteQueueRow_queue ?_
    · rw [heq]
      rfl
    · rw [heq]
      rfl
    · rw [heq]
      exact e

theorem advances_recordFailure (h : Generations db) (config : OwnerConfig) (row : DueQueueRow)
    (message : String) (now : ℤ) : Advances db (db.recordFailure config row message now) := by
  refine ⟨Nat.le_refl _, Nat.le_refl _, h.le, h.eq_iff.trans ?_⟩
  simp [recordFailure]

/-- `reconcile_embedding_dim` writes the vector table and the stored dimension; a new
    table is empty. -/
theorem reconcileEmbeddingDim_eq {ext : VecExtension} {dim : ℕ}
    (h : db.reconcileEmbeddingDim ext dim = .ok db') :
    db' = { db with vectors := db'.vectors, embeddingDim := db'.embeddingDim } ∧
      db'.vectors.rows ⊆ db.vectors.rows := by
  unfold reconcileEmbeddingDim at h
  split at h
  · cases h
    exact ⟨rfl, List.Subset.refl _⟩
  · split at h
    · cases h
    · rename_i vectors hrecreate
      cases h
      have hrows : vectors.rows = [] := by
        unfold recreateVecTable at hrecreate
        repeat' split at hrecreate
        all_goals cases hrecreate
        all_goals rfl
      exact ⟨rfl, by rw [hrows]; exact List.nil_subset _⟩

theorem embedSymbol_eq (ext : VecExtension) (reply : EmbedReply) :
    ∃ vectors dim, (db.embedSymbol ext reply).1 = { db with vectors, embeddingDim := dim } ∧
      vectors.rows ⊆ db.vectors.rows := by
  cases reply with
  | unavailable => exact ⟨db.vectors, db.embeddingDim, rfl, List.Subset.refl _⟩
  | answered dim answer =>
    unfold embedSymbol
    dsimp only
    split
    · exact ⟨db.vectors, db.embeddingDim, rfl, List.Subset.refl _⟩
    · rename_i db₁ h
      have heq : db₁ = { db with vectors := db₁.vectors, embeddingDim := db₁.embeddingDim } ∧
          db₁.vectors.rows ⊆ db.vectors.rows := by
        split at h
        · exact reconcileEmbeddingDim_eq h
        · cases h
          exact ⟨rfl, List.Subset.refl _⟩
      refine ⟨db₁.vectors, db₁.embeddingDim, ?_, heq.2⟩
      split
      · exact heq.1
      · split <;> exact heq.1

/-- A vector that `embed_symbol` returns is the only one of an answer. -/
theorem embedSymbol_ok {ext : VecExtension} {reply : EmbedReply} {vectors : List Vector32}
    (h : (db.embedSymbol ext reply).2 = .ok vectors) :
    ∃ dim vector, vectors = [vector] ∧ reply = .answered dim (.ok [vector]) := by
  cases reply with
  | unavailable => cases h
  | answered dim answer =>
    unfold embedSymbol at h
    dsimp only at h
    split at h
    · cases h
    · split at h
      · cases h
      · split_ifs at h with hlen
        cases h
        obtain ⟨vector, rfl⟩ := List.length_eq_one_iff.1 hlen
        exact ⟨dim, vector, rfl, rfl⟩

/-- The queue row of another symbol stays. -/
theorem Awaits.deleteQueueRow {symbol : Symbol} {id : String} (h : db.Awaits symbol)
    (hne : symbol.id ≠ id) : (db.deleteQueueRow id).Awaits symbol := by
  obtain ⟨queued, hq, hid, hpath⟩ := h
  refine ⟨queued, List.mem_filter.2 ⟨hq, ?_⟩, hid, hpath⟩
  rw [hid]
  exact decide_eq_true hne

/-- Advancing the semantic generation writes no row. -/
theorem advanceSemanticIfQueueEmpty_rows (db : Database) :
    db.advanceSemanticIfQueueEmpty.symbols = db.symbols ∧
    db.advanceSemanticIfQueueEmpty.vectors = db.vectors ∧
    db.advanceSemanticIfQueueEmpty.queue = db.queue := by
  unfold advanceSemanticIfQueueEmpty
  split_ifs <;> exact ⟨rfl, rfl, rfl⟩

/-- A failure keeps the queue rows. -/
theorem Awaits.recordFailure {symbol : Symbol} (h : db.Awaits symbol) (config : OwnerConfig)
    (row : DueQueueRow) (message : String) (now : ℤ) :
    (db.recordFailure config row message now).Awaits symbol := by
  obtain ⟨queued, hq, hid, hpath⟩ := h
  refine ⟨_, List.mem_map_of_mem hq, ?_, ?_⟩
  · split_ifs <;> exact hid
  · split_ifs <;> exact hpath

theorem advances_publish (h : Generations db) {ext : VecExtension} {now : ℤ} {batch : PublishBatch}
    {receipt : PublishReceipt} (hp : publish ext now db batch = .ok (db', receipt)) :
    Advances db db' := by
  obtain ⟨written, hspec⟩ := publish_spec hp
  have hsource := hspec.sourceGeneration
  have hsemantic := hspec.semanticGeneration
  have hle := h.le
  split_ifs at hsemantic with hempty
  · exact ⟨by omega, by omega, by omega, iff_of_true (by omega) hempty⟩
  · exact ⟨by omega, by omega, by omega, iff_of_false (by omega) hempty⟩

end Database

theorem Advances.trans {db₁ db₂ db₃ : Database} (h : Advances db₁ db₂) (h' : Advances db₂ db₃) :
    Advances db₁ db₃ :=
  ⟨Nat.le_trans h.source h'.source, Nat.le_trans h.semantic h'.semantic, h'.generations⟩

theorem Generations.embedSymbol {db : Database} (h : Generations db) (ext : VecExtension)
    (reply : EmbedReply) : Advances db (db.embedSymbol ext reply).1 := by
  obtain ⟨vectors, dim, heq, -⟩ := db.embedSymbol_eq ext reply
  rw [heq]
  exact ⟨Nat.le_refl _, Nat.le_refl _, h.le, h.eq_iff⟩

theorem Generations.drainRow {db : Database} (h : Generations db) (ext : VecExtension)
    (config : OwnerConfig) (embedder : Symbol → EmbedReply) (now : ℤ) (row : DueQueueRow) :
    Advances db (db.drainRow ext config embedder now row).1 := by
  unfold Database.drainRow
  split
  · exact Database.advances_removeStaleQueueRow h _
  · rename_i symbol _ _
    have hembed := h.embedSymbol ext (embedder symbol)
    split
    · rename_i db₁ message hdb
      rw [hdb] at hembed
      exact hembed.trans (Database.advances_recordFailure hembed.generations config row message now)
    · rename_i db₁ vectors hdb
      rw [hdb] at hembed
      split
      · exact hembed
      · rename_i hp
        exact hembed.trans (Database.advances_persistSuccess hembed.generations hp)

/-- **A pass of the drain** keeps the counters sound, however the embedder answers. -/
theorem Generations.drain {db : Database} (h : Generations db) (ext : VecExtension)
    (config : OwnerConfig) (embedder : Symbol → EmbedReply) (now : ℤ) (budget : ℕ) :
    Advances db (db.drain ext config embedder now budget).1 := by
  have hrows : ∀ rows, ∀ {db}, Generations db →
      Advances db (Database.drainRows ext config embedder now db rows).1 := by
    intro rows
    induction rows with
    | nil => exact fun h => ⟨Nat.le_refl _, Nat.le_refl _, h⟩
    | cons row rows ih =>
      intro db h
      have hrow := h.drainRow ext config embedder now row
      unfold Database.drainRows
      split
      · rename_i hdb
        rw [hdb] at hrow
        exact hrow
      · rename_i hdb
        rw [hdb] at hrow
        exact hrow.trans (ih hrow.generations)
  unfold Database.drain
  split_ifs
  · exact ⟨Nat.le_refl _, Nat.le_refl _, h⟩
  · exact hrows _ h

/-- **One write** keeps the counters sound. -/
theorem StoreOp.advances {db : Database} (h : Generations db) (op : StoreOp) :
    Advances db (op.apply db) := by
  unfold StoreOp.apply
  split
  · exact ⟨Nat.le_refl _, Nat.le_refl _, h⟩
  · rename_i db' hcommit
    cases op with
    | publish ext now batch =>
      unfold commit at hcommit
      dsimp only at hcommit
      split at hcommit
      · cases hcommit
      · rename_i published receipt hp
        cases hcommit
        exact Database.advances_publish h hp
    | drainSuccess ext symbolId vectors => exact Database.advances_persistSuccess h hcommit
    | staleRemoval symbolId =>
      cases hcommit
      exact Database.advances_removeStaleQueueRow h symbolId
    | failureRecord config row message now =>
      cases hcommit
      exact Database.advances_recordFailure h config row message now

theorem generations_foldl {db : Database} (h : Generations db) (ops : List StoreOp) :
    Generations (ops.foldl StoreOp.apply db) := by
  induction ops generalizing db with
  | nil => exact h
  | cons op ops ih => exact ih (op.advances h).generations

/-- A committed publish raises the source generation by one. -/
theorem StoreOp.commit_publish {db db' : Database} {ext : VecExtension} {now : ℤ}
    {batch : PublishBatch} (h : (StoreOp.publish ext now batch).commit db = .ok db') :
    db'.sourceGeneration = db.sourceGeneration + 1 := by
  unfold commit at h
  dsimp only at h
  split at h
  · cases h
  · rename_i published receipt hp
    cases h
    obtain ⟨written, hspec⟩ := publish_spec hp
    exact hspec.sourceGeneration

/-- **Generations and queue.** From a fresh database, in every state that a sequence of
    writes reaches the semantic generation is at most the source generation, and equal to
    it exactly when nothing is queued; the next write lowers neither counter, a
    committed publish raises the source generation by one, and a failed one leaves the
    database as it was. -/
theorem generation_sound (ops : List StoreOp) :
    let db := ops.foldl StoreOp.apply Database.empty
    db.semanticGeneration ≤ db.sourceGeneration ∧
    (db.semanticGeneration = db.sourceGeneration ↔ db.queue = []) ∧
    ∀ op : StoreOp, db.sourceGeneration ≤ (op.apply db).sourceGeneration ∧
      db.semanticGeneration ≤ (op.apply db).semanticGeneration ∧
      ∀ ext now batch, op = .publish ext now batch →
        (∀ db', op.commit db = .ok db' → op.apply db = db' ∧
          db'.sourceGeneration = db.sourceGeneration + 1) ∧
        (∀ e, op.commit db = .error e → op.apply db = db) := by
  intro db
  have hdb : Generations db := generations_foldl Database.generations_empty ops
  refine ⟨hdb.le, hdb.eq_iff, ?_⟩
  intro op
  have hop := op.advances hdb
  refine ⟨hop.source, hop.semantic, ?_⟩
  rintro ext now batch rfl
  constructor
  · intro db' h
    exact ⟨by rw [StoreOp.apply, h], StoreOp.commit_publish h⟩
  · intro e h
    rw [StoreOp.apply, h]

end Cognis
