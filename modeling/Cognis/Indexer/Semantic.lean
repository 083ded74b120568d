/-
  The vectors of the live symbols under the operations of `IndexerPipeline`
  (`pipeline.rs`, `embed_queue.rs`, `publish.rs`).

  * `Accounted` is the invariant: a live symbol has a vector or a queue row;
  * `IndexerPipeline.KeepsVectors`: a step drops no vector but of a symbol that is queued,
    or that it writes or deletes; `Accounted.drainRow` and `Unprepared.accounted` are about
    the drain and the publishes of such steps, `semantic_generation_sound` about the runs;
  * `not_keepsSemanticGeneration`: a session whose embedder has another dimension empties
    the vector table and queues nothing.
-/
import Cognis.Indexer.Integrity
import Cognis.Indexer.Session

namespace Cognis

open Table

/-! ## The property -/

/-- The generations are equal only when every live symbol has a vector, and no live symbol
    is missing both a vector and a queue row. -/
structure SemanticSound (db : Database) : Prop where
  vectors : db.semanticGeneration = db.sourceGeneration →
    ∀ s ∈ db.symbols, db.hasVector s.id = true
  queued : ∀ s ∈ db.symbols, db.hasVector s.id = true ∨ db.isQueued s.id = true

/-- **Accounted.** A live symbol has a vector or its queue row. -/
def Database.Accounted (db : Database) : Prop :=
  ∀ s ∈ db.symbols, db.hasVector s.id = true ∨ db.Awaits s

/-- The invariant. -/
structure IndexerPipeline.Sound (p : IndexerPipeline) : Prop where
  generations : Generations p.db
  accounted : p.configured = true → p.db.Accounted

theorem IndexerPipeline.Sound.semanticSound {p : IndexerPipeline} (h : p.Sound)
    (hconf : p.configured = true) : SemanticSound p.db := by
  constructor
  · intro hgen s hs
    rcases h.accounted hconf s hs with hvec | ⟨queued, hq, -⟩
    · exact hvec
    · rw [h.generations.eq_iff.1 hgen] at hq
      cases hq
  · intro s hs
    refine (h.accounted hconf s hs).imp_right ?_
    rintro ⟨queued, hq, hid, -⟩
    exact Database.isQueued_iff.2 ⟨queued, hq, hid⟩

/-! ## The steps that keep the vectors -/

namespace Database

variable (db : Database)

/-- The reconcile for an embedder of the dimension replaces the vector table. -/
def replacesVectors (ext : VecExtension) (dim : ℕ) : Bool :=
  0 < dim && !db.embeddingDimReconciled ext dim && ext.all fun creates => creates dim

/-- Opening a session replaces the vector table. -/
def openingReplaces (ext : VecExtension) (opening : Opening) : Bool :=
  (db.vectors.isVec0 && !ext.isSome) || opening.dim.any ((db.healLegacyVec0 ext).replacesVectors ext)

/-- A symbol whose vector a batch drops is queued, or the batch writes or deletes it. -/
def BatchKeeps (ext : VecExtension) (batch : PublishBatch) : ModelReply → Prop
  | .noSemantic => ∀ s ∈ batch.symbolUpserts, db.hasVector s.id = true
  | .needPending => True
  | .embedded vectors fingerprint =>
    batch.symbolUpserts ≠ [] → vectors.length = batch.symbolUpserts.length →
      ∀ s ∈ db.symbols, db.Awaits s ∨ (∃ new ∈ batch.symbolUpserts, new.id = s.id) ∨
        s.id ∈ db.deletedIds batch ∨
        ∃ row ∈ db.keptVectors ext (fingerprint ((vectors.head?.map List.length).getD 0)),
          row.1 = s.id

/-- The batch of a request keeps the vectors. -/
def RequestKeeps (r : IndexRequest) : Prop :=
  ∀ batch, r.planner.plan db r.tree r.request = .ok batch →
    ∀ reply, r.reply = some reply → db.BatchKeeps r.ext batch reply

end Database

/-- **The condition on a step**, for a session with an embedder: a vector that the step drops
    belongs to a symbol that is queued, or that the step writes or deletes; a session without a
    model writes symbols that have a vector only; and the session opens on a store whose
    symbols have a vector or are queued. -/
def IndexerPipeline.KeepsVectors (p : IndexerPipeline) : PipelineStep → Prop
  | .openSession ext opening => (opening.session ext).configured = true → ∀ s ∈ p.db.symbols,
      p.db.Awaits s ∨ (p.db.hasVector s.id = true ∧ p.db.openingReplaces ext opening = false)
  | .publishRequest call request => ∀ session ∈ p.session, session.configured = true →
      p.db.RequestKeeps (session.request call request)
  | .removeFile call path => ∀ session ∈ p.session, session.configured = true →
      p.db.RequestKeeps (session.request call (.touched [path]))
  | .drainRow _ row reply _ => ∀ session ∈ p.session, ∀ dim ∈ reply.dim,
      p.db.hasSymbol row.symbolId = true → p.db.replacesVectors session.ext dim = true →
        ∀ s ∈ p.db.symbols, p.db.Awaits s

instance (db : Database) (ext : VecExtension) (batch : PublishBatch) (reply : ModelReply) :
    Decidable (db.BatchKeeps ext batch reply) := by
  cases reply <;> unfold Database.BatchKeeps <;> infer_instance

instance (db : Database) (r : IndexRequest) : Decidable (db.RequestKeeps r) :=
  match h : r.planner.plan db r.tree r.request, h' : r.reply with
  | .error _, _ => .isTrue fun _ hok => nomatch h.symm.trans hok
  | .ok _, none => .isTrue fun _ _ _ hsome => nomatch h'.symm.trans hsome
  | .ok batch, some reply => decidable_of_iff (db.BatchKeeps r.ext batch reply)
      ⟨fun hb _ hok _ hsome => Except.ok.inj (h.symm.trans hok) ▸
        Option.some.inj (h'.symm.trans hsome) ▸ hb, fun hall => hall batch h reply h'⟩

instance (p : IndexerPipeline) (step : PipelineStep) : Decidable (p.KeepsVectors step) :=
  match step with
  | .openSession .. => inferInstanceAs (Decidable (_ → ∀ s ∈ p.db.symbols, _ ∨ (_ ∧ _)))
  | .publishRequest .. | .removeFile .. =>
    inferInstanceAs (Decidable (∀ session ∈ p.session, _ → _))
  | .drainRow _ _ reply _ =>
    inferInstanceAs (Decidable (∀ session ∈ p.session, ∀ dim ∈ reply.dim, _ → _ → _))

/-! ## The drain and the vector table -/

namespace Database

variable {db db' : Database} {ext : VecExtension}

/-- The vectors stay in place of fewer symbols to account for. -/
theorem Accounted.of_rows (h : db.Accounted) (hsymbols : db'.symbols = db.symbols)
    (hvectors : ∀ s ∈ db.symbols, db.hasVector s.id = true → db'.hasVector s.id = true)
    (hqueue : ∀ s ∈ db.symbols, db.Awaits s → db'.hasVector s.id = true ∨ db'.Awaits s) :
    db'.Accounted := by
  intro s hs
  rw [hsymbols] at hs
  rcases h s hs with hvec | hawaits
  · exact .inl (hvectors s hs hvec)
  · exact hqueue s hs hawaits

theorem reconcileEmbeddingDim_rows {dim : ℕ} (h : db.reconcileEmbeddingDim ext dim = .ok db')
    (hkeep : db.replacesVectors ext dim = false) (hdim : 0 < dim) :
    db'.vectors.rows = db.vectors.rows := by
  unfold reconcileEmbeddingDim at h
  split_ifs at h with hreconciled
  · cases h
    rfl
  · unfold recreateVecTable at h
    cases ext with
    | none => simp [replacesVectors, hdim, hreconciled] at hkeep
    | some creates =>
      cases hcreates : creates dim with
      | true => simp [replacesVectors, hdim, hreconciled, hcreates] at hkeep
      | false => simp [hcreates] at h

/-- `embed_symbol` keeps the vectors unless it replaces the table. -/
theorem embedSymbol_rows {reply : EmbedReply}
    (hkeep : ∀ dim answer, reply = .answered dim answer → db.replacesVectors ext dim = false) :
    (db.embedSymbol ext reply).1.vectors.rows = db.vectors.rows := by
  cases reply with
  | unavailable => rfl
  | answered dim answer =>
    unfold embedSymbol
    dsimp only
    split
    · rfl
    · rename_i db₁ h
      have hrows : db₁.vectors.rows = db.vectors.rows := by
        split_ifs at h with hdim
        · exact reconcileEmbeddingDim_rows h (hkeep dim answer rfl) hdim
        · cases h
          rfl
      split
      · exact hrows
      · split_ifs <;> exact hrows

theorem Accounted.embedSymbol (h : db.Accounted) {reply : EmbedReply}
    (hkeeps : ∀ dim answer, reply = .answered dim answer → db.replacesVectors ext dim = true →
      ∀ s ∈ db.symbols, db.Awaits s) : (db.embedSymbol ext reply).1.Accounted := by
  obtain ⟨vectors, dim, heq, -⟩ := db.embedSymbol_eq ext reply
  by_cases hall : ∀ s ∈ db.symbols, db.Awaits s
  · rw [heq]
    exact fun s hs => .inr (hall s hs)
  · have hrows : (db.embedSymbol ext reply).1.vectors.rows = db.vectors.rows := by
      refine embedSymbol_rows fun dim answer hreply => ?_
      rw [Bool.eq_false_iff]
      exact fun hreplaces => hall (hkeeps dim answer hreply hreplaces)
    rw [heq] at hrows ⊢
    refine h.of_rows rfl (fun s _ hvec => ?_) fun s _ hawaits => .inr hawaits
    rw [hasVector_iff] at hvec ⊢
    rw [hrows]
    exact hvec

/-- **The success write** accounts for its symbol by the vector. -/
theorem Accounted.persistSuccess (h : db.Accounted) {id : String} {vector : Vector32}
    (hlive : db.hasSymbol id = true) (hp : db.persistSuccess ext id [vector] = .ok db') :
    db'.Accounted := by
  unfold Database.persistSuccess upsertSymbolVectors at hp
  rw [hlive] at hp
  simp only [Bool.not_true, Bool.false_eq_true, ↓reduceIte] at hp
  split at hp
  · cases hp
  · rename_i written hw
    cases hp
    split at hw
    · cases hw
    · rename_i table hinsert
      cases hw
      obtain ⟨hsymbols, hvectors, hqueue⟩ :=
        (deleteQueueRow { db with vectors := table } id).advanceSemanticIfQueueEmpty_rows
      have hrows : table.rows = upsertAll Prod.fst db.vectors.rows [(id, vector)] := by
        unfold VecTable.insertAll at hinsert
        split_ifs at hinsert
        cases hinsert
        rfl
      refine h.of_rows hsymbols (fun s _ hvec => ?_) fun s _ hawaits => ?_
      · obtain ⟨row, hrow, hid⟩ := hasVector_iff.1 hvec
        rw [hasVector_iff, hvectors]
        obtain ⟨row', hrow', hk⟩ : ∃ x ∈ upsertAll Prod.fst db.vectors.rows [(id, vector)],
            x.1 = row.1 := exists_mem_upsertAll hrow
        exact ⟨row', hrows ▸ hrow', hk.trans hid⟩
      · by_cases hid : s.id = id
        · left
          rw [hasVector_iff, hvectors]
          refine ⟨(id, vector), ?_, hid.symm⟩
          change (id, vector) ∈ table.rows
          rw [hrows]
          exact mem_upsert_self
        · right
          obtain ⟨queued, hq, hqid⟩ := Awaits.deleteQueueRow hawaits hid
          exact ⟨queued, hqueue ▸ hq, hqid⟩

/-- **A row of the drain** keeps every symbol accounted for. -/
theorem Accounted.drainRow (h : db.Accounted) {config : OwnerConfig} {row : DueQueueRow}
    {reply : EmbedReply} {now : ℤ}
    (hkeeps : ∀ dim answer, reply = .answered dim answer → db.hasSymbol row.symbolId = true →
      db.replacesVectors ext dim = true → ∀ s ∈ db.symbols, db.Awaits s) :
    (db.drainRow ext config (fun _ => reply) now row).1.Accounted := by
  unfold Database.drainRow
  split
  · rename_i hgone
    obtain ⟨hsymbols, hvectors, hqueue⟩ :=
      (db.deleteQueueRow row.symbolId).advanceSemanticIfQueueEmpty_rows
    refine h.of_rows hsymbols (fun s _ hvec => ?_) fun s hs hawaits => .inr ?_
    · rw [hasVector_iff] at hvec ⊢
      exact hvectors ▸ hvec
    · -- the row is of no live symbol
      have hne : s.id ≠ row.symbolId := by
        intro hid
        have hmem : s ∈ db.hydrateIds [row.symbolId] := by simp [hs, hid]
        rw [hgone] at hmem
        cases hmem
      obtain ⟨queued, hq, hqid⟩ := hawaits.deleteQueueRow hne
      exact ⟨queued, hqueue ▸ hq, hqid⟩
  · rename_i symbol rest hsymbol
    have hlive : db.hasSymbol row.symbolId = true := by
      have hmem : symbol ∈ db.hydrateIds [row.symbolId] := by
        rw [hsymbol]
        exact List.mem_cons_self
      rw [mem_hydrateIds, List.mem_singleton] at hmem
      exact hasSymbol_iff.2 ⟨symbol, hmem⟩
    have hembed : (db.embedSymbol ext reply).1.Accounted :=
      h.embedSymbol fun dim answer hreply => hkeeps dim answer hreply hlive
    split
    · rename_i db₁ message hdb
      rw [hdb] at hembed
      exact hembed.of_rows rfl (fun _ _ hvec => hvec) fun s _ hawaits =>
        .inr (hawaits.recordFailure config row message now)
    · rename_i db₁ vectors hdb
      rw [hdb] at hembed
      have hvectors : (db.embedSymbol ext reply).2 = .ok vectors := by rw [hdb]
      obtain ⟨_, vector, rfl, -⟩ := embedSymbol_ok hvectors
      split
      · exact hembed
      · rename_i db₂ hp
        refine hembed.persistSuccess ?_ hp
        obtain ⟨_, _, heq, -⟩ := db.embedSymbol_eq ext reply
        rw [hdb] at heq
        rw [heq]
        exact hlive

end Database

/-! ## A publish and the vectors -/

/-- A batch before the model has seen it: it drops vectors and queue rows of ids that it
    deletes. -/
structure PublishBatch.Unprepared (db : Database) (batch : PublishBatch) : Prop where
  vectorUpserts : batch.vectorUpserts = []
  vectorDeletes : ∀ id ∈ batch.vectorDeletes, id ∈ db.deletedIds batch
  queueRemove : ∀ id ∈ batch.queueRemove, id ∈ db.deletedIds batch
  queueEnqueue : batch.symbolUpserts = [] → batch.queueEnqueue = []

section Publish
variable {ext : VecExtension} {now : ℤ} {db db' written : Database} {batch : PublishBatch}
  {reply : ModelReply}

/-- The queue rows that a prepared batch touches are of its symbols, or of deleted ones. -/
theorem PublishBatch.Unprepared.queue (h : batch.Unprepared db) (reply : ModelReply) :
    (∀ id ∈ (batch.prepareSemantic reply).queueRemove,
      id ∈ db.deletedIds batch ∨ ∃ s ∈ batch.symbolUpserts, s.id = id) ∧
    ∀ q ∈ (batch.prepareSemantic reply).queueEnqueue, ∃ s ∈ batch.symbolUpserts, s.id = q.symbolId := by
  have hqueued : ∀ q ∈ batch.queued, ∃ s ∈ batch.symbolUpserts, s.id = q.symbolId := by
    intro q hq
    obtain ⟨s, hs, rfl⟩ := List.mem_map.1 hq
    exact ⟨s, hs, rfl⟩
  have hkept : ∀ id ∈ btreeSet batch.queueRemove,
      id ∈ db.deletedIds batch ∨ ∃ s ∈ batch.symbolUpserts, s.id = id :=
    fun id hid => .inl (h.queueRemove id (mem_btreeSet.1 hid))
  have hextended : ∀ id ∈ btreeSet (batch.queueRemove ++ batch.symbolUpserts.map Symbol.id),
      id ∈ db.deletedIds batch ∨ ∃ s ∈ batch.symbolUpserts, s.id = id := by
    intro id hid
    rcases List.mem_append.1 (mem_btreeSet.1 hid) with hid | hid
    · exact .inl (h.queueRemove id hid)
    · exact .inr (List.mem_map.1 hid)
  unfold prepareSemantic
  dsimp only
  split_ifs with hempty
  · refine ⟨fun id hid => .inl (h.queueRemove id hid), fun q hq => ?_⟩
    rw [h.queueEnqueue hempty] at hq
    cases hq
  · cases reply with
    | noSemantic => exact ⟨hextended, nofun⟩
    | needPending => exact ⟨hkept, hqueued⟩
    | embedded vectors fingerprint =>
      dsimp only
      split_ifs
      · exact ⟨hextended, nofun⟩
      · exact ⟨hkept, hqueued⟩

/-- **A publish accounts for every symbol** when its vector step leaves or writes the vector of
    each symbol that no queue row accounts for. -/
theorem Published.accounted (hp : Published ext now db batch written db') (h : db.Accounted)
    (hvectors : ∀ id ∈ batch.vectorDeletes, id ∈ db.deletedIds batch)
    (hremove : ∀ id ∈ batch.queueRemove,
      id ∈ db.deletedIds batch ∨ ∃ s ∈ batch.symbolUpserts, s.id = id)
    (henqueue : ∀ q ∈ batch.queueEnqueue, ∃ s ∈ batch.symbolUpserts, s.id = q.symbolId)
    (hnew : ∀ s ∈ batch.symbolUpserts, written.hasVector s.id = true ∨
      batch.queueEnqueue = batch.queued ∧ ∀ id ∈ batch.queueRemove, id ∈ db.deletedIds batch)
    (hold : ∀ s ∈ db.symbols, (∀ new ∈ batch.symbolUpserts, s.id ≠ new.id) →
      s.id ∉ db.deletedIds batch → db.hasVector s.id = true →
        written.hasVector s.id = true ∨ db.Awaits s) : db'.Accounted := by
  intro s hs
  obtain ⟨hcases, hlive⟩ := hp.mem_symbols.1 hs
  have hvec : written.hasVector s.id = true → db'.hasVector s.id = true := by
    intro hvec
    obtain ⟨row, hrow, hid⟩ := Database.hasVector_iff.1 hvec
    rw [Database.hasVector_iff, hp.vectors]
    simp only [List.mem_filter, decide_eq_true_eq]
    refine ⟨row, ⟨⟨hrow, fun hdel => hlive (hid ▸ hvectors _ hdel)⟩, ?_⟩, hid⟩
    rw [hid]
    exact hlive
  rcases hcases with ⟨hsold, hne⟩ | hsnew
  · have hawaits : db.Awaits s → db'.Awaits s := by
      rintro ⟨queued, hq, hid, hfile⟩
      refine hp.awaits_of_mem hs (fun hid => ?_) hid hfile (mem_upsertAll.2 (.inl ⟨hq, ?_⟩))
      · rcases hremove _ hid with hdel | ⟨new, hnew, he⟩
        · exact hlive hdel
        · exact hne new hnew he.symm
      · intro row hrow
        obtain ⟨q, hq, rfl⟩ := List.mem_map.1 hrow
        obtain ⟨new, hnew, he⟩ := henqueue q hq
        rw [hid]
        exact fun heq => hne new hnew (heq.trans he.symm)
    rcases h s hsold with hvec₀ | hawaits₀
    · exact (hold s hsold hne hlive hvec₀).imp hvec hawaits
    · exact .inr (hawaits hawaits₀)
  · rcases hnew s (mem_of_mem_build hsnew) with hvec₀ | ⟨henqueue, hremove⟩
    · exact .inl (hvec hvec₀)
    · right
      have hrow : (⟨s.id, s.filePath, now, 0, 0, none⟩ : QueueRow) ∈
          build QueueRow.symbolId (batch.queueEnqueue.map fun symbol =>
            ⟨symbol.symbolId, symbol.filePath, now, 0, 0, none⟩) := by
        rw [henqueue, PublishBatch.queued, List.map_map]
        exact map_mem_build (fun _ => rfl) hsnew
      exact hp.awaits_of_mem hs (fun hid => hlive (hremove _ hid)) rfl rfl
        (mem_upsertAll.2 (.inr hrow))

/-- The vector step of a batch without vectors. -/
theorem Published.hasVector_written (hp : Published ext now db batch written db')
    (hnone : batch.vectorUpserts = []) (id : String) : written.hasVector id = db.hasVector id := by
  have hstep := hp.vectorStep
  rw [upsertVectorSpaceAndVectors_nil hnone] at hstep
  cases hstep
  rfl

/-- The vector step of the vectors of the model: its symbols have one, and the rows that
    the fingerprint keeps stay. -/
theorem Published.hasVector_embedded (hp : Published ext now db batch written db')
    {vectors : List Vector32} {fingerprint : VectorSpaceFingerprint}
    (hlength : vectors.length = batch.symbolUpserts.length) (hne : batch.symbolUpserts ≠ [])
    (hvectors : batch.vectorUpserts = (batch.symbolUpserts.map Symbol.id).zip vectors)
    (hfingerprint : batch.fingerprint = some fingerprint) :
    (∀ s ∈ batch.symbolUpserts, written.hasVector s.id = true) ∧
      ∀ row ∈ db.keptVectors ext fingerprint, written.hasVector row.1 = true := by
  have hlive : ∀ s ∈ batch.symbolUpserts,
      ((db.upsertSymbols batch.symbolUpserts).upsertEdges batch.edgeUpserts).hasSymbol s.id = true := by
    intro s hs
    obtain ⟨x, hx, hid⟩ : ∃ x ∈ build Symbol.id batch.symbolUpserts, x.id = s.id :=
      exists_mem_build hs
    exact Database.hasSymbol_iff.2 ⟨x, mem_upsertAll.2 (.inr hx), hid⟩
  have hzip : ∀ s ∈ batch.symbolUpserts, ∃ row ∈ batch.vectorUpserts, row.1 = s.id := by
    intro s hs
    have hmem : s.id ∈ (batch.vectorUpserts).map Prod.fst := by
      rw [hvectors, List.map_fst_zip (by simp [hlength])]
      exact List.mem_map_of_mem hs
    exact List.mem_map.1 hmem
  have hrows := upsertVectorSpaceAndVectors_rows hp.vectorStep hfingerprint (by
    obtain ⟨s, hs⟩ := List.exists_mem_of_ne_nil _ hne
    obtain ⟨row, hrow, hid⟩ := hzip s hs
    exact ⟨row, hrow, hid ▸ hlive s hs⟩)
  simp only [Database.hasVector_iff, hrows]
  constructor
  · intro s hs
    obtain ⟨row, hrow, hid⟩ := hzip s hs
    have hwritten : row ∈ batch.vectorUpserts.filter fun row =>
        ((db.upsertSymbols batch.symbolUpserts).upsertEdges batch.edgeUpserts).hasSymbol row.1 :=
      List.mem_filter.2 ⟨hrow, hid ▸ hlive s hs⟩
    obtain ⟨x, hx, hk⟩ : ∃ x ∈ build Prod.fst _, x.1 = row.1 := exists_mem_build hwritten
    exact ⟨x, mem_upsertAll.2 (.inr hx), hk.trans hid⟩
  · exact fun row hrow => exists_mem_upsertAll hrow

/-- The batch that leaves its symbols to the queue. -/
theorem PublishBatch.Unprepared.accounted_pending (hun : batch.Unprepared db) (h : db.Accounted)
    (hp : Published ext now db batch.prepareNeedPending written db') : db'.Accounted := by
  have hwritten := hp.hasVector_written rfl
  have hremove : ∀ id ∈ batch.prepareNeedPending.queueRemove, id ∈ db.deletedIds batch :=
    fun id hid => hun.queueRemove id (mem_btreeSet.1 hid)
  refine hp.accounted h hun.vectorDeletes (fun id hid => .inl (hremove id hid)) ?_ ?_ ?_
  · intro q hq
    obtain ⟨s, hs, rfl⟩ := List.mem_map.1 hq
    exact ⟨s, hs, rfl⟩
  · exact fun s _ => .inr ⟨rfl, hremove⟩
  · intro s _ _ _ hvec
    rw [hwritten]
    exact .inl hvec

/-- **A publish of what the model has prepared** accounts for every symbol. -/
theorem PublishBatch.Unprepared.accounted (hun : batch.Unprepared db) (h : db.Accounted)
    (hkeeps : db.BatchKeeps ext batch reply)
    (hp : Published ext now db (batch.prepareSemantic reply) written db') : db'.Accounted := by
  obtain ⟨hremove, henqueue⟩ := hun.queue reply
  unfold prepareSemantic at hp hremove henqueue
  dsimp only at hp hremove henqueue
  split_ifs at hp hremove henqueue with hempty
  · have hwritten := hp.hasVector_written hun.vectorUpserts
    refine hp.accounted h hun.vectorDeletes hremove henqueue ?_ ?_
    · simp [hempty]
    · intro s _ _ _ hvec
      rw [hwritten]
      exact .inl hvec
  · cases reply with
    | noSemantic =>
      have hwritten := hp.hasVector_written hun.vectorUpserts
      refine hp.accounted h hun.vectorDeletes hremove henqueue ?_ ?_
      · intro s hs
        rw [hwritten]
        exact .inl (hkeeps s hs)
      · intro s _ _ _ hvec
        rw [hwritten]
        exact .inl hvec
    | needPending => exact hun.accounted_pending h hp
    | embedded vectors fingerprint =>
      dsimp only at hp hremove henqueue
      split_ifs at hp hremove henqueue with hlength
      · obtain ⟨hnew, hkept⟩ := hp.hasVector_embedded hlength hempty rfl rfl
        refine hp.accounted h hun.vectorDeletes hremove henqueue (fun s hs => .inl (hnew s hs)) ?_
        intro s hs hne hlive _
        rcases hkeeps hempty hlength s hs with hawaits | ⟨new, hmem, hid⟩ | hdel | ⟨row, hrow, hid⟩
        · exact .inr hawaits
        · exact absurd hid.symm (hne new hmem)
        · exact absurd hdel hlive
        · exact .inl (hid ▸ hkept row hrow)
      · exact hun.accounted_pending h hp

end Publish

/-! ## The steps -/

section Steps
variable {db db' : Database} {batch : PublishBatch} {reply : ModelReply}

theorem ChangePlanner.plan_unprepared {planner : ChangePlanner} {tree : SourceTree}
    {request : PlanRequest String} (h : planner.plan db tree request = .ok batch) :
    batch.Unprepared db := by
  unfold plan at h
  dsimp only at h
  split at h
  · cases h
  · rename_i files _
    cases h
    refine ⟨rfl, fun id hid => List.mem_append_left _ hid,
      fun id hid => List.mem_append_left _ hid, fun hnone => ?_⟩
    have hnew : (sortOn (·.row.path) files.changed).flatMap PlannedFile.symbols = [] :=
      List.eq_nil_iff_forall_not_mem.2 fun s hs =>
        List.eq_nil_iff_forall_not_mem.1 hnone s (mem_sortOn.2 hs)
    simp only [buildBatch, hnew, List.map_nil]
    rfl

theorem IndexRequest.publishBatch_sound {r : IndexRequest} (hreply : r.reply = some reply)
    (hgen : Generations db) (batch : PublishBatch) : Generations (r.publishBatch db batch) ∧
      (batch.Unprepared db → db.BatchKeeps r.ext batch reply → db.Accounted →
        (r.publishBatch db batch).Accounted) := by
  unfold publishBatch prepare
  rw [hreply]
  dsimp only [Option.elim_some]
  split
  · exact ⟨hgen, fun _ _ h => h⟩
  · rename_i published receipt hpublish
    obtain ⟨written, hp⟩ := publish_spec hpublish
    exact ⟨(Database.advances_publish hgen hpublish).generations,
      fun hun hkeeps h => hun.accounted h hkeeps hp⟩

/-- **A request** keeps the counters sound, and accounts for every symbol if it keeps the
    vectors. -/
theorem IndexRequest.publishRequest_sound {r : IndexRequest} (hreply : r.reply = some reply)
    (hgen : Generations db) : Generations (r.publishRequest db) ∧
      (db.RequestKeeps r → db.Accounted → (r.publishRequest db).Accounted) := by
  unfold publishRequest
  split
  · exact ⟨hgen, fun _ h => h⟩
  · rename_i batch hplan
    split_ifs
    · exact ⟨hgen, fun _ h => h⟩
    · obtain ⟨hgen', haccounted⟩ := publishBatch_sound hreply hgen batch
      exact ⟨hgen', fun hkeeps h => haccounted (ChangePlanner.plan_unprepared hplan)
        (hkeeps batch hplan reply hreply) h⟩

theorem IndexRequest.removeFile_sound {r : IndexRequest} (hreply : r.reply = some reply)
    {path : String} (hrequest : r.request = .touched [path]) (hgen : Generations db) :
    Generations (r.removeFile db path) ∧
      (db.RequestKeeps r → db.Accounted → (r.removeFile db path).Accounted) := by
  unfold removeFile
  split
  · exact ⟨hgen, fun _ h => h⟩
  · rename_i batch hplan
    dsimp only
    split_ifs
    · obtain ⟨hgen', haccounted⟩ := publishBatch_sound hreply hgen batch
      exact ⟨hgen', fun hkeeps h => haccounted (ChangePlanner.plan_unprepared hplan)
        (hkeeps batch (hrequest ▸ hplan) reply hreply) h⟩
    · exact ⟨hgen, fun _ h => h⟩
    · -- the symbols of a file that is not in the cache
      obtain ⟨hgen', haccounted⟩ := publishBatch_sound hreply hgen _
      refine ⟨hgen', fun _ h => haccounted ?_ ?_ h⟩
      · exact ⟨rfl, fun id hid => List.mem_append_left _ hid,
          fun id hid => List.mem_append_left _ hid, fun _ => rfl⟩
      · cases reply with
        | noSemantic => exact fun _ hs => absurd hs List.not_mem_nil
        | needPending => trivial
        | embedded vectors fingerprint => exact fun hne => absurd rfl hne

/-- The reconcile of a constructor writes the vector table and the stored dimension. -/
theorem Database.reconcileEmbedder_eq {ext : VecExtension} {dim : Option ℕ}
    (h : db.reconcileEmbedder ext dim = .ok db') :
    db' = { db with vectors := db'.vectors, embeddingDim := db'.embeddingDim } ∧
      (dim.any (db.replacesVectors ext) = false → db'.vectors.rows = db.vectors.rows) := by
  unfold reconcileEmbedder at h
  cases dim with
  | none =>
    cases h
    exact ⟨rfl, fun _ => rfl⟩
  | some dim =>
    dsimp only at h
    split_ifs at h with hdim
    · exact ⟨(reconcileEmbeddingDim_eq h).1, fun hkeep => reconcileEmbeddingDim_rows h hkeep hdim⟩
    · cases h
      exact ⟨rfl, fun _ => rfl⟩

theorem Database.healLegacyVec0_eq (db : Database) (ext : VecExtension) :
    db.healLegacyVec0 ext = { db with vectors := (db.healLegacyVec0 ext).vectors } ∧
      ((db.vectors.isVec0 && !ext.isSome) = false →
        (db.healLegacyVec0 ext).vectors.rows = db.vectors.rows) := by
  unfold healLegacyVec0
  split_ifs with hheal
  · exact ⟨rfl, fun hnot => by rw [hheal] at hnot; cases hnot⟩
  · exact ⟨rfl, fun _ => rfl⟩

end Steps

/-- **One step** keeps the invariant. -/
theorem IndexerPipeline.Sound.step {p q : IndexerPipeline} {step : PipelineStep} (h : p.Sound)
    (hkeeps : p.KeepsVectors step) (hstep : p.step step = some q) : q.Sound := by
  cases step with
  | openSession ext opening =>
    obtain ⟨hhealed, hhealrows⟩ := p.db.healLegacyVec0_eq ext
    have hgen : Generations (p.db.healLegacyVec0 ext) := by
      rw [hhealed]
      exact ⟨h.generations.le, h.generations.eq_iff⟩
    simp only [IndexerPipeline.step] at hstep
    split at hstep
    · cases hstep
      exact ⟨hgen, fun hconf => absurd hconf Bool.false_ne_true⟩
    · rename_i db hreconcile
      cases hstep
      obtain ⟨heq, hrows⟩ := Database.reconcileEmbedder_eq hreconcile
      constructor
      · dsimp only
        rw [heq]
        exact ⟨hgen.le, hgen.eq_iff⟩
      · intro hconf s hs
        dsimp only at hs ⊢
        rw [heq, hhealed] at hs
        rcases hkeeps hconf s hs with hawaits | ⟨hvec, hnot⟩
        · right
          rw [heq, hhealed]
          exact hawaits
        · left
          simp only [Database.openingReplaces, Bool.or_eq_false_iff] at hnot
          rw [Database.hasVector_iff] at hvec ⊢
          rw [hrows hnot.2, hhealrows hnot.1]
          exact hvec
  | publishRequest call request =>
    simp only [IndexerPipeline.step] at hstep
    split at hstep
    · cases hstep
    · rename_i session hsession
      split_ifs at hstep
      cases hstep
      obtain ⟨hgen, haccounted⟩ := IndexRequest.publishRequest_sound (r := session.request call request)
        rfl h.generations
      refine ⟨hgen, fun hconf => ?_⟩
      refine haccounted (hkeeps session hsession ?_) (h.accounted hconf)
      simpa [configured, hsession] using hconf
  | removeFile call path =>
    simp only [IndexerPipeline.step] at hstep
    split at hstep
    · cases hstep
    · rename_i session hsession
      split_ifs at hstep
      cases hstep
      obtain ⟨hgen, haccounted⟩ := IndexRequest.removeFile_sound
        (r := session.request call (.touched [path])) rfl rfl h.generations
      refine ⟨hgen, fun hconf => ?_⟩
      refine haccounted (hkeeps session hsession ?_) (h.accounted hconf)
      simpa [configured, hsession] using hconf
  | drainRow config row reply now =>
    simp only [IndexerPipeline.step] at hstep
    split at hstep
    · cases hstep
    · rename_i session hsession
      split_ifs at hstep
      cases hstep
      refine ⟨(h.generations.drainRow session.ext config _ now row).generations, fun hconf => ?_⟩
      refine (h.accounted hconf).drainRow fun dim answer hreply => ?_
      exact hkeeps session hsession dim (by rw [hreply]; rfl)

/-! ## Runs -/

theorem IndexerPipeline.sound_initial : initial.Sound := ⟨Database.generations_empty, nofun⟩

/-- **Every run** whose steps keep the vectors: when an embedder is configured, the semantic
    generation is the source generation only if every live symbol has a vector. -/
theorem semantic_generation_sound (steps : List PipelineStep) (p : IndexerPipeline)
    (h : Transition.exec IndexerPipeline.step .initial steps = some p)
    (hkeeps : Transition.Always IndexerPipeline.step IndexerPipeline.KeepsVectors .initial steps)
    (hconf : p.configured = true) : SemanticSound p.db := by
  have hsound : p.Sound := by
    refine Transition.exec_invariant ?_ h hkeeps IndexerPipeline.sound_initial
    intro s step t hs hG hst
    exact hs.step hG hst
  exact hsound.semanticSound hconf

namespace SemanticExample

open IntegrityExample

/-- The tree has the callee only. -/
def call (borrow : Option (Except String (List Vector32))) : IndexCall :=
  ⟨planner, tree [callee], 0, borrow, fun dim => ⟨"digest", dim, "model"⟩⟩

/-- The callee is indexed while the model fails, and the drain embeds it. -/
def drained : List PipelineStep :=
  [.openSession none (.withEmbedder (some 1)),
    .publishRequest (call (some (.error "embed failed"))) .full,
    .drainRow {} ⟨callee.id, callee.filePath, 0⟩ (.answered 1 (.ok [[0]])) 0]

/-- The callee is indexed with its vector, and the next session has an embedder of another
    dimension. -/
def reopened : List PipelineStep :=
  [.openSession none (.withEmbedder (some 1)),
    .publishRequest (call (some (.ok [[0]]))) .full,
    .openSession none (.withEmbedder (some 2))]

end SemanticExample

open SemanticExample IntegrityExample in
theorem semantic_generation_sound_drained : ∃ p,
    Transition.exec IndexerPipeline.step .initial drained = some p ∧ p.db.symbols = [callee] ∧
      SemanticSound p.db := by
  have hrun : (Transition.exec IndexerPipeline.step .initial drained).map
      (fun p => (p.db.symbols, p.configured)) = some ([callee], true) := by
    decide +kernel
  obtain ⟨p, hp, hrows⟩ := Option.map_eq_some_iff.1 hrun
  rw [Prod.mk.injEq] at hrows
  refine ⟨p, hp, hrows.1, semantic_generation_sound _ p hp ?_ hrows.2⟩
  decide +kernel

/-- The property for every run. -/
def KeepsSemanticGeneration : Prop :=
  ∀ (steps : List PipelineStep) (p : IndexerPipeline),
    Transition.exec IndexerPipeline.step .initial steps = some p → p.configured = true →
      SemanticSound p.db

open SemanticExample IntegrityExample in
/-- The vector table is replaced for the new dimension, and nothing is queued. -/
theorem not_keepsSemanticGeneration : ¬ KeepsSemanticGeneration := by
  intro h
  have hrun : (Transition.exec IndexerPipeline.step .initial reopened).map
      (fun p => (p.configured, p.db.symbols, p.db.hasVector callee.id,
        decide (p.db.semanticGeneration = p.db.sourceGeneration))) =
      some (true, [callee], false, true) := by
    decide +kernel
  obtain ⟨p, hp, hrows⟩ := Option.map_eq_some_iff.1 hrun
  simp only [Prod.mk.injEq] at hrows
  obtain ⟨hconf, hsymbols, hvec, hgen⟩ := hrows
  have hlive : p.db.hasVector callee.id = true :=
    (h _ p hp hconf).vectors (of_decide_eq_true hgen) callee (by rw [hsymbols]; exact List.mem_singleton_self _)
  rw [hvec] at hlive
  cases hlive

end Cognis
