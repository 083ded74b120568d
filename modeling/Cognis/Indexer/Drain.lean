/-
  The drain of the embedding queue against publishes on another connection
  (`embed_queue.rs`, `publish.rs`).

  The drain reads the due rows, hydrates the symbol of a row, embeds its text and writes
  the vector, each in a transaction of its own, and the write deletes the queue row of the
  symbol by its id: a publish that has put the row back for a newer text in between loses
  it.

  * `DrainPlace` is where the drain stands, `DrainState.step` one of its steps or a
    publish; `exec_drain`: a pass of `Database.drain` is a run of these steps;
  * `Settled` is the invariant of the store: a stored vector is current or queued;
  * `drain_keepsNewerRows`: no row is lost in a run in which no publish changes the text
    of the symbol the drain holds.
-/
import Cognis.Indexer.EmbedQueue
import Cognis.Lib.Transition

namespace Cognis

open Table

/-! ## The steps -/

/-- Where the drain stands in its pass at the time `now`. -/
inductive DrainPlace where
  | idle
  /-- between two rows -/
  | rows (now : ℤ) (rest : List DueQueueRow)
  /-- the symbol of the row is not live -/
  | missing (now : ℤ) (row : DueQueueRow) (rest : List DueQueueRow)
  | hydrated (now : ℤ) (row : DueQueueRow) (symbol : Symbol) (rest : List DueQueueRow)
  | embedded (now : ℤ) (row : DueQueueRow) (symbol : Symbol)
      (result : Except String (List Vector32)) (rest : List DueQueueRow)

/-- The symbol whose text the drain is about to write the vector of. -/
def DrainPlace.held : DrainPlace → Option Symbol
  | .hydrated _ _ symbol _ => some symbol
  | .embedded _ _ symbol (.ok _) _ => some symbol
  | .embedded _ _ _ (.error _) _ | .idle | .rows .. | .missing .. => none

/-- The store and the drain. -/
structure DrainState where
  db : Database
  place : DrainPlace

/-- A step of the drain, or a publish on another connection. -/
inductive DrainLabel where
  | readDue (now : ℤ) (budget : ℕ)
  | hydrate
  | removeStale
  | embed (ext : VecExtension) (reply : EmbedReply)
  | recordFailure (config : OwnerConfig)
  | persist (ext : VecExtension)
  | finish
  | publish (ext : VecExtension) (now : ℤ) (batch : PublishBatch)

/-- The embedder answers a text with its embedding, or fails. -/
def EmbedReply.Honest (embed : String → Vector32) (text : String) : EmbedReply → Prop
  | .answered _ (.ok [vector]) => vector = embed text
  | _ => True

instance (embed : String → Vector32) (text : String) (reply : EmbedReply) :
    Decidable (reply.Honest embed text) := by
  unfold EmbedReply.Honest
  split <;> infer_instance

/-- A publish that enqueues every symbol it writes, and leaves the vectors to the drain
    (`prepare_semantic_batch`, when the model is not resident). -/
def PublishBatch.Requeues (batch : PublishBatch) : Prop :=
  batch.vectorUpserts = [] ∧
    batch.queueEnqueue = batch.symbolUpserts.map (fun symbol => ⟨symbol.id, symbol.filePath⟩) ∧
    ∀ id ∈ batch.queueRemove, id ∈ batch.symbolDeletes

instance (batch : PublishBatch) : Decidable batch.Requeues := by
  unfold PublishBatch.Requeues
  infer_instance

/-- One step. -/
def DrainState.step (embed : String → Vector32) (s : DrainState) : DrainLabel → Option DrainState
  | .readDue now budget =>
    match s.place with
    | .idle => some { s with place := .rows now (s.db.dueRows now budget) }
    | _ => none
  | .hydrate =>
    match s.place with
    | .rows now (row :: rest) =>
      match s.db.hydrateIds [row.symbolId] with
      | [] => some { s with place := .missing now row rest }
      | symbol :: _ => some { s with place := .hydrated now row symbol rest }
    | _ => none
  | .removeStale =>
    match s.place with
    | .missing now row rest => some ⟨s.db.removeStaleQueueRow row.symbolId, .rows now rest⟩
    | _ => none
  | .embed ext reply =>
    match s.place with
    | .hydrated now row symbol rest =>
      if reply.Honest embed symbol.embeddingText then
        let (db, result) := s.db.embedSymbol ext reply
        some ⟨db, .embedded now row symbol result rest⟩
      else none
    | _ => none
  | .recordFailure config =>
    match s.place with
    | .embedded now row _ (.error message) rest =>
      some ⟨s.db.recordFailure config row message now, .rows now rest⟩
    | _ => none
  | .persist ext =>
    match s.place with
    | .embedded now row _ (.ok vectors) rest =>
      match s.db.persistSuccess ext row.symbolId vectors with
      -- the error ends the pass
      | .error _ => some { s with place := .idle }
      | .ok db => some ⟨db, .rows now rest⟩
    | _ => none
  | .finish =>
    match s.place with
    | .rows _ [] => some { s with place := .idle }
    | _ => none
  | .publish ext now batch =>
    if batch.Requeues then some { s with db := (StoreOp.publish ext now batch).apply s.db }
    else none

/-- A publish does not change the text of the symbol the drain holds. -/
def Undisturbed (s : DrainState) : DrainLabel → Prop
  | .publish _ _ batch =>
    ∀ held ∈ s.place.held, ∀ symbol ∈ build Symbol.id batch.symbolUpserts,
      symbol.id = held.id → symbol.embeddingText = held.embeddingText
  | _ => True

instance (s : DrainState) : DecidablePred (Undisturbed s) := fun label => by
  unfold Undisturbed
  split <;> infer_instance

/-! ## A pass is a run of the steps -/

/-- A step of the drain itself. -/
def DrainLabel.Drains : DrainLabel → Prop
  | .publish .. => False
  | _ => True

section Pass

variable {embed : String → Vector32} {ext : VecExtension} {config : OwnerConfig}
  {embedder : Symbol → EmbedReply}

/-- Where the drain stands after a row. -/
def DrainPlace.after (now : ℤ) (rest : List DueQueueRow) : Except String ℕ → DrainPlace
  | .ok _ => .rows now rest
  | .error _ => .idle

theorem exec_drainRow (hembed : ∀ symbol, (embedder symbol).Honest embed symbol.embeddingText)
    (now : ℤ) (db : Database) (row : DueQueueRow) (rest : List DueQueueRow) :
    ∃ labels, (∀ label ∈ labels, label.Drains) ∧
      Transition.exec (DrainState.step embed) ⟨db, .rows now (row :: rest)⟩ labels =
        some ⟨(db.drainRow ext config embedder now row).1,
          .after now rest (db.drainRow ext config embedder now row).2⟩ := by
  unfold Database.drainRow
  split
  · rename_i hnone
    refine ⟨[.hydrate, .removeStale], ?_, ?_⟩
    · simp [DrainLabel.Drains]
    · simp only [Transition.exec, DrainState.step, hnone]
      rfl
  · rename_i symbol others hsome
    have hhonest := hembed symbol
    split
    · rename_i db₁ message hresult
      refine ⟨[.hydrate, .embed ext (embedder symbol), .recordFailure config], ?_, ?_⟩
      · simp [DrainLabel.Drains]
      · simp only [Transition.exec, DrainState.step, hsome, hhonest, ↓reduceIte, hresult]
        rfl
    · rename_i db₁ vectors hresult
      refine ⟨[.hydrate, .embed ext (embedder symbol), .persist ext], ?_, ?_⟩
      · simp [DrainLabel.Drains]
      · simp only [Transition.exec, DrainState.step, hsome, hhonest, ↓reduceIte, hresult]
        cases db₁.persistSuccess ext row.symbolId vectors <;> rfl

/-- **A pass of `drain`** is a run of the steps, from idle to idle. -/
theorem exec_drain (hembed : ∀ symbol, (embedder symbol).Honest embed symbol.embeddingText)
    (now : ℤ) (db : Database) (budget : ℕ) :
    ∃ labels, (∀ label ∈ labels, label.Drains) ∧
      Transition.exec (DrainState.step embed) ⟨db, .idle⟩ labels =
        some ⟨(db.drain ext config embedder now budget).1, .idle⟩ := by
  have hrows : ∀ rows db, ∃ labels, (∀ label ∈ labels, label.Drains) ∧
      Transition.exec (DrainState.step embed) ⟨db, .rows now rows⟩ labels =
        some ⟨(Database.drainRows ext config embedder now db rows).1, .idle⟩ := by
    intro rows
    induction rows with
    | nil => exact fun db => ⟨[.finish], by simp [DrainLabel.Drains], rfl⟩
    | cons row rows ih =>
      intro db
      obtain ⟨labels, hlabels, hexec⟩ := exec_drainRow hembed now db row rows
      unfold Database.drainRows
      split
      · rename_i hrow
        rw [hrow] at hexec
        exact ⟨labels, hlabels, hexec⟩
      · rename_i db₁ drained hrow
        rw [hrow] at hexec
        obtain ⟨labels', hlabels', hexec'⟩ := ih db₁
        refine ⟨labels ++ labels', ?_, ?_⟩
        · intro label hl
          exact (List.mem_append.1 hl).elim (hlabels label) (hlabels' label)
        · rw [Transition.exec_append hexec]
          exact hexec'
  unfold Database.drain
  split_ifs with hbudget
  · exact ⟨[], by simp, rfl⟩
  · obtain ⟨labels, hlabels, hexec⟩ := hrows (db.dueRows now budget) db
    refine ⟨.readDue now budget :: labels, ?_, hexec⟩
    rintro label (_ | ⟨_, hl⟩)
    · trivial
    · exact hlabels label hl

end Pass

/-! ## What is to hold -/

/-- The success write for an older text leaves the queue row of the newer one. -/
def KeepsNewerRow (embed : String → Vector32) (s : DrainState) : Prop :=
  ∀ ext t now row symbol vectors rest,
    s.place = .embedded now row symbol (.ok vectors) rest → s.step embed (.persist ext) = some t →
      ∀ live ∈ s.db.symbols, live.id = row.symbolId → live.embeddingText ≠ symbol.embeddingText →
        s.db.isQueued live.id = true → t.db.isQueued live.id = true

/-- When nothing is queued, every vector is the embedding of the text of its symbol. -/
def VectorsCurrent (embed : String → Vector32) (db : Database) : Prop :=
  db.queue = [] → ∀ row ∈ db.vectors.rows,
    ∃ symbol ∈ db.symbols, symbol.id = row.1 ∧ row.2 = embed symbol.embeddingText

/-- The invariant of the store: a stored vector belongs to a live symbol, and is the
    embedding of its text or is to be written again. -/
structure Settled (embed : String → Vector32) (db : Database) : Prop where
  keyed : Keyed Symbol.id db.symbols
  live : ∀ row ∈ db.vectors.rows, ∃ symbol ∈ db.symbols, symbol.id = row.1
  current : ∀ row ∈ db.vectors.rows, ∀ symbol ∈ db.symbols, symbol.id = row.1 →
    row.2 = embed symbol.embeddingText ∨ db.Awaits symbol

/-- The text is the one of the live symbol of the id. -/
def Database.HasText (db : Database) (id text : String) : Prop :=
  ∀ symbol ∈ db.symbols, symbol.id = id → symbol.embeddingText = text

/-- The invariant of the drain: the text it holds is the current one. -/
def DrainPlace.Current (embed : String → Vector32) (db : Database) : DrainPlace → Prop
  | .idle | .rows .. => True
  | .missing _ row _ => ∀ vector ∈ db.vectors.rows, vector.1 ≠ row.symbolId
  | .hydrated _ row symbol _ =>
    symbol.id = row.symbolId ∧ db.HasText row.symbolId symbol.embeddingText
  | .embedded _ row symbol (.ok vectors) _ =>
    symbol.id = row.symbolId ∧ db.HasText row.symbolId symbol.embeddingText ∧
      vectors = [embed symbol.embeddingText]
  | .embedded _ _ _ (.error _) _ => True

/-- The invariant. -/
structure DrainInv (embed : String → Vector32) (s : DrainState) : Prop where
  settled : Settled embed s.db
  place : s.place.Current embed s.db

variable {embed : String → Vector32} {db db' : Database}

theorem settled_empty : Settled embed Database.empty where
  keyed := keyed_nil
  live := nofun
  current := nofun

theorem Settled.vectorsCurrent (h : Settled embed db) : VectorsCurrent embed db := by
  intro hempty row hrow
  obtain ⟨symbol, hs, hid⟩ := h.live row hrow
  refine ⟨symbol, hs, hid, ?_⟩
  rcases h.current row hrow symbol hs hid with hcur | ⟨queued, hq, -⟩
  · exact hcur
  · rw [hempty] at hq
    cases hq

/-! ## The drain keeps the store settled -/

theorem Settled.advanceSemantic (h : Settled embed db) :
    Settled embed db.advanceSemanticIfQueueEmpty := by
  obtain ⟨hsymbols, hvectors, hqueue⟩ := db.advanceSemanticIfQueueEmpty_rows
  constructor
  · rw [hsymbols]
    exact h.keyed
  · rw [hsymbols, hvectors]
    exact h.live
  · unfold Database.Awaits
    rw [hsymbols, hvectors, hqueue]
    exact h.current

/-- A queue row goes whose symbol has no vector, or a current one. -/
theorem Settled.deleteQueueRow (h : Settled embed db) {id : String}
    (hid : ∀ row ∈ db.vectors.rows, ∀ symbol ∈ db.symbols, symbol.id = row.1 → symbol.id = id →
      row.2 = embed symbol.embeddingText) : Settled embed (db.deleteQueueRow id) where
  keyed := h.keyed
  live := h.live
  current row hrow symbol hs hrs := by
    by_cases hne : symbol.id = id
    · exact .inl (hid row hrow symbol hs hrs hne)
    · exact (h.current row hrow symbol hs hrs).imp_right (·.deleteQueueRow hne)

theorem Settled.removeStale (h : Settled embed db) {id : String}
    (hid : ∀ row ∈ db.vectors.rows, row.1 ≠ id) : Settled embed (db.removeStaleQueueRow id) := by
  refine (h.deleteQueueRow ?_).advanceSemantic
  intro row hrow symbol _ hrs he
  exact absurd (hrs.symm.trans he) (hid row hrow)

/-- Fewer vectors are settled as well. -/
theorem Settled.shrink (h : Settled embed db) {vectors : VecTable} {dim : Option ℕ}
    (hsub : vectors.rows ⊆ db.vectors.rows) :
    Settled embed { db with vectors, embeddingDim := dim } where
  keyed := h.keyed
  live row hrow := h.live row (hsub hrow)
  current row hrow := h.current row (hsub hrow)

theorem Settled.recordFailure (h : Settled embed db) (config : OwnerConfig) (row : DueQueueRow)
    (message : String) (now : ℤ) : Settled embed (db.recordFailure config row message now) where
  keyed := h.keyed
  live := h.live
  current vec hvec symbol hs hid := by
    exact (h.current vec hvec symbol hs hid).imp_right (·.recordFailure config row message now)

/-- **The success write** for the current text keeps the store settled. -/
theorem Settled.persistSuccess (h : Settled embed db) {ext : VecExtension} {id text : String}
    (htext : db.HasText id text) (hp : db.persistSuccess ext id [embed text] = .ok db') :
    Settled embed db' := by
  unfold Database.persistSuccess at hp
  split at hp
  · cases hp
  · rename_i written hw
    cases hp
    refine Settled.advanceSemantic ?_
    unfold Database.upsertSymbolVectors at hw
    cases hlive : db.hasSymbol id with
    | false =>
      -- the symbol has gone: no vector is written
      rw [hlive] at hw
      cases hw
      refine h.deleteQueueRow ?_
      intro row _ symbol hs _ he
      rw [Database.hasSymbol_iff.2 ⟨symbol, hs, he⟩] at hlive
      cases hlive
    | true =>
      rw [hlive] at hw
      simp only [Bool.not_true, Bool.false_eq_true, ↓reduceIte] at hw
      split at hw
      · cases hw
      · rename_i table hinsert
        cases hw
        have hrows : ∀ row ∈ table.rows, (row ∈ db.vectors.rows ∧ row.1 ≠ id) ∨
            row = (id, embed text) := by
          intro row hrow
          unfold VecTable.insertAll at hinsert
          split_ifs at hinsert
          cases hinsert
          rcases mem_upsertAll.1 hrow with ⟨hold, hne⟩ | hnew
          · exact .inl ⟨hold, hne _ (List.mem_singleton.2 rfl)⟩
          · exact .inr (List.mem_singleton.1 (mem_of_mem_build hnew))
        constructor
        · exact h.keyed
        · intro row hrow
          rcases hrows row hrow with ⟨hold, -⟩ | rfl
          · exact h.live row hold
          · exact Database.hasSymbol_iff.1 hlive
        · intro row hrow symbol hs hrs
          rcases hrows row hrow with ⟨hold, hne⟩ | rfl
          · refine (h.current row hold symbol hs hrs).imp_right fun hq => ?_
            exact Database.Awaits.deleteQueueRow hq (hrs ▸ hne)
          · exact .inl (by rw [htext symbol hs hrs])

/-! ## A publish keeps the store settled -/

/-- The row of a live symbol stays in the queue, or is put there. -/
theorem Published.awaits {ext : VecExtension} {now : ℤ} {batch : PublishBatch}
    {written : Database} (hp : Published ext now db batch written db') (hreq : batch.Requeues)
    {symbol : Symbol} (hs : symbol ∈ db'.symbols)
    (h : symbol ∈ build Symbol.id batch.symbolUpserts ∨
      (db.Awaits symbol ∧ ∀ new ∈ batch.symbolUpserts, symbol.id ≠ new.id)) : db'.Awaits symbol := by
  have hremove : symbol.id ∉ batch.queueRemove := fun hid =>
    (hp.mem_symbols.1 hs).2 (List.mem_append_left _ (hreq.2.2 _ hid))
  rcases h with hnew | ⟨⟨queued, hq, hid, hfile⟩, hold⟩
  · have hrow : (⟨symbol.id, symbol.filePath, now, 0, 0, none⟩ : QueueRow) ∈
        build QueueRow.symbolId (batch.queueEnqueue.map fun symbol =>
          ⟨symbol.symbolId, symbol.filePath, now, 0, 0, none⟩) := by
      rw [hreq.2.1, List.map_map]
      exact map_mem_build (fun _ => rfl) hnew
    exact hp.awaits_of_mem hs hremove rfl rfl (mem_upsertAll.2 (.inr hrow))
  · refine hp.awaits_of_mem hs hremove hid hfile (mem_upsertAll.2 (.inl ⟨hq, ?_⟩))
    rw [hreq.2.1, List.map_map]
    intro row hrow
    obtain ⟨new, hnew, rfl⟩ := List.mem_map.1 hrow
    rw [hid]
    exact hold new hnew

/-- A publish that leaves the vectors to the drain writes none. -/
theorem Published.mem_vectors {ext : VecExtension} {now : ℤ} {batch : PublishBatch}
    {written : Database} (hp : Published ext now db batch written db') (hreq : batch.Requeues)
    {row : String × Vector32} (hrow : row ∈ db'.vectors.rows) :
    row ∈ db.vectors.rows ∧ row.1 ∉ db.deletedIds batch := by
  have hstep := hp.vectorStep
  rw [upsertVectorSpaceAndVectors_nil hreq.1] at hstep
  cases hstep
  rw [hp.vectors] at hrow
  simp only [List.mem_filter, decide_eq_true_eq] at hrow
  exact ⟨hrow.1.1, hrow.2⟩

theorem Settled.publish (h : Settled embed db) {ext : VecExtension} {now : ℤ}
    {batch : PublishBatch} (hreq : batch.Requeues) {written : Database}
    (hp : Published ext now db batch written db') : Settled embed db' where
  keyed := by
    rw [hp.symbols]
    exact (keyed_upsertAll h.keyed).filter _
  live row hrow := by
    obtain ⟨hold, hlive⟩ := hp.mem_vectors hreq hrow
    obtain ⟨symbol, hs, hid⟩ := h.live row hold
    obtain ⟨new, hnew, hnid⟩ : ∃ new ∈ upsertAll Symbol.id db.symbols batch.symbolUpserts,
        new.id = symbol.id := exists_mem_upsertAll hs
    refine ⟨new, ?_, hnid.trans hid⟩
    rw [hp.symbols, List.mem_filter, decide_eq_true_eq]
    exact ⟨hnew, by rwa [hnid, hid]⟩
  current row hrow symbol hs hid := by
    obtain ⟨hold, -⟩ := hp.mem_vectors hreq hrow
    rcases (hp.mem_symbols.1 hs).1 with ⟨hsold, hnew⟩ | hnew
    · refine (h.current row hold symbol hsold hid).imp_right fun hq => ?_
      exact hp.awaits hreq hs (.inr ⟨hq, hnew⟩)
    · exact .inr (hp.awaits hreq hs (.inl hnew))

/-! ## The invariant -/

/-- A publish that does not disturb the drain leaves it with the current text. -/
theorem DrainPlace.Current.publish {place : DrainPlace} (h : place.Current embed db)
    {ext : VecExtension} {now : ℤ} {batch : PublishBatch} (hreq : batch.Requeues)
    {written : Database} (hp : Published ext now db batch written db')
    (hund : ∀ held ∈ place.held, ∀ symbol ∈ build Symbol.id batch.symbolUpserts,
      symbol.id = held.id → symbol.embeddingText = held.embeddingText) :
    place.Current embed db' := by
  have htext : ∀ held ∈ place.held, ∀ id, held.id = id → db.HasText id held.embeddingText →
      db'.HasText id held.embeddingText := by
    intro held hheld id hid ht symbol hs hsid
    rcases (hp.mem_symbols.1 hs).1 with ⟨hold, -⟩ | hnew
    · exact ht symbol hold hsid
    · exact hund held hheld symbol hnew (hsid.trans hid.symm)
  cases place with
  | idle => trivial
  | rows now rest => trivial
  | missing now row rest =>
    intro vector hv
    exact h vector (hp.mem_vectors hreq hv).1
  | hydrated now row symbol rest => exact ⟨h.1, htext symbol rfl _ h.1 h.2⟩
  | embedded now row symbol result rest =>
    cases result with
    | error message => trivial
    | ok vectors => exact ⟨h.1, htext symbol rfl _ h.1 h.2.1, h.2.2⟩

/-- **Step lemma.** -/
theorem DrainInv.step {s t : DrainState} {label : DrainLabel} (h : DrainInv embed s)
    (hund : Undisturbed s label) (hst : s.step embed label = some t) : DrainInv embed t := by
  obtain ⟨db, place⟩ := s
  obtain ⟨hsettled, hplace⟩ := h
  dsimp only at hsettled hplace
  cases label with
  | readDue now budget =>
    cases place <;> cases hst
    exact ⟨hsettled, trivial⟩
  | hydrate =>
    cases place with
    | rows now rows =>
      cases rows with
      | nil => cases hst
      | cons row rest =>
        unfold DrainState.step at hst
        dsimp only at hst
        split at hst
        · -- no live symbol, so no vector
          rename_i hnone
          cases hst
          refine ⟨hsettled, fun vector hv he => ?_⟩
          obtain ⟨symbol, hs, hid⟩ := hsettled.live vector hv
          have hmem : symbol ∈ db.hydrateIds [row.symbolId] :=
            Database.mem_hydrateIds.2 ⟨hs, List.mem_singleton.2 (hid.trans he)⟩
          rw [hnone] at hmem
          cases hmem
        · rename_i symbol others hsome
          cases hst
          have hmem : symbol ∈ db.hydrateIds [row.symbolId] := by
            rw [hsome]
            exact List.mem_cons_self
          rw [Database.mem_hydrateIds, List.mem_singleton] at hmem
          refine ⟨hsettled, hmem.2, fun live hl hid => ?_⟩
          rw [hsettled.keyed.eq hl hmem.1 (hid.trans hmem.2.symm)]
    | _ => cases hst
  | removeStale =>
    cases place with
    | missing now row rest =>
      cases hst
      exact ⟨hsettled.removeStale hplace, trivial⟩
    | _ => cases hst
  | embed ext reply =>
    cases place with
    | hydrated now row symbol rest =>
      unfold DrainState.step at hst
      dsimp only at hst
      split_ifs at hst with hhonest
      cases hst
      obtain ⟨vectors, dim, heq, hsub⟩ := db.embedSymbol_eq ext reply
      have htext : (db.embedSymbol ext reply).1.HasText row.symbolId symbol.embeddingText := by
        rw [heq]
        exact hplace.2
      refine ⟨by rw [heq]; exact hsettled.shrink hsub, ?_⟩
      cases hresult : (db.embedSymbol ext reply).2 with
      | error message => exact trivial
      | ok vecs =>
        obtain ⟨dim, vector, rfl, rfl⟩ := Database.embedSymbol_ok hresult
        refine ⟨hplace.1, htext, ?_⟩
        rw [show vector = embed symbol.embeddingText from hhonest]
    | _ => cases hst
  | recordFailure config =>
    cases place with
    | embedded now row symbol result rest =>
      cases result with
      | error message =>
        cases hst
        exact ⟨hsettled.recordFailure config row message now, trivial⟩
      | ok vectors => cases hst
    | _ => cases hst
  | persist ext =>
    cases place with
    | embedded now row symbol result rest =>
      cases result with
      | error message => cases hst
      | ok vectors =>
        obtain ⟨-, htext, rfl⟩ := hplace
        unfold DrainState.step at hst
        dsimp only at hst
        split at hst
        · cases hst
          exact ⟨hsettled, trivial⟩
        · rename_i hp
          cases hst
          exact ⟨hsettled.persistSuccess htext hp, trivial⟩
    | _ => cases hst
  | finish =>
    cases place with
    | rows now rest =>
      cases rest <;> cases hst
      exact ⟨hsettled, trivial⟩
    | _ => cases hst
  | publish ext now batch =>
    unfold DrainState.step at hst
    dsimp only at hst
    split_ifs at hst with hreq
    cases hst
    unfold StoreOp.apply StoreOp.commit
    dsimp only
    split
    · exact ⟨hsettled, hplace⟩
    · rename_i committed hcommit
      split at hcommit
      · cases hcommit
      · rename_i published receipt hpub
        cases hcommit
        obtain ⟨written, hp⟩ := publish_spec hpub
        exact ⟨hsettled.publish hreq hp, hplace.publish hreq hp hund⟩

/-- The text a success write is for is the current one, so there is no newer row. -/
theorem DrainInv.keepsNewerRow {s : DrainState} (h : DrainInv embed s) : KeepsNewerRow embed s := by
  intro ext t now row symbol vectors rest hplace _ live hl hid hne
  have hcur := h.place
  rw [hplace] at hcur
  exact absurd (hcur.2.1 live hl hid) hne

/-- **No row is lost** in a run in which no publish, between the read of a symbol and the
    success write of its vector, changes the text of the symbol; and whenever nothing is
    queued, every vector is the embedding of the current text. -/
theorem drain_keepsNewerRows (embed : String → Vector32) (start : Database)
    (hstart : Settled embed start) (labels : List DrainLabel) (s : DrainState)
    (hrun : Transition.exec (DrainState.step embed) ⟨start, .idle⟩ labels = some s)
    (hund : Transition.Always (DrainState.step embed) Undisturbed ⟨start, .idle⟩ labels) :
    KeepsNewerRow embed s ∧ VectorsCurrent embed s.db := by
  have hinv : DrainInv embed s :=
    Transition.exec_invariant (fun _ _ _ hI hG hst => hI.step hG hst) hrun hund ⟨hstart, trivial⟩
  exact ⟨hinv.keepsNewerRow, hinv.settled.vectorsCurrent⟩

/-! ## A publish between the read and the write -/

namespace DrainExample

/-- The symbol before and after an edit of its docstring, which keeps its id. -/
def before : Symbol where
  id := "python:a.py:f@0"
  kind := .function
  name := "f"
  qualifiedName := "f"
  language := "python"
  module := "a"
  filePath := "a.py"
  lineStart := 1
  lineEnd := 2
  contentHash := "0"

def after : Symbol := { before with docstring := some "new" }

/-- The batch of the file of the symbol. -/
def batch (symbol : Symbol) : PublishBatch where
  symbolUpserts := [symbol]
  queueEnqueue := [⟨symbol.id, symbol.filePath⟩]
  reason := .incremental

def embedding (text : String) : Vector32 := if text = "f" then [0] else [1]

/-- The symbol is published, and again while the drain embeds its text. -/
def run (republished : Symbol) : List DrainLabel :=
  [.publish none 1 (batch before), .readDue 2 1, .hydrate, .embed none (.answered 1 (.ok [[0]])),
    .publish none 3 (batch republished), .persist none]

end DrainExample

open DrainExample in
/-- The symbol is published again with the same text. -/
theorem drain_keepsNewerRows_republish :
    ∃ s, Transition.exec (DrainState.step embedding) ⟨Database.empty, .idle⟩ (run before) = some s ∧
      s.db.vectors.rows = [(before.id, [0])] ∧ KeepsNewerRow embedding s ∧
        VectorsCurrent embedding s.db := by
  have hrows : (Transition.exec (DrainState.step embedding) ⟨Database.empty, .idle⟩ (run before)).map
      (·.db.vectors.rows) = some [(before.id, [0])] := by decide +kernel
  obtain ⟨s, hs, hvec⟩ := Option.map_eq_some_iff.1 hrows
  refine ⟨s, hs, hvec, ?_⟩
  refine drain_keepsNewerRows embedding Database.empty settled_empty (run before) s hs ?_
  decide +kernel

/-- The property for every interleaving. -/
def NoLostReembed : Prop :=
  ∀ (embed : String → Vector32) (start : Database), Settled embed start →
    ∀ (labels : List DrainLabel) (s : DrainState),
      Transition.exec (DrainState.step embed) ⟨start, .idle⟩ labels = some s →
      KeepsNewerRow embed s ∧ VectorsCurrent embed s.db

open DrainExample in
/-- The docstring is edited while the drain embeds the old text: the success write deletes
    the row of the new one, and the old vector stays with nothing queued. -/
theorem not_noLostReembed : ¬ NoLostReembed := by
  intro h
  have hcur := (h embedding Database.empty settled_empty (run after) _ rfl).2
  obtain ⟨symbol, hs, -, hvec⟩ := hcur rfl (before.id, [0]) (List.mem_singleton.2 rfl)
  have hs : symbol = after := List.mem_singleton.1 hs
  subst hs
  exact absurd hvec (by decide +kernel)

end Cognis
