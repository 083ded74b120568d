/-
  The producers of vectors and the searches over them: the indexers that publish and drain
  (`pipeline.rs`, `embed_queue.rs`), the engines that search (`store_engine.rs`), and the
  files that either side loads its model from.

  A publish records the fingerprint of the files that it finds when it publishes, a drain
  none at all; an engine compares with what is recorded the fingerprint of the files that it
  found when it was opened. Each embeds with the model that is resident.

  * `SemanticSystem.step`: a change of the files or of the configuration, an opening, a step
    of a model slot, the two transactions of a publish and of a row of the drain, a snapshot,
    a search;
  * `InSpace`: whoever embeds under a fingerprint has a model that files of this fingerprint
    build;
  * `sameSpace_of_run`: in a run of such steps, no search compares vectors of two spaces.
-/
import Cognis.Embed.Fingerprint
import Cognis.Embed.Lifecycle
import Cognis.Indexer.Session
import Cognis.Mcp.StoreEngine

namespace Cognis

open Transition Table

/-! ## The parties -/

/-- Files that have been read, with the configuration that they were read for. -/
structure ModelFiles where
  config : EmbedderConfig
  dir : ModelDir

namespace ModelFiles

variable (crates : EmbedCrates) (files : ModelFiles)

/-- Their fingerprint. -/
def digest : String := deriveFingerprint crates files.config files.dir

/-- The space of the embedder that they build. -/
def space : Option VectorSpace := buildEmbedder crates files.config files.dir

end ModelFiles

/-- What an indexer has begun. -/
inductive VectorWork where
  | idle
  /-- a batch that has been prepared, with the space of its vectors -/
  | publish (batch : PublishBatch) (space : Option VectorSpace)
  /-- the vector of a due row -/
  | drain (row : DueQueueRow) (vectors : List Vector32) (space : VectorSpace)

/-- An `IndexerPipeline`, or the drain of an owner. -/
structure VectorIndexer where
  home : ModelHome
  config : EmbedderConfig
  ext : VecExtension
  model : SlotSystem ℕ VectorSpace
  work : VectorWork

/-- A `StoreEngine` with its model slot. -/
structure SearchEngine where
  home : ModelHome
  /-- `embedder_config` -/
  config : EmbedderConfig
  engine : StoreEngine
  model : SlotSystem ℕ VectorSpace

/-- The space that the vector of a symbol was produced in. -/
abbrev Origins := String → Option VectorSpace

/-- The vectors of the symbols are new. -/
def Origins.produced (origin : Origins) (ids : List String) (space : VectorSpace) : Origins :=
  fun id => if id ∈ ids then some space else origin id

/-- The hits of a search, on the snapshot it was made on. -/
structure SearchAnswer where
  /-- the space of the query vector -/
  space : VectorSpace
  db : Database
  origin : Origins
  hits : List Hit

/-- **What is to hold**: the vector of each hit is of the space of the query. -/
def SearchAnswer.SameSpace (a : SearchAnswer) : Prop :=
  ∀ hit ∈ a.hits, ∀ row ∈ a.db.vectors.rows, row.1 = hit.symbolId → a.origin row.1 = some a.space

instance SearchAnswer.decidableSameSpace : DecidablePred SearchAnswer.SameSpace := fun a =>
  inferInstanceAs (Decidable (∀ hit ∈ a.hits, ∀ row ∈ a.db.vectors.rows, _ → _))

/-- The store with its readers and writers, and what they load their models from. -/
structure SemanticSystem where
  disk : ModelDisk
  /-- the `embedder` section of the configuration file -/
  config : EmbedderConfig
  db : Database
  origin : Origins
  /-- the files that a model was built from or a fingerprint was taken of -/
  seen : List ModelFiles
  indexers : List VectorIndexer
  engines : List SearchEngine
  snapshots : List (Database × Origins)
  answers : List SearchAnswer

/-- A fresh store. -/
def SemanticSystem.initial (disk : ModelDisk) (config : EmbedderConfig) : SemanticSystem where
  disk := disk
  config := config
  db := .empty
  origin := fun _ => none
  seen := []
  indexers := []
  engines := []
  snapshots := []
  answers := []

inductive SemanticLabel where
  | changeFiles (disk : ModelDisk)
  | configure (config : EmbedderConfig)
  /-- `IndexerPipeline::open_with_policy`, or the start of an owner -/
  | openIndexer (home : ModelHome) (ext : VecExtension) (eager : Bool)
  /-- `StoreEngine::open_with_policy` -/
  | openEngine (home : ModelHome) (engine : StoreEngine) (eager : Bool)
  | indexerModel (i : ℕ) (label : SlotSystem.Label ℕ VectorSpace)
  | engineModel (g : ℕ) (label : SlotSystem.Label ℕ VectorSpace)
  /-- `prepare_semantic_batch`, with the model borrowed and its vectors -/
  | prepare (i : ℕ) (batch : PublishBatch) (reply : Option (VectorSpace × List Vector32))
  /-- `Database::publish` -/
  | commit (i : ℕ) (now : ℤ)
  /-- a row of the drain up to its vector -/
  | drainRow (i : ℕ) (config : OwnerConfig) (row : DueQueueRow) (now : ℤ)
      (reply : Option (VectorSpace × Except String (List Vector32)))
  /-- `persist_success` -/
  | persist (i : ℕ)
  | openSnapshot
  /-- `semantic_search` on a snapshot, with the model borrowed -/
  | search (g n : ℕ) (space : VectorSpace) (embedText : String → Option Vector32)
      (sqlError : ℕ → Option String) (query : String) (k : ℕ)

/-! ## The steps -/

namespace SemanticSystem

variable (crates : EmbedCrates) (s : SemanticSystem)

/-- The files have been seen. -/
def see (files : ModelFiles) : SemanticSystem := { s with seen := files :: s.seen }

/-- The files that a party finds now. -/
def find (home : ModelHome) (config : EmbedderConfig) : ModelFiles :=
  ⟨config, home.modelDir s.disk config.model⟩

/-- A step of a slot: its factory builds the embedder of the files that are found. -/
def slotStep (files : ModelFiles) (model : SlotSystem ℕ VectorSpace)
    (label : SlotSystem.Label ℕ VectorSpace) : Option (SlotSystem ℕ VectorSpace × SemanticSystem) :=
  match label with
  | .factoryReturns _ (.ok space) =>
    if files.space crates = some space then
      (model.step label).map fun model => (model, s.see files)
    else none
  | _ => (model.step label).map fun model => (model, s)

/-- The model slot of a party that opens. -/
def openSlot (files : ModelFiles) (eager : Bool) : SlotSystem ℕ VectorSpace :=
  .init (if eager then files.space crates else none) 0

/-- `vector_fingerprint` -/
def vectorFingerprint (files : ModelFiles) (dim : ℕ) : VectorSpaceFingerprint :=
  ⟨files.digest crates, dim, files.config.model⟩

def openIndexer (home : ModelHome) (ext : VecExtension) (eager : Bool) : SemanticSystem :=
  let files := s.find home s.config
  let model := openSlot crates files eager
  let db := s.db.healLegacyVec0 ext
  match db.reconcileEmbedder ext (if eager then (files.space crates).map VectorSpace.dim else none) with
  | .error _ => { s with db }
  | .ok db =>
    let s' := if eager then s.see files else s
    { s' with db, indexers := s.indexers ++ [⟨home, s.config, ext, model, .idle⟩] }

def openEngine (home : ModelHome) (engine : StoreEngine) (eager : Bool) : SemanticSystem :=
  let files := s.find home s.config
  { s.see files with
    db := s.db.healLegacyVec0 engine.sql.ext
    engines := s.engines ++ [⟨home, s.config,
      { engine with queryFingerprint := files.digest crates }, openSlot crates files eager⟩] }

/-- The indexer goes on with other work. -/
def withWork (i : ℕ) (work : VectorWork) : SemanticSystem :=
  { s with indexers := s.indexers.modify i fun indexer => { indexer with work } }

/-- The vectors come from a borrowed model, or the symbols are queued. -/
def prepare (i : ℕ) (indexer : VectorIndexer) (batch : PublishBatch) :
    Option (VectorSpace × List Vector32) → Option SemanticSystem
  | none => some (s.withWork i (.publish (batch.prepareSemantic .needPending) none))
  | some (space, vectors) =>
    let files := s.find indexer.home indexer.config
    if space ∈ indexer.model.borrows ∧ batch.symbolUpserts ≠ [] ∧
        vectors.length = batch.symbolUpserts.length then
      some ((s.see files).withWork i
        (.publish (batch.prepareSemantic (.embedded vectors (vectorFingerprint crates files)))
          (some space)))
    else none

/-- The ids that a publish writes vectors of. -/
def writtenIds (batch : PublishBatch) : List String :=
  (batch.vectorUpserts.map Prod.fst).filter (s.db.upsertSymbols batch.symbolUpserts).hasSymbol

/-- The publish of a prepared batch; an error rolls it back. -/
def commit (i : ℕ) (ext : VecExtension) (now : ℤ) (batch : PublishBatch)
    (space : Option VectorSpace) : SemanticSystem :=
  let s' := s.withWork i .idle
  match publish ext now s.db batch with
  | .error _ => s'
  | .ok (db, _) =>
    { s' with db, origin := space.elim s.origin (s.origin.produced (s.writtenIds batch)) }

/-- The body of the loop of `drain`, up to the vector of the row. -/
def drainRow (i : ℕ) (indexer : VectorIndexer) (config : OwnerConfig) (row : DueQueueRow) (now : ℤ)
    (reply : Option (VectorSpace × Except String (List Vector32))) : Option SemanticSystem :=
  match s.db.hydrateIds [row.symbolId], reply with
  | [], _ => some { s with db := s.db.removeStaleQueueRow row.symbolId }
  | _ :: _, none =>
    some { s with db := s.db.recordFailure config row "embedder unavailable" now }
  | _ :: _, some (space, answer) =>
    if space ∈ indexer.model.borrows then
      match s.db.embedSymbol indexer.ext (.answered space.dim answer) with
      | (db, .error message) => some { s with db := db.recordFailure config row message now }
      | (db, .ok vectors) => some ({ s with db }.withWork i (.drain row vectors space))
    else none

/-- The success write of the drain; an error rolls it back. -/
def persist (i : ℕ) (ext : VecExtension) (row : DueQueueRow) (vectors : List Vector32)
    (space : VectorSpace) : SemanticSystem :=
  let s' := s.withWork i .idle
  match s.db.persistSuccess ext row.symbolId vectors with
  | .error _ => s'
  | .ok db =>
    { s' with
      db
      origin := s.origin.produced ([row.symbolId].filter s.db.hasSymbol) space }

/-- The hits are kept with the snapshot they were found on. -/
def search (engine : SearchEngine) (snapshot : Database × Origins) (space : VectorSpace)
    (o : Occasion) (query : String) (k : ℕ) : SemanticSystem :=
  match engine.engine.semanticSearch snapshot.1 o query k with
  | .error _ => s
  | .ok hits => { s with answers := ⟨space, snapshot.1, snapshot.2, hits⟩ :: s.answers }

def step : SemanticLabel → Option SemanticSystem
  | .changeFiles disk => some { s with disk }
  | .configure config => some { s with config }
  | .openIndexer home ext eager => some (s.openIndexer crates home ext eager)
  | .openEngine home engine eager => some (s.openEngine crates home engine eager)
  | .indexerModel i label => do
    let indexer ← s.indexers[i]?
    let (model, s) ← s.slotStep crates (s.find indexer.home indexer.config) indexer.model label
    return { s with indexers := s.indexers.modify i fun indexer => { indexer with model } }
  | .engineModel g label => do
    let engine ← s.engines[g]?
    let (model, s) ← s.slotStep crates (s.find engine.home engine.config) engine.model label
    return { s with engines := s.engines.modify g fun engine => { engine with model } }
  | .prepare i batch reply => do
    let indexer ← s.indexers[i]?
    match indexer.work with
    -- a batch of the planner has no vectors
    | .idle => if batch.vectorUpserts = [] then s.prepare crates i indexer batch reply else none
    | _ => none
  | .commit i now => do
    let indexer ← s.indexers[i]?
    match indexer.work with
    | .publish batch space => return s.commit i indexer.ext now batch space
    | _ => none
  | .drainRow i config row now reply => do
    let indexer ← s.indexers[i]?
    match indexer.work with
    | .idle => s.drainRow i indexer config row now reply
    | _ => none
  | .persist i => do
    let indexer ← s.indexers[i]?
    match indexer.work with
    | .drain row vectors space => return s.persist i indexer.ext row vectors space
    | _ => none
  | .openSnapshot => some { s with snapshots := s.snapshots ++ [(s.db, s.origin)] }
  | .search g n space embedText sqlError query k => do
    let engine ← s.engines[g]?
    let snapshot ← s.snapshots[n]?
    if space ∈ engine.model.borrows then
      return s.search engine snapshot space { sqlError, embedder := some embedText } query k
    else none

/-! ## The condition -/

/-- Files of the fingerprint build an embedder of the space. -/
def StandsFor (digest : String) (space : VectorSpace) : Prop :=
  ∃ files ∈ s.seen, files.digest crates = digest ∧ files.space crates = some space

instance StandsFor.decidable (digest : String) (space : VectorSpace) :
    Decidable (s.StandsFor crates digest space) :=
  inferInstanceAs (Decidable (∃ files ∈ s.seen, _))

/-- No sidecar gives the files the fingerprint of others that have been seen. -/
def Tells (files : ModelFiles) : Prop :=
  ∀ other ∈ s.seen, files.digest crates = other.digest crates →
    files.config.backend ≠ "stub" → (files.space crates).isSome → (other.space crates).isSome →
      Vouched crates files.dir other.dir

instance Tells.decidable (files : ModelFiles) : Decidable (s.Tells crates files) :=
  inferInstanceAs (Decidable (∀ other ∈ s.seen, _ → _ → _ → _ → _))

/-- The fingerprint that the vectors are under. -/
def recordedDigest (db : Database) : Option String :=
  (db.vectorSpace.map VectorSpaceFingerprint.digest).filter (· ≠ "")

/-- A publish that records the first fingerprint keeps vectors of its own space only. -/
def FirstInSpace (indexer : VectorIndexer) : Prop :=
  match indexer.work with
  | .publish batch (some space) =>
    recordedDigest s.db = none → ∀ fingerprint ∈ batch.fingerprint,
      ∀ row ∈ s.db.keptVectors indexer.ext fingerprint, row.1 ∉ s.writtenIds batch →
        row.1 ∉ batch.vectorDeletes → row.1 ∉ s.db.deletedIds batch → s.origin row.1 = some space
  | _ => True

instance FirstInSpace.decidable : DecidablePred s.FirstInSpace := fun indexer => by
  unfold FirstInSpace
  split <;> infer_instance

/-- A drain writes a vector of the recorded space. -/
def DrainInSpace (indexer : VectorIndexer) : Prop :=
  match indexer.work with
  | .drain row _ space =>
    s.db.hasSymbol row.symbolId = true → ∀ digest ∈ recordedDigest s.db, s.StandsFor crates digest space
  | _ => True

instance DrainInSpace.decidable : DecidablePred (s.DrainInSpace crates) := fun indexer => by
  unfold DrainInSpace
  split <;> infer_instance

/-- **The condition on a step**: a model that embeds under a fingerprint is one that files of this
    fingerprint build, and no sidecar hides a change of the files. -/
def InSpace : SemanticLabel → Prop
  | .openIndexer home _ eager => eager = true → s.Tells crates (s.find home s.config)
  | .openEngine home _ _ => s.Tells crates (s.find home s.config)
  | .indexerModel i (.factoryReturns _ (.ok _)) =>
    ∀ indexer ∈ s.indexers[i]?, s.Tells crates (s.find indexer.home indexer.config)
  | .engineModel g (.factoryReturns _ (.ok _)) =>
    ∀ engine ∈ s.engines[g]?, s.Tells crates (s.find engine.home engine.config)
  | .prepare i _ reply => ∀ indexer ∈ s.indexers[i]?, ∀ answer ∈ reply,
    let files := s.find indexer.home indexer.config
    s.Tells crates files ∧ (s.see files).StandsFor crates (files.digest crates) answer.1
  | .commit i _ => ∀ indexer ∈ s.indexers[i]?, s.FirstInSpace indexer
  | .persist i => ∀ indexer ∈ s.indexers[i]?, s.DrainInSpace crates indexer
  | .search g n space _ _ _ _ => ∀ engine ∈ s.engines[g]?, ∀ snapshot ∈ s.snapshots[n]?,
    engine.engine.vectorSpaceAllows snapshot.1 = true →
      s.StandsFor crates engine.engine.queryFingerprint space
  | _ => True

instance InSpace.decidable : DecidablePred (s.InSpace crates) := fun label => by
  unfold InSpace
  split <;> infer_instance

/-! ## The invariant -/

/-- Files of the recorded fingerprint build an embedder of the space of every stored vector. -/
def Stored (seen : List ModelFiles) (db : Database) (origin : Origins) : Prop :=
  ∀ digest ∈ recordedDigest db, ∃ files ∈ seen, files.digest crates = digest ∧
    ∃ space, files.space crates = some space ∧ ∀ row ∈ db.vectors.rows, origin row.1 = some space

/-- A batch that has been prepared has the fingerprint of its vectors. -/
def Prepared (batch : PublishBatch) : Option VectorSpace → Prop
  | none => batch.vectorUpserts = []
  | some space => ∃ fingerprint, batch.fingerprint = some fingerprint ∧
    s.StandsFor crates fingerprint.digest space

/-- The invariant. -/
structure Inv : Prop where
  /-- a fingerprint stands for one space -/
  apart : ∀ files ∈ s.seen, ∀ other ∈ s.seen, files.digest crates = other.digest crates →
    ∀ space space', files.space crates = some space → other.space crates = some space' →
      space = space'
  stored : Stored crates s.seen s.db s.origin
  snapshots : ∀ snapshot ∈ s.snapshots, Stored crates s.seen snapshot.1 snapshot.2
  prepared : ∀ (i : ℕ) (indexer : VectorIndexer), s.indexers[i]? = some indexer →
    ∀ batch space, indexer.work = .publish batch space → s.Prepared crates batch space
  answers : ∀ a ∈ s.answers, a.SameSpace

variable {crates s} {t : SemanticSystem} {files : ModelFiles} {db db' : Database} {origin : Origins}
  {seen : List ModelFiles} {space : VectorSpace}

theorem Inv.standsFor_eq (h : s.Inv crates) {digest : String} {space' : VectorSpace}
    (hspace : s.StandsFor crates digest space) (hspace' : s.StandsFor crates digest space') :
    space = space' := by
  obtain ⟨files, hfiles, hdigest, hbuild⟩ := hspace
  obtain ⟨other, hother, hdigest', hbuild'⟩ := hspace'
  exact h.apart files hfiles other hother (hdigest.trans hdigest'.symm) space space' hbuild hbuild'

theorem StandsFor.see {digest : String} (h : s.StandsFor crates digest space) (files : ModelFiles) :
    (s.see files).StandsFor crates digest space := by
  obtain ⟨other, hother, hspace⟩ := h
  exact ⟨other, List.mem_cons_of_mem _ hother, hspace⟩

theorem Stored.see (h : Stored crates seen db origin) (files : ModelFiles) :
    Stored crates (files :: seen) db origin := by
  intro digest hdigest
  obtain ⟨other, hother, hspace⟩ := h digest hdigest
  exact ⟨other, List.mem_cons_of_mem _ hother, hspace⟩

/-- Rows go, and nothing is recorded. -/
theorem Stored.of_rows (h : Stored crates seen db origin) (hspace : db'.vectorSpace = db.vectorSpace)
    (hrows : db'.vectors.rows ⊆ db.vectors.rows) : Stored crates seen db' origin := by
  intro digest hdigest
  rw [recordedDigest, hspace] at hdigest
  obtain ⟨files, hfiles, hfp, space, hbuild, horigin⟩ := h digest hdigest
  exact ⟨files, hfiles, hfp, space, hbuild, fun row hrow => horigin row (hrows hrow)⟩

theorem stored_empty : Stored crates seen .empty origin := by
  intro digest hdigest
  cases hdigest

theorem inv_initial (disk : ModelDisk) (config : EmbedderConfig) :
    (initial disk config).Inv crates where
  apart _ h := absurd h List.not_mem_nil
  stored := stored_empty
  snapshots _ h := absurd h List.not_mem_nil
  prepared i indexer h := by cases h
  answers _ h := absurd h List.not_mem_nil

/-- **New files** that no sidecar confuses with others. -/
theorem Inv.see (h : s.Inv crates) (hsha : Function.Injective crates.sha256)
    (htells : s.Tells crates files) : (s.see files).Inv crates where
  apart := by
    have hnew : ∀ other ∈ s.seen, files.digest crates = other.digest crates →
        ∀ space space', files.space crates = some space → other.space crates = some space' →
          space = space' := by
      intro other hother hdigest space space' hspace hspace'
      refine space_eq_of_derive_eq hsha hspace hspace' (fun honnx => ?_) hdigest
      refine htells other hother hdigest (fun hstub => ?_) (by simp [hspace]) (by simp [hspace'])
      have hback := (material_of_buildEmbedder hspace).1
      rw [hstub, honnx] at hback
      exact absurd hback (by decide)
    intro first hfirst second hsecond hdigest space space' hspace hspace'
    rcases List.mem_cons.1 hfirst with rfl | hold
    · rcases List.mem_cons.1 hsecond with rfl | hold'
      · exact Option.some.inj (hspace.symm.trans hspace')
      · exact hnew second hold' hdigest space space' hspace hspace'
    · rcases List.mem_cons.1 hsecond with rfl | hold'
      · exact (hnew first hold hdigest.symm space' space hspace' hspace).symm
      · exact h.apart first hold second hold' hdigest space space' hspace hspace'
  stored := h.stored.see files
  snapshots snapshot hs := (h.snapshots snapshot hs).see files
  prepared i indexer hi batch space hwork := by
    have hprepared := h.prepared i indexer hi batch space hwork
    cases space with
    | none => exact hprepared
    | some space =>
      obtain ⟨fingerprint, hfp, hstands⟩ := hprepared
      exact ⟨fingerprint, hfp, hstands.see files⟩
  answers := h.answers

/-- The store changes, and nothing else of the invariant. -/
theorem Inv.withStore (h : s.Inv crates) (hstored : Stored crates s.seen db origin)
    (hseen : t.seen = s.seen) (hdb : t.db = db) (horigin : t.origin = origin)
    (hsnapshots : t.snapshots = s.snapshots) (hanswers : t.answers = s.answers)
    (hindexers : ∀ (i : ℕ) (indexer : VectorIndexer), t.indexers[i]? = some indexer →
      ∀ batch space, indexer.work = .publish batch space → s.Prepared crates batch space) :
    t.Inv crates where
  apart := by rw [hseen]; exact h.apart
  stored := by rw [hseen, hdb, horigin]; exact hstored
  snapshots := by rw [hseen, hsnapshots]; exact h.snapshots
  prepared i indexer hi batch space hwork := by
    have hprepared := hindexers i indexer hi batch space hwork
    cases space with
    | none => exact hprepared
    | some space =>
      obtain ⟨fingerprint, hfp, files, hfiles, hspace⟩ := hprepared
      exact ⟨fingerprint, hfp, files, by rw [hseen]; exact hfiles, hspace⟩
  answers := by rw [hanswers]; exact h.answers

/-! ## The steps keep the invariant -/

/-- Other work of an indexer. -/
theorem prepared_withWork (h : s.Inv crates) {i : ℕ} {work : VectorWork}
    (hwork : ∀ batch space, work = .publish batch space → s.Prepared crates batch space) (j : ℕ)
    (indexer : VectorIndexer) (hj : (s.withWork i work).indexers[j]? = some indexer)
    (batch : PublishBatch) (space : Option VectorSpace) (hbatch : indexer.work = .publish batch space) :
    s.Prepared crates batch space := by
  rw [withWork, List.getElem?_modify] at hj
  obtain ⟨old, hold, rfl⟩ := Option.map_eq_some_iff.1 hj
  split_ifs at hbatch
  · exact hwork batch space hbatch
  · exact h.prepared j old hold batch space hbatch

theorem Inv.withWork (h : s.Inv crates) {i : ℕ} {work : VectorWork}
    (hwork : ∀ batch space, work = .publish batch space → s.Prepared crates batch space) :
    (s.withWork i work).Inv crates :=
  h.withStore h.stored rfl rfl rfl rfl rfl (prepared_withWork h hwork)

theorem Inv.withDb (h : s.Inv crates) (hspace : db.vectorSpace = s.db.vectorSpace)
    (hrows : db.vectors.rows ⊆ s.db.vectors.rows) : Inv crates { s with db } :=
  h.withStore (h.stored.of_rows hspace hrows) rfl rfl rfl rfl rfl h.prepared

theorem healLegacyVec0_rows (db : Database) (ext : VecExtension) :
    (db.healLegacyVec0 ext).vectorSpace = db.vectorSpace ∧
      (db.healLegacyVec0 ext).vectors.rows ⊆ db.vectors.rows := by
  unfold Database.healLegacyVec0
  split_ifs
  · exact ⟨rfl, List.nil_subset _⟩
  · exact ⟨rfl, List.Subset.refl _⟩

theorem reconcileEmbedder_rows {ext : VecExtension} {dim : Option ℕ}
    (h : db.reconcileEmbedder ext dim = .ok db') :
    db'.vectorSpace = db.vectorSpace ∧ db'.vectors.rows ⊆ db.vectors.rows := by
  unfold Database.reconcileEmbedder at h
  split at h
  · cases h
    exact ⟨rfl, List.Subset.refl _⟩
  · split_ifs at h
    · obtain ⟨heq, hrows⟩ := Database.reconcileEmbeddingDim_eq h
      exact ⟨by rw [heq], hrows⟩
    · cases h
      exact ⟨rfl, List.Subset.refl _⟩

theorem embedSymbol_rows (db : Database) (ext : VecExtension) (reply : EmbedReply) :
    (db.embedSymbol ext reply).1.vectorSpace = db.vectorSpace ∧
      (db.embedSymbol ext reply).1.vectors.rows ⊆ db.vectors.rows := by
  cases reply with
  | unavailable => exact ⟨rfl, List.Subset.refl _⟩
  | answered dim answer =>
    unfold Database.embedSymbol
    dsimp only
    split
    · exact ⟨rfl, List.Subset.refl _⟩
    next db' hreconciled =>
      have hrows : db'.vectorSpace = db.vectorSpace ∧ db'.vectors.rows ⊆ db.vectors.rows :=
        reconcileEmbedder_rows (show db.reconcileEmbedder _ (some dim) = _ from hreconciled)
      split
      · exact hrows
      · split_ifs <;> exact hrows

theorem removeStaleQueueRow_rows (db : Database) (id : String) :
    (db.removeStaleQueueRow id).vectorSpace = db.vectorSpace ∧
      (db.removeStaleQueueRow id).vectors.rows ⊆ db.vectors.rows := by
  unfold Database.removeStaleQueueRow Database.advanceSemanticIfQueueEmpty
  split_ifs <;> exact ⟨rfl, List.Subset.refl _⟩

/-- A step of a slot sees the files that it builds an embedder of. -/
theorem inv_slotStep (h : s.Inv crates) (hsha : Function.Injective crates.sha256)
    {model model' : SlotSystem ℕ VectorSpace} {label : SlotSystem.Label ℕ VectorSpace}
    (htells : ∀ c space, label = .factoryReturns c (.ok space) → s.Tells crates files)
    (hstep : s.slotStep crates files model label = some (model', t)) :
    t.Inv crates ∧ t.indexers = s.indexers := by
  unfold slotStep at hstep
  split at hstep
  next c space =>
    split_ifs at hstep
    obtain ⟨model'', -, heq⟩ := Option.map_eq_some_iff.1 hstep
    cases heq
    exact ⟨h.see hsha (htells c space rfl), rfl⟩
  · obtain ⟨model'', -, heq⟩ := Option.map_eq_some_iff.1 hstep
    cases heq
    exact ⟨h, rfl⟩

theorem inv_openIndexer (h : s.Inv crates) (hsha : Function.Injective crates.sha256)
    (home : ModelHome) (ext : VecExtension) (eager : Bool)
    (htells : eager = true → s.Tells crates (s.find home s.config)) :
    (s.openIndexer crates home ext eager).Inv crates := by
  unfold openIndexer
  dsimp only
  obtain ⟨hspace, hrows⟩ := healLegacyVec0_rows s.db ext
  split
  · exact h.withDb hspace hrows
  next db hreconciled =>
    obtain ⟨hspace', hrows'⟩ := reconcileEmbedder_rows hreconciled
    have hseen : (if eager then s.see (s.find home s.config) else s).Inv crates := by
      split_ifs with heager
      · exact h.see hsha (htells heager)
      · exact h
    have hdb : (if eager then s.see (s.find home s.config) else s).db = s.db := by
      split_ifs <;> rfl
    have hindexers : (if eager then s.see (s.find home s.config) else s).indexers = s.indexers := by
      split_ifs <;> rfl
    refine hseen.withStore (show Stored crates _ db _ from hseen.stored.of_rows ?_ ?_) rfl rfl rfl rfl rfl ?_
    · rw [hdb, hspace', hspace]
    · rw [hdb]
      exact List.Subset.trans hrows' hrows
    · intro i indexer hi batch space hwork
      dsimp only at hi
      -- the new indexer has begun nothing
      by_cases hlt : i < s.indexers.length
      · rw [List.getElem?_append_left hlt, ← hindexers] at hi
        exact hseen.prepared i indexer hi batch space hwork
      · rw [List.getElem?_append_right (by omega), List.getElem?_singleton] at hi
        split_ifs at hi
        cases hi
        cases hwork

theorem inv_openEngine (h : s.Inv crates) (hsha : Function.Injective crates.sha256)
    (home : ModelHome) (engine : StoreEngine) (eager : Bool)
    (htells : s.Tells crates (s.find home s.config)) :
    (s.openEngine crates home engine eager).Inv crates := by
  obtain ⟨hspace, hrows⟩ := healLegacyVec0_rows s.db engine.sql.ext
  have hseen := h.see hsha htells
  exact hseen.withStore (hseen.stored.of_rows hspace hrows) rfl rfl rfl rfl rfl hseen.prepared

theorem inv_prepare (h : s.Inv crates) (hsha : Function.Injective crates.sha256) {i : ℕ}
    {indexer : VectorIndexer} {batch : PublishBatch} (hbatch : batch.vectorUpserts = [])
    {reply : Option (VectorSpace × List Vector32)}
    (hgood : ∀ answer ∈ reply, s.Tells crates (s.find indexer.home indexer.config) ∧
      (s.see (s.find indexer.home indexer.config)).StandsFor crates
        ((s.find indexer.home indexer.config).digest crates) answer.1)
    (hstep : s.prepare crates i indexer batch reply = some t) : t.Inv crates := by
  unfold prepare at hstep
  split at hstep
  · cases hstep
    refine h.withWork fun batch' space heq => ?_
    cases heq
    show (batch.prepareSemantic .needPending).vectorUpserts = []
    unfold PublishBatch.prepareSemantic PublishBatch.prepareNeedPending
    dsimp only
    split_ifs
    · exact hbatch
    · rfl
  next space vectors =>
    obtain ⟨htells, hstands⟩ := hgood (space, vectors) rfl
    dsimp only at hstep
    split_ifs at hstep with hreply
    cases hstep
    refine (h.see hsha htells).withWork fun batch' space' heq => ?_
    cases heq
    let dim := (vectors.head?.map List.length).getD 0
    refine ⟨vectorFingerprint crates (s.find indexer.home indexer.config) dim, ?_, hstands⟩
    unfold PublishBatch.prepareSemantic
    dsimp only
    rw [if_neg hreply.2.1, if_pos hreply.2.2]

/-- The recorded digest is the one of the space, unless it is empty. -/
theorem mem_recordedDigest {digest : String} :
    digest ∈ recordedDigest db ↔
      ∃ space, db.vectorSpace = some space ∧ space.digest = digest ∧ digest ≠ "" := by
  unfold recordedDigest
  rw [Option.mem_def, Option.filter_eq_some_iff, Option.map_eq_some_iff]
  simp only [decide_eq_true_eq]
  constructor
  · rintro ⟨⟨space, hspace, hdigest⟩, hne⟩
    exact ⟨space, hspace, hdigest, hne⟩
  · rintro ⟨space, hspace, hdigest, hne⟩
    exact ⟨⟨space, hspace, hdigest⟩, hne⟩

/-- **The rows of a publish** with vectors are of one space. -/
theorem stored_publish (h : s.Inv crates) {indexer : VectorIndexer} {batch : PublishBatch}
    (hwork : indexer.work = .publish batch (some space)) (hfirst : s.FirstInSpace indexer)
    (hprepared : s.Prepared crates batch (some space)) {now : ℤ} {receipt : PublishReceipt}
    (hpub : publish indexer.ext now s.db batch = .ok (db', receipt)) :
    Stored crates s.seen db' (s.origin.produced (s.writtenIds batch) space) := by
  obtain ⟨written, hp⟩ := publish_spec hpub
  have hvectorSpace := publish_vectorSpace hpub hp
  obtain ⟨fingerprint, hfingerprint, hstands⟩ := hprepared
  by_cases hne : ∃ row ∈ batch.vectorUpserts, (s.db.upsertSymbols batch.symbolUpserts).hasSymbol row.1 = true
  · have hrecorded := upsertVectorSpaceAndVectors_vectorSpace hp.vectorStep hfingerprint hne
    have hrows := upsertVectorSpaceAndVectors_rows hp.vectorStep hfingerprint hne
    obtain ⟨files, hfiles, hdigest, hspace⟩ := hstands
    intro digest hmem
    obtain ⟨recorded, hvs, rfl, hnonempty⟩ := mem_recordedDigest.1 hmem
    rw [hvectorSpace, hrecorded] at hvs
    cases hvs
    refine ⟨files, hfiles, hdigest, space, hspace, fun row hrow => ?_⟩
    rw [hp.vectors] at hrow
    obtain ⟨hrow, hdeleted⟩ := List.mem_filter.1 hrow
    obtain ⟨hrow, hvecDeleted⟩ := List.mem_filter.1 hrow
    rw [hrows, mem_upsertAll] at hrow
    unfold Origins.produced
    split_ifs with hwritten
    · rfl
    · rcases hrow with ⟨hkept, -⟩ | hnew
      · obtain ⟨hold, hsame⟩ := mem_keptVectors hkept
        cases hrec : recordedDigest s.db with
        | none =>
          rw [FirstInSpace, hwork] at hfirst
          exact hfirst hrec fingerprint hfingerprint row hkept hwritten (by simpa using hvecDeleted)
            (by simpa using hdeleted)
        | some digest' =>
          -- the space was recorded before, with the same digest
          obtain ⟨files', hfiles', hdigest', space', hspace', horigin⟩ := h.stored digest' hrec
          obtain ⟨persisted, hpersisted, rfl, hne'⟩ := mem_recordedDigest.1 hrec
          have heq : persisted.digest = fingerprint.digest := by
            have hsame : s.db.spaceChanged fingerprint = false := hsame
            unfold Database.spaceChanged at hsame
            rw [hpersisted] at hsame
            simpa [hne'] using hsame
          have hss : space = space' :=
            h.apart files hfiles files' hfiles' (hdigest.trans (heq.symm.trans hdigest'.symm)) _ _
              hspace hspace'
          rw [hss]
          exact horigin row hold
      · refine absurd ?_ hwritten
        obtain ⟨hup, hlive⟩ := List.mem_filter.1 (mem_of_mem_build hnew)
        exact List.mem_filter.2 ⟨List.mem_map_of_mem hup, hlive⟩
  · have hnot : ∀ row ∈ batch.vectorUpserts,
        ¬ ((s.db.upsertSymbols batch.symbolUpserts).upsertEdges batch.edgeUpserts).hasSymbol row.1 =
          true := fun row hrow hlive => hne ⟨row, hrow, hlive⟩
    have hwritten := hp.vectorStep.symm.trans (upsertVectorSpaceAndVectors_unwritten hnot)
    cases hwritten
    have hids : s.writtenIds batch = [] := by
      refine List.filter_eq_nil_iff.2 fun id hid => ?_
      obtain ⟨row, hrow, rfl⟩ := List.mem_map.1 hid
      exact hnot row hrow
    have horigin : s.origin.produced (s.writtenIds batch) space = s.origin := by
      rw [hids]
      rfl
    rw [horigin]
    refine h.stored.of_rows hvectorSpace fun row hrow => ?_
    rw [hp.vectors] at hrow
    exact (List.mem_filter.1 (List.mem_filter.1 hrow).1).1

/-- A publish without vectors. -/
theorem stored_publish_none (h : s.Inv crates) {ext : VecExtension} {batch : PublishBatch}
    (hbatch : batch.vectorUpserts = []) {now : ℤ} {receipt : PublishReceipt}
    (hpub : publish ext now s.db batch = .ok (db', receipt)) :
    Stored crates s.seen db' s.origin := by
  obtain ⟨written, hp⟩ := publish_spec hpub
  have hvectorSpace := publish_vectorSpace hpub hp
  have hwritten := hp.vectorStep.symm.trans (upsertVectorSpaceAndVectors_nil hbatch)
  cases hwritten
  refine h.stored.of_rows hvectorSpace fun row hrow => ?_
  rw [hp.vectors] at hrow
  exact (List.mem_filter.1 (List.mem_filter.1 hrow).1).1

theorem inv_commit (h : s.Inv crates) {i : ℕ} {indexer : VectorIndexer}
    (hi : s.indexers[i]? = some indexer) {batch : PublishBatch} {space : Option VectorSpace}
    (hwork : indexer.work = .publish batch space) (hfirst : s.FirstInSpace indexer) (now : ℤ) :
    (s.commit i indexer.ext now batch space).Inv crates := by
  have hidle : (s.withWork i .idle).Inv crates := h.withWork fun _ _ heq => by cases heq
  have hprepared := h.prepared i indexer hi batch space hwork
  unfold commit
  dsimp only
  split
  · exact hidle
  next db receipt hpub =>
    refine h.withStore (show Stored crates _ db _ from ?_) rfl rfl rfl rfl rfl
      (prepared_withWork h fun _ _ heq => by cases heq)
    cases space with
    | none => exact stored_publish_none h hprepared hpub
    | some space => exact stored_publish h hwork hfirst hprepared hpub

theorem inv_drainRow (h : s.Inv crates) {i : ℕ} {indexer : VectorIndexer} {config : OwnerConfig}
    {row : DueQueueRow} {now : ℤ} {reply : Option (VectorSpace × Except String (List Vector32))}
    (hstep : s.drainRow i indexer config row now reply = some t) : t.Inv crates := by
  unfold drainRow at hstep
  split at hstep
  · cases hstep
    obtain ⟨hspace, hrows⟩ := removeStaleQueueRow_rows s.db row.symbolId
    exact h.withDb hspace hrows
  · cases hstep
    exact h.withDb rfl (List.Subset.refl _)
  next space answer _ =>
    obtain ⟨hspace, hrows⟩ := embedSymbol_rows s.db indexer.ext (.answered space.dim answer)
    split_ifs at hstep
    split at hstep
    next db message hembed =>
      rw [hembed] at hspace hrows
      cases hstep
      exact h.withDb hspace hrows
    next db vectors hembed =>
      rw [hembed] at hspace hrows
      cases hstep
      exact (h.withDb hspace hrows).withWork fun _ _ heq => by cases heq

/-- The success write puts the vectors of a live symbol into the table. -/
theorem persistSuccess_rows {ext : VecExtension} {id : String} {vectors : List Vector32}
    (h : db.persistSuccess ext id vectors = .ok db') :
    db'.vectorSpace = db.vectorSpace ∧ ∀ row ∈ db'.vectors.rows,
      row ∈ db.vectors.rows ∨ row.1 = id ∧ row.2 ∈ vectors ∧ db.hasSymbol id = true := by
  unfold Database.persistSuccess at h
  split at h
  · cases h
  next upserted hupsert =>
    cases h
    have hkeep : ((upserted.deleteQueueRow id).advanceSemanticIfQueueEmpty).vectorSpace =
          upserted.vectorSpace ∧
        ((upserted.deleteQueueRow id).advanceSemanticIfQueueEmpty).vectors = upserted.vectors := by
      unfold Database.advanceSemanticIfQueueEmpty
      split_ifs <;> exact ⟨rfl, rfl⟩
    rw [hkeep.1, hkeep.2]
    unfold Database.upsertSymbolVectors at hupsert
    split_ifs at hupsert with hlive
    · cases hupsert
      exact ⟨rfl, fun row hrow => .inl hrow⟩
    · split at hupsert
      · cases hupsert
      next table hinsert =>
        cases hupsert
        unfold VecTable.insertAll at hinsert
        split_ifs at hinsert
        cases hinsert
        refine ⟨rfl, fun row hrow => ?_⟩
        rcases mem_upsertAll.1 hrow with ⟨hold, -⟩ | hnew
        · exact .inl hold
        · obtain ⟨vector, hvector, rfl⟩ := List.mem_map.1 (mem_of_mem_build hnew)
          exact .inr ⟨rfl, hvector, by simpa using hlive⟩

theorem inv_persist (h : s.Inv crates) {i : ℕ} {indexer : VectorIndexer} {row : DueQueueRow}
    {vectors : List Vector32} (hwork : indexer.work = .drain row vectors space)
    (hgood : s.DrainInSpace crates indexer) :
    (s.persist i indexer.ext row vectors space).Inv crates := by
  have hidle : (s.withWork i .idle).Inv crates := h.withWork fun _ _ heq => by cases heq
  unfold persist
  dsimp only
  split
  · exact hidle
  next db hpersist =>
    refine h.withStore (show Stored crates _ db _ from ?_) rfl rfl rfl rfl rfl
      (prepared_withWork h fun _ _ heq => by cases heq)
    obtain ⟨hspace, hrows⟩ := persistSuccess_rows hpersist
    intro digest hdigest
    rw [recordedDigest, hspace] at hdigest
    obtain ⟨files, hfiles, hfp, stored, hstored, horigin⟩ := h.stored digest hdigest
    refine ⟨files, hfiles, hfp, stored, hstored, fun vector hvector => ?_⟩
    show s.origin.produced ([row.symbolId].filter s.db.hasSymbol) space vector.1 = some stored
    unfold Origins.produced
    split_ifs with hid
    · -- the drain writes a vector of the recorded space
      obtain ⟨hid, hlive⟩ := List.mem_filter.1 hid
      rw [DrainInSpace, hwork] at hgood
      have hsymbol : s.db.hasSymbol row.symbolId = true := by
        rwa [← List.mem_singleton.1 hid]
      rw [h.standsFor_eq (hgood hsymbol digest hdigest) ⟨files, hfiles, hfp, hstored⟩]
    · rcases hrows vector hvector with hold | ⟨heq, -, hlive⟩
      · exact horigin vector hold
      · refine absurd (List.mem_filter.2 ⟨List.mem_singleton.2 heq, ?_⟩) hid
        rw [heq]
        exact hlive

/-- Hits are returned only where the fingerprints agree. -/
theorem hits_of_semanticSearch {engine : StoreEngine} {o : Occasion} {query : String} {k : ℕ}
    {hits : List Hit} (h : engine.semanticSearch db o query k = .ok hits) (hhits : hits ≠ []) :
    engine.vectorSpaceAllows db = true := by
  by_contra hnot
  have hfalse : engine.vectorSpaceAllows db = false := by simpa using hnot
  unfold StoreEngine.semanticSearch StoreEngine.read at h
  rw [hfalse] at h
  dsimp only at h
  split at h
  next hguard _ =>
    split at hguard
    · cases hguard
    · cases hguard
  · cases h
    exact hhits rfl

theorem inv_search (h : s.Inv crates) {engine : SearchEngine} {snapshot : Database × Origins}
    (hsnapshot : snapshot ∈ s.snapshots)
    (hgood : engine.engine.vectorSpaceAllows snapshot.1 = true →
      s.StandsFor crates engine.engine.queryFingerprint space)
    (o : Occasion) (query : String) (k : ℕ) :
    (s.search engine snapshot space o query k).Inv crates := by
  unfold search
  split
  · exact h
  next hits hsearch =>
    refine ⟨h.apart, h.stored, h.snapshots, h.prepared, fun answer hmem => ?_⟩
    rcases List.mem_cons.1 hmem with rfl | hmem
    · intro hit hhit row hrow _
      have hallows := hits_of_semanticSearch hsearch (List.ne_nil_of_mem hhit)
      have hguard := hallows
      unfold StoreEngine.vectorSpaceAllows at hguard
      rw [Option.any_eq_true_iff_get] at hguard
      obtain ⟨hsome, hguard⟩ := hguard
      obtain ⟨hne, heq⟩ := of_decide_eq_true hguard
      have hrecorded : engine.engine.queryFingerprint ∈ recordedDigest snapshot.1 :=
        mem_recordedDigest.2 ⟨_, (Option.some_get hsome).symm, heq, heq ▸ hne⟩
      obtain ⟨files, hfiles, hfp, stored, hstored, horigin⟩ := h.snapshots snapshot hsnapshot _ hrecorded
      rw [h.standsFor_eq (hgood hallows) ⟨files, hfiles, hfp, hstored⟩]
      exact horigin row hrow
    · exact h.answers answer hmem

theorem Inv.withParties (h : s.Inv crates) (hdb : t.db = s.db) (horigin : t.origin = s.origin)
    (hseen : t.seen = s.seen) (hsnapshots : t.snapshots = s.snapshots) (hanswers : t.answers = s.answers)
    (hindexers : ∀ (i : ℕ) (indexer : VectorIndexer), t.indexers[i]? = some indexer →
      ∃ old, s.indexers[i]? = some old ∧ indexer.work = old.work) : t.Inv crates :=
  h.withStore h.stored hseen hdb horigin hsnapshots hanswers fun i indexer hi batch space hwork => by
    obtain ⟨old, hold, heq⟩ := hindexers i indexer hi
    exact h.prepared i old hold batch space (heq ▸ hwork)

/-- **One step** keeps the invariant. -/
theorem inv_step (hsha : Function.Injective crates.sha256) (s : SemanticSystem)
    (label : SemanticLabel) (t : SemanticSystem) (h : s.Inv crates) (hgood : s.InSpace crates label)
    (hstep : s.step crates label = some t) : t.Inv crates := by
  cases label with
  | changeFiles disk =>
    cases hstep
    exact h.withParties rfl rfl rfl rfl rfl fun i indexer hi => ⟨indexer, hi, rfl⟩
  | configure config =>
    cases hstep
    exact h.withParties rfl rfl rfl rfl rfl fun i indexer hi => ⟨indexer, hi, rfl⟩
  | openIndexer home ext eager =>
    cases hstep
    exact inv_openIndexer h hsha home ext eager hgood
  | openEngine home engine eager =>
    cases hstep
    exact inv_openEngine h hsha home engine eager hgood
  | indexerModel i label =>
    obtain ⟨indexer, hi, hstep⟩ := Option.bind_eq_some_iff.1 hstep
    obtain ⟨⟨model, s'⟩, hslot, heq⟩ := Option.bind_eq_some_iff.1 hstep
    cases heq
    obtain ⟨h', hindexers⟩ := inv_slotStep h hsha
      (fun c space hlabel => by subst hlabel; exact hgood indexer hi) hslot
    refine h'.withParties rfl rfl rfl rfl rfl fun j indexer' hj => ?_
    dsimp only at hj
    rw [List.getElem?_modify] at hj
    obtain ⟨old, hold, rfl⟩ := Option.map_eq_some_iff.1 hj
    exact ⟨old, hold, by split_ifs <;> rfl⟩
  | engineModel g label =>
    obtain ⟨engine, hg, hstep⟩ := Option.bind_eq_some_iff.1 hstep
    obtain ⟨⟨model, s'⟩, hslot, heq⟩ := Option.bind_eq_some_iff.1 hstep
    cases heq
    obtain ⟨h', -⟩ := inv_slotStep h hsha
      (fun c space hlabel => by subst hlabel; exact hgood engine hg) hslot
    exact h'.withParties rfl rfl rfl rfl rfl fun j indexer hj => ⟨indexer, hj, rfl⟩
  | prepare i batch reply =>
    obtain ⟨indexer, hi, hstep⟩ := Option.bind_eq_some_iff.1 hstep
    split at hstep
    · split_ifs at hstep with hbatch
      exact inv_prepare h hsha hbatch (hgood indexer hi) hstep
    · cases hstep
  | commit i now =>
    obtain ⟨indexer, hi, hstep⟩ := Option.bind_eq_some_iff.1 hstep
    split at hstep
    next batch space hwork =>
      cases hstep
      exact inv_commit h hi hwork (hgood indexer hi) now
    · cases hstep
  | drainRow i config row now reply =>
    obtain ⟨indexer, hi, hstep⟩ := Option.bind_eq_some_iff.1 hstep
    split at hstep
    · exact inv_drainRow h hstep
    · cases hstep
  | persist i =>
    obtain ⟨indexer, hi, hstep⟩ := Option.bind_eq_some_iff.1 hstep
    split at hstep
    next row vectors space hwork =>
      cases hstep
      exact inv_persist h hwork (hgood indexer hi)
    · cases hstep
  | openSnapshot =>
    cases hstep
    refine ⟨h.apart, h.stored, fun snapshot hmem => ?_, h.prepared, h.answers⟩
    rcases List.mem_append.1 hmem with hold | hnew
    · exact h.snapshots snapshot hold
    · rw [List.mem_singleton.1 hnew]
      exact h.stored
  | search g n space embedText sqlError query k =>
    obtain ⟨engine, hg, hstep⟩ := Option.bind_eq_some_iff.1 hstep
    obtain ⟨snapshot, hn, hstep⟩ := Option.bind_eq_some_iff.1 hstep
    split_ifs at hstep
    cases hstep
    exact inv_search h (List.mem_of_getElem? hn) (hgood engine hg snapshot hn) _ query k

/-- **Every run** in which a model that embeds under a fingerprint is one that files of the
    fingerprint build: no search compares vectors of two spaces. -/
theorem sameSpace_of_run {crates : EmbedCrates} (hsha : Function.Injective crates.sha256)
    (disk : ModelDisk) (config : EmbedderConfig) (labels : List SemanticLabel) (s : SemanticSystem)
    (hrun : exec (step crates) (initial disk config) labels = some s)
    (hgood : Always (step crates) (InSpace crates) (initial disk config) labels) :
    ∀ a ∈ s.answers, a.SameSpace :=
  (exec_invariant (inv_step hsha) hrun hgood (inv_initial disk config)).answers

end SemanticSystem

namespace VectorSpaceExample

/-- A digest that is the text itself. -/
def crates : EmbedCrates where
  sha256 bytes := bytes
  fromStr _ := none
  onnxRuntime := some fun _ _ => true

/-- The model of a version. -/
def disk (version : UInt8) : ModelDisk := fun dir =>
  if dir = "/m" then
    some fun file =>
      if file = "model.onnx" then some [version]
      else if file = "tokenizer.json" then some [0]
      else none
  else none

def config : EmbedderConfig := ⟨"local", "m", 1, 32⟩

def home : ModelHome := ⟨some "/m", none, "/"⟩

def space (version : UInt8) : VectorSpace :=
  ⟨.onnxLocal, ['m'], 1, some ({}, [some [version], some [0], none])⟩

def symbol : Symbol where
  id := "python:a.py:f@0"
  kind := .function
  name := "f"
  qualifiedName := "f"
  language := "python"
  module := "a"
  filePath := "a.py"
  lineStart := 1
  lineEnd := 2
  contentHash := "0"

/-- Every row is a hit. -/
def engine : StoreEngine where
  sql :=
    { ext := none
      ftsMatch := fun _ _ _ => none
      knn := fun table _ _ => table.rows.map fun row => ⟨row.1, 1, "semantic", "match", .null⟩
      lower := id
      toLowercase := id }
  diffuseSeedHits := fun _ _ _ _ _ => .ok []
  queryFingerprint := ""
  integrationEdgeContext := false

/-- The symbol is published with its vector, and an engine is open. -/
def published : List SemanticLabel :=
  [.openIndexer home none true, .openEngine home engine false, .indexerModel 0 .tryBorrow,
    .prepare 0 { symbolUpserts := [symbol], reason := .incremental } (some (space 1, [[0]])), .commit 0 0,
    .openSnapshot]

/-- The engine loads its model at the first search. -/
def searched (version : UInt8) : List SemanticLabel :=
  [.engineModel 0 (.demand 0 0), .engineModel 0 (.lock 0),
    .engineModel 0 (.factoryReturns 0 (.ok (space version))), .engineModel 0 (.publish 0),
    .search 0 0 (space version) (fun _ => some [0]) (fun _ => none) "q" 1]

/-- The ids of the hits, and whether they are of the space of the query. -/
def summary (s : SemanticSystem) : List (List String × Bool) :=
  s.answers.map fun a => (a.hits.map Hit.symbolId, decide a.SameSpace)

end VectorSpaceExample

section
open VectorSpaceExample SemanticSystem

theorem crates_sha256_injective : Function.Injective crates.sha256 := fun _ _ h => h

set_option maxRecDepth 4000 in
theorem sameSpace_of_run_published : ∃ s,
    exec (step crates) (initial (disk 1) config) (published ++ searched 1) = some s ∧
      s.answers.map (fun a => a.hits.map Hit.symbolId) = [[symbol.id]] ∧
      ∀ a ∈ s.answers, a.SameSpace := by
  have hrun : (exec (step crates) (initial (disk 1) config) (published ++ searched 1)).map
      (fun s => s.answers.map fun a => a.hits.map Hit.symbolId) = some [[symbol.id]] := by
    decide +kernel
  obtain ⟨s, hs, hhits⟩ := Option.map_eq_some_iff.1 hrun
  refine ⟨s, hs, hhits, sameSpace_of_run crates_sha256_injective _ _ _ s hs ?_⟩
  decide +kernel

/-- The property for every run. -/
def NeverMixesSpaces : Prop :=
  ∀ crates : EmbedCrates, Function.Injective crates.sha256 →
    ∀ (disk : ModelDisk) (config : EmbedderConfig) (labels : List SemanticLabel) (s : SemanticSystem),
      exec (step crates) (initial disk config) labels = some s → ∀ a ∈ s.answers, a.SameSpace

set_option maxRecDepth 4000 in
/-- The model is replaced between the opening of the engine and its first search. -/
theorem not_neverMixesSpaces : ¬ NeverMixesSpaces := by
  intro hall
  have hrun : (exec (step crates) (initial (disk 1) config)
      (published ++ .changeFiles (disk 2) :: searched 2)).map summary =
        some [([symbol.id], false)] := by
    decide +kernel
  obtain ⟨s, hs, hsummary⟩ := Option.map_eq_some_iff.1 hrun
  have hsame := hall crates crates_sha256_injective _ _ _ s hs
  obtain ⟨a, ha, hpair⟩ := List.map_eq_singleton_iff.1 hsummary
  rw [Prod.mk.injEq] at hpair
  exact of_decide_eq_false hpair.2 (hsame a (by simp [ha]))

end

end Cognis
