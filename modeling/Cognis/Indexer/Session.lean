/-
  The operations of `IndexerPipeline` (`pipeline.rs`) on the store, with the sessions that
  are opened on it.

  * `Session` is an open pipeline: the extension of its build, and where it takes a model
    from;
  * `PipelineStep` is a transaction of an operation, with what the model answers: opening a
    session, a request, the removal of a file, a row of the drain. `index_repo`,
    `index_changed_files` and `index_batch` are a request and a pass of the drain,
    `remove_file` is a removal and a pass, and `open_with_policy` an opening and a pass;
  * `exec_drain_rows`: a pass of `Database.drain` is a run of these steps.
-/
import Cognis.Indexer.EmbedQueue
import Cognis.Indexer.Pipeline
import Cognis.Lib.Transition

namespace Cognis

/-! ## Sessions -/

/-- The fields of `IndexerPipeline` that say where vectors come from. -/
structure Session where
  /-- the extension of the build -/
  ext : VecExtension
  /-- an embedder was put into the model slot -/
  supplied : Bool
  /-- `allow_demand_load` -/
  allowDemandLoad : Bool
  deriving Inhabited

/-- An embedder is configured. -/
def Session.configured (session : Session) : Bool := session.supplied || session.allowDemandLoad

/-- The constructors of `IndexerPipeline`, by the dimension of the embedder they have. -/
inductive Opening where
  /-- `with_embedder`; `new` has none -/
  | withEmbedder (dim : Option ℕ)
  /-- `open_with_policy`: none under the lazy policy, or when none can be built -/
  | openWithPolicy (dim : Option ℕ)

/-- The dimension of the embedder. -/
def Opening.dim : Opening → Option ℕ
  | .withEmbedder dim | .openWithPolicy dim => dim

/-- The session it opens. -/
def Opening.session (ext : VecExtension) : Opening → Session
  | .withEmbedder dim => ⟨ext, dim.isSome, false⟩
  | .openWithPolicy dim => ⟨ext, dim.isSome, true⟩

/-- The store, and the session that is open on it. -/
structure IndexerPipeline where
  db : Database
  session : Option Session

/-- An embedder is configured. -/
def IndexerPipeline.configured (p : IndexerPipeline) : Bool := p.session.any Session.configured

/-- A view of the tree for the planner, with the borrow of the model for its symbols and
    the answer of `embed_batch`. -/
structure IndexCall where
  planner : ChangePlanner
  tree : SourceTree
  now : ℤ
  borrow : Option (Except String (List Vector32))
  /-- `vector_fingerprint` -/
  fingerprint : ℕ → VectorSpaceFingerprint

/-- `ModelOutcome` -/
def Session.outcome (session : Session) (call : IndexCall) : ModelReply :=
  match call.borrow with
  | none => if session.allowDemandLoad then .needPending else .noSemantic
  | some (.error _) => .needPending
  | some (.ok vectors) => .embedded vectors call.fingerprint

/-- The request of a session. -/
def Session.request (session : Session) (call : IndexCall) (request : PlanRequest String) :
    IndexRequest :=
  ⟨call.planner, call.tree, request, session.ext, call.now, some (session.outcome call)⟩

/-! ## The steps -/

/-- A transaction of an operation. -/
inductive PipelineStep where
  /-- `Database::open` and the reconcile of the constructor -/
  | openSession (ext : VecExtension) (opening : Opening)
  /-- `publish_request` -/
  | publishRequest (call : IndexCall) (request : PlanRequest String)
  | removeFile (call : IndexCall) (path : String)
  /-- the body of the loop of `drain` -/
  | drainRow (config : OwnerConfig) (row : DueQueueRow) (reply : EmbedReply) (now : ℤ)

/-- The reconcile of a constructor. -/
def Database.reconcileEmbedder (db : Database) (ext : VecExtension) :
    Option ℕ → Except String Database
  | none => .ok db
  | some dim => if 0 < dim then db.reconcileEmbeddingDim ext dim else .ok db

/-- The dimension of the embedder that answers. -/
def EmbedReply.dim : EmbedReply → Option ℕ
  | .unavailable => none
  | .answered dim _ => some dim

/-- A step. Only a configured embedder is borrowed. -/
def IndexerPipeline.step (p : IndexerPipeline) : PipelineStep → Option IndexerPipeline
  | .openSession ext opening =>
    let db := p.db.healLegacyVec0 ext
    match db.reconcileEmbedder ext opening.dim with
    | .error _ => some ⟨db, none⟩
    | .ok db => some ⟨db, some (opening.session ext)⟩
  | .publishRequest call request =>
    match p.session with
    | none => none
    | some session =>
      if call.borrow.isSome && !session.configured then none
      else some { p with db := (session.request call request).publishRequest p.db }
  | .removeFile call path =>
    match p.session with
    | none => none
    | some session =>
      if call.borrow.isSome && !session.configured then none
      else some { p with db := (session.request call (.touched [path])).removeFile p.db path }
  | .drainRow config row reply now =>
    match p.session with
    | none => none
    | some session =>
      if reply.dim.isSome && !session.configured then none
      else some { p with db := (p.db.drainRow session.ext config (fun _ => reply) now row).1 }

/-- A fresh store, and no session. -/
def IndexerPipeline.initial : IndexerPipeline := ⟨Database.empty, none⟩

/-! ## A pass of the drain -/

section Pass
variable {session : Session} {config : OwnerConfig} {embedder : Symbol → EmbedReply} {now : ℤ}

/-- The step is one of a pass of the drain. -/
def PipelineStep.IsDrainRow (config : OwnerConfig) (now : ℤ) : PipelineStep → Prop
  | .drainRow config' _ _ now' => config' = config ∧ now' = now
  | .openSession .. | .publishRequest .. | .removeFile .. => False

theorem drainRow_step (hconf : session.configured = true ∨ ∀ s, embedder s = .unavailable)
    (db : Database) (row : DueQueueRow) :
    ∃ reply, IndexerPipeline.step ⟨db, some session⟩ (.drainRow config row reply now) =
      some ⟨(db.drainRow session.ext config embedder now row).1, some session⟩ := by
  unfold Database.drainRow
  cases hlive : db.hydrateIds [row.symbolId] with
  | nil => exact ⟨.unavailable, by simp [IndexerPipeline.step, EmbedReply.dim, Database.drainRow, hlive]⟩
  | cons symbol rest =>
    have hborrow : ((embedder symbol).dim.isSome && !session.configured) = false := by
      rcases hconf with hconf | hnone
      · simp [hconf]
      · simp [hnone symbol, EmbedReply.dim]
    refine ⟨embedder symbol, ?_⟩
    simp only [IndexerPipeline.step, hborrow, Bool.false_eq_true, ↓reduceIte, Database.drainRow, hlive]

/-- **A pass of the drain** is a run of its rows. -/
theorem exec_drain_rows (hconf : session.configured = true ∨ ∀ s, embedder s = .unavailable)
    (db : Database) (budget : ℕ) : ∃ steps, (∀ step ∈ steps, PipelineStep.IsDrainRow config now step) ∧
      Transition.exec IndexerPipeline.step ⟨db, some session⟩ steps =
        some ⟨(db.drain session.ext config embedder now budget).1, some session⟩ := by
  have hrows : ∀ rows, ∀ db, ∃ steps, (∀ step ∈ steps, PipelineStep.IsDrainRow config now step) ∧
      Transition.exec IndexerPipeline.step ⟨db, some session⟩ steps =
        some ⟨(Database.drainRows session.ext config embedder now db rows).1, some session⟩ := by
    intro rows
    induction rows with
    | nil => exact fun db => ⟨[], by simp, rfl⟩
    | cons row rows ih =>
      intro db
      obtain ⟨reply, hstep⟩ : ∃ reply, IndexerPipeline.step ⟨db, some session⟩
          (.drainRow config row reply now) =
            some ⟨(db.drainRow session.ext config embedder now row).1, some session⟩ :=
        drainRow_step hconf db row
      unfold Database.drainRows
      split
      · rename_i db₁ _ hdb
        rw [hdb] at hstep
        refine ⟨[.drainRow config row reply now], by simp [PipelineStep.IsDrainRow], ?_⟩
        simp only [Transition.exec, hstep]
      · rename_i db₁ _ hdb
        rw [hdb] at hstep
        obtain ⟨steps, hall, hexec⟩ := ih db₁
        refine ⟨.drainRow config row reply now :: steps, ?_, ?_⟩
        · rintro step (_ | ⟨_, hmem⟩)
          · exact ⟨rfl, rfl⟩
          · exact hall step hmem
        · simp only [Transition.exec, hstep]
          exact hexec
  unfold Database.drain
  split_ifs
  · exact ⟨[], by simp, rfl⟩
  · exact hrows _ db

end Pass

end Cognis
