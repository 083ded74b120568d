/-
  Tool calls beside the publishes of the writer: every call is answered from the state that
  was committed at its generation.

  * `World` is the committed state, the resident graph and the sessions; its steps are a
    publish, the start of a call, and one step of a call;
  * `AnsweredFrom`: an answer that the engine gives on one state, with the code graph of
    that state;
  * `Consistent` is the invariant: the resident graph is the code graph of its generation,
    and each session is consistent with the state committed at its own;
  * `snapshot_consistency`: it holds after every run.
-/
import Cognis.Lib.History
import Cognis.Lib.Transition
import Cognis.Mcp.StoreEngine
import Cognis.Store.Publish

namespace Cognis

/-- The store with its engine, and the tool calls that have been started. -/
structure World where
  db : Database
  /-- the states that were committed before, newest first -/
  past : List Database := []
  resident : ResidentGraph := none
  sessions : List ToolSession := []

/-- What happens next. -/
inductive WorldEvent
  | publish (now : ℤ) (batch : PublishBatch)
  | start (name : String) (args : Json)
  /-- a step of the `i`-th session -/
  | advance (i : ℕ) (o : StoreEngine.GateOccasion)

/-- What a world is run with. -/
structure Deployment where
  tb : Toolbox
  engine : StoreEngine

namespace World

variable (d : Deployment)

/-- A publish that fails leaves the state as it is, and is no step. -/
def step (w : World) : WorldEvent → Option World
  | .publish now batch =>
    match publish d.engine.sql.ext now w.db batch with
    | .ok (db, _) => some { w with db, past := w.db :: w.past }
    | .error _ => none
  | .start name args =>
    some { w with sessions := w.sessions ++ [.start d.tb w.db name args] }
  | .advance i o => do
    let c ← w.sessions[i]?
    let (resident, c) ← d.engine.advance d.tb.caps o w.resident c
    return { w with resident, sessions := w.sessions.set i c }

/-- The committed states, newest first. -/
def states (w : World) : List Database := w.db :: w.past

/-- The state that was committed at a generation. -/
def CommittedAt (w : World) (generation : ℕ) (db : Database) : Prop :=
  History.At Database.sourceGeneration w.states generation db

end World

/-! ## Answers from one state -/

/-- The answer to an operation is one that the engine gives on the state, with the code
    graph of that state. -/
def AnsweredFrom (engine : StoreEngine) (db : Database) : Prog.Event ToolOp.Answer → Prop
  | ⟨.gate _, _⟩ => True
  | ⟨.call c, a⟩ => ∃ o, a = engine.answer db (StoreEngine.read o db.buildCodeGraph) o c

namespace ToolSession

variable (d : Deployment)

/-- The session is a run of its tool on the state: what it reports, what it has been
    answered, and a graph that it has built. -/
structure ConsistentWith (c : ToolSession) (db : Database) : Prop where
  snapshot : c.snapshot = .open db
  program : (Tools.dispatchTool d.tb db.sourceGeneration c.name c.args).Reaches c.events c.rest
  answers : ∀ event ∈ c.events, AnsweredFrom d.engine db event
  built : ∀ graph, c.built = some graph → graph = db.buildCodeGraph

variable {d} {c : ToolSession} {db : Database}

theorem consistentWith_start (name : String) (args : Json) :
    (start d.tb db name args).ConsistentWith d db where
  snapshot := rfl
  program := .refl _
  answers _ h := by cases h
  built _ h := by cases h

theorem ConsistentWith.pinned (h : c.ConsistentWith d db) : c.pinned = db.sourceGeneration := by
  rw [ToolSession.pinned, h.snapshot]
  rfl

/-- What a tool that has ended reports. -/
theorem ConsistentWith.freshness (h : c.ConsistentWith d db) {info : SnapshotInfo}
    (hinfo : c.freshness = some info) :
    info = ⟨db.sourceGeneration, db.semanticGeneration, db.queue.length⟩ := by
  unfold ToolSession.freshness at hinfo
  rw [ToolSession.pinned, h.snapshot] at hinfo
  split at hinfo
  · cases hinfo
  · exact (Option.some.inj hinfo).symm

theorem ConsistentWith.answered (h : c.ConsistentWith d db) {op : ToolOp} {a : op.Answer}
    {k : op.Answer → ToolProg ToolOutput} (hrest : c.rest = .ask op k)
    (ha : AnsweredFrom d.engine db ⟨op, a⟩) : (c.answered op a (k a)).ConsistentWith d db where
  snapshot := h.snapshot
  program := (hrest ▸ h.program).answer a
  answers event he := by
    rcases List.mem_append.1 he with he | he
    · exact h.answers event he
    · exact List.mem_singleton.1 he ▸ ha
  built _ hbuilt := by cases hbuilt

end ToolSession

/-! ## Steps -/

open History

variable {d : Deployment} {states : List Database} {resident resident' : ResidentGraph}
  {c c' : ToolSession} {db : Database}

theorem StoreEngine.of_cached {pinned : ℕ} {graph : CodeGraph}
    (h : cached resident pinned = some graph) : resident = some (pinned, graph) := by
  unfold cached at h
  split at h
  · split_ifs at h with hgen
    cases h
    rw [hgen.1]
  · cases h

/-- What a call that uses the code graph returns is a matter of the graph alone. -/
theorem StoreEngine.answer_graph {engine : StoreEngine} {call : EngineCall}
    (h : usesGraph call = true) (graph : EngineResult CodeGraph) (o o' : Occasion) :
    engine.answer db graph o call = engine.answer db graph o' call := by
  cases call <;> first | rfl | cases h

/-- A call with the code graph of the state. -/
theorem answeredFrom_graph {engine : StoreEngine} {call : EngineCall}
    (h : StoreEngine.usesGraph call = true) (o : Occasion) :
    AnsweredFrom engine db ⟨.call call, engine.answer db (.ok db.buildCodeGraph) o call⟩ :=
  ⟨{}, StoreEngine.answer_graph h _ _ _⟩

/-- **One step of a session**: it stays consistent with the state of its generation, and so
    does the resident graph. -/
theorem consistent_advance {o : StoreEngine.GateOccasion}
    (hstep : d.engine.advance d.tb.caps o resident c = some (resident', c'))
    (hadv : Advancing Database.sourceGeneration states)
    (hdb : At Database.sourceGeneration states c.pinned db)
    (hresident : Keeps Database.sourceGeneration Database.buildCodeGraph states resident)
    (hc : c.ConsistentWith d db) :
    Keeps Database.sourceGeneration Database.buildCodeGraph states resident' ∧
      c'.ConsistentWith d db := by
  have hsnapshot : c.snapshot.db = db := by rw [hc.snapshot]; rfl
  unfold StoreEngine.advance at hstep
  split at hstep
  · cases hstep
  · cases hstep
  · next tool k hrest =>
    cases hstep
    exact ⟨hresident, hc.answered hrest trivial⟩
  · next call k hrest =>
    rw [hsnapshot] at hstep
    dsimp only at hstep
    split at hstep
    · next hgraph =>
      split at hstep
      · next graph hbuilt =>
        -- the graph that the session has built goes into the cell
        cases hstep
        obtain rfl := hc.built graph hbuilt
        exact ⟨keeps_write hdb, hc.answered hrest (answeredFrom_graph hgraph _)⟩
      · next graph hbuilt hcached =>
        -- the graph of the cell is read back at its generation
        cases hstep
        obtain rfl := hresident.read hadv (StoreEngine.of_cached hcached) hdb
        exact ⟨hresident, hc.answered hrest (answeredFrom_graph hgraph _)⟩
      · next e hbuilt hcached he =>
        cases hstep
        refine ⟨hresident, hc.answered hrest ⟨o.toOccasion, ?_⟩⟩
        rw [StoreEngine.read, he]
      · cases hstep
        refine ⟨hresident, { hc with built := fun graph hbuilt => ?_ }⟩
        exact (Option.some.inj hbuilt).symm
    · next hgraph =>
      cases hstep
      exact ⟨hresident, hc.answered hrest ⟨_, rfl⟩⟩

/-! ## Runs -/

namespace World

/-- The committed states have different generations; the resident graph and each session
    belong to one of them. -/
structure Consistent (d : Deployment) (w : World) : Prop where
  advancing : Advancing Database.sourceGeneration w.states
  resident : Keeps Database.sourceGeneration Database.buildCodeGraph w.states w.resident
  sessions : ∀ c ∈ w.sessions, ∃ db, w.CommittedAt c.pinned db ∧ c.ConsistentWith d db

/-- A world in which no call has been started. -/
theorem consistent_initial (db : Database) : Consistent d { db := db } where
  advancing := List.pairwise_singleton _ _
  resident := keeps_none
  sessions c hc := by cases hc

theorem Consistent.step {w w' : World} {event : WorldEvent} (h : Consistent d w)
    (hstep : w.step d event = some w') : Consistent d w' := by
  cases event with
  | publish now batch =>
    simp only [World.step] at hstep
    split at hstep
    · next db' receipt hpublish =>
      cases hstep
      obtain ⟨written, hwritten⟩ := publish_spec hpublish
      refine ⟨h.advancing.commit ?_, h.resident.commit, fun c hc => ?_⟩
      · rw [hwritten.sourceGeneration]
        exact Nat.lt_succ_self _
      · obtain ⟨db, hdb, hconsistent⟩ := h.sessions c hc
        exact ⟨db, hdb.commit, hconsistent⟩
    · cases hstep
  | start name args =>
    cases hstep
    refine ⟨h.advancing, h.resident, fun c hc => ?_⟩
    rcases List.mem_append.1 hc with hc | hc
    · exact h.sessions c hc
    · cases List.mem_singleton.1 hc
      exact ⟨w.db, At.newest, ToolSession.consistentWith_start name args⟩
  | advance i o =>
    obtain ⟨c, hc, hstep⟩ := Option.bind_eq_some_iff.1 hstep
    obtain ⟨⟨resident, c'⟩, hadvance, hw⟩ := Option.bind_eq_some_iff.1 hstep
    cases hw
    obtain ⟨db, hdb, hconsistent⟩ := h.sessions c (List.mem_of_getElem? hc)
    obtain ⟨hresident, hconsistent'⟩ :=
      consistent_advance hadvance h.advancing hdb h.resident hconsistent
    refine ⟨h.advancing, hresident, fun c'' hc'' => ?_⟩
    rcases List.mem_or_eq_of_mem_set hc'' with hc'' | rfl
    · exact h.sessions c'' hc''
    · refine ⟨db, ?_, hconsistent'⟩
      rw [hconsistent'.pinned, ← hconsistent.pinned]
      exact hdb

/-- **Snapshot consistency.** After every run of publishes, starts of calls and steps of
    calls, there is for each call just one state that was committed at its generation; the
    call is a run of its tool on that state, and reports its generation. -/
theorem snapshot_consistency {db : Database} {events : List WorldEvent} {w : World}
    (h : Transition.exec (step d) { db := db } events = some w) :
    ∀ c ∈ w.sessions, ∃ committed, w.CommittedAt c.pinned committed ∧
      (∀ other, w.CommittedAt c.pinned other → other = committed) ∧
      c.ConsistentWith d committed ∧
      ∀ info, c.freshness = some info → info.sourceGeneration = c.pinned := by
  have hw : Consistent d w :=
    Transition.exec_preserves (fun w event w' hw hstep => hw.step hstep) h (consistent_initial db)
  intro c hc
  obtain ⟨committed, hdb, hconsistent⟩ := hw.sessions c hc
  refine ⟨committed, hdb, fun other hother => hother.unique hw.advancing hdb, hconsistent, ?_⟩
  intro info hinfo
  rw [hconsistent.freshness hinfo, hconsistent.pinned]

end World

namespace ConsistencyExample

/-- An engine without a model, on a SQLite that finds nothing. -/
def deployment : Deployment where
  tb := default
  engine :=
    { sql :=
        { ext := none
          ftsMatch := fun _ _ _ => some []
          knn := fun _ _ _ => []
          lower := id
          toLowercase := id }
      diffuseSeedHits := fun graph _ k _ _ =>
        .ok ((graph.nodeIds.take k).map fun id => ⟨id, 1, "csar", "", .object []⟩)
      queryFingerprint := ""
      integrationEdgeContext := false }

/-- A diffusion that builds its graph after a publish has gone by, and a second one. -/
def events : List WorldEvent :=
  let call : WorldEvent := .start "diffuse_context" (.object [("query", .string "a")])
  let batch : PublishBatch :=
    { symbolUpserts := [{ (default : Symbol) with id := "s" }], reason := .full }
  [call, .advance 0 {}, .advance 0 {}, .publish 1 batch] ++ List.replicate 7 (.advance 0 {}) ++
    [call, .advance 1 {}]

end ConsistencyExample

open ConsistencyExample in
theorem snapshot_consistency_diffuse :
    ∃ w, Transition.exec (World.step deployment) { db := {} } events = some w ∧
      ∀ c ∈ w.sessions, ∃ committed, w.CommittedAt c.pinned committed ∧
        (∀ other, w.CommittedAt c.pinned other → other = committed) ∧
        c.ConsistentWith deployment committed ∧
        ∀ info, c.freshness = some info → info.sourceGeneration = c.pinned := by
  have hrun : (Transition.exec (World.step deployment) { db := {} } events).isSome = true := by
    decide +kernel
  obtain ⟨w, hw⟩ := Option.isSome_iff_exists.1 hrun
  exact ⟨w, hw, World.snapshot_consistency hw⟩

end Cognis
