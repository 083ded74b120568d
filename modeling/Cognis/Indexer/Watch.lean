/-
  The watch loop of the indexing daemon (`cognis-indexd`, `lib.rs`) over a tree that changes while
  it runs.

  An event opens a window, in which more of them are collected; the changed paths of the window
  are one batch, which is indexed, and then the queue of the embeddings is drained. Meanwhile the
  tree goes on changing, and a batch may read a file before or after such a change.

  * `collectEvent`, `shouldIgnore`: what an event adds to the window;
  * `WatchDaemon.step`: a step of the loop, or a change of the tree;
  * `Observed` is what is asked of the world: a file that changes is named by an event, and a batch
    reads what is on the disk or what an event is still to name;
  * `Tracks`: a path whose rows are not those of its bytes waits in the channel or in the window;
    `tracks_step` is one step, by its label;
  * `watch_loop_converges`: when nothing waits, the rows are those of a clean index of the tree.
-/
import Cognis.Indexer.Incremental

namespace Cognis

open Table

/-! ## Events -/

/-- `EventKind` of the watcher. -/
inductive EventKind where
  | any
  | access
  | create
  | modify
  | remove
  | other
  deriving DecidableEq

/-- An event of the watcher, its paths relative to the root. -/
structure WatchEvent where
  kind : EventKind
  paths : List String

/-- The event is about a change of its paths. -/
def WatchEvent.isChange (event : WatchEvent) : Bool :=
  event.kind = .create || event.kind = .modify || event.kind = .remove

/-- `should_ignore`, of a path relative to the root. -/
def shouldIgnore (path : String) (ignore : List String) : Bool :=
  (pathComponents path).any (· ∈ (ignore ++ [".cognis"]).map String.toList)

/-- `collect_event` -/
def collectEvent (event : Except String WatchEvent) (ignore changes : List String) : List String :=
  match event with
  | .error _ => changes
  | .ok event =>
    if event.isChange then
      event.paths.foldl (fun changes path =>
        if shouldIgnore path ignore then changes else btreeSet (path :: changes)) changes
    else changes

/-- A change of the path is among the events. -/
def Named (events : List (Except String WatchEvent)) (path : String) : Prop :=
  ∃ event, .ok event ∈ events ∧ event.isChange = true ∧ path ∈ event.paths

/-! ## The loop -/

/-- Where the loop stands. -/
inductive WatchPhase where
  | idle
  /-- the batch window is open, with the paths so far -/
  | window (changes : List String)
  /-- `on_batch` is called -/
  | batch (paths : List String)
  /-- the batch is published, and the queue is drained -/
  | draining
  | stopped
  deriving DecidableEq

/-- The paths that the loop holds. -/
def WatchPhase.changes : WatchPhase → List String
  | .window changes | .batch changes => changes
  | .idle | .draining | .stopped => []

/-- The tree on the disk, the channel of the watcher with the oldest event first, and the daemon. -/
structure WatchDaemon where
  disk : SourceTree
  events : List (Except String WatchEvent)
  phase : WatchPhase
  pipeline : IndexerPipeline

/-- A step of the loop, or a change of the tree with the events that the watcher sends. -/
inductive WatchLabel where
  | edit (disk : SourceTree) (events : List (Except String WatchEvent))
  /-- the first event of a window -/
  | receive
  /-- another one, before its deadline -/
  | collect
  /-- the deadline -/
  | close
  /-- `publish_request` of `index_batch` -/
  | index (call : IndexCall)
  | drainRow (config : OwnerConfig) (row : DueQueueRow) (reply : EmbedReply) (now : ℤ)
  | finish
  /-- the run flag is cleared -/
  | stop

/-- One step of `watch_loop_indexing`, whose handler is `index_batch`. -/
def WatchDaemon.step (ignore : List String) (s : WatchDaemon) : WatchLabel → Option WatchDaemon
  | .edit disk events => some { s with disk, events := s.events ++ events }
  | .receive =>
    match s.phase, s.events with
    | .idle, event :: events =>
      some { s with events, phase := .window (collectEvent event ignore []) }
    | _, _ => none
  | .collect =>
    match s.phase, s.events with
    | .window changes, event :: events =>
      some { s with events, phase := .window (collectEvent event ignore changes) }
    | _, _ => none
  | .close =>
    match s.phase with
    | .window changes => some { s with phase := if changes = [] then .idle else .batch changes }
    | _ => none
  | .index call =>
    match s.phase with
    | .batch paths =>
      (s.pipeline.step (.publishRequest call (.touched paths))).map fun pipeline =>
        { s with pipeline, phase := .draining }
    | _ => none
  | .drainRow config row reply now =>
    match s.phase with
    | .draining =>
      (s.pipeline.step (.drainRow config row reply now)).map fun pipeline => { s with pipeline }
    | _ => none
  | .finish => if s.phase = .draining then some { s with phase := .idle } else none
  | .stop => if s.phase = .idle then some { s with phase := .stopped } else none

/-- A path of the tree is tested on its own as the walk does. -/
def SourceTree.Uniform (tree : SourceTree) (config : IndexConfig) : Prop :=
  ∀ path ∈ tree.admittedRelPaths config, tree.isAdmitted config path = true

instance (tree : SourceTree) (config : IndexConfig) : Decidable (tree.Uniform config) :=
  inferInstanceAs (Decidable (∀ path ∈ _, _))

/-- What is asked of the world: a file whose bytes change is named by an event that is sent then,
    and a batch reads the bytes on the disk, except where a change is still in the channel. The
    batches return. -/
def WatchDaemon.Observed (planner : ChangePlanner) (s : WatchDaemon) : WatchLabel → Prop
  | .edit disk events => disk.Uniform planner.config ∧ ∀ path,
      disk.indexedBytes planner.config path ≠ s.disk.indexedBytes planner.config path →
        Named events path
  | .index call => ∀ session ∈ s.pipeline.session, ∀ paths, s.phase = .batch paths →
      let r := session.request call (.touched paths)
      r.Uses planner ∧ (r.tryRequest s.pipeline.db).isOk = true ∧ ∀ path,
        call.tree.indexedBytes planner.config path = s.disk.indexedBytes planner.config path ∨
          Named s.events path
  | _ => True

/-- The loop begins after a full index of the tree, on a store with any history. -/
structure WatchDaemon.Started (planner : ChangePlanner) (s : WatchDaemon) : Prop where
  idle : s.phase = .idle
  indexed : ∃ steps p, ∃ r : IndexRequest, Transition.exec IndexerPipeline.step .initial steps = some p ∧
    r.Uses planner ∧ r.request = .full ∧ r.tree = s.disk ∧
      r.tryRequest p.db = .ok s.pipeline.db

/-! ## What waits -/

section
variable {ignore changes : List String} {event : Except String WatchEvent} {path : String}

theorem mem_foldl_insert {paths : List String} :
    path ∈ paths.foldl (fun changes path =>
        if shouldIgnore path ignore then changes else btreeSet (path :: changes)) changes ↔
      path ∈ changes ∨ path ∈ paths ∧ shouldIgnore path ignore = false := by
  induction paths generalizing changes with
  | nil => simp
  | cons p paths ih =>
    rw [List.foldl_cons, ih]
    split_ifs with hignore
    · rw [List.mem_cons]
      constructor
      · rintro (h | ⟨h, hkept⟩)
        · exact .inl h
        · exact .inr ⟨.inr h, hkept⟩
      · rintro (h | ⟨rfl | h, hkept⟩)
        · exact .inl h
        · rw [hignore] at hkept
          cases hkept
        · exact .inr ⟨h, hkept⟩
    · rw [mem_btreeSet, List.mem_cons, List.mem_cons]
      constructor
      · rintro ((rfl | h) | ⟨h, hkept⟩)
        · exact .inr ⟨.inl rfl, Bool.eq_false_of_not_eq_true hignore⟩
        · exact .inl h
        · exact .inr ⟨.inr h, hkept⟩
      · rintro (h | ⟨rfl | h, hkept⟩)
        · exact .inl (.inr h)
        · exact .inl (.inl rfl)
        · exact .inr ⟨h, hkept⟩

/-- **What an event adds**: its paths that are not ignored, when it is a change. -/
theorem mem_collectEvent : path ∈ collectEvent event ignore changes ↔
    path ∈ changes ∨ Named [event] path ∧ shouldIgnore path ignore = false := by
  cases event with
  | error e =>
    have hnot : ¬ Named [.error e] path := by
      rintro ⟨event, hevent, -⟩
      cases List.mem_singleton.1 hevent
    rw [collectEvent]
    exact ⟨.inl, fun h => h.resolve_right fun hnamed => hnot hnamed.1⟩
  | ok event =>
    have hnamed : Named [.ok event] path ↔ event.isChange = true ∧ path ∈ event.paths := by
      constructor
      · rintro ⟨event', hevent, hchange⟩
        cases List.mem_singleton.1 hevent
        exact hchange
      · exact fun h => ⟨event, List.mem_singleton_self _, h⟩
    rw [collectEvent, hnamed]
    split_ifs with hchange
    · rw [mem_foldl_insert]
      simp only [hchange, true_and]
    · exact ⟨.inl, fun h => h.resolve_right fun hnamed => hchange hnamed.1.1⟩

theorem named_append {events events' : List (Except String WatchEvent)} :
    Named (events ++ events') path ↔ Named events path ∨ Named events' path := by
  simp only [Named, List.mem_append]
  constructor
  · rintro ⟨event, hmem | hmem, hchange⟩
    · exact .inl ⟨event, hmem, hchange⟩
    · exact .inr ⟨event, hmem, hchange⟩
  · rintro (⟨event, hmem, hchange⟩ | ⟨event, hmem, hchange⟩)
    · exact ⟨event, .inl hmem, hchange⟩
    · exact ⟨event, .inr hmem, hchange⟩

end

/-- The path is not ignored, and a change of it is in the channel or held by the loop. -/
def WatchDaemon.Waits (config : IndexConfig) (s : WatchDaemon) (path : String) : Prop :=
  shouldIgnore path config.ignore = false ∧ (Named s.events path ∨ path ∈ s.phase.changes)

/-- **The invariant**: a path has the rows of some bytes, which are those on the disk unless it
    waits. -/
structure Tracks (planner : ChangePlanner) (s : WatchDaemon) : Prop where
  stocked : Stocked s.pipeline.db
  uniform : s.disk.Uniform planner.config
  rows : ∀ path, ∃ content, Reflects planner s.pipeline.db path content ∧
    (s.Waits planner.config path ∨ content = s.disk.indexedBytes planner.config path)

section
variable {planner : ChangePlanner} {path : String}

/-- An ignored path is never indexed. -/
theorem indexedBytes_of_ignored {tree : SourceTree} {config : IndexConfig}
    (huniform : tree.Uniform config) (h : shouldIgnore path config.ignore = true) :
    tree.indexedBytes config path = none := by
  refine if_neg fun hpath => ?_
  have hadmitted := huniform path hpath
  simp only [SourceTree.isAdmitted, Bool.and_eq_true, List.all_eq_true, decide_eq_true_eq] at hadmitted
  obtain ⟨c, hc, hignored⟩ := List.any_eq_true.1 h
  refine hadmitted.1.2 c hc ?_
  have hsubset : config.ignore ++ [".cognis"] ⊆ config.ignore ++ [".cognis", ".git"] := by
    intro name hname
    rcases List.mem_append.1 hname with hname | hname
    · exact List.mem_append_left _ hname
    · rw [List.mem_singleton.1 hname]
      exact List.mem_append_right _ List.mem_cons_self
  exact List.map_subset _ hsubset (of_decide_eq_true hignored)

/-! ## One batch -/

theorem Reflects.congr {db db' : Database} {content : Option ByteArray}
    (h : Reflects planner db path content) (hsymbols : db'.symbols = db.symbols)
    (hfiles : db'.files = db.files) : Reflects planner db' path content where
  symbols := by
    rw [hsymbols]
    exact h.symbols
  row := by
    rw [hfiles]
    exact h.row

theorem advanceSemantic_rows (db : Database) :
    db.advanceSemanticIfQueueEmpty.symbols = db.symbols ∧
      db.advanceSemanticIfQueueEmpty.files = db.files := by
  unfold Database.advanceSemanticIfQueueEmpty
  split_ifs <;> exact ⟨rfl, rfl⟩

/-- The drain leaves the symbols and the files. -/
theorem drainRow_rows (ext : VecExtension) (config : OwnerConfig) (embedder : Symbol → EmbedReply)
    (now : ℤ) (db : Database) (row : DueQueueRow) :
    (db.drainRow ext config embedder now row).1.symbols = db.symbols ∧
      (db.drainRow ext config embedder now row).1.files = db.files := by
  unfold Database.drainRow
  split
  · exact advanceSemantic_rows _
  · rename_i symbol rest _
    obtain ⟨vectors, dim, heq, -⟩ := db.embedSymbol_eq ext (embedder symbol)
    have hembed : (db.embedSymbol ext (embedder symbol)).1.symbols = db.symbols ∧
        (db.embedSymbol ext (embedder symbol)).1.files = db.files := by
      rw [heq]
      exact ⟨rfl, rfl⟩
    split
    · rename_i db₁ message hdb
      rw [hdb] at hembed
      exact hembed
    · rename_i db₁ vectors hdb
      rw [hdb] at hembed
      split
      · exact hembed
      · rename_i db₂ hpersist
        have hpersisted : db₂.symbols = db₁.symbols ∧ db₂.files = db₁.files := by
          unfold Database.persistSuccess at hpersist
          split at hpersist
          · cases hpersist
          · rename_i written hwritten
            cases hpersist
            have hwrite : written.symbols = db₁.symbols ∧ written.files = db₁.files := by
              unfold Database.upsertSymbolVectors at hwritten
              split_ifs at hwritten
              · cases hwritten
                exact ⟨rfl, rfl⟩
              · split at hwritten
                · cases hwritten
                · cases hwritten
                  exact ⟨rfl, rfl⟩
            obtain ⟨hsymbols, hfiles⟩ := advanceSemantic_rows (written.deleteQueueRow row.symbolId)
            exact ⟨hsymbols.trans hwrite.1, hfiles.trans hwrite.2⟩
        exact ⟨hpersisted.1.trans hembed.1, hpersisted.2.trans hembed.2⟩

/-- **A full index** gives every path the rows of its bytes. -/
theorem reflects_full (hcoll : planner.Collisionless) {r : IndexRequest} (huses : r.Uses planner)
    {db db' : Database} (hstocked : Stocked db) (hfull : r.request = .full)
    (hok : r.tryRequest db = .ok db') (path : String) :
    Reflects planner db' path (r.tree.indexedBytes planner.config path) := by
  have hasks : r.Asks path := by
    unfold IndexRequest.Asks
    rw [hfull]
    trivial
  by_cases hrow : ∃ row ∈ db.files, row.path = path
  · obtain ⟨row, hrow, rfl⟩ := hrow
    obtain ⟨files, hfiles, hcases⟩ := r.tryRequest_cases hok
    have hcovers : files.Covers row.path := by
      rw [hfull] at hfiles
      rw [ChangePlanner.planFiles_full hfiles]
      exact ChangePlanner.covers_full hrow
    rcases hcases with ⟨-, hnone⟩ | ⟨reason, receipt, hpublish⟩
    · exact absurd hcovers (hnone _)
    · obtain ⟨written, hpub⟩ := publish_spec hpublish
      have hfrom := ChangePlanner.planFiles_from hfiles
      obtain ⟨hplanned, -, -⟩ := planned_planFiles hfiles
      rcases hcovers with ⟨file, hfile, hpath⟩ | hdeleted
      · rw [← hpath]
        exact reflects_of_written hcoll huses hstocked hplanned hfrom hpub hfile
      · exact reflects_of_deleted huses hstocked hplanned hfrom hpub hdeleted
  · -- without a row there is no symbol either
    have hnone : Reflects planner db path none := by
      constructor
      · intro s hs
        refine iff_of_false (fun hmem => ?_) List.not_mem_nil
        obtain ⟨row, hmem, hpath⟩ := hstocked.rowed s hmem
        exact hrow ⟨row, hmem, hpath.trans hs⟩
      · intro row hpath
        rw [exists_undated]
        refine iff_of_false ?_ nofun
        rintro ⟨x, hx, hxpath, -⟩
        exact hrow ⟨x, hx, hxpath.trans hpath⟩
    rcases hnone.request hcoll huses hstocked hok with hview | ⟨hnot, -⟩
    · exact hview
    · exact absurd hasks hnot

/-! ## Runs -/

variable {s t : WatchDaemon}

theorem WatchDaemon.Started.tracks (hcoll : planner.Collisionless) (h : s.Started planner) :
    Tracks planner s := by
  obtain ⟨steps, p, r, hrun, huses, hfull, htree, hok⟩ := h.indexed
  have hstocked := stocked_of_run hrun
  refine ⟨(hstocked.tryRequest_full hfull hok).2, htree ▸ huses.uniform, fun path => ?_⟩
  refine ⟨_, reflects_full hcoll huses hstocked hfull hok path, .inr ?_⟩
  rw [htree]

/-- What waits after a step whose store is the same. -/
theorem Tracks.of_waits (h : Tracks planner s) (hdisk : t.disk = s.disk)
    (hpipeline : t.pipeline = s.pipeline)
    (hwaits : ∀ path, s.Waits planner.config path → t.Waits planner.config path) :
    Tracks planner t where
  stocked := by
    rw [hpipeline]
    exact h.stocked
  uniform := by
    rw [hdisk]
    exact h.uniform
  rows path := by
    obtain ⟨content, hreflects, hcontent⟩ := h.rows path
    rw [hpipeline, hdisk]
    exact ⟨content, hreflects, hcontent.imp_left (hwaits path)⟩

/-- A change of the tree: what changes waits. -/
theorem Tracks.edit (h : Tracks planner s) {disk : SourceTree}
    {events : List (Except String WatchEvent)} (hobs : s.Observed planner (.edit disk events)) :
    Tracks planner { s with disk, events := s.events ++ events } := by
  obtain ⟨huniform, hnamed⟩ := hobs
  refine ⟨h.stocked, huniform, fun path => ?_⟩
  obtain ⟨content, hreflects, hcontent⟩ := h.rows path
  refine ⟨content, hreflects, ?_⟩
  rcases hcontent with ⟨hkept, hwaits⟩ | rfl
  · exact .inl ⟨hkept, hwaits.imp_left fun hmem => named_append.2 (.inl hmem)⟩
  · by_cases hsame : disk.indexedBytes planner.config path = s.disk.indexedBytes planner.config path
    · exact .inr hsame.symm
    · -- an ignored path has no bytes before and after
      refine .inl ⟨?_, .inl (named_append.2 (.inr (hnamed path hsame)))⟩
      rw [Bool.eq_false_iff]
      intro hignored
      rw [indexedBytes_of_ignored huniform hignored,
        indexedBytes_of_ignored h.uniform hignored] at hsame
      exact hsame rfl

/-- An event that is taken from the channel into a window. -/
theorem Tracks.take (h : Tracks planner s) {event : Except String WatchEvent}
    {events : List (Except String WatchEvent)} (hevents : s.events = event :: events) :
    Tracks planner { s with
      events, phase := .window (collectEvent event planner.config.ignore s.phase.changes) } := by
  refine h.of_waits rfl rfl ?_
  rintro path ⟨hkept, hwaits⟩
  refine ⟨hkept, ?_⟩
  rw [hevents, ← List.singleton_append, named_append] at hwaits
  rcases hwaits with (hfirst | hrest) | hchanges
  · exact .inr (mem_collectEvent.2 (.inr ⟨hfirst, hkept⟩))
  · exact .inl hrest
  · exact .inr (mem_collectEvent.2 (.inl hchanges))

/-- A batch: its paths have the rows of the bytes that it reads, and so has every path that does
    not wait. -/
theorem Tracks.index (hcoll : planner.Collisionless) (h : Tracks planner s) {paths : List String}
    (hphase : s.phase = .batch paths) {call : IndexCall} (hobs : s.Observed planner (.index call))
    {pipeline : IndexerPipeline}
    (hstep : s.pipeline.step (.publishRequest call (.touched paths)) = some pipeline) :
    Tracks planner { s with pipeline, phase := .draining } := by
  have hstocked : Stocked pipeline.db := h.stocked.step hstep
  simp only [IndexerPipeline.step] at hstep
  cases hsession : s.pipeline.session with
  | none =>
    rw [hsession] at hstep
    cases hstep
  | some session =>
    rw [hsession] at hstep
    dsimp only at hstep
    split_ifs at hstep
    cases hstep
    obtain ⟨huses, hreturns, hread⟩ := hobs session hsession paths hphase
    set r := session.request call (.touched paths) with hr
    obtain ⟨db, hok⟩ : ∃ db, r.tryRequest s.pipeline.db = .ok db := by
      cases hok : r.tryRequest s.pipeline.db with
      | error e =>
        rw [hok] at hreturns
        cases hreturns
      | ok db => exact ⟨db, rfl⟩
    have hdb : r.publishRequest s.pipeline.db = db := by
      rw [r.publishRequest_eq, hok]
    rw [hdb] at hstocked ⊢
    refine ⟨hstocked, h.uniform, fun path => ?_⟩
    -- what is read of a path that does not wait is what is on the disk
    have hbytes : Named s.events path ∧ shouldIgnore path planner.config.ignore = false ∨
        r.tree.indexedBytes planner.config path = s.disk.indexedBytes planner.config path := by
      by_cases hignored : shouldIgnore path planner.config.ignore = true
      · rw [indexedBytes_of_ignored huses.uniform hignored,
          indexedBytes_of_ignored h.uniform hignored]
        exact .inr rfl
      · rcases hread path with hsame | hnamed
        · exact .inr hsame
        · exact .inl ⟨hnamed, Bool.eq_false_of_not_eq_true hignored⟩
    obtain ⟨content, hreflects, hcontent⟩ := h.rows path
    rcases hreflects.request hcoll huses h.stocked hok with hview | ⟨hasks, hkept⟩
    · exact ⟨_, hview, hbytes.imp_left fun hnamed => ⟨hnamed.2, .inl hnamed.1⟩⟩
    · refine ⟨content, hkept, hcontent.imp_left fun hwaits => ⟨hwaits.1, hwaits.2.imp_right ?_⟩⟩
      intro hchanges
      rw [hphase] at hchanges
      exact absurd hchanges hasks

/-- **One step** of the loop, or of the world. -/
theorem tracks_step (hcoll : planner.Collisionless) (h : Tracks planner s) {label : WatchLabel}
    (hobs : s.Observed planner label) (hstep : s.step planner.config.ignore label = some t) :
    Tracks planner t := by
  cases label with
  | edit disk events =>
    cases hstep
    exact h.edit hobs
  | receive =>
    simp only [WatchDaemon.step] at hstep
    split at hstep
    · rename_i event events hphase hevents
      cases hstep
      have htake := h.take hevents
      rw [hphase] at htake
      exact htake
    · cases hstep
  | collect =>
    simp only [WatchDaemon.step] at hstep
    split at hstep
    · rename_i changes event events hphase hevents
      cases hstep
      have htake := h.take hevents
      rw [hphase] at htake
      exact htake
    · cases hstep
  | close =>
    simp only [WatchDaemon.step] at hstep
    split at hstep
    · rename_i changes hphase
      cases hstep
      refine h.of_waits rfl rfl fun path hwaits => ⟨hwaits.1, hwaits.2.imp_right fun hmem => ?_⟩
      rw [hphase] at hmem
      split_ifs with hnil
      · rw [hnil] at hmem
        cases hmem
      · exact hmem
    · cases hstep
  | index call =>
    simp only [WatchDaemon.step] at hstep
    split at hstep
    · rename_i paths hphase
      obtain ⟨pipeline, hpipeline, rfl⟩ := Option.map_eq_some_iff.1 hstep
      exact h.index hcoll hphase hobs hpipeline
    · cases hstep
  | drainRow config row reply now =>
    simp only [WatchDaemon.step] at hstep
    split at hstep
    · obtain ⟨pipeline, hpipeline, rfl⟩ := Option.map_eq_some_iff.1 hstep
      refine ⟨h.stocked.step hpipeline, h.uniform, fun path => ?_⟩
      obtain ⟨content, hreflects, hcontent⟩ := h.rows path
      refine ⟨content, ?_, hcontent⟩
      simp only [IndexerPipeline.step] at hpipeline
      split at hpipeline
      · cases hpipeline
      · rename_i session _
        split_ifs at hpipeline
        cases hpipeline
        obtain ⟨hsymbols, hfiles⟩ :=
          drainRow_rows session.ext config (fun _ => reply) now s.pipeline.db row
        exact hreflects.congr hsymbols hfiles
    · cases hstep
  | finish =>
    simp only [WatchDaemon.step] at hstep
    split_ifs at hstep with hphase
    cases hstep
    refine h.of_waits rfl rfl fun path hwaits => ⟨hwaits.1, hwaits.2.imp_right fun hmem => ?_⟩
    rw [hphase] at hmem
    exact hmem
  | stop =>
    simp only [WatchDaemon.step] at hstep
    split_ifs at hstep with hphase
    cases hstep
    refine h.of_waits rfl rfl fun path hwaits => ⟨hwaits.1, hwaits.2.imp_right fun hmem => ?_⟩
    rw [hphase] at hmem
    exact hmem

end

namespace WatchExample

open IncrementalExample

def call (files : List (String × String)) : IndexCall :=
  ⟨planner, tree files, 0, none, fun dim => ⟨"digest", dim, "model"⟩⟩

def session : Session := ⟨none, false, false⟩

def request (files : List (String × String)) (request : PlanRequest String) : IndexRequest :=
  session.request (call files) request

/-- A file is there; it is changed, and while the batch for that is indexed another is written. -/
def first : List (String × String) := [("p.py", "one")]

def second : List (String × String) := [("p.py", "two")]

def third : List (String × String) := [("p.py", "two"), ("w.py", "new")]

def indexed : Database := (request first .full).publishRequest (Database.empty.healLegacyVec0 none)

def afterOne : Database := (request second (.touched ["p.py"])).publishRequest indexed

def afterTwo : Database := (request third (.touched ["w.py"])).publishRequest afterOne

def state (files : List (String × String)) (events : List (Except String WatchEvent))
    (phase : WatchPhase) (db : Database) : WatchDaemon :=
  ⟨tree files, events, phase, ⟨db, some session⟩⟩

def modified : Except String WatchEvent := .ok ⟨.modify, ["p.py"]⟩

/-- The daemon writes its own status file too. -/
def created : Except String WatchEvent := .ok ⟨.create, ["w.py", ".cognis/indexd-status.json"]⟩

def labels : List WatchLabel :=
  [.edit (tree second) [modified], .receive, .close, .edit (tree third) [created],
    .index (call second), .finish, .receive, .close, .index (call third), .finish]

theorem tryRequest_of_isOk {r : IndexRequest} {db : Database} (h : (r.tryRequest db).isOk = true) :
    r.tryRequest db = .ok (r.publishRequest db) := by
  rw [r.publishRequest_eq]
  cases hok : r.tryRequest db with
  | error e =>
    rw [hok] at h
    cases h
  | ok db' => rfl

theorem started : (state first [] .idle indexed).Started planner where
  idle := rfl
  indexed := by
    refine ⟨[.openSession none (.withEmbedder none)], ⟨Database.empty.healLegacyVec0 none,
      some session⟩, request first .full, rfl, ⟨rfl, rfl, by decide +kernel⟩, rfl, rfl, ?_⟩
    exact tryRequest_of_isOk (by decide +kernel)

/-- Only the two files are indexed. -/
theorem indexedBytes_of_other {files : List (String × String)}
    (hfiles : files = first ∨ files = second ∨ files = third) {path : String} (hp : path ≠ "p.py")
    (hw : path ≠ "w.py") : (tree files).indexedBytes planner.config path = none := by
  have hpaths : ∀ p ∈ (tree files).admittedRelPaths planner.config, p = "p.py" ∨ p = "w.py" := by
    rcases hfiles with rfl | rfl | rfl <;> decide
  exact if_neg fun hpath => (hpaths path hpath).elim hp hw

/-- A path has the same bytes in two of the trees, or is named. -/
theorem same_or_named {files files' : List (String × String)}
    (hfiles : files = first ∨ files = second ∨ files = third)
    (hfiles' : files' = first ∨ files' = second ∨ files' = third)
    {events : List (Except String WatchEvent)}
    (hp : (tree files).indexedBytes planner.config "p.py" =
      (tree files').indexedBytes planner.config "p.py" ∨ Named events "p.py")
    (hw : (tree files).indexedBytes planner.config "w.py" =
      (tree files').indexedBytes planner.config "w.py" ∨ Named events "w.py") (path : String) :
    (tree files).indexedBytes planner.config path =
      (tree files').indexedBytes planner.config path ∨ Named events path := by
  by_cases hpath : path = "p.py"
  · exact hpath ▸ hp
  · by_cases hpath' : path = "w.py"
    · exact hpath' ▸ hw
    · rw [indexedBytes_of_other hfiles hpath hpath', indexedBytes_of_other hfiles' hpath hpath']
      exact .inl rfl

theorem named_modified : Named [modified] "p.py" :=
  ⟨_, List.mem_singleton_self _, rfl, List.mem_singleton_self _⟩

theorem named_created : Named [created] "w.py" :=
  ⟨_, List.mem_singleton_self _, rfl, List.mem_cons_self⟩

theorem window_modified : collectEvent modified planner.config.ignore [] = ["p.py"] := by
  decide

theorem window_created : collectEvent created planner.config.ignore [] = ["w.py"] := by
  decide

theorem observed_edit {files files' : List (String × String)}
    {events events' : List (Except String WatchEvent)} {phase : WatchPhase} {db : Database}
    (huniform : (tree files').Uniform planner.config)
    (h : ∀ path, (tree files').indexedBytes planner.config path =
      (tree files).indexedBytes planner.config path ∨ Named events' path) :
    (state files events phase db).Observed planner (.edit (tree files') events') :=
  ⟨huniform, fun path hpath => (h path).resolve_left hpath⟩

theorem observed_index {files files' : List (String × String)}
    {events : List (Except String WatchEvent)} {paths : List String} {db : Database}
    (huniform : (tree files').Uniform planner.config)
    (hreturns : ((request files' (.touched paths)).tryRequest db).isOk = true)
    (h : ∀ path, (tree files').indexedBytes planner.config path =
      (tree files).indexedBytes planner.config path ∨ Named events path) :
    (state files events (.batch paths) db).Observed planner (.index (call files')) := by
  intro s hs paths' hpaths
  cases hs
  cases hpaths
  exact ⟨⟨rfl, rfl, huniform⟩, hreturns, h⟩

theorem step_cons {σ ℓ : Type} {step : σ → ℓ → Option σ} {G : σ → ℓ → Prop} {s t u : σ} {a : ℓ}
    {as : List ℓ} (hstep : step s a = some t) (hG : G s a)
    (h : Transition.exec step t as = some u ∧ Transition.Always step G t as) :
    Transition.exec step s (a :: as) = some u ∧ Transition.Always step G s (a :: as) := by
  refine ⟨?_, hG, fun _ hu => Option.some.inj (hstep.symm.trans hu) ▸ h.2⟩
  rw [Transition.exec, hstep]
  exact h.1

theorem run : Transition.exec (WatchDaemon.step planner.config.ignore)
      (state first [] .idle indexed) labels = some (state third [] .idle afterTwo) ∧
    Transition.Always (WatchDaemon.step planner.config.ignore) (WatchDaemon.Observed planner)
      (state first [] .idle indexed) labels := by
  have hsecond : (tree second).Uniform planner.config := by decide +kernel
  have hthird : (tree third).Uniform planner.config := by decide +kernel
  refine step_cons (t := state second [modified] .idle indexed) rfl
    (observed_edit hsecond (same_or_named (.inr (.inl rfl)) (.inl rfl) (.inr named_modified)
      (.inl (by decide +kernel)))) ?_
  refine step_cons (t := state second [] (.window ["p.py"]) indexed)
    (by rw [← window_modified]; rfl) trivial ?_
  refine step_cons (t := state second [] (.batch ["p.py"]) indexed) rfl trivial ?_
  refine step_cons (t := state third [created] (.batch ["p.py"]) indexed) rfl
    (observed_edit hthird (same_or_named (.inr (.inr rfl)) (.inr (.inl rfl))
      (.inl (by decide +kernel)) (.inr named_created))) ?_
  -- the batch still reads the tree without the new file
  refine step_cons (t := state third [created] .draining afterOne) rfl
    (observed_index hsecond (by decide +kernel) (same_or_named (.inr (.inl rfl)) (.inr (.inr rfl))
      (.inl (by decide +kernel)) (.inr named_created))) ?_
  refine step_cons (t := state third [created] .idle afterOne) rfl trivial ?_
  refine step_cons (t := state third [] (.window ["w.py"]) afterOne)
    (by rw [← window_created]; rfl) trivial ?_
  refine step_cons (t := state third [] (.batch ["w.py"]) afterOne) rfl trivial ?_
  refine step_cons (t := state third [] .draining afterTwo) rfl
    (observed_index hthird (by decide +kernel) (fun _ => .inl rfl)) ?_
  exact step_cons (t := state third [] .idle afterTwo) rfl trivial ⟨rfl, trivial⟩

end WatchExample

end Cognis
