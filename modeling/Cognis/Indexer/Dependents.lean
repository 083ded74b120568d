/-
  The dependents of a touched file, from the plan to the table after it (`plan` and
  `add_affected_dependents` of `planner.rs`).

  * `IndexRequest.Dependent`: the files that the change of a touched file concerns;
  * `dependent_replanned`: they are parsed again in the batch;
  * `mem_edges_of_owned`: after the batch their edges are those of the gathered symbols;
  * `dependents_resolved_iff`: these are edges of the new table if and only if the fan-out
    cap sees the readers of the keys that they read;
  * `not_dependentsResolved`: a reader that names a key in full does not find those that
    name its last segment.
-/
import Cognis.Indexer.Lookup

namespace Cognis

open Table

/-! ## The property -/

namespace IndexRequest

variable (r : IndexRequest) (db : Database)

/-- The tree has other bytes of the file than the index. -/
def Changed (path : String) : Prop :=
  r.tree.isAdmitted r.planner.config path = true ∧
    ∃ bytes, r.tree.readExactBytes path = .ok bytes ∧ r.planner.unchanged db path bytes = false

/-- The index has the file, and the tree does not. -/
def Deleted (path : String) : Prop :=
  (∃ row ∈ db.files, row.path = path) ∧ r.planner.Gone r.tree path r.request

/-- A readable and admitted file has a symbol with a stored edge into a symbol of a touched file
    that is changed or deleted. -/
structure Dependent (paths : List String) (path : String) : Prop where
  admitted : r.tree.isAdmitted r.planner.config path = true
  readable : ∃ bytes, r.tree.readExactBytes path = .ok bytes
  edge : ∃ s ∈ db.symbols, s.filePath = path ∧ ∃ e ∈ db.edges, e.srcId = s.id ∧
    ∃ target ∈ db.symbols, target.id = e.dstId ∧ target.filePath ∈ paths ∧
      (r.Changed db target.filePath ∨ r.Deleted db target.filePath)

end IndexRequest

/-- What the store and the ids promise: a stored edge leaves a stored symbol, and the id of a
    symbol names its file. -/
structure Sourced (db : Database) (files : PlannedFiles) : Prop extends SourcesLive db where
  ids : ∀ s ∈ files.newSymbols, ∀ old ∈ db.symbols, old.id = s.id → old.filePath = s.filePath

section
variable {r : IndexRequest} {paths : List String} {db db' : Database} {files : PlannedFiles}
  {path : String}

/-! ## The files of a plan -/

namespace IndexRequest

theorem mem_touched_of_changed (hrequest : r.request = .touched paths) (hpath : path ∈ paths)
    (h : r.Changed db path) :
    ∃ file ∈ (r.planner.touchedFiles db r.tree r.request).changed,
      file.oldSymbols = db.symbolsInFile path := by
  obtain ⟨hadmitted, bytes, hread, hbytes⟩ := h
  refine ⟨r.planner.parseFile path bytes (db.symbolsInFile path), ?_, ?_⟩
  · rw [hrequest]
    refine List.mem_filterMap.2 ⟨path, ?_, ?_⟩
    · exact mem_btreeSet.2 (List.mem_filter.2 ⟨hpath, hadmitted⟩)
    · rw [hread]
      dsimp only
      rw [if_neg (by simp [hbytes])]
  · have hof : (r.planner.parseFile path bytes (db.symbolsInFile path)).Of db :=
      ChangePlanner.parseFile_of path bytes
    rw [hof.oldSymbols, ChangePlanner.parseFile_path]

theorem mem_touched_of_deleted (hrequest : r.request = .touched paths) (hpath : path ∈ paths)
    (h : r.Deleted db path) : path ∈ (r.planner.touchedFiles db r.tree r.request).deleted := by
  obtain ⟨⟨row, hrow, hrowpath⟩, hgone⟩ := h
  have hcached : db.files.any (·.path = path) = true :=
    List.any_eq_true.2 ⟨row, hrow, decide_eq_true hrowpath⟩
  rw [hrequest] at hgone ⊢
  refine mem_btreeSet.2 (List.mem_append.2 ?_)
  cases hadmitted : r.tree.isAdmitted r.planner.config path with
  | false =>
    exact .inl (mem_btreeSet.2 (List.mem_filter.2 ⟨hpath, by simp [hadmitted, hcached]⟩))
  | true =>
    obtain ⟨e, he⟩ := hgone.resolve_left (by simp [hadmitted])
    refine .inr (List.mem_filter.2 ⟨mem_btreeSet.2 (List.mem_filter.2 ⟨hpath, hadmitted⟩), ?_⟩)
    rw [he]
    exact hcached

/-- The symbols of a touched file that is changed or deleted trigger. -/
theorem mem_triggerIds (hrequest : r.request = .touched paths) {target : Symbol}
    (htarget : target ∈ db.symbols) (hpath : target.filePath ∈ paths)
    (h : r.Changed db target.filePath ∨ r.Deleted db target.filePath) :
    target.id ∈ ChangePlanner.triggerIds db (r.planner.touchedFiles db r.tree r.request) := by
  unfold ChangePlanner.triggerIds
  rw [mem_btreeSet, List.mem_append, List.mem_append]
  rcases h with h | h
  · obtain ⟨file, hfile, hold⟩ := mem_touched_of_changed hrequest hpath h
    refine .inl (.inl (List.mem_flatMap.2 ⟨file, hfile, List.mem_map.2 ⟨target, ?_, rfl⟩⟩))
    rw [hold]
    exact Database.mem_symbolsInFile.2 ⟨htarget, rfl⟩
  · refine .inr (List.mem_flatMap.2 ⟨target.filePath, mem_touched_of_deleted hrequest hpath h, ?_⟩)
    exact List.mem_map.2 ⟨target, Database.mem_symbolsInFile.2 ⟨htarget, rfl⟩, rfl⟩

/-- **A dependent is parsed again.** -/
theorem dependent_replanned (hrequest : r.request = .touched paths)
    (hfiles : r.planner.planFiles db r.tree r.request = .ok files) (h : r.Dependent db paths path) :
    path ∈ files.owned := by
  obtain ⟨s, hs, rfl, e, he, hsrc, target, htarget, hdst, hpath, hcases⟩ := h.edge
  have htrigger := mem_triggerIds hrequest htarget hpath hcases
  rw [hdst] at htrigger
  have hcovers := ChangePlanner.covers_dependent hfiles he htrigger hs hsrc.symm h.admitted
  refine PlannedFiles.mem_owned.2 (hcovers.resolve_right fun hdeleted => ?_)
  obtain ⟨bytes, hread⟩ := h.readable
  exact ChangePlanner.not_gone_of_isAdmitted h.admitted hread
    ((ChangePlanner.planFiles_from hfiles).gone _ hdeleted)

end IndexRequest

/-! ## The edges after the batch -/

theorem ResolvedEdge.toEdge_injective : Function.Injective ResolvedEdge.toEdge := by
  rintro ⟨src, dst, kind, confidence, ambiguous⟩ ⟨src', dst', kind', confidence', ambiguous'⟩ h
  simp only [toEdge, Edge.mk.injEq] at h
  obtain ⟨rfl, rfl, rfl, rfl, hmeta⟩ := h
  cases ambiguous <;> cases ambiguous' <;> simp_all

/-- The model leaves what the planner resolves. -/
theorem IndexRequest.prepare_rows (batch : PublishBatch) :
    (r.prepare batch).symbolUpserts = batch.symbolUpserts ∧
      (r.prepare batch).edgeUpserts = batch.edgeUpserts ∧
      (r.prepare batch).fileRows = batch.fileRows := by
  unfold prepare
  cases r.reply with
  | none => exact ⟨rfl, rfl, rfl⟩
  | some reply =>
    obtain ⟨_, _, _, _, heq⟩ := batch.prepareSemantic_eq reply
    rw [Option.elim_some, heq]
    exact ⟨rfl, rfl, rfl⟩

/-- The planner resolves one edge for each key. -/
theorem keyed_edgeUpserts (planner : ChangePlanner) (db : Database) (reason : PublishReason)
    (files : PlannedFiles) : Keyed Edge.key (planner.buildBatch db reason files).edgeUpserts := by
  rw [ChangePlanner.buildBatch_edgeUpserts]
  refine Keyed.sortOn ?_
  have hkeyed : Keyed ResolvedEdge.key
      (edgesFrom planner.unicode files.owned (planner.resolverSymbols db files)) :=
    keyed_resolveEdges.filter _
  unfold Keyed at hkeyed ⊢
  rw [List.map_map]
  exact hkeyed

section
variable {planner : ChangePlanner} {tree : SourceTree} {request : PlanRequest String}
  {ext : VecExtension} {now : ℤ} {written : Database} {batch : PublishBatch}
  (hfrom : files.From planner db tree request) (hplan : PlannedBatch db files batch)
  (hpub : Published ext now db batch written db')
include hfrom hplan

/-- An edge of the batch has a destination that stays. -/
theorem dstId_notDeleted (hkeyed : Keyed Symbol.id db.symbols) {e : Edge}
    (he : e ∈ batch.edgeUpserts) : e.dstId ∉ db.deletedIds batch := by
  rw [mem_deletedIds hfrom hplan]
  rintro ⟨⟨old, hold, hid, hcovers⟩, hnot⟩
  rcases (hplan.edges e he).2.2 with ⟨s, hs, hsid⟩ | ⟨s, hs, hsid, huncovered⟩
  · exact hnot s hs hsid
  · rw [hkeyed.eq hold hs (hid.trans hsid.symm)] at hcovers
    exact huncovered hcovers

include hpub

theorem mem_edges_of_upsert (hkeyed : Keyed Symbol.id db.symbols)
    (hkeys : Keyed Edge.key batch.edgeUpserts) {e : Edge} (he : e ∈ batch.edgeUpserts) :
    e ∈ db'.edges := by
  have hsrc : e.srcId ∉ db.deletedIds batch := by
    rw [mem_deletedIds hfrom hplan]
    obtain ⟨s, hs, hid⟩ := (hplan.edges e he).2.1
    exact fun hdeleted => hdeleted.2 s hs hid
  have hkey : e.key ∉ batch.edgeDeletes := by
    rw [hplan.edgeDeletes]
    exact fun hdeleted => hdeleted.2 e he rfl
  have hwritten : e ∈ upsertAll Edge.key db.edges batch.edgeUpserts :=
    mem_upsertAll.2 (.inr (hkeys.mem_build.2 he))
  rw [hpub.edges]
  refine List.mem_map.2 ⟨e, ?_, if_neg (dstId_notDeleted hfrom hplan hkeyed he)⟩
  simp only [List.mem_filter, decide_eq_true_eq]
  exact ⟨⟨hwritten, hkey⟩, hsrc⟩

/-- **The edges of a written file** are those of the batch. -/
theorem mem_edges_of_owned (hstored : Sourced db files) (hkeys : Keyed Edge.key batch.edgeUpserts)
    {e : Edge} {s : Symbol} (hs : s ∈ files.liveSymbols db) (hid : s.id = e.srcId)
    (hpath : s.filePath ∈ files.owned) : e ∈ db'.edges ↔ e ∈ batch.edgeUpserts := by
  refine ⟨fun he => ?_, mem_edges_of_upsert hfrom hplan hpub hstored.keyed hkeys⟩
  have hnew : s ∈ files.newSymbols :=
    PlannedFiles.mem_freshSymbols.1 (PlannedFiles.mem_freshSymbols_of_owned hs hpath)
  obtain ⟨e₀, rfl, hcases⟩ := edge_cases hstored.src hplan hpub he
  rcases hcases with hupsert | ⟨-, old, hold, hsrc, huncovered⟩
  · rwa [if_neg (dstId_notDeleted hfrom hplan hstored.keyed hupsert)]
  · -- an old edge from a new symbol: the file of its source is written
    have hsame : s.id = e₀.srcId := by
      rw [hid]
      split_ifs
      · rfl
      · rfl
    rw [hstored.ids s hnew old hold (hsrc.trans hsame.symm)] at huncovered
    exact absurd (.inl (PlannedFiles.mem_owned.1 hpath)) huncovered

end

/-- The edges of a batch, over the part of the table that is reached. -/
theorem mem_edgeUpserts (hstored : Sourced db files) (hof : ∀ file ∈ files.changed, file.Of db)
    {e : Edge} : e ∈ (r.prepare (r.planner.buildBatch db .incremental files)).edgeUpserts ↔
      ∃ edge ∈ edgesFrom r.planner.unicode files.owned
        ((files.liveSymbols db).filter (r.planner.reaches db files)), edge.toEdge = e := by
  rw [(r.prepare_rows _).2.1, ChangePlanner.buildBatch_edgeUpserts, mem_sortOn, List.mem_map,
    edgesFrom_perm ChangePlanner.keyed_resolverSymbols
      (ChangePlanner.resolverSymbols_perm hstored.keyed hof)]

/-- **Dependents are resolved with their target** if and only if the fan-out cap sees the readers
    of the keys that they read. -/
theorem dependents_resolved_iff (r : IndexRequest) {paths : List String} {db db' : Database}
    {files : PlannedFiles} {receipt : PublishReceipt} (hrequest : r.request = .touched paths)
    (hword : ∀ c, Text.isIdentChar c = true → r.planner.unicode.isWord c = true)
    (hfiles : r.planner.planFiles db r.tree r.request = .ok files) (hstored : Sourced db files)
    (hpublish : publish r.ext r.now db (r.prepare (r.planner.buildBatch db .incremental files)) =
      .ok (db', receipt)) :
    (∀ path, r.Dependent db paths path →
      (∃ row ∈ (r.prepare (r.planner.buildBatch db .incremental files)).fileRows, row.path = path) ∧
      ∀ e ∈ db'.edges, (∃ s ∈ db'.symbols, s.id = e.srcId ∧ s.filePath = path) →
        e ∈ resolvedEdges r.planner.unicode db'.symbols) ↔
    ∀ path, r.Dependent db paths path →
      KeepsCap [path] (files.liveSymbols db) (r.planner.reaches db files) := by
  obtain ⟨written, hpub⟩ := publish_spec hpublish
  have hfrom := ChangePlanner.planFiles_from hfiles
  have hplan : PlannedBatch db files (r.prepare (r.planner.buildBatch db .incremental files)) :=
    IndexRequest.planned_prepare (ChangePlanner.buildBatch_spec hfrom.file _)
  have hkeys : Keyed Edge.key
      (r.prepare (r.planner.buildBatch db .incremental files)).edgeUpserts := by
    rw [(r.prepare_rows _).2.1]
    exact keyed_edgeUpserts r.planner db _ files
  have hsymbols : db'.symbols.Perm (files.liveSymbols db) :=
    published_symbols hstored.keyed hfrom hplan (r.prepare_rows _).1 hpub
  have hlive : Keyed Symbol.id (files.liveSymbols db) := PlannedFiles.keyed_liveSymbols hstored.keyed
  have hupsert : ∀ e, e ∈ (r.prepare (r.planner.buildBatch db .incremental files)).edgeUpserts ↔ _ :=
    fun e => mem_edgeUpserts hstored hfrom.file
  have hresolved : ∀ edge : ResolvedEdge, edge.toEdge ∈ resolvedEdges r.planner.unicode db'.symbols ↔
      edge ∈ resolveEdges r.planner.unicode (files.liveSymbols db) := by
    intro edge
    rw [← mem_resolveEdges_of_perm hsymbols]
    exact List.mem_map_of_injective ResolvedEdge.toEdge_injective
  refine forall_congr' fun path => forall_congr' fun hdependent => ?_
  have howned := IndexRequest.dependent_replanned hrequest hfiles hdependent
  have hpart : ∀ p ∈ [path], p ∈ files.owned := fun p hp => by rwa [List.mem_singleton.1 hp]
  have hnames : Names r.planner.unicode [path] (files.liveSymbols db) (r.planner.reaches db files) :=
    (ChangePlanner.names_reached hword).mono hpart
  rw [← edgesFrom_subset_iff hlive hnames]
  constructor
  · rintro ⟨-, hall⟩ edge hedge
    obtain ⟨hgathered, s, hs, hid, hpath⟩ := (mem_edgesFrom_of_subset (hlive.filter _) hpart).1 hedge
    have hmem := List.mem_of_mem_filter hs
    have hpublished := mem_edges_of_upsert hfrom hplan hpub hstored.keyed hkeys
      ((hupsert edge.toEdge).2 ⟨edge, hgathered, rfl⟩)
    have hwhole := (hresolved edge).1 (hall _ hpublished
      ⟨s, hsymbols.mem_iff.2 hmem, hid, List.mem_singleton.1 hpath⟩)
    exact (mem_edgesFrom hlive).2 ⟨mem_resolveEdges_iff.1 hwhole, s, hmem, hid, hpath⟩
  · intro hsubset
    refine ⟨?_, fun e he hsource => ?_⟩
    · rw [(r.prepare_rows _).2.2]
      obtain ⟨file, hfile, hpath⟩ := List.mem_map.1 howned
      exact ⟨file.row, mem_sortOn.2 (List.mem_map.2 ⟨file, hfile, rfl⟩), hpath⟩
    · obtain ⟨s, hs, hid, rfl⟩ := hsource
      have hmem := hsymbols.mem_iff.1 hs
      obtain ⟨edge, hgathered, rfl⟩ := (hupsert e).1
        ((mem_edges_of_owned hfrom hplan hpub hstored hkeys hmem hid howned).1 he)
      have hleaves : Leaves [s.filePath] (files.liveSymbols db) edge :=
        ⟨s, hmem, hid, List.mem_singleton.2 rfl⟩
      have hpartial := (mem_edgesFrom_of_subset (hlive.filter _) hpart).2
        ⟨hgathered, (leaves_part hnames).2 hleaves⟩
      exact (hresolved edge).2 (mem_resolveEdges_iff.2 ((mem_edgesFrom hlive).1 (hsubset edge hpartial)).1)

end

/-! ## A key with many readers -/

instance Sourced.decidable (db : Database) (files : PlannedFiles) : Decidable (Sourced db files) :=
  decidable_of_iff (Keyed Symbol.id db.symbols ∧ (∀ e ∈ db.edges, db.hasSymbol e.srcId = true) ∧
      ∀ s ∈ files.newSymbols, ∀ old ∈ db.symbols, old.id = s.id → old.filePath = s.filePath)
    ⟨fun h => ⟨⟨h.1, h.2.1⟩, h.2.2⟩, fun h => ⟨h.keyed, h.src, h.ids⟩⟩

namespace DependentsExample

open IntegrityExample (symbol)

def helper : Symbol := symbol "lib.py" "helper" "def helper(): return 1"

/-- The caller reads the key by its full name. -/
def main : Symbol := symbol "app.py" "main" "def main(): return helper(cfg['server.port'])"

/-- The key of a configuration. -/
def key : Symbol :=
  { symbol "settings.yaml" "server.port" "port: 80" with
    id := "yaml:settings.yaml:server.port@0", kind := .var, language := "yaml" }

/-- Other files read the key by its last segment. -/
def reader (n : ℕ) : Symbol :=
  symbol ("r" ++ toString n ++ ".py") ("read" ++ toString n)
    ("def read" ++ toString n ++ "(): return cfg['port']")

def symbols (n : ℕ) : List Symbol := key :: helper :: main :: (List.range n).map reader

/-- The parser, on the texts of the tree. -/
def parse (n : ℕ) (path : String) : ParseOutput where
  status := .ok
  language := some "python"
  symbols := (symbols n).filter (·.filePath = path)

def frontend (n : ℕ) : Frontend :=
  { IntegrityExample.frontend with
    parseSource := fun path _ => parse n path
    extractArtifact := fun _ path _ => parse n path
    parseSource_path := fun _ _ _ hs => of_decide_eq_true (List.mem_filter.1 hs).2
    extractArtifact_path := fun _ _ _ _ hs => of_decide_eq_true (List.mem_filter.1 hs).2 }

def planner (n : ℕ) : ChangePlanner := { IntegrityExample.planner with frontend := frontend n }

/-- What a clean build has. -/
def index (n : ℕ) : Database where
  symbols := symbols n
  edges := resolvedEdges (planner n).unicode (symbols n)
  fts := (symbols n).map Symbol.ftsRow
  files := [⟨"lib.py", "python", 22, "22", 0, .ok⟩]

/-- A comment is new in the file of the helper. -/
def request (n : ℕ) : IndexRequest where
  planner := planner n
  tree := ⟨"/repo", [("lib.py", .ok "# one\ndef helper(): return 1".toUTF8),
    ("app.py", .ok "def main(): return helper(cfg['server.port'])".toUTF8)]⟩
  request := .touched ["lib.py"]
  ext := none
  now := 0
  reply := none

/-- The files of the plan and the state after its batch. -/
def outcome (n : ℕ) : Except String (PlannedFiles × Database) :=
  match (request n).planner.planFiles (index n) (request n).tree (request n).request with
  | .error e => .error e
  | .ok files =>
    match publish none 0 (index n)
      ((request n).prepare ((request n).planner.buildBatch (index n) .incremental files)) with
    | .error e => .error e
    | .ok (db, _) => .ok (files, db)

theorem outcome_eq {n : ℕ} {files : PlannedFiles} {db : Database} (h : outcome n = .ok (files, db)) :
    (request n).planner.planFiles (index n) (request n).tree (request n).request = .ok files ∧
    ∃ receipt, publish (request n).ext (request n).now (index n) ((request n).prepare
      ((request n).planner.buildBatch (index n) .incremental files)) = .ok (db, receipt) := by
  unfold outcome at h
  split at h
  · cases h
  · rename_i planned hplanned
    split at h
    · cases h
    · rename_i published receipt hpublished
      cases h
      exact ⟨hplanned, receipt, hpublished⟩

/-- What holds of the plan and of the state after it. -/
theorem exists_outcome {n : ℕ} {p : PlannedFiles × Database → Bool}
    (h : (outcome n).toOption.any p = true) :
    ∃ files db, outcome n = .ok (files, db) ∧ p (files, db) = true := by
  cases hrun : outcome n with
  | error e =>
    rw [hrun] at h
    cases h
  | ok result =>
    rw [hrun] at h
    exact ⟨result.1, result.2, rfl, h⟩

theorem dependent_main : (request 8).Dependent (index 8) ["lib.py"] "app.py" where
  admitted := by decide +kernel
  readable := ⟨_, rfl⟩
  edge := by
    refine ⟨main, by decide +kernel, rfl, (ResolvedEdge.new main.id helper.id .calls (6 / 10)).toEdge,
      by decide +kernel, rfl, helper, by decide +kernel, rfl, List.mem_singleton.2 rfl, .inl ?_⟩
    exact ⟨by decide +kernel, _, rfl, by decide +kernel⟩

end DependentsExample

open DependentsExample in
/-- With one other reader, the file of the caller gets the edges of the whole table. -/
theorem dependents_resolved_iff_one : ∃ files db, outcome 1 = .ok (files, db) ∧
    ∀ path, (request 1).Dependent (index 1) ["lib.py"] path →
      (∃ row ∈ ((request 1).prepare ((request 1).planner.buildBatch (index 1) .incremental
        files)).fileRows, row.path = path) ∧
      ∀ e ∈ db.edges, (∃ s ∈ db.symbols, s.id = e.srcId ∧ s.filePath = path) →
        e ∈ resolvedEdges (request 1).planner.unicode db.symbols := by
  obtain ⟨files, db, hrun, hcheck⟩ := exists_outcome (n := 1)
    (p := fun result => decide (Sourced (index 1) result.1) &&
      decide ((result.1.liveSymbols (index 1)).length ≤ crossFanoutCap)) (by decide +kernel)
  rw [Bool.and_eq_true, decide_eq_true_eq, decide_eq_true_eq] at hcheck
  obtain ⟨hfiles, receipt, hpublish⟩ := outcome_eq hrun
  refine ⟨files, db, hrun, (dependents_resolved_iff (request 1) rfl (fun _ hc => hc) hfiles hcheck.1
    hpublish).2 fun path _ keySym _ _ _ _ _ => ?_⟩
  -- there are not more readers than symbols
  refine (List.length_filter_le _ _).trans ((List.length_filter_le _ _).trans ?_)
  exact (List.length_filter_le _ _).trans hcheck.2

/-- The property for every state and every set of touched files. -/
def DependentsResolved : Prop :=
  ∀ (r : IndexRequest) (paths : List String) (db db' : Database) (files : PlannedFiles)
    (receipt : PublishReceipt), r.request = .touched paths →
    (∀ c, Text.isIdentChar c = true → r.planner.unicode.isWord c = true) →
    r.planner.planFiles db r.tree r.request = .ok files → Sourced db files →
    publish r.ext r.now db (r.prepare (r.planner.buildBatch db .incremental files)) =
      .ok (db', receipt) →
    ∀ path, r.Dependent db paths path →
      (∃ row ∈ (r.prepare (r.planner.buildBatch db .incremental files)).fileRows, row.path = path) ∧
      ∀ e ∈ db'.edges, (∃ s ∈ db'.symbols, s.id = e.srcId ∧ s.filePath = path) →
        e ∈ resolvedEdges r.planner.unicode db'.symbols

open DependentsExample in
/-- The caller finds the key and itself, but none of the eight readers of its last segment: the
    batch has an edge to a key that is read at nine sites. -/
theorem not_dependentsResolved : ¬ DependentsResolved := by
  intro h
  obtain ⟨files, db, hrun, hcheck⟩ := exists_outcome (n := 8)
    (p := fun result => decide (Sourced (index 8) result.1) &&
      result.2.edges.any fun e => result.2.symbols.any (fun s => s.id = e.srcId && s.filePath = "app.py") &&
        decide (e ∉ resolvedEdges (request 8).planner.unicode result.2.symbols)) (by decide +kernel)
  rw [Bool.and_eq_true, decide_eq_true_eq, List.any_eq_true] at hcheck
  obtain ⟨hstored, e, he, hedge⟩ := hcheck
  rw [Bool.and_eq_true, List.any_eq_true, decide_eq_true_eq] at hedge
  obtain ⟨⟨s, hs, hsource⟩, hnot⟩ := hedge
  rw [Bool.and_eq_true, decide_eq_true_eq, decide_eq_true_eq] at hsource
  obtain ⟨hfiles, receipt, hpublish⟩ := outcome_eq hrun
  exact hnot ((h (request 8) ["lib.py"] (index 8) db files receipt rfl (fun _ hc => hc) hfiles hstored
    hpublish "app.py" dependent_main).2 e he ⟨s, hs, hsource⟩)

end Cognis
