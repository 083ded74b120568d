/-
  Referential integrity of the store under the requests of the indexer (`publish.rs`,
  `planner.rs`).

  * `ReferentialIntegrity`: what the tables say of each other; `Linked` is the invariant
    that gives it;
  * `live_iff`, `Linked.publish`: a planned batch keeps the invariant, provided that it
    covers the source file of a flagged edge whenever it writes the destination
    (`PlannedFiles.Follows`);
  * `follows_of_admitted`: the dependents see to that for a source that is still in the
    tree;
  * `sourcesLive_of_run`, `publishes_keep_integrity`: the runs;
  * `not_integrity`: a caller whose file is gone from the tree, but not from the store,
    keeps its flag when its callee comes back.
-/
import Cognis.Indexer.Pipeline
import Cognis.Lib.Transition

namespace Cognis

open Table

/-! ## The property -/

/-- What the tables say of each other. -/
structure ReferentialIntegrity (db : Database) : Prop where
  fts_live : ∀ row ∈ db.fts, db.hasSymbol row.id = true
  vectors_live : ∀ row ∈ db.vectors.rows, db.hasSymbol row.1 = true
  queue_live : ∀ row ∈ db.queue, db.hasSymbol row.symbolId = true
  /-- exactly one row of `symbol_fts`, with the current text -/
  fts_current : ∀ s ∈ db.symbols, db.fts.filter (·.id = s.id) = [s.ftsRow]
  src_live : ∀ e ∈ db.edges, db.hasSymbol e.srcId = true
  dst_missing : ∀ e ∈ db.edges, e.dstMissing = true ↔ ¬ db.hasSymbol e.dstId = true

/-- The invariant. -/
structure Linked (db : Database) : Prop where
  keyed : Keyed Symbol.id db.symbols
  fts : db.fts = db.symbols.map Symbol.ftsRow
  vectors : ∀ row ∈ db.vectors.rows, db.hasSymbol row.1 = true
  queue : ∀ row ∈ db.queue, db.hasSymbol row.symbolId = true
  src : ∀ e ∈ db.edges, db.hasSymbol e.srcId = true
  dst : ∀ e ∈ db.edges, e.dstMissing = true ↔ ¬ db.hasSymbol e.dstId = true

theorem linked_empty : Linked Database.empty where
  keyed := keyed_nil
  fts := rfl
  vectors := nofun
  queue := nofun
  src := nofun
  dst := nofun

/-- The rows of a key are its one row. -/
theorem filter_ftsRow {symbols : List Symbol} (h : Keyed Symbol.id symbols) {s : Symbol}
    (hs : s ∈ symbols) : (symbols.map Symbol.ftsRow).filter (·.id = s.id) = [s.ftsRow] := by
  induction symbols with
  | nil => cases hs
  | cons t ts ih =>
    obtain ⟨ht, hts⟩ := List.nodup_cons.1 h
    rcases List.mem_cons.1 hs with rfl | hs
    · have hrest : (ts.map Symbol.ftsRow).filter (·.id = s.id) = [] := by
        rw [List.filter_eq_nil_iff]
        intro row hrow
        obtain ⟨u, hu, rfl⟩ := List.mem_map.1 hrow
        rw [decide_eq_true_eq]
        exact fun he => ht (List.mem_map.2 ⟨u, hu, he⟩)
      rw [List.map_cons, List.filter_cons_of_pos (by simp [Symbol.ftsRow]), hrest]
    · have hne : ¬ decide (t.ftsRow.id = s.id) = true := by
        rw [decide_eq_true_eq]
        exact fun he => ht (List.mem_map.2 ⟨s, hs, he.symm⟩)
      rw [List.map_cons, List.filter_cons, if_neg hne]
      exact ih hts hs

theorem Linked.integrity {db : Database} (h : Linked db) : ReferentialIntegrity db where
  fts_live row hrow := by
    rw [h.fts] at hrow
    obtain ⟨s, hs, rfl⟩ := List.mem_map.1 hrow
    exact Database.hasSymbol_iff.2 ⟨s, hs, rfl⟩
  vectors_live := h.vectors
  queue_live := h.queue
  fts_current s hs := by
    rw [h.fts]
    exact filter_ftsRow h.keyed hs
  src_live := h.src
  dst_missing := h.dst

/-! ## The flag -/

@[simp] theorem Edge.flagDstMissing_dstMissing (e : Edge) : e.flagDstMissing.dstMissing = true := by
  have hnone : (e.metaFields.filter (·.1 ≠ "dst_missing")).find? (·.1 == "dst_missing") = none := by
    rw [List.find?_eq_none]
    intro field hfield
    simpa using (List.mem_filter.1 hfield).2
  simp only [dstMissing, get, flagDstMissing, List.find?_append, hnone]
  rfl

/-! ## One publish -/

section
variable {planner : ChangePlanner} {tree : SourceTree} {request : PlanRequest String}
  {ext : VecExtension} {now : ℤ} {db written db' : Database} {files : PlannedFiles}
  {batch : PublishBatch}

/-- A batch that writes the destination of a flagged edge covers the file of its source. -/
def PlannedFiles.Follows (db : Database) (files : PlannedFiles) : Prop :=
  ∀ e ∈ db.edges, e.dstMissing = true → (∃ s ∈ files.newSymbols, s.id = e.dstId) →
    ∀ s ∈ db.symbols, s.id = e.srcId → files.Covers s.filePath

theorem PlannedFiles.From.newSymbols_notDeleted (h : files.From planner db tree request) {s : Symbol}
    (hs : s ∈ files.newSymbols) : s.filePath ∉ files.deleted := by
  obtain ⟨file, hfile, hs⟩ := List.mem_flatMap.1 hs
  intro hdeleted
  rw [(h.file file hfile).symbols s hs] at hdeleted
  exact h.present file hfile (h.gone _ hdeleted)

/-- **The deleted ids** are those of covered files that are not written again. -/
theorem mem_deletedIds (hfrom : files.From planner db tree request)
    (hplan : PlannedBatch db files batch) {id : String} : id ∈ db.deletedIds batch ↔
    (∃ s ∈ db.symbols, s.id = id ∧ files.Covers s.filePath) ∧ ∀ s ∈ files.newSymbols, s.id ≠ id := by
  rw [← hplan.deletes]
  simp only [Database.deletedIds, List.mem_append, or_iff_left_iff_imp]
  -- a symbol of a deleted file is an old one
  intro hcollect
  obtain ⟨s, hs, rfl⟩ := List.mem_map.1 hcollect
  obtain ⟨hs, hpath⟩ := List.mem_filter.1 hs
  rw [decide_eq_true_eq, hplan.fileDeletes] at hpath
  rcases mem_upsertAll.1 hs with ⟨hold, hne⟩ | hnew
  · refine (hplan.deletes s.id).2 ⟨⟨s, hold, rfl, .inr hpath⟩, fun s' hs' he => ?_⟩
    exact hne s' ((hplan.upserts s').2 hs') he.symm
  · have hmem := (hplan.upserts s).1 (mem_of_mem_build hnew)
    exact absurd hpath (hfrom.newSymbols_notDeleted hmem)

/-- **The live symbols** after a publish: the new ones, and those of files that it does
    not cover. -/
theorem live_iff (hkeyed : Keyed Symbol.id db.symbols) (hfrom : files.From planner db tree request)
    (hplan : PlannedBatch db files batch) (hpub : Published ext now db batch written db')
    {id : String} : db'.hasSymbol id = true ↔
    (∃ s ∈ files.newSymbols, s.id = id) ∨
      ∃ s ∈ db.symbols, s.id = id ∧ ¬ files.Covers s.filePath := by
  have hdeleted : ∀ id, id ∈ db.deletedIds batch ↔ _ := fun _ => mem_deletedIds hfrom hplan
  rw [Database.hasSymbol_iff, hpub.symbols]
  simp only [List.mem_filter, decide_eq_true_eq]
  constructor
  · rintro ⟨s, ⟨hs, hkept⟩, rfl⟩
    rcases mem_upsertAll.1 hs with ⟨hold, hne⟩ | hnew
    · refine .inr ⟨s, hold, rfl, fun hcovers => hkept ((hdeleted _).2 ⟨⟨s, hold, rfl, hcovers⟩, ?_⟩)⟩
      exact fun s' hs' he => hne s' ((hplan.upserts s').2 hs') he.symm
    · exact .inl ⟨s, (hplan.upserts s).1 (mem_of_mem_build hnew), rfl⟩
  · rintro (⟨s, hs, rfl⟩ | ⟨s, hs, rfl, huncovered⟩)
    · obtain ⟨x, hx, hid⟩ : ∃ x ∈ build Symbol.id batch.symbolUpserts, x.id = s.id :=
        exists_mem_build ((hplan.upserts s).2 hs)
      refine ⟨x, ⟨mem_upsertAll.2 (.inr hx), fun hdel => ?_⟩, hid⟩
      exact ((hdeleted _).1 hdel).2 s hs hid.symm
    · obtain ⟨x, hx, hid⟩ : ∃ x ∈ upsertAll Symbol.id db.symbols batch.symbolUpserts, x.id = s.id :=
        exists_mem_upsertAll hs
      refine ⟨x, ⟨hx, fun hdel => ?_⟩, hid⟩
      obtain ⟨⟨s', hs', hid', hcovers⟩, -⟩ := (hdeleted _).1 hdel
      rw [hkeyed.eq hs' hs (hid'.trans hid)] at hcovers
      exact huncovered hcovers

/-- A deleted id is not live. -/
theorem not_live_of_deleted (hpub : Published ext now db batch written db') {id : String}
    (hid : id ∈ db.deletedIds batch) : ¬ db'.hasSymbol id = true := by
  rw [Database.hasSymbol_iff, hpub.symbols]
  rintro ⟨s, hs, rfl⟩
  exact of_decide_eq_true (List.mem_filter.1 hs).2 hid

/-- An id with a symbol once the new ones are written is live or deleted. -/
theorem live_or_deleted (hpub : Published ext now db batch written db') {id : String}
    (h : (db.upsertSymbols batch.symbolUpserts).hasSymbol id = true) :
    db'.hasSymbol id = true ∨ id ∈ db.deletedIds batch := by
  rw [or_iff_not_imp_right]
  intro hid
  obtain ⟨s, hs, rfl⟩ := Database.hasSymbol_iff.1 h
  rw [Database.hasSymbol_iff, hpub.symbols]
  exact ⟨s, List.mem_filter.2 ⟨hs, decide_eq_true hid⟩, rfl⟩

theorem hasSymbol_upsertSymbols {symbols : List Symbol} {id : String} (h : db.hasSymbol id = true) :
    (db.upsertSymbols symbols).hasSymbol id = true := by
  obtain ⟨s, hs, rfl⟩ := Database.hasSymbol_iff.1 h
  exact Database.hasSymbol_iff.2 (exists_mem_upsertAll hs)

/-- The edges after a publish are edges of the batch, or old ones whose source the batch
    does not cover; those into a deleted symbol are flagged. -/
theorem edge_cases (hsrc : ∀ e ∈ db.edges, db.hasSymbol e.srcId = true)
    (hplan : PlannedBatch db files batch) (hpub : Published ext now db batch written db')
    {e : Edge} (he : e ∈ db'.edges) : ∃ e₀ : Edge,
      (e = if e₀.dstId ∈ db.deletedIds batch then e₀.flagDstMissing else e₀) ∧
      (e₀ ∈ batch.edgeUpserts ∨
        e₀ ∈ db.edges ∧ ∃ s ∈ db.symbols, s.id = e₀.srcId ∧ ¬ files.Covers s.filePath) := by
  rw [hpub.edges] at he
  obtain ⟨e₀, he₀, rfl⟩ := List.mem_map.1 he
  simp only [List.mem_filter, decide_eq_true_eq] at he₀
  obtain ⟨⟨hmem, hkept⟩, -⟩ := he₀
  refine ⟨e₀, rfl, ?_⟩
  rcases mem_upsertAll.1 hmem with ⟨hold, hne⟩ | hnew
  · right
    obtain ⟨s, hs, hid⟩ := Database.hasSymbol_iff.1 (hsrc e₀ hold)
    refine ⟨hold, s, hs, hid, fun hcovers => hkept ?_⟩
    -- the outbound edges of a covered file are rewritten or deleted
    exact (hplan.edgeDeletes _).2 ⟨⟨e₀, hold, rfl, s, hs, hid, hcovers⟩, fun e' he' hk => hne e' he' hk.symm⟩
  · exact .inl (mem_of_mem_build hnew)

/-- The part of the invariant that every planned batch keeps. -/
structure SourcesLive (db : Database) : Prop where
  keyed : Keyed Symbol.id db.symbols
  src : ∀ e ∈ db.edges, db.hasSymbol e.srcId = true

theorem sourcesLive_empty : SourcesLive Database.empty where
  keyed := keyed_nil
  src := nofun

theorem SourcesLive.publish {receipt : PublishReceipt} (h : SourcesLive db)
    (hfrom : files.From planner db tree request) (hplan : PlannedBatch db files batch)
    (hpublish : publish ext now db batch = .ok (db', receipt)) : SourcesLive db' := by
  obtain ⟨written, hpub⟩ := publish_spec hpublish
  have hlive : ∀ id, db'.hasSymbol id = true ↔ _ := fun _ => live_iff h.keyed hfrom hplan hpub
  refine ⟨?_, fun e he => ?_⟩
  · rw [hpub.symbols]
    exact (keyed_upsertAll h.keyed).filter _
  · obtain ⟨e₀, rfl, hcases⟩ := edge_cases h.src hplan hpub he
    have hsrc : db'.hasSymbol e₀.srcId = true := by
      rcases hcases with hnew | ⟨-, hold⟩
      · exact (hlive _).2 (.inl (hplan.edges e₀ hnew).2.1)
      · exact (hlive _).2 (.inr hold)
    split_ifs
    · exact hsrc
    · exact hsrc

/-- **One publish** keeps the invariant. -/
theorem Linked.publish {receipt : PublishReceipt} (h : Linked db)
    (hfrom : files.From planner db tree request) (hplan : PlannedBatch db files batch)
    (hfollows : files.Follows db) (hpublish : publish ext now db batch = .ok (db', receipt)) :
    Linked db' := by
  obtain ⟨written, hpub⟩ := publish_spec hpublish
  have hlive : ∀ id, db'.hasSymbol id = true ↔ _ := fun _ => live_iff h.keyed hfrom hplan hpub
  have hsources := SourcesLive.publish ⟨h.keyed, h.src⟩ hfrom hplan hpublish
  refine ⟨hsources.keyed, ?_, fun row hrow => ?_, fun row hrow => ?_, hsources.src, fun e he => ?_⟩
  · have hmap : upsertAll FtsRow.id (db.symbols.map Symbol.ftsRow)
        (batch.symbolUpserts.map Symbol.ftsRow) =
        (upsertAll Symbol.id db.symbols batch.symbolUpserts).map Symbol.ftsRow :=
      upsertAll_map fun _ => rfl
    rw [publish_fts hpublish, hpub.symbols, h.fts, hmap, List.filter_map]
    rfl
  · rw [hpub.vectors] at hrow
    simp only [List.mem_filter, decide_eq_true_eq] at hrow
    obtain ⟨⟨hrow, -⟩, hkept⟩ := hrow
    have hlive₀ : (db.upsertSymbols batch.symbolUpserts).hasSymbol row.1 = true := by
      rcases upsertVectorSpaceAndVectors_mem hpub.vectorStep hrow with hold | hnew
      · exact hasSymbol_upsertSymbols (h.vectors row hold)
      · exact hnew
    exact (live_or_deleted hpub hlive₀).resolve_right hkept
  · rw [hpub.queue] at hrow
    simp only [List.mem_filter, decide_eq_true_eq] at hrow
    obtain ⟨⟨⟨hrow, -⟩, hkept⟩, -⟩ := hrow
    rcases mem_upsertAll.1 hrow with ⟨hold, -⟩ | hnew
    · exact (live_or_deleted hpub (hasSymbol_upsertSymbols (h.queue row hold))).resolve_right hkept
    · obtain ⟨q, hq, rfl⟩ := List.mem_map.1 (mem_of_mem_build hnew)
      exact (hlive _).2 (.inl (hplan.enqueue q hq))
  · obtain ⟨e₀, rfl, hcases⟩ := edge_cases h.src hplan hpub he
    split_ifs with hdel
    · exact iff_of_true e₀.flagDstMissing_dstMissing (not_live_of_deleted hpub hdel)
    · rcases hcases with hnew | ⟨hold, s, hs, hid, huncovered⟩
      · obtain ⟨hflag, -, hdst⟩ := hplan.edges e₀ hnew
        have hdst : db'.hasSymbol e₀.dstId = true := (hlive _).2 hdst
        simp [hflag, hdst]
      · rw [h.dst e₀ hold]
        constructor
        · intro hgone hback
          -- the destination is back: it is new, as it was not live
          rcases (hlive _).1 hback with hnew | ⟨s', hs', hid', -⟩
          · exact huncovered (hfollows e₀ hold ((h.dst e₀ hold).2 hgone) hnew s hs hid)
          · exact hgone (Database.hasSymbol_iff.2 ⟨s', hs', hid'⟩)
        · exact fun hgone hlive₀ => hgone <|
            (live_or_deleted hpub (hasSymbol_upsertSymbols hlive₀)).resolve_right hdel

/-- A plan follows the flagged edges whose source is still in the tree, when their
    destination comes back in a changed file. -/
theorem follows_of_admitted (h : planner.planFiles db tree request = .ok files)
    (hback : ∀ e ∈ db.edges, e.dstMissing = true → (∃ s ∈ files.newSymbols, s.id = e.dstId) →
      e.dstId ∈ ChangePlanner.triggerIds db (planner.touchedFiles db tree request) ∧
        ∀ s ∈ db.symbols, s.id = e.srcId → tree.isAdmitted planner.config s.filePath = true) :
    files.Follows db := by
  intro e he hmissing hnew s hs hid
  obtain ⟨htrigger, hadmitted⟩ := hback e he hmissing hnew
  exact ChangePlanner.covers_dependent h he htrigger hs hid (hadmitted s hs hid)

end

/-! ## Runs -/

/-- A request, as a step of the store. -/
def IndexRequest.step (db : Database) (r : IndexRequest) : Option Database :=
  some (r.publishRequest db)

/-- The batch of a request covers the source file of every flagged edge whose destination
    it writes. -/
def IndexRequest.Follows (db : Database) (r : IndexRequest) : Prop :=
  ∀ files, r.planner.planFiles db r.tree r.request = .ok files → files.Follows db

instance (files : PlannedFiles) (path : String) : Decidable (files.Covers path) := by
  unfold PlannedFiles.Covers
  infer_instance

instance (db : Database) (files : PlannedFiles) : Decidable (files.Follows db) := by
  unfold PlannedFiles.Follows
  infer_instance

instance (db : Database) (r : IndexRequest) : Decidable (r.Follows db) :=
  match h : r.planner.planFiles db r.tree r.request with
  | .error _ => .isTrue fun _ hok => nomatch h.symm.trans hok
  | .ok files => decidable_of_iff (files.Follows db)
      ⟨fun hf _ hok => Except.ok.inj (h.symm.trans hok) ▸ hf, fun hall => hall files h⟩

/-- **One request** keeps the invariant. -/
theorem Linked.step {db db' : Database} {r : IndexRequest} (h : Linked db) (hfollows : r.Follows db)
    (hstep : r.step db = some db') : Linked db' := by
  cases hstep
  rcases r.publishRequest_cases db with heq | ⟨files, batch, receipt, hfiles, hfrom, hplan, hpub⟩
  · rw [heq]
    exact h
  · exact h.publish hfrom hplan (hfollows files hfiles) hpub

/-- **Every run** of requests leaves a table of edges with live sources. -/
theorem sourcesLive_of_run (requests : List IndexRequest) {db : Database}
    (h : Transition.exec IndexRequest.step Database.empty requests = some db) : SourcesLive db := by
  refine Transition.exec_preserves (fun s r t hs hst => ?_) h sourcesLive_empty
  cases hst
  rcases r.publishRequest_cases s with heq | ⟨files, batch, receipt, -, hfrom, hplan, hpub⟩
  · rw [heq]
    exact hs
  · exact hs.publish hfrom hplan hpub

/-- **Every run** of requests that follow the flagged edges keeps the tables in step. -/
theorem publishes_keep_integrity (requests : List IndexRequest) (db : Database)
    (h : Transition.exec IndexRequest.step Database.empty requests = some db)
    (hfollows : Transition.Always IndexRequest.step IndexRequest.Follows Database.empty requests) :
    ReferentialIntegrity db := by
  refine Linked.integrity (Transition.exec_invariant ?_ h hfollows linked_empty)
  intro s r t hs hG hst
  exact hs.step hG hst

namespace IntegrityExample

def symbol (file name body : String) : Symbol where
  id := "python:" ++ file ++ ":" ++ name ++ "@0"
  kind := .function
  name := name
  qualifiedName := name
  language := "python"
  module := file
  filePath := file
  lineStart := 1
  lineEnd := 1
  contentHash := "0"
  bodyExcerpt := some body

def callee : Symbol := symbol "p.py" "p" "def p(): pass"

def caller : Symbol := symbol "w.py" "w" "def w(): p()"

/-- One function in each file. -/
def parse (path : String) : ParseOutput where
  status := .ok
  language := some "python"
  symbols := [callee, caller].filter (·.filePath = path)

def frontend : Frontend where
  parseSource path _ := parse path
  extractArtifact _ path _ := parse path
  enrich s := s
  exactByteHash bytes := toString bytes.size
  parseSource_path _ _ _ hs := of_decide_eq_true (List.mem_filter.1 hs).2
  extractArtifact_path _ _ _ _ hs := of_decide_eq_true (List.mem_filter.1 hs).2
  enrich_path _ := rfl

/-- The rows with the quoted text in a column. -/
def search (db : Database) (query : String) (_ : ℕ) : List String :=
  let text := String.ofList (query.toList.filter (· ≠ '"'))
  (db.fts.filter fun row =>
    [row.name, row.qualifiedName, row.bodyExcerpt].any (hasSubstring · text)).map FtsRow.id

def planner : ChangePlanner where
  config := ⟨[], ["python"], false, []⟩
  unicode := ⟨fun c => c.isAlphanum || c = '_', Char.isLower, Text.toAsciiLowercase⟩
  frontend := frontend
  ftsSearch := search
  now := 0

def tree (symbols : List Symbol) : SourceTree where
  root := "/repo"
  files := symbols.map fun s => (s.filePath, .ok (s.bodyExcerpt.getD "").toUTF8)

def index (symbols : List Symbol) (request : PlanRequest String) : IndexRequest :=
  ⟨planner, tree symbols, request, none, 0, none⟩

/-- Both files are indexed, then they are gone, of which a watcher reports that of the
    callee; it comes back, and the watcher reports the given paths. -/
def run (reported : List String) : List IndexRequest :=
  [index [callee, caller] .full, index [] (.touched ["p.py"]),
    index [callee] (.touched reported)]

end IntegrityExample

open IntegrityExample in
/-- The watcher reports the file of the caller as well. -/
theorem publishes_keep_integrity_reported : ∃ db,
    Transition.exec IndexRequest.step Database.empty (run ["p.py", "w.py"]) =
      some db ∧ db.symbols = [callee] ∧ db.edges = [] ∧ ReferentialIntegrity db := by
  have hrows : (Transition.exec IndexRequest.step Database.empty
      (run ["p.py", "w.py"])).map (fun db => (db.symbols, db.edges)) = some ([callee], []) := by
    decide +kernel
  obtain ⟨db, hdb, hrows⟩ := Option.map_eq_some_iff.1 hrows
  rw [Prod.mk.injEq] at hrows
  refine ⟨db, hdb, hrows.1, hrows.2, publishes_keep_integrity _ db hdb ?_⟩
  decide +kernel

/-- The property for every run. -/
def KeepsIntegrity : Prop :=
  ∀ (requests : List IndexRequest) (db : Database),
    Transition.exec IndexRequest.step Database.empty requests = some db →
      ReferentialIntegrity db

open IntegrityExample in
/-- The file of the caller is gone, but nothing reports it: when the callee comes back, the
    edge to it stays flagged. -/
theorem not_keepsIntegrity : ¬ KeepsIntegrity := by
  intro h
  have hrows : (Transition.exec IndexRequest.step Database.empty
      (run ["p.py"])).map (fun db => (db.hasSymbol callee.id, db.edges.map fun e =>
        (e.dstId, e.dstMissing))) = some (true, [(callee.id, true)]) := by
    decide +kernel
  obtain ⟨db, hdb, hrows⟩ := Option.map_eq_some_iff.1 hrows
  rw [Prod.mk.injEq] at hrows
  obtain ⟨hlive, hedges⟩ := hrows
  have hmem : (callee.id, true) ∈ db.edges.map fun e => (e.dstId, e.dstMissing) := by
    rw [hedges]
    exact List.mem_singleton_self _
  obtain ⟨e, he, hdst⟩ := List.mem_map.1 hmem
  rw [Prod.mk.injEq] at hdst
  have hgone : ¬ db.hasSymbol e.dstId = true := ((h _ db hdb).dst_missing e he).1 hdst.2
  rw [hdst.1] at hgone
  exact hgone hlive

end Cognis
