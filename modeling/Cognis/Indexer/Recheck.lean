/-
  Reconciling and reporting a tree that has not changed since it was indexed (`planner.rs`).

  * `ChangePlanner.Settles`: every file of the walk parses, and has a symbol unless it is blank;
  * `unchanged_of_holdsIndex`: the cache then describes every file;
  * `unchanged_tree_publishes_nothing`: after a full index, in any run, no later request publishes
    anything for the same tree.
-/
import Cognis.Indexer.Rebuild

namespace Cognis

open Table

/-- Every readable file of the walk parses, and has a symbol unless it is blank; the id of a
    symbol names its file. -/
structure ChangePlanner.Settles (planner : ChangePlanner) (tree : SourceTree) : Prop where
  parses : ∀ path ∈ tree.admittedRelPaths planner.config, ∀ bytes,
    tree.readExactBytes path = .ok bytes →
      (planner.parseFile path bytes []).row.parseStatus = .ok ∧
      ((planner.parseFile path bytes []).symbols ≠ [] ∨
        (String.fromUTF8? bytes).any Text.isBlank = true)
  ids : ∀ s ∈ (planner.cleanFiles tree).freshSymbols, ∀ t ∈ (planner.cleanFiles tree).freshSymbols,
    s.id = t.id → s.filePath = t.filePath

/-- A later request for a tree that another has indexed: a reconcile, or a report of paths that
    the walk and the test of one path take alike. -/
structure IndexRequest.Rechecks (r indexed : IndexRequest) : Prop where
  tree : r.tree = indexed.tree
  config : r.planner.config = indexed.planner.config
  frontend : r.planner.frontend = indexed.planner.frontend
  reply : r.reply.isSome = true
  notFull : r.request ≠ .full
  admitted : ∀ paths, r.request = .touched paths → ∀ path ∈ paths,
    path ∈ r.tree.admittedRelPaths r.planner.config → r.tree.isAdmitted r.planner.config path = true

section
variable {planner : ChangePlanner} {tree : SourceTree} {db : Database}

/-- The row of a file that a clean index writes. -/
theorem row_of_cleanBatch {row : FileCacheRow} (h : row ∈ (planner.cleanBatch tree).fileRows) :
    row.path ∈ tree.admittedRelPaths planner.config ∧ ∃ bytes,
      tree.readExactBytes row.path = .ok bytes ∧ row = (planner.parseFile row.path bytes []).row := by
  obtain ⟨file, hfile, rfl⟩ := List.mem_map.1 (mem_sortOn.1 h)
  obtain ⟨path, hpath, bytes, hread, rfl⟩ := ChangePlanner.mem_touchedFiles (mem_sortOn.1 hfile)
  rw [ChangePlanner.parseFile_path]
  exact ⟨mem_btreeSet.1 hpath, bytes, hread, rfl⟩

/-- A file of the walk has its row. -/
theorem exists_row_of_cleanBatch {path : String} {bytes : ByteArray}
    (hpath : path ∈ tree.admittedRelPaths planner.config)
    (hread : tree.readExactBytes path = .ok bytes) :
    (planner.parseFile path bytes []).row ∈ (planner.cleanBatch tree).fileRows :=
  mem_sortOn.2 (List.mem_map.2 ⟨_, mem_sortOn.2 (ChangePlanner.mem_touchedFiles_full hpath hread), rfl⟩)

/-- A file with a symbol has one in a store that holds the index. -/
theorem symbolsInFile_ne_nil (hholds : HoldsIndex planner tree db) (hsettles : planner.Settles tree)
    {path : String} {bytes : ByteArray} (hpath : path ∈ tree.admittedRelPaths planner.config)
    (hread : tree.readExactBytes path = .ok bytes)
    (hsymbols : (planner.parseFile path bytes []).symbols ≠ []) : db.symbolsInFile path ≠ [] := by
  obtain ⟨s, hs⟩ := List.exists_mem_of_ne_nil _ hsymbols
  have hfresh : s ∈ (planner.cleanFiles tree).freshSymbols := PlannedFiles.mem_freshSymbols.2
    (List.mem_flatMap.2 ⟨_, ChangePlanner.mem_touchedFiles_full hpath hread, hs⟩)
  have hsPath : s.filePath = path := by
    have hof := (@ChangePlanner.parseFile_of planner .empty path bytes).symbols
      s hs
    rwa [ChangePlanner.parseFile_path] at hof
  obtain ⟨x, hx, hid⟩ : ∃ x ∈ build Symbol.id (planner.cleanFiles tree).freshSymbols, x.id = s.id :=
    exists_mem_build hfresh
  have hxPath : x.filePath = path := (hsettles.ids x (mem_of_mem_build hx) s hfresh hid).trans hsPath
  exact List.ne_nil_of_mem (Database.mem_symbolsInFile.2 ⟨hholds.symbols.mem_iff.2 hx, hxPath⟩)

/-- **The cache describes** every file of the walk. -/
theorem unchanged_of_holdsIndex (hholds : HoldsIndex planner tree db)
    (hsettles : planner.Settles tree) {path : String} {bytes : ByteArray}
    (hpath : path ∈ tree.admittedRelPaths planner.config)
    (hread : tree.readExactBytes path = .ok bytes) : planner.unchanged db path bytes = true := by
  obtain ⟨hstatus, hstate⟩ := hsettles.parses path hpath bytes hread
  have hstateOk : (!(db.symbolsInFile path).isEmpty ||
      (String.fromUTF8? bytes).any Text.isBlank) = true := by
    rcases hstate with hsymbols | hblank
    · have hne := symbolsInFile_ne_nil hholds hsettles hpath hread hsymbols
      rw [List.isEmpty_eq_false_iff.2 hne]
      rfl
    · rw [hblank, Bool.or_true]
  obtain ⟨row, hrow⟩ : ∃ row, lookup FileCacheRow.path db.files path = some row :=
    exists_lookup.2 ⟨_, hholds.files.mem_iff.2 (exists_row_of_cleanBatch hpath hread),
      ChangePlanner.parseFile_path path bytes []⟩
  have hkey : row.path = path := key_of_lookup hrow
  obtain ⟨-, bytes', hread', heq⟩ :=
    row_of_cleanBatch (hholds.files.mem_iff.1 (List.mem_of_find?_eq_some hrow))
  rw [hkey] at hread' heq
  rw [hread] at hread'
  cases hread'
  have hhash : row.contentHash = planner.frontend.exactByteHash bytes := by
    rw [heq]
    unfold ChangePlanner.parseFile
    split <;> rfl
  unfold ChangePlanner.unchanged
  dsimp only
  rw [hrow, Option.any_some, hhash, heq, hstatus, hstateOk]
  simp

/-! ## The plan -/

/-- The planner looks at the cache through its configuration and its parsers. -/
theorem ChangePlanner.unchanged_congr {planner' : ChangePlanner}
    (hfrontend : planner'.frontend = planner.frontend) (path : String) (bytes : ByteArray) :
    planner'.unchanged db path bytes = planner.unchanged db path bytes := by
  unfold unchanged
  rw [hfrontend]

/-- **Nothing is touched.** -/
theorem touchedFiles_recheck {r indexed : IndexRequest} (hrechecks : r.Rechecks indexed)
    (hholds : HoldsIndex indexed.planner indexed.tree db)
    (hsettles : indexed.planner.Settles indexed.tree) :
    r.planner.touchedFiles db r.tree r.request = ⟨[], []⟩ := by
  have hwalk : r.tree.admittedRelPaths r.planner.config =
      indexed.tree.admittedRelPaths indexed.planner.config := by
    rw [hrechecks.tree, hrechecks.config]
  have hcached : ∀ path, db.files.any (·.path = path) = true →
      path ∈ r.tree.admittedRelPaths r.planner.config ∧ ∃ bytes, r.tree.readExactBytes path = .ok bytes := by
    intro path hany
    obtain ⟨row, hrow, hpath⟩ := List.any_eq_true.1 hany
    obtain ⟨hadmitted, bytes, hread, -⟩ := row_of_cleanBatch (hholds.files.mem_iff.1 hrow)
    rw [of_decide_eq_true hpath] at hadmitted hread
    exact ⟨hwalk ▸ hadmitted, bytes, by rw [hrechecks.tree]; exact hread⟩
  have hdeleted : (r.planner.candidates db r.tree r.request).2 = [] := by
    rw [List.eq_nil_iff_forall_not_mem]
    intro path hpath
    unfold ChangePlanner.candidates at hpath
    split at hpath
    · rename_i paths hrequest
      obtain ⟨hmem, hgone⟩ := List.mem_filter.1 (mem_btreeSet.1 hpath)
      rw [Bool.and_eq_true, Bool.not_eq_true'] at hgone
      have hadmitted := hrechecks.admitted paths hrequest path hmem (hcached path hgone.2).1
      rw [hgone.1] at hadmitted
      cases hadmitted
    all_goals
      obtain ⟨hmem, hgone⟩ := List.mem_filter.1 (mem_btreeSet.1 hpath)
      obtain ⟨row, hrow, rfl⟩ := List.mem_map.1 hmem
      exact absurd (hcached row.path (List.any_eq_true.2 ⟨row, hrow, decide_eq_true rfl⟩)).1
        (of_decide_eq_true hgone)
  unfold ChangePlanner.touchedFiles
  dsimp only
  rw [hdeleted, List.nil_append]
  congr 1
  · rw [List.filterMap_eq_nil_iff]
    intro path hpath
    cases hread : r.tree.readExactBytes path with
    | error e => rfl
    | ok bytes =>
      have hunchanged : r.planner.unchanged db path bytes = true := by
        rw [ChangePlanner.unchanged_congr hrechecks.frontend]
        refine unchanged_of_holdsIndex hholds hsettles (hwalk ▸ ChangePlanner.mem_walk_of_candidate hpath) ?_
        rw [← hrechecks.tree]
        exact hread
      exact if_pos ⟨hrechecks.notFull, hunchanged⟩
  · rw [List.eq_nil_iff_forall_not_mem]
    intro path hpath
    obtain ⟨-, hunreadable⟩ := List.mem_filter.1 (mem_btreeSet.1 hpath)
    rw [Bool.and_eq_true] at hunreadable
    obtain ⟨bytes, hread⟩ := (hcached path hunreadable.2).2
    rw [hread] at hunreadable
    cases hunreadable.1

theorem hydrateIds_nil : db.hydrateIds [] = [] := by
  rw [List.eq_nil_iff_forall_not_mem]
  intro s hs
  exact absurd (Database.mem_hydrateIds.1 hs).2 List.not_mem_nil

theorem edgesIncident_nil : db.edgesIncident [] .inbound = [] := by
  rw [List.eq_nil_iff_forall_not_mem]
  intro e he
  exact absurd (Database.mem_edgesIncident_inbound.1 he).2 List.not_mem_nil

/-- Nothing depends on no files. -/
theorem planFiles_of_untouched {request : PlanRequest String}
    (h : planner.touchedFiles db tree request = ⟨[], []⟩) :
    planner.planFiles db tree request = .ok ⟨[], []⟩ := by
  have htriggers : ChangePlanner.triggerIds db ⟨[], []⟩ = [] := rfl
  have hsources : planner.withAffectedDependents db tree [] [] = .ok [] := by
    unfold ChangePlanner.withAffectedDependents
    rw [edgesIncident_nil]
    change planner.addFiles db tree _ [] (db.hydrateIds []) = _
    rw [hydrateIds_nil]
    rfl
  have hreferences : planner.withReferenceDependents db tree [] [] = .ok [] := by
    unfold ChangePlanner.withReferenceDependents
    change planner.addFiles db tree _ [] (db.hydrateIds []) = _
    rw [hydrateIds_nil]
    rfl
  unfold ChangePlanner.planFiles
  rw [h]
  dsimp only
  rw [htriggers, hsources]
  dsimp only
  rw [hreferences]

/-- **The batch of no files** is empty. -/
theorem isEmpty_buildBatch (reason : PublishReason) :
    (planner.buildBatch db reason ⟨[], []⟩).isEmpty = true := by
  have hplan := @ChangePlanner.buildBatch_spec planner db ⟨[], []⟩ (List.forall_mem_nil _) reason
  have hcovers : ∀ path, ¬ PlannedFiles.Covers ⟨[], []⟩ path := by
    rintro path (⟨file, hfile, -⟩ | hpath)
    · cases hfile
    · cases hpath
  have hstale : (planner.buildBatch db reason ⟨[], []⟩).symbolDeletes = [] :=
    List.eq_nil_iff_forall_not_mem.2 fun id hid => by
      obtain ⟨⟨s, -, -, hcovered⟩, -⟩ := (hplan.deletes id).1 hid
      exact hcovers _ hcovered
  have hedges : (planner.buildBatch db reason ⟨[], []⟩).edgeUpserts = [] :=
    List.eq_nil_iff_forall_not_mem.2 fun e he => by
      obtain ⟨s, hs, -⟩ := (hplan.edges e he).2.1
      cases hs
  have hedgeDeletes : (planner.buildBatch db reason ⟨[], []⟩).edgeDeletes = [] :=
    List.eq_nil_iff_forall_not_mem.2 fun key hkey => by
      obtain ⟨⟨e, -, -, s, -, -, hcovered⟩, -⟩ := (hplan.edgeDeletes key).1 hkey
      exact hcovers _ hcovered
  have hvectors : (planner.buildBatch db reason ⟨[], []⟩).vectorDeletes = [] := hstale
  have hqueue : (planner.buildBatch db reason ⟨[], []⟩).queueRemove = [] := hstale
  unfold PublishBatch.isEmpty
  rw [hstale, hedges, hedgeDeletes, hvectors, hqueue]
  rfl

/-- **A request for a tree that is as it was indexed** publishes nothing. -/
theorem publishRequest_recheck {r indexed : IndexRequest} (hrechecks : r.Rechecks indexed)
    (hholds : HoldsIndex indexed.planner indexed.tree db)
    (hsettles : indexed.planner.Settles indexed.tree) : r.publishRequest db = db := by
  have hfiles := planFiles_of_untouched (touchedFiles_recheck hrechecks hholds hsettles)
  unfold IndexRequest.publishRequest ChangePlanner.plan
  rw [hfiles]
  dsimp only
  rw [if_pos ⟨hrechecks.reply, isEmpty_buildBatch _⟩]

end

namespace RecheckExample

open IntegrityExample RebuildExample

/-- A reconcile, and a report of both files. -/
def requests : List IndexRequest :=
  [session.request { call [callee, caller] with now := 1 } .reconcile,
    session.request (call [callee, caller]) (.touched ["w.py", "p.py", "gone.py"])]

theorem settles : full.planner.Settles full.tree where
  parses path hpath bytes hread := by
    have hwalk : full.tree.admittedRelPaths full.planner.config = ["p.py", "w.py"] := by decide +kernel
    rw [hwalk] at hpath
    simp only [List.mem_cons, List.not_mem_nil, or_false] at hpath
    rcases hpath with rfl | rfl
    · have hread' : full.tree.readExactBytes "p.py" = .ok "def p(): pass".toUTF8 := by decide +kernel
      obtain rfl := Except.ok.inj (hread'.symm.trans hread)
      decide +kernel
    · have hread' : full.tree.readExactBytes "w.py" = .ok "def w(): p()".toUTF8 := by decide +kernel
      obtain rfl := Except.ok.inj (hread'.symm.trans hread)
      decide +kernel
  ids := by
    have hfresh : (full.planner.cleanFiles full.tree).freshSymbols = [callee, caller] := by
      decide +kernel
    rw [hfresh]
    decide +kernel

theorem rechecks : ∀ r ∈ requests, r.Rechecks full := by
  intro r hr
  simp only [requests, List.mem_cons, List.not_mem_nil, or_false] at hr
  rcases hr with rfl | rfl
  · exact ⟨rfl, rfl, rfl, rfl, nofun, nofun⟩
  · refine ⟨rfl, rfl, rfl, rfl, nofun, ?_⟩
    rintro paths ⟨⟩ path hpath
    revert path
    decide +kernel

end RecheckExample

end Cognis
