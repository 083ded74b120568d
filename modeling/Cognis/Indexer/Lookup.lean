/-
  The symbols that the planner gathers for `resolve_edges`, against the whole table
  (`bounded_resolver_symbols` of `planner.rs`).

  * `PlannedFiles.liveSymbols`: the symbol table after the change;
  * `resolverSymbols_perm`: the planner takes the part of it that is of a written file or
    that a lookup finds;
  * `bounded_eq_global_iff`: when the edges of the written files are those of the whole
    table;
  * `not_boundedIsGlobal`: a table of SQL is looked up by its normalised name, under which
    it is not stored.
-/
import Cognis.Indexer.Headers
import Cognis.Indexer.Integrity
import Cognis.Indexer.Part

namespace Cognis

open Table

/-! ## The tables -/

namespace PlannedFiles

/-- The paths to write. -/
def owned (files : PlannedFiles) : List String := (sortOn (·.row.path) files.changed).map (·.row.path)

/-- The symbols to write, in the order of the paths. -/
def freshSymbols (files : PlannedFiles) : List Symbol :=
  (sortOn (·.row.path) files.changed).flatMap PlannedFile.symbols

/-- The symbol table after the change. -/
def liveSymbols (db : Database) (files : PlannedFiles) : List Symbol :=
  upsertAll Symbol.id (db.symbols.filter (·.filePath ∉ files.owned ++ files.deleted))
    files.freshSymbols

end PlannedFiles

namespace ChangePlanner

variable (planner : ChangePlanner) (db : Database)

/-- The symbols that the resolver runs on. -/
def resolverSymbols (files : PlannedFiles) : List Symbol :=
  planner.boundedResolverSymbols db files.freshSymbols (files.owned ++ files.deleted)

/-- A lookup for the references of some symbols finds the symbol: by its name, by its
    qualified name or by a search. -/
def finds (newSymbols : List Symbol) (s : Symbol) : Bool :=
  let refs := planner.collectReferences newSymbols
  decide (s.name ∈ refs.names ++ refs.literals) || decide (s.qualifiedName ∈ refs.qualifiedNames) ||
    refs.literals.any fun literal => s.id ∈ planner.ftsHits db literal

/-- The symbol is of a written file, or is found. -/
def reaches (files : PlannedFiles) (s : Symbol) : Bool :=
  decide (s.filePath ∈ files.owned) || planner.finds db files.freshSymbols s

end ChangePlanner

section
variable {planner : ChangePlanner} {db : Database} {files : PlannedFiles} {s : Symbol}

namespace PlannedFiles

theorem mem_owned {path : String} : path ∈ files.owned ↔ ∃ file ∈ files.changed, file.row.path = path := by
  simp [owned]

theorem mem_freshSymbols : s ∈ files.freshSymbols ↔ s ∈ files.newSymbols := by
  simp [freshSymbols, newSymbols]

theorem filePath_owned (hof : ∀ file ∈ files.changed, file.Of db) (hs : s ∈ files.freshSymbols) :
    s.filePath ∈ files.owned := by
  obtain ⟨file, hfile, hmem⟩ := List.mem_flatMap.1 hs
  rw [mem_sortOn] at hfile
  exact mem_owned.2 ⟨file, hfile, ((hof file hfile).symbols s hmem).symm⟩

theorem keyed_liveSymbols (hkeyed : Keyed Symbol.id db.symbols) :
    Keyed Symbol.id (files.liveSymbols db) := keyed_upsertAll (hkeyed.filter _)

theorem mem_liveSymbols : s ∈ files.liveSymbols db ↔
    (s ∈ db.symbols ∧ s.filePath ∉ files.owned ++ files.deleted ∧
      ∀ new ∈ files.freshSymbols, s.id ≠ new.id) ∨ s ∈ build Symbol.id files.freshSymbols := by
  rw [liveSymbols, mem_upsertAll, List.mem_filter, decide_eq_true_eq, and_assoc]

/-- A live symbol of a written file is fresh. -/
theorem mem_freshSymbols_of_owned (hs : s ∈ files.liveSymbols db) (hpath : s.filePath ∈ files.owned) :
    s ∈ files.freshSymbols := by
  rcases mem_liveSymbols.1 hs with ⟨-, hnot, -⟩ | hnew
  · exact absurd (List.mem_append_left _ hpath) hnot
  · exact mem_of_mem_build hnew

end PlannedFiles

namespace ChangePlanner

/-- What the lookups of the planner return. -/
theorem mem_candidates {newSymbols : List Symbol} :
    s ∈ db.symbolsByNames ((planner.collectReferences newSymbols).names ++
        (planner.collectReferences newSymbols).literals) ++
      db.symbolsByQualifiedNames (planner.collectReferences newSymbols).qualifiedNames ++
      ((planner.collectReferences newSymbols).literals.flatMap fun literal =>
        db.hydrateIds (planner.ftsHits db literal)) ↔
    s ∈ db.symbols ∧ planner.finds db newSymbols s = true := by
  simp only [finds, Database.symbolsByNames, Database.symbolsByQualifiedNames, List.mem_append,
    Database.mem_symbolsByValues, List.mem_flatMap, Database.mem_hydrateIds, Bool.or_eq_true,
    decide_eq_true_eq, List.any_eq_true]
  constructor
  · rintro ((⟨hs, h⟩ | ⟨hs, h⟩) | ⟨literal, hliteral, hs, h⟩)
    · exact ⟨hs, .inl (.inl h)⟩
    · exact ⟨hs, .inl (.inr h)⟩
    · exact ⟨hs, .inr ⟨literal, hliteral, h⟩⟩
  · rintro ⟨hs, (h | h) | ⟨literal, hliteral, h⟩⟩
    · exact .inl (.inl ⟨hs, h⟩)
    · exact .inl (.inr ⟨hs, h⟩)
    · exact .inr ⟨literal, hliteral, hs, h⟩

theorem keyed_resolverSymbols : Keyed Symbol.id (planner.resolverSymbols db files) :=
  keyed_build.sortOn

theorem mem_resolverSymbols (hkeyed : Keyed Symbol.id db.symbols) :
    s ∈ planner.resolverSymbols db files ↔
      (s ∈ db.symbols ∧ s.filePath ∉ files.owned ++ files.deleted ∧
        planner.finds db files.freshSymbols s = true ∧ ∀ new ∈ files.freshSymbols, s.id ≠ new.id) ∨
      s ∈ build Symbol.id files.freshSymbols := by
  rw [resolverSymbols, boundedResolverSymbols, mem_sortOn, build, upsertAll, List.foldl_append]
  set kept := List.filter _ _ with hkept
  have hlive : ∀ x, x ∈ kept ↔ x ∈ db.symbols ∧ planner.finds db files.freshSymbols x = true ∧
      x.filePath ∉ files.owned ++ files.deleted := by
    intro x
    rw [hkept, List.mem_filter, mem_candidates, decide_eq_true_eq, and_assoc]
  have htable : s ∈ upsertAll Symbol.id [] kept ↔ s ∈ kept := by
    have hmem := mem_upsertAll_of_keyed (x := s) hkeyed (t := []) (by simp)
      fun x hx => ((hlive x).1 hx).1
    simpa using hmem
  change s ∈ upsertAll Symbol.id (upsertAll Symbol.id [] kept) files.freshSymbols ↔ _
  rw [mem_upsertAll, htable, hlive]
  tauto

/-- **The table of the resolver** is the part of the live one that is reached. -/
theorem resolverSymbols_perm (hkeyed : Keyed Symbol.id db.symbols)
    (hof : ∀ file ∈ files.changed, file.Of db) :
    (planner.resolverSymbols db files).Perm
      ((files.liveSymbols db).filter (planner.reaches db files)) := by
  refine keyed_resolverSymbols.perm ((PlannedFiles.keyed_liveSymbols hkeyed).filter _) fun s => ?_
  have hfresh : ∀ x ∈ build Symbol.id files.freshSymbols, planner.reaches db files x = true := by
    intro x hx
    simp [reaches, PlannedFiles.filePath_owned hof (mem_of_mem_build hx)]
  rw [List.mem_filter, PlannedFiles.mem_liveSymbols, mem_resolverSymbols hkeyed]
  constructor
  · rintro (⟨hs, hpath, hfound, hne⟩ | hnew)
    · exact ⟨.inl ⟨hs, hpath, hne⟩, by simp [reaches, hfound]⟩
    · exact ⟨.inr hnew, hfresh s hnew⟩
  · rintro ⟨⟨hs, hpath, hne⟩ | hnew, hreaches⟩
    · have howned : s.filePath ∉ files.owned := fun h => hpath (List.mem_append_left _ h)
      simp only [reaches, howned, decide_false, Bool.false_or] at hreaches
      exact .inl ⟨hs, hpath, hreaches, hne⟩
    · exact .inr hnew

/-! ## What the references name -/

/-- The text of a symbol is scanned for calls. -/
theorem mem_names_of_calledNames {newSymbols : List Symbol} (hs : s ∈ newSymbols) {name : List Char}
    (hname : name ∈ calledNames planner.unicode s) :
    String.ofList name ∈ (planner.collectReferences newSymbols).names := by
  unfold calledNames at hname
  rw [List.mem_dedup, List.mem_filter] at hname
  cases hbody : s.bodyExcerpt with
  | none =>
    rw [hbody] at hname
    cases hname.1
  | some body =>
    have htext : body ∈ s.texts := by simp [Symbol.texts, hbody]
    rw [hbody] at hname
    simp only [collectReferences, List.mem_flatMap, List.mem_append]
    exact ⟨s, hs, .inl (.inl (.inl ⟨body, htext, List.mem_map.2 ⟨name, hname.1, rfl⟩⟩))⟩

/-- The identifiers of the text of a type are taken for its bases. -/
theorem mem_names_of_bases (hword : ∀ c, Text.isIdentChar c = true → planner.unicode.isWord c = true)
    {newSymbols : List Symbol} (hs : s ∈ newSymbols)
    (hkind : (isOopLanguage s.language && isTypeKind s.kind) = true)
    {base : List Char × BaseKeyword} (hbase : base ∈ OopResolver.bases planner.unicode
      (Text.header ((s.bodyExcerpt <|> s.signature).getD "").toList) s.language) :
    String.ofList base.1 ∈ (planner.collectReferences newSymbols).names := by
  rw [Bool.and_comm] at hkind
  simp only [collectReferences, List.mem_flatMap, List.mem_append]
  refine ⟨s, hs, .inl (.inr ?_)⟩
  rw [if_pos hkind]
  exact List.mem_map.2 ⟨base.1, mem_idents_of_mem_bases hword hbase, rfl⟩

theorem finds_of_name {newSymbols : List Symbol} {name : List Char} (hname : s.name.toList = name)
    (h : String.ofList name ∈ (planner.collectReferences newSymbols).names) :
    planner.finds db newSymbols s = true := by
  rw [← hname, String.ofList_toList] at h
  simp [finds, h]

/-- **What the written files name** is reached. -/
theorem names_reached
    (hword : ∀ c, Text.isIdentChar c = true → planner.unicode.isWord c = true) :
    Names planner.unicode files.owned (files.liveSymbols db) (planner.reaches db files) where
  sources s _ hpath := by simp [reaches, hpath]
  calls s hs hpath callee _ hname := by
    have hfresh := PlannedFiles.mem_freshSymbols_of_owned hs hpath
    have hfinds : planner.finds db files.freshSymbols callee = true :=
      finds_of_name rfl (mem_names_of_calledNames hfresh hname)
    simp [reaches, hfinds]
  bases s hs hpath hkind base hbase dst _ hname := by
    have hfresh := PlannedFiles.mem_freshSymbols_of_owned hs hpath
    have hfinds : planner.finds db files.freshSymbols dst = true :=
      finds_of_name hname (mem_names_of_bases hword hfresh hkind hbase)
    simp [reaches, hfinds]

/-! ## The batch and the table after it -/

/-- The edges of a batch are those of the gathered symbols. -/
theorem buildBatch_edgeUpserts (reason : PublishReason) :
    (planner.buildBatch db reason files).edgeUpserts = sortOn Edge.key
      ((edgesFrom planner.unicode files.owned (planner.resolverSymbols db files)).map
        ResolvedEdge.toEdge) := by
  unfold buildBatch edgesFrom resolvedEdges
  dsimp only
  rw [List.filter_map]
  rfl

end ChangePlanner

/-- **The symbol table** that a planned batch leaves. -/
theorem published_symbols {tree : SourceTree} {request : PlanRequest String} {ext : VecExtension}
    {now : ℤ} {db' written : Database} {batch : PublishBatch} (hkeyed : Keyed Symbol.id db.symbols)
    (hfrom : files.From planner db tree request) (hplan : PlannedBatch db files batch)
    (hsorted : batch.symbolUpserts = sortOn Symbol.id files.freshSymbols)
    (hpub : Published ext now db batch written db') :
    db'.symbols.Perm (files.liveSymbols db) := by
  have hkeyed' : Keyed Symbol.id db'.symbols := by
    rw [hpub.symbols]
    exact (keyed_upsertAll hkeyed).filter _
  refine hkeyed'.perm (PlannedFiles.keyed_liveSymbols hkeyed) fun s => ?_
  have hpaths : ∀ path, path ∈ files.owned ++ files.deleted ↔ files.Covers path := by
    intro path
    rw [List.mem_append, PlannedFiles.mem_owned]
    rfl
  rw [hpub.mem_symbols, hsorted, PlannedFiles.mem_liveSymbols, hpaths, mem_build_sortOn,
    mem_deletedIds hfrom hplan]
  simp only [mem_sortOn, ← PlannedFiles.mem_freshSymbols]
  constructor
  · rintro ⟨⟨hs, hne⟩ | hnew, hkept⟩
    · refine .inl ⟨hs, fun hcovers => hkept ⟨⟨s, hs, rfl, hcovers⟩, fun new hnew => ?_⟩, hne⟩
      exact (hne new hnew).symm
    · exact .inr hnew
  · rintro (⟨hs, hpath, hne⟩ | hnew)
    · refine ⟨.inl ⟨hs, hne⟩, ?_⟩
      rintro ⟨⟨old, hold, hid, hcovers⟩, -⟩
      rw [hkeyed.eq hold hs hid] at hcovers
      exact hpath hcovers
    · refine ⟨.inr hnew, fun hdeleted => hdeleted.2 s (mem_of_mem_build hnew) rfl⟩

/-- **The bounded table gives the edges of the whole one** if and only if the lookups find what
    the rules need. -/
theorem bounded_eq_global_iff (planner : ChangePlanner) {db : Database} {files : PlannedFiles}
    (hkeyed : Keyed Symbol.id db.symbols) (hof : ∀ file ∈ files.changed, file.Of db)
    (hword : ∀ c, Text.isIdentChar c = true → planner.unicode.isWord c = true) :
    edgesFrom planner.unicode files.owned (planner.resolverSymbols db files) =
      edgesFrom planner.unicode files.owned (files.liveSymbols db) ↔
    Covered planner.unicode files.owned (files.liveSymbols db) (planner.reaches db files) ∧
      KeepsCap files.owned (files.liveSymbols db) (planner.reaches db files) := by
  have hlive : Keyed Symbol.id (files.liveSymbols db) := PlannedFiles.keyed_liveSymbols hkeyed
  have hnames : Names planner.unicode files.owned (files.liveSymbols db) (planner.reaches db files) :=
    ChangePlanner.names_reached hword
  rw [edgesFrom_perm ChangePlanner.keyed_resolverSymbols
      (ChangePlanner.resolverSymbols_perm hkeyed hof), edgesFrom_eq_iff,
    ← edgesFrom_supset_iff hlive hnames, ← edgesFrom_subset_iff hlive hnames]
  constructor
  · exact fun h => ⟨fun edge => (h edge).2, fun edge => (h edge).1⟩
  · exact fun h edge => ⟨h.2 edge, h.1 edge⟩

end

/-! ## A table of SQL -/

namespace LookupExample

open IntegrityExample (planner)

/-- A table of a schema. -/
def table (name : String) : Symbol :=
  { id := "sql:schema.sql:" ++ name ++ "@0", kind := .classDef, name, qualifiedName := name
    language := "sql", module := "schema", filePath := "schema.sql", lineStart := 1, lineEnd := 1
    contentHash := "0", bodyExcerpt := some ("CREATE TABLE " ++ name ++ " (id INT)") }

/-- The index of a schema. -/
def schema (name : String) : Database where
  symbols := [table name]
  fts := [(table name).ftsRow]

/-- A function that queries a table. -/
def query (name : String) : Symbol :=
  ruleFunction "load" ("return db.execute(\"SELECT id FROM " ++ name ++ "\")")

/-- The file of the function is new. -/
def files (name : String) : PlannedFiles where
  changed := [⟨⟨"app.py", "python", 64, "0", 0, .ok⟩, [query name], []⟩]
  deleted := []

theorem files_of (name : String) : ∀ file ∈ (files name).changed, file.Of (schema name) := by
  intro file hfile
  rw [List.mem_singleton.1 hfile]
  exact ⟨rfl, fun s hs => by rw [List.mem_singleton.1 hs]; rfl⟩

end LookupExample

open LookupExample in
theorem bounded_eq_global_iff_users :
    Covered IntegrityExample.planner.unicode (files "users").owned ((files "users").liveSymbols
        (schema "users")) (IntegrityExample.planner.reaches (schema "users") (files "users")) ∧
      KeepsCap (files "users").owned ((files "users").liveSymbols (schema "users"))
        (IntegrityExample.planner.reaches (schema "users") (files "users")) :=
  (bounded_eq_global_iff IntegrityExample.planner (by decide) (files_of "users") fun _ h => h).1
    (by decide +kernel)

/-- The property for every table and every set of files. -/
def BoundedIsGlobal : Prop :=
  ∀ (planner : ChangePlanner) (db : Database) (files : PlannedFiles), Keyed Symbol.id db.symbols →
    (∀ file ∈ files.changed, file.Of db) →
    (∀ c, Text.isIdentChar c = true → planner.unicode.isWord c = true) →
    edgesFrom planner.unicode files.owned (planner.resolverSymbols db files) =
      edgesFrom planner.unicode files.owned (files.liveSymbols db)

open LookupExample in
/-- The table is stored as `UserAccount` and looked up as `user_account`. -/
theorem not_boundedIsGlobal : ¬ BoundedIsGlobal := by
  intro h
  have hedges := h IntegrityExample.planner (schema "UserAccount") (files "UserAccount") (by decide)
    (files_of "UserAccount") fun _ hc => hc
  revert hedges
  decide +kernel

end Cognis
