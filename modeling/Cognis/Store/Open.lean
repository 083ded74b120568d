/-
  Opening a database (`open_new_connection` of `cognis-store`): the migrations, the heal of a
  `vec0` table that cannot be read, and the reset of a database of a newer engine, with a
  failure possible at every statement.

  * `openKeepsStates_iff`: the three passes keep the rows, or reset the database as a whole,
    exactly where a database of a newer engine has nothing in the tables of migration 002,
    and the probe for the extension does not decide over vectors that can be read.
-/
import Cognis.Lib.Script
import Mathlib.Data.Int.Notation
import Mathlib.Data.List.Basic
import Mathlib.Logic.Function.Basic

namespace Cognis

namespace Open

open Script Conn

/-! ## The database -/

/-- The tables whose rows the migrations leave alone. -/
inductive PlainTable where
  | symbol | edge | symbolAttribute | file | symbolFts
  | publishBatch | publishBatchFile | embeddingQueue | vectorSpace
  deriving DecidableEq, Repr

/-- The table is one of migration 002. -/
def PlainTable.isNew : PlainTable → Bool
  | .symbol | .edge | .symbolAttribute | .file | .symbolFts => false
  | .publishBatch | .publishBatchFile | .embeddingQueue | .vectorSpace => true

/-- A row of `generation`. -/
structure GenerationRow where
  id : ℤ
  sourceGeneration : ℤ
  semanticGeneration : ℤ
  updatedAt : ℤ
  deriving DecidableEq, Repr

/-- The shape of `symbol_vec`: the table of migration 001, or a `vec0` table with a column
    `FLOAT[width]`. -/
inductive VecShape where
  | blob
  | vec0 (width : Option ℕ)
  deriving DecidableEq, Repr

/-- `symbol_vec` -/
structure VecStore (Row : Type) where
  shape : VecShape
  rows : List Row
  deriving DecidableEq, Repr

/-- A database file; a table may be missing. -/
@[ext]
structure DbFile (Row : Type) where
  /-- `meta` -/
  metaRows : Option (List (String × String)) := none
  generation : Option (List GenerationRow) := none
  symbolVec : Option (VecStore Row) := none
  /-- the tables whose name starts with `symbol_vec_` -/
  shadowTables : List String := []
  plain : PlainTable → Option (List Row) := fun _ => none

variable {Row : Type}

namespace DbFile

/-- The rows of a table. -/
def rows (d : DbFile Row) (t : PlainTable) : List Row := (d.plain t).getD []

def generationRows (d : DbFile Row) : List GenerationRow := d.generation.getD []

/-- The vectors. -/
def vecRows (d : DbFile Row) : List Row := (d.symbolVec.map VecStore.rows).getD []

/-- `symbol_vec` is a `vec0` table. -/
def isVec0 (d : DbFile Row) : Bool := d.symbolVec.any fun v => v.shape ≠ .blob

end DbFile

/-! ## `meta` -/

/-- `str::parse::<i64>` -/
def parseI64 (s : String) : Option ℤ :=
  let digits (cs : List Char) : Option ℤ :=
    if cs ≠ [] ∧ cs.all Char.isDigit then some (Nat.ofDigitChars 10 cs 0) else none
  let value :=
    match s.toList with
    | '-' :: cs => (digits cs).map (- ·)
    | '+' :: cs => digits cs
    | cs => digits cs
  value.filter fun n => -9223372036854775808 ≤ n ∧ n ≤ 9223372036854775807

/-- `INSERT … ON CONFLICT(key) DO UPDATE` -/
def upsert (key value : String) : List (String × String) → List (String × String)
  | [] => [(key, value)]
  | r :: rows => if r.1 = key then (key, value) :: rows else r :: upsert key value rows

theorem lookup_upsert_self (key value : String) (rows : List (String × String)) :
    (upsert key value rows).lookup key = some value := by
  induction rows with
  | nil => simp [upsert]
  | cons r rows ih =>
    obtain ⟨k, v⟩ := r
    by_cases h : k = key
    · simp [upsert, h]
    · simp [upsert, h, List.lookup_cons, beq_false_of_ne (Ne.symm h), ih]

theorem lookup_upsert_of_ne {key key' : String} (h : key' ≠ key) (value : String)
    (rows : List (String × String)) : (upsert key value rows).lookup key' = rows.lookup key' := by
  induction rows with
  | nil => simp [upsert, beq_false_of_ne h]
  | cons r rows ih =>
    obtain ⟨k, v⟩ := r
    by_cases hk : k = key
    · subst hk
      simp [upsert, List.lookup_cons, beq_false_of_ne h]
    · simp [upsert, hk, List.lookup_cons, ih]

/-- The same value again changes nothing. -/
theorem upsert_upsert (key value : String) (rows : List (String × String)) :
    upsert key value (upsert key value rows) = upsert key value rows := by
  induction rows with
  | nil => simp [upsert]
  | cons r rows ih =>
    by_cases h : r.1 = key
    · simp [upsert, h]
    · simp [upsert, h, ih]

theorem filter_upsert (key value : String) (rows : List (String × String)) :
    (upsert key value rows).filter (·.1 ≠ key) = rows.filter (·.1 ≠ key) := by
  induction rows with
  | nil => simp [upsert]
  | cons r rows ih =>
    by_cases h : r.1 = key
    · simp [upsert, h]
    · simpa [upsert, h] using ih

/-- `env!("CARGO_PKG_VERSION")` -/
def engineVersion : String := "0.1.0"

/-- `LATEST_SCHEMA_VERSION` -/
def latestSchemaVersion : ℤ := 2

/-- `read_meta`; without the table there is no value. -/
def readMeta (key : String) : Script (DbFile Row) (Option String) :=
  query fun d => d.metaRows.bind fun rows => rows.lookup key

/-- `write_meta` -/
def writeMeta (key value : String) : Script (DbFile Row) Unit :=
  exec fun d => d.metaRows.map fun rows => ((), { d with metaRows := some (upsert key value rows) })

/-- The version that is read from `meta`. -/
def DbFile.schemaVersion (d : DbFile Row) : ℤ :=
  ((d.metaRows.bind fun rows => rows.lookup "schema_version").bind parseI64).getD 0

/-! ## Migrations -/

/-- The statements of the migrations, all of them `IF NOT EXISTS` or `OR IGNORE`. -/
inductive Statement where
  | createMeta
  | create (t : PlainTable)
  | createIndex (t : PlainTable)
  | createVec
  | createGeneration
  | seedGeneration
  deriving DecidableEq, Repr

/-- The row that migration 002 puts into `generation`. -/
def generationSeed : GenerationRow := ⟨1, 0, 0, 0⟩

/-- `INSERT OR IGNORE INTO generation` -/
def insertSeed (rows : List GenerationRow) : List GenerationRow :=
  if rows.any (·.id = 1) then rows else rows ++ [generationSeed]

namespace Statement

/-- The tables that a statement needs are there. -/
def ok (d : DbFile Row) : Statement → Bool
  | createIndex t => (d.plain t).isSome
  | seedGeneration => d.generation.isSome
  | createMeta | create _ | createVec | createGeneration => true

/-- The database after a statement. -/
def effect (d : DbFile Row) : Statement → DbFile Row
  | createMeta => { d with metaRows := some (d.metaRows.getD []) }
  | create t => { d with plain := Function.update d.plain t (some (d.rows t)) }
  | createIndex _ => d
  | createVec => { d with symbolVec := some (d.symbolVec.getD ⟨.blob, []⟩) }
  | createGeneration => { d with generation := some d.generationRows }
  | seedGeneration => { d with generation := d.generation.map insertSeed }

def run (s : Statement) : Script (DbFile Row) Unit :=
  exec fun d => if s.ok d then some ((), s.effect d) else none

end Statement

open Statement in
/-- `001_initial.sql` -/
def migration001 : List Statement :=
  [createMeta,
    create .symbol, createIndex .symbol, createIndex .symbol, createIndex .symbol,
    createIndex .symbol,
    create .edge, createIndex .edge, createIndex .edge,
    create .symbolAttribute, create .file, create .symbolFts, createVec]

open Statement in
/-- `002_generation_and_cache.sql` -/
def migration002 : List Statement :=
  [createGeneration, seedGeneration, create .publishBatch, create .publishBatchFile,
    create .embeddingQueue, createIndex .embeddingQueue, createIndex .embeddingQueue,
    create .vectorSpace, createIndex .symbol, createIndex .symbol, createIndex .file]

/-- `MIGRATIONS` -/
def migrations : List (ℤ × List Statement) := [(1, migration001), (2, migration002)]

/-- `execute_batch` -/
def executeBatch : List Statement → Script (DbFile Row) Unit
  | [] => pure ()
  | s :: rest => do
    s.run
    executeBatch rest

/-- The loop of `run_migrations`. -/
def migrateFrom (current : ℤ) : List (ℤ × List Statement) → ℤ → Script (DbFile Row) ℤ
  | [], applied => pure applied
  | (version, sql) :: rest, applied =>
    if version ≤ current then migrateFrom current rest applied
    else do
      executeBatch sql
      writeMeta "schema_version" (toString version)
      writeMeta "index_version" engineVersion
      migrateFrom current rest version

/-- `run_migrations` -/
def runMigrations : Script (DbFile Row) ℤ := do
  let current := ((← readMeta "schema_version").bind parseI64).getD 0
  migrateFrom current migrations current

/-! ## The heal -/

/-- The build: without the `vec0` extension, or with it, and perhaps with a path to another
    one in the environment. -/
inductive VecBuild where
  | without
  | embedded (envPath : Bool)
  deriving DecidableEq, Repr

/-- `vec0_table_present` -/
def vec0TablePresent : Script (DbFile Row) Bool := query DbFile.isVec0

/-- `try_load_vec_extension`: whether the probe answers. -/
def tryLoadVecExtension : VecBuild → Script (DbFile Row) Bool
  | .without => pure false
  | .embedded envPath => do
    match ← (query fun _ => ()).attempt with
    | some () => pure true
    | none =>
      if envPath then do
        let loaded ← (query fun _ => ()).attempt
        pure loaded.isSome
      else pure false

/-- The width of the vectors, where `symbol_vec` has one. -/
def DbFile.vecWidth (d : DbFile Row) : Option ℕ :=
  d.symbolVec.bind fun v =>
    match v.shape with
    | .blob => none
    | .vec0 width => width

/-- `vec_table_dim` -/
def vecTableDim : Script (DbFile Row) (Option ℕ) := query DbFile.vecWidth

/-- `DROP TABLE IF EXISTS symbol_vec`, which needs the module of a `vec0` table. -/
def dropVec (build : VecBuild) : Script (DbFile Row) Unit :=
  exec fun d =>
    if d.isVec0 then
      if build = .without then none else some ((), { d with symbolVec := none, shadowTables := [] })
    else some ((), { d with symbolVec := none })

/-- `DROP TABLE` of a shadow table, with which the rows of a `vec0` table go. -/
def dropShadow (name : String) : Script (DbFile Row) Unit :=
  update fun d => { d with
    shadowTables := d.shadowTables.erase name
    symbolVec := d.symbolVec.map fun v => if v.shape = .blob then v else ⟨v.shape, []⟩ }

/-- The loop over the shadow tables. -/
def dropShadows : List String → Script (DbFile Row) Unit
  | [] => pure ()
  | name :: names => do
    dropShadow name
    dropShadows names

/-- A statement that leaves the rows alone. -/
def pragma : Script (DbFile Row) Unit := query fun _ => ()

/-- `drop_symbol_vec_module_free` -/
def dropSymbolVecModuleFree : Script (DbFile Row) Unit := do
  let shadowTables ← query DbFile.shadowTables
  dropShadows shadowTables
  pragma
  update fun d => { d with symbolVec := none, shadowTables := [] }
  pragma
  pragma

/-- `CREATE TABLE symbol_vec` or `CREATE VIRTUAL TABLE symbol_vec`. -/
def createVec (build : VecBuild) (shape : VecShape) : Script (DbFile Row) Unit :=
  exec fun d =>
    if d.symbolVec.isSome || (shape ≠ .blob && build = .without) then none
    else some ((), { d with symbolVec := some ⟨shape, []⟩ })

/-- `vec0_table_present(conn)? && !try_load_vec_extension(conn)` -/
def vecModuleFree (build : VecBuild) : Script (DbFile Row) Bool := do
  if ← vec0TablePresent then do
    let loaded ← tryLoadVecExtension build
    pure !loaded
  else pure false

/-- Drop `symbol_vec`, without its module or with it. -/
def dropSymbolVec (build : VecBuild) (moduleFree : Bool) : Script (DbFile Row) Unit :=
  if moduleFree then dropSymbolVecModuleFree else dropVec build

/-- `recreate_vec_table` -/
def recreateVecTable (build : VecBuild) (isVec0 : Bool) (dim : ℕ) : Script (DbFile Row) Unit := do
  let moduleFree ← vecModuleFree build
  dropSymbolVec build moduleFree
  if isVec0 then do
    let _ ← (tryLoadVecExtension build : Script (DbFile Row) Bool)
    createVec build (.vec0 dim)
  else createVec build .blob

/-- `DEFAULT_EMBEDDING_DIM` -/
def defaultEmbeddingDim : ℕ := 384

/-- The width that the heal passes on: that of the table, or the recorded one. -/
def healDim : Script (Conn (DbFile Row)) ℕ := do
  match ← onView vecTableDim with
  | some dim => pure dim
  | none => do
    let recorded ← (onView (readMeta "embedding_dim")).attempt
    pure ((recorded.join.bind fun v => v.toNat?).getD defaultEmbeddingDim)

/-- `heal_legacy_vec0` -/
def healLegacyVec0 (build : VecBuild) : Script (Conn (DbFile Row)) Unit := do
  let isVec0 ← onView vec0TablePresent
  let vecExtOk ← onView (tryLoadVecExtension build)
  if isVec0 && !vecExtOk then do
    let dim ← healDim
    withWriteTxn (recreateVecTable build false dim)
  else pure ()

/-! ## The reset -/

/-- `DROP TABLE IF EXISTS` -/
def drop (t : PlainTable) : Script (DbFile Row) Unit :=
  update fun d => { d with plain := Function.update d.plain t none }

/-- `DROP TABLE IF EXISTS meta` -/
def dropMeta : Script (DbFile Row) Unit := update fun d => { d with metaRows := none }

/-- The body of `safe_index_reset`. -/
def resetTables (build : VecBuild) (moduleFree : Bool) : Script (DbFile Row) Unit := do
  dropSymbolVec build moduleFree
  drop .symbolFts
  drop .symbolAttribute
  drop .edge
  drop .file
  drop .symbol
  dropMeta
  let _ ← runMigrations
  pure ()

/-- `safe_index_reset` -/
def safeIndexReset (build : VecBuild) : Script (Conn (DbFile Row)) Unit := do
  let moduleFree ← onView (vecModuleFree build)
  withWriteTxn (resetTables build moduleFree)

/-- `reconcile_on_open` -/
def reconcileOnOpen (build : VecBuild) : Script (Conn (DbFile Row)) Unit := do
  let _ ← (onView (writeMeta "index_version" engineVersion)).attempt
  let onDiskSchema := ((← onView (readMeta "schema_version")).bind parseI64).getD 0
  if latestSchemaVersion < onDiskSchema then safeIndexReset build else pure ()

/-- `open_new_connection`; an error of the heal and of the reconciliation is logged. -/
def openNewConnection (build : VecBuild) : Script (Conn (DbFile Row)) Unit := do
  onView pragma
  onView pragma
  onView pragma
  onView pragma
  let _ ← onView runMigrations
  let _ ← (healLegacyVec0 build).attempt
  let _ ← (reconcileOnOpen build).attempt
  pure ()

/-! ## The migrations keep the rows -/

/-- The database with the stamps of a migration. -/
def DbFile.stamp (version : String) (d : DbFile Row) : DbFile Row :=
  { d with metaRows := d.metaRows.map fun rows =>
      upsert "index_version" engineVersion (upsert "schema_version" version rows) }

/-- `e` has the rows of `d`, and perhaps the first row of `generation`. -/
structure Extends (d e : DbFile Row) : Prop where
  rows : ∀ t, e.rows t = d.rows t
  generation : e.generationRows = d.generationRows ∨
    e.generationRows = insertSeed d.generationRows
  vecRows : e.vecRows = d.vecRows
  isVec0 : e.isVec0 = d.isVec0

theorem Extends.refl (d : DbFile Row) : Extends d d := ⟨fun _ => rfl, .inl rfl, rfl, rfl⟩

theorem insertSeed_insertSeed (rows : List GenerationRow) :
    insertSeed (insertSeed rows) = insertSeed rows := by
  by_cases h : rows.any (·.id = 1)
  · simp [insertSeed, h]
  · simp [insertSeed, h, generationSeed]

theorem Extends.withMeta {d e : DbFile Row} (h : Extends d e)
    (rows : Option (List (String × String))) : Extends d { e with metaRows := rows } :=
  ⟨h.rows, h.generation, h.vecRows, h.isVec0⟩

/-- **Step lemma**: one case for each kind of statement. -/
theorem Extends.effect {d e : DbFile Row} (h : Extends d e) (s : Statement) (hs : s.ok e) :
    Extends d (s.effect e) := by
  cases s with
  | createMeta => exact h.withMeta _
  | create t =>
    refine ⟨fun t' => ?_, h.generation, h.vecRows, h.isVec0⟩
    rw [← h.rows t']
    by_cases ht : t' = t
    · subst ht
      simp [Statement.effect, DbFile.rows]
    · simp [Statement.effect, DbFile.rows, ht]
  | createIndex t => exact h
  | createVec =>
    refine ⟨h.rows, h.generation, ?_, ?_⟩
    · rw [← h.vecRows]
      cases hvec : e.symbolVec <;> simp [Statement.effect, DbFile.vecRows, hvec]
    · rw [← h.isVec0]
      cases hvec : e.symbolVec <;> simp [Statement.effect, DbFile.isVec0, hvec]
  | createGeneration => exact ⟨h.rows, h.generation, h.vecRows, h.isVec0⟩
  | seedGeneration =>
    refine ⟨h.rows, .inr ?_, h.vecRows, h.isVec0⟩
    obtain ⟨rows, hrows⟩ := Option.isSome_iff_exists.1 (show e.generation.isSome from hs)
    have hgen := h.generation
    simp only [DbFile.generationRows, hrows, Option.getD_some] at hgen
    simp only [Statement.effect, DbFile.generationRows, hrows, Option.map_some, Option.getD_some]
    rcases hgen with hgen | hgen
    · rw [hgen]
    · rw [hgen, insertSeed_insertSeed]

/-- The statements find the tables that they need, one after another. -/
def okAll : List Statement → DbFile Row → Bool
  | [], _ => true
  | s :: stmts, d => s.ok d && okAll stmts (s.effect d)

/-- The statements of a batch are carried out one after another, as far as they go. -/
theorem ensures_executeBatch {d : DbFile Row} (stmts : List Statement) {e : DbFile Row}
    (h : Extends d e) :
    (executeBatch stmts).Ensures e
      (fun _ e' b => b = true ∧ Extends d e' ∧ okAll stmts e ∧ e' = stmts.foldl Statement.effect e)
      (Extends d) := by
  induction stmts generalizing e with
  | nil => simpa [executeBatch, okAll] using h
  | cons s stmts ih =>
    rw [executeBatch, ensures_bind, Statement.run, ensures_exec]
    refine ⟨h, fun _ e' hrun => ?_⟩
    by_cases hok : s.ok e
    · rw [if_pos hok] at hrun
      cases hrun
      simpa [okAll, hok] using ih (h.effect s hok)
    · rw [if_neg hok] at hrun
      cases hrun

theorem done_mem_executeBatch (stmts : List Statement) {d : DbFile Row} (h : okAll stmts d) :
    .done () (stmts.foldl Statement.effect d) true ∈ executeBatch stmts d := by
  induction stmts generalizing d with
  | nil => exact mem_pure () d
  | cons s stmts ih =>
    rw [okAll, Bool.and_eq_true] at h
    exact mem_bind (mem_exec (if_pos h.1)) (ih h.2) rfl

/-- A migration and its stamps. -/
theorem ensures_migration {α : Type} {d e : DbFile Row} (h : Extends d e) (stmts : List Statement)
    (version : String) {k : Script (DbFile Row) α} {Q : α → DbFile Row → Bool → Prop}
    {E : DbFile Row → Prop} (hE : ∀ e, Extends d e → E e)
    (hk : ∀ e', Extends d e' → okAll stmts e → e' = (stmts.foldl Statement.effect e).stamp version →
      k.Ensures e' Q E) :
    (do
      executeBatch stmts
      writeMeta "schema_version" version
      writeMeta "index_version" engineVersion
      k : Script (DbFile Row) α).Ensures e Q E := by
  rw [ensures_bind]
  refine (ensures_executeBatch stmts h).mono ?_ hE
  rintro _ e₁ _ ⟨rfl, h₁, hok, he₁⟩
  rw [ensures_bind, writeMeta, ensures_exec]
  refine ⟨hE _ h₁, fun _ e₂ hwrite => ?_⟩
  cases hrows : e₁.metaRows with
  | none => simp [hrows] at hwrite
  | some rows =>
    rw [hrows] at hwrite
    cases hwrite
    rw [ensures_bind, writeMeta, ensures_exec]
    refine ⟨hE _ (h₁.withMeta _), fun _ e₂ hwrite => ?_⟩
    cases hwrite
    simpa using hk _ (h₁.withMeta _) hok (by simp [DbFile.stamp, ← he₁, hrows])

/-- The database after the migrations. -/
def migrated (d : DbFile Row) : DbFile Row :=
  if d.schemaVersion < 1 then
    (migration002.foldl Statement.effect ((migration001.foldl Statement.effect d).stamp "1")).stamp "2"
  else if d.schemaVersion < 2 then (migration002.foldl Statement.effect d).stamp "2"
  else d

/-- A database of version 1 has the tables that migration 002 puts an index on. -/
def Migratable (d : DbFile Row) : Prop :=
  d.schemaVersion = 1 → (d.plain .symbol).isSome ∧ (d.plain .file).isSome

theorem okAll_migration002 (d : DbFile Row) :
    okAll migration002 d = ((d.plain .symbol).isSome && (d.plain .file).isSome) := by
  simp [okAll, migration002, Statement.ok, Statement.effect]

theorem ensures_runMigrations (d : DbFile Row) :
    (runMigrations : Script (DbFile Row) ℤ).Ensures d
      (fun _ e b => b = true ∧ Extends d e ∧ Migratable d ∧ e = migrated d)
      (fun e => Extends d e ∧ (2 ≤ d.schemaVersion → e = d)) := by
  rw [runMigrations, ensures_bind, readMeta, ensures_query]
  refine ⟨⟨.refl d, fun _ => rfl⟩, ?_⟩
  show (migrateFrom d.schemaVersion migrations d.schemaVersion).Ensures d _ _
  simp only [migrations, migrateFrom]
  by_cases h₁ : d.schemaVersion < 1
  · rw [if_neg (by omega), if_neg (by omega)]
    refine ensures_migration (.refl d) _ _ (fun e he => ⟨he, by omega⟩) fun e₁ h₁' _ he₁ => ?_
    refine ensures_migration h₁' _ _ (fun e he => ⟨he, by omega⟩) fun e₂ h₂ _ he₂ => ?_
    rw [ensures_pure]
    refine ⟨rfl, h₂, fun h => by omega, ?_⟩
    rw [migrated, if_pos h₁, he₂, he₁]
    rfl
  · rw [if_pos (by omega)]
    by_cases h₂ : d.schemaVersion < 2
    · rw [if_neg (by omega)]
      refine ensures_migration (.refl d) _ _ (fun e he => ⟨he, by omega⟩) fun e₁ h₁' hok he₁ => ?_
      rw [ensures_pure]
      refine ⟨rfl, h₁', fun _ => by simpa [okAll_migration002] using hok, ?_⟩
      rw [migrated, if_neg h₁, if_pos h₂, he₁]
      rfl
    · rw [if_pos (by omega), ensures_pure]
      exact ⟨rfl, .refl d, fun h => by omega, by rw [migrated, if_neg h₁, if_neg h₂]⟩

theorem done_mem_writeMeta {d : DbFile Row} {rows : List (String × String)}
    (h : d.metaRows = some rows) (key value : String) :
    .done () { d with metaRows := some (upsert key value rows) } true ∈ writeMeta key value d :=
  mem_exec (by simp [h])

theorem done_mem_migration {α : Type} {e : DbFile Row} {stmts : List Statement} {version : String}
    {k : Script (DbFile Row) α} {a : α} {e' : DbFile Row} (hok : okAll stmts e)
    (hmeta : (stmts.foldl Statement.effect e).metaRows.isSome)
    (hk : .done a e' true ∈ k ((stmts.foldl Statement.effect e).stamp version)) :
    .done a e' true ∈ (do
      executeBatch stmts
      writeMeta "schema_version" version
      writeMeta "index_version" engineVersion
      k : Script (DbFile Row) α) e := by
  obtain ⟨rows, hrows⟩ := Option.isSome_iff_exists.1 hmeta
  rw [DbFile.stamp, hrows] at hk
  have hschema := done_mem_writeMeta hrows "schema_version" version
  have hindex := done_mem_writeMeta (d := { (stmts.foldl Statement.effect e) with
    metaRows := some (upsert "schema_version" version rows) }) rfl "index_version" engineVersion
  exact mem_bind (done_mem_executeBatch stmts hok)
    (mem_bind hschema (mem_bind hindex hk rfl) rfl) rfl

theorem done_mem_runMigrations {d : DbFile Row} (h : Migratable d) :
    ∃ v, .done v (migrated d) true ∈ runMigrations d := by
  suffices hloop : ∃ v, .done v (migrated d) true ∈
      migrateFrom d.schemaVersion migrations d.schemaVersion d by
    obtain ⟨v, hv⟩ := hloop
    exact ⟨v, mem_bind (mem_query _ d) hv rfl⟩
  simp only [migrations, migrateFrom, migrated]
  by_cases h₁ : d.schemaVersion < 1
  · rw [if_neg (by omega), if_neg (by omega), if_pos h₁]
    have hok : okAll migration001 d := rfl
    exact ⟨2, done_mem_migration hok rfl (done_mem_migration rfl rfl (mem_pure _ _))⟩
  · rw [if_pos (by omega), if_neg h₁]
    by_cases h₂ : d.schemaVersion < 2
    · rw [if_neg (by omega), if_pos h₂]
      have hok : okAll migration002 d := by simpa [okAll_migration002] using h (by omega)
      refine ⟨2, done_mem_migration hok ?_ (mem_pure _ _)⟩
      -- a version is read from `meta`
      show d.metaRows.isSome
      cases hrows : d.metaRows with
      | none => simp [DbFile.schemaVersion, hrows] at h₁
      | some rows => rfl
    · rw [if_pos (by omega), if_neg h₂]
      exact ⟨_, mem_pure _ _⟩

/-! ## The heal and the reset -/

/-- `d` with another `symbol_vec`, and perhaps other shadow tables. -/
def DbFile.withVec (d : DbFile Row) (vec : Option (VecStore Row)) (shadows : List String) :
    DbFile Row := { d with symbolVec := vec, shadowTables := shadows }

/-- The probe never fails, and it answers rightly unless a statement fails. -/
theorem ensures_tryLoadVecExtension (build : VecBuild) (d : DbFile Row) :
    (tryLoadVecExtension build).Ensures d
      (fun loaded e b => e = d ∧ (loaded → build ≠ .without) ∧ (b → build ≠ .without → loaded))
      fun _ => False := by
  cases build with
  | without => simp [tryLoadVecExtension]
  | embedded envPath =>
    rw [tryLoadVecExtension, ensures_bind, ensures_attempt, ensures_query]
    cases envPath with
    | false => simp
    | true => simp [ensures_bind]

theorem ensures_dropShadows (d : DbFile Row) (names : List String) (vec : Option (VecStore Row))
    (shadows : List String) :
    (dropShadows names).Ensures (d.withVec vec shadows)
      (fun _ e b => b = true ∧ ∃ vec shadows, e = d.withVec vec shadows) fun _ => True := by
  induction names generalizing vec shadows with
  | nil => exact ensures_pure.2 ⟨rfl, vec, shadows, rfl⟩
  | cons name names ih =>
    rw [dropShadows, ensures_bind, dropShadow, ensures_update]
    refine ⟨trivial, ?_⟩
    simp only [Bool.true_and]
    exact ih _ _

theorem ensures_dropSymbolVecModuleFree (d : DbFile Row) :
    (dropSymbolVecModuleFree : Script (DbFile Row) Unit).Ensures d
      (fun _ e b => b = true ∧ ∃ shadows, e = d.withVec none shadows) fun _ => True := by
  rw [dropSymbolVecModuleFree, ensures_bind, ensures_query]
  refine ⟨trivial, ?_⟩
  rw [ensures_bind]
  refine (ensures_dropShadows d _ d.symbolVec d.shadowTables).mono ?_ fun _ _ => trivial
  rintro _ e _ ⟨rfl, vec, shadows, rfl⟩
  simp [pragma, ensures_bind, DbFile.withVec]

theorem ensures_dropVec (build : VecBuild) (d : DbFile Row) :
    (dropVec build).Ensures d (fun _ e b => b = true ∧ ∃ shadows, e = d.withVec none shadows)
      fun _ => True := by
  rw [dropVec, ensures_exec]
  refine ⟨trivial, fun _ e he => ⟨rfl, ?_⟩⟩
  split at he
  · split at he
    · cases he
    · cases he
      exact ⟨[], rfl⟩
  · cases he
    exact ⟨d.shadowTables, rfl⟩

theorem ensures_dropSymbolVec (build : VecBuild) (moduleFree : Bool) (d : DbFile Row) :
    (dropSymbolVec build moduleFree).Ensures d
      (fun _ e b => b = true ∧ ∃ shadows, e = d.withVec none shadows) fun _ => True := by
  cases moduleFree with
  | true => exact ensures_dropSymbolVecModuleFree d
  | false => exact ensures_dropVec build d

/-- The probes leave the database alone. -/
theorem ensures_vecModuleFree (build : VecBuild) (d : DbFile Row) :
    (vecModuleFree build).Ensures d (fun _ e _ => e = d) fun e => e = d := by
  rw [vecModuleFree, ensures_bind, vec0TablePresent, ensures_query]
  refine ⟨rfl, ?_⟩
  cases d.isVec0 with
  | false => simp
  | true =>
    rw [if_pos rfl, ensures_bind]
    refine (ensures_tryLoadVecExtension build d).mono ?_ fun _ h => h.elim
    rintro loaded e b ⟨rfl, -, -⟩
    simp

theorem ensures_recreateVecTable (build : VecBuild) (dim : ℕ) (d : DbFile Row) :
    (recreateVecTable build false dim).Ensures d
      (fun _ e _ => ∃ shadows, e = d.withVec (some ⟨.blob, []⟩) shadows) fun _ => True := by
  rw [recreateVecTable, ensures_bind]
  refine (ensures_vecModuleFree build d).mono ?_ fun _ _ => trivial
  rintro moduleFree _ _ rfl
  rw [ensures_bind]
  refine (ensures_dropSymbolVec build moduleFree _).mono ?_ fun _ _ => trivial
  rintro _ e _ ⟨-, shadows, rfl⟩
  rw [if_neg (by decide), createVec, ensures_exec]
  refine ⟨trivial, fun _ e he => ⟨shadows, ?_⟩⟩
  simpa [DbFile.withVec, eq_comm] using he

/-- The database after a reset: the tables of migration 002 are not among those that are
    dropped. -/
def resetOf (d : DbFile Row) (shadows : List String) : DbFile Row where
  metaRows := some [("schema_version", "2"), ("index_version", engineVersion)]
  generation := some (insertSeed d.generationRows)
  symbolVec := some ⟨.blob, []⟩
  shadowTables := shadows
  plain t := some (if t.isNew then d.rows t else [])

/-- The database between the drops and the migrations of a reset. -/
def dropped (d : DbFile Row) (shadows : List String) : DbFile Row :=
  { d with
    metaRows := none
    symbolVec := none
    shadowTables := shadows
    plain := fun t => if t.isNew then d.plain t else none }

theorem migrated_dropped (d : DbFile Row) (shadows : List String) :
    migrated (dropped d shadows) = resetOf d shadows := by
  have hversion : (dropped d shadows).schemaVersion < 1 := by
    show (0 : ℤ) < 1
    decide
  rw [migrated, if_pos hversion]
  refine DbFile.ext ?_ rfl rfl rfl (funext fun t => ?_)
  · simp [DbFile.stamp, Statement.effect, migration001, migration002, dropped, resetOf, upsert]
  · cases t <;> rfl

theorem ensures_resetTables (build : VecBuild) (moduleFree : Bool) (d : DbFile Row) :
    (resetTables build moduleFree).Ensures d (fun _ e _ => ∃ shadows, e = resetOf d shadows)
      fun _ => True := by
  rw [resetTables, ensures_bind]
  refine (ensures_dropSymbolVec build moduleFree d).mono ?_ fun _ _ => trivial
  rintro _ e _ ⟨-, shadows, rfl⟩
  simp only [drop, dropMeta, ensures_bind, ensures_update, true_and, ensures_pure]
  rw [show (DbFile.mk _ _ _ _ _) = dropped d shadows from ?_]
  · refine (ensures_runMigrations (dropped d shadows)).mono ?_ fun _ _ => trivial
    rintro _ e _ ⟨-, -, -, rfl⟩
    exact ⟨shadows, migrated_dropped d shadows⟩
  · refine DbFile.ext rfl rfl rfl rfl (funext fun t => ?_)
    cases t <;> rfl

/-! ## The open path -/

/-- The database with the stamp of the engine build. -/
def DbFile.stampIndex (d : DbFile Row) : DbFile Row :=
  { d with metaRows := d.metaRows.map (upsert "index_version" engineVersion) }

@[simp]
theorem schemaVersion_stampIndex (d : DbFile Row) : d.stampIndex.schemaVersion = d.schemaVersion := by
  cases h : d.metaRows with
  | none => simp [DbFile.schemaVersion, DbFile.stampIndex, h]
  | some rows =>
    simp [DbFile.schemaVersion, DbFile.stampIndex, h,
      lookup_upsert_of_ne (show "schema_version" ≠ "index_version" by decide)]

/-- What the heal leaves of `d`, `clean` telling that no statement has failed. -/
def HealsTo (build : VecBuild) (d : DbFile Row) (clean : Bool) (e : DbFile Row) : Prop :=
  (e = d ∧ (clean → d.isVec0 → build ≠ .without)) ∨
    (d.isVec0 ∧ ∃ shadows, e = d.withVec (some ⟨.blob, []⟩) shadows)

/-- What the stamp leaves of `d`. -/
def StampsTo (d : DbFile Row) (clean : Bool) (e : DbFile Row) : Prop :=
  e = d.stampIndex ∨ clean = false ∧ e = d

theorem ensures_healDim (c : Conn (DbFile Row)) :
    (healDim : Script (Conn (DbFile Row)) ℕ).Ensures c (fun _ c' _ => c' = c) (· = c) := by
  have hview : c.setView c.view = c := by
    obtain ⟨d, _ | p⟩ := c <;> rfl
  rw [healDim, ensures_bind, ensures_onView, vecTableDim, ensures_query, hview]
  refine ⟨rfl, ?_⟩
  split
  · simp
  · rw [ensures_bind, ensures_attempt, ensures_onView, readMeta, ensures_query, hview]
    simp

theorem ensures_healLegacyVec0 (build : VecBuild) (d : DbFile Row) :
    (healLegacyVec0 build).Ensures ⟨d, none⟩
      (fun _ c b => c.pending = none ∧ HealsTo build d b c.committed)
      fun c => c.committed = d := by
  rw [healLegacyVec0, ensures_bind, ensures_onView, vec0TablePresent, ensures_query]
  refine ⟨rfl, ?_⟩
  rw [ensures_bind, ensures_onView]
  refine (ensures_tryLoadVecExtension build d).mono ?_ fun _ h => h.elim
  rintro loaded d b ⟨rfl, hloaded, -⟩
  show Ensures (if (d.isVec0 && !loaded) = true then _ else _) _ _ _
  by_cases hbug : (d.isVec0 && !loaded) = true
  · rw [if_pos hbug, ensures_bind]
    rw [Bool.and_eq_true] at hbug
    refine (ensures_healDim _).mono ?_ (by rintro _ rfl; rfl)
    rintro dim _ b' rfl
    refine ensures_withWriteTxn (fun _ => rfl) fun _ => ?_
    refine (ensures_recreateVecTable build dim _).mono ?_ fun _ _ => trivial
    rintro _ e _ ⟨shadows, rfl⟩
    exact ⟨rfl, .inr ⟨hbug.1, shadows, rfl⟩⟩
  · rw [if_neg hbug, ensures_pure]
    refine ⟨rfl, .inl ⟨rfl, fun hb hvec => hloaded ?_⟩⟩
    simpa [hvec] using hbug

theorem ensures_onView_pending {α : Type} (m : Script (DbFile Row) α) (d p : DbFile Row) :
    (onView m).Ensures ⟨d, some p⟩ (fun _ c _ => ∃ p, c = ⟨d, some p⟩)
      fun c => ∃ p, c = ⟨d, some p⟩ := by
  rw [ensures_onView]
  intro x _
  cases x with
  | done a e b => exact ⟨e, rfl⟩
  | failed e => exact ⟨e, rfl⟩

/-- In a transaction that was left open, nothing is committed. -/
theorem ensures_reconcileOnOpen_pending (build : VecBuild) (d p : DbFile Row) :
    (reconcileOnOpen build).Ensures ⟨d, some p⟩ (fun _ c _ => c.committed = d)
      fun c => c.committed = d := by
  have hrest : ∀ c : Conn (DbFile Row), (∃ p, c = ⟨d, some p⟩) → (do
      let onDiskSchema := ((← onView (readMeta "schema_version")).bind parseI64).getD 0
      if latestSchemaVersion < onDiskSchema then safeIndexReset build else pure () :
        Script (Conn (DbFile Row)) Unit).Ensures c (fun _ c _ => c.committed = d)
          fun c => c.committed = d := by
    rintro _ ⟨p, rfl⟩
    rw [ensures_bind]
    refine (ensures_onView_pending _ d p).mono ?_ (by rintro _ ⟨p, rfl⟩; rfl)
    rintro value _ b ⟨p, rfl⟩
    by_cases hversion : latestSchemaVersion < (value.bind parseI64).getD 0
    · rw [if_pos hversion, safeIndexReset, ensures_bind]
      refine (ensures_onView_pending _ d p).mono ?_ (by rintro _ ⟨p, rfl⟩; rfl)
      rintro moduleFree _ b ⟨p, rfl⟩
      refine ensures_withWriteTxn (fun _ => rfl) fun h => ?_
      cases h
    · rw [if_neg hversion, ensures_pure]
  rw [reconcileOnOpen, ensures_bind, ensures_attempt]
  exact (ensures_onView_pending _ d p).mono (fun _ c _ => hrest c) fun c => hrest c

theorem ensures_reconcileOnOpen (build : VecBuild) (d : DbFile Row) :
    (reconcileOnOpen build).Ensures ⟨d, none⟩
      (fun _ c b => c.pending = none ∧
        (d.schemaVersion ≤ 2 ∧ StampsTo d b c.committed ∨
          2 < d.schemaVersion ∧ ∃ shadows, c.committed = resetOf d shadows))
      fun c => StampsTo d false c.committed := by
  have hrest : ∀ (e : DbFile Row) (clean : Bool), StampsTo d clean e →
      e.schemaVersion = d.schemaVersion → (∀ shadows, resetOf e shadows = resetOf d shadows) → (do
      let onDiskSchema := ((← onView (readMeta "schema_version")).bind parseI64).getD 0
      if latestSchemaVersion < onDiskSchema then safeIndexReset build else pure () :
        Script (Conn (DbFile Row)) Unit).Ensures ⟨e, none⟩
          (fun _ c b => c.pending = none ∧
            (d.schemaVersion ≤ 2 ∧ StampsTo d (clean && b) c.committed ∨
              2 < d.schemaVersion ∧ ∃ shadows, c.committed = resetOf d shadows))
          fun c => StampsTo d false c.committed := by
    intro e clean hstamp hversion hreset
    have hfailed : StampsTo d false e := hstamp.imp_right fun h => ⟨rfl, h.2⟩
    rw [ensures_bind, ensures_onView, readMeta, ensures_query]
    refine ⟨hfailed, ?_⟩
    show (if 2 < e.schemaVersion then safeIndexReset build else pure ()).Ensures ⟨e, none⟩ _ _
    by_cases hnew : 2 < e.schemaVersion
    · rw [if_pos hnew, safeIndexReset, ensures_bind, ensures_onView]
      refine (ensures_vecModuleFree build e).mono ?_ (by rintro _ rfl; exact hfailed)
      rintro moduleFree _ b rfl
      refine ensures_withWriteTxn (fun _ => hfailed) fun _ => ?_
      refine (ensures_resetTables build moduleFree _).mono ?_ fun _ _ => trivial
      rintro _ _ b' ⟨shadows, rfl⟩
      exact ⟨rfl, .inr ⟨hversion ▸ hnew, shadows, hreset shadows⟩⟩
    · rw [if_neg hnew, ensures_pure]
      refine ⟨rfl, .inl ⟨by omega, ?_⟩⟩
      simpa using hstamp
  rw [reconcileOnOpen, ensures_bind, ensures_attempt, ensures_onView, writeMeta, ensures_exec]
  refine ⟨by simpa using hrest d false (.inr ⟨rfl, rfl⟩) rfl fun _ => rfl, fun _ e he => ?_⟩
  cases hrows : d.metaRows with
  | none => simp [hrows] at he
  | some rows =>
    have he' : e = d.stampIndex := by
      simp only [view_mk_none, hrows, Option.map_some, Option.some.injEq, Prod.mk.injEq, true_and] at he
      rw [← he, DbFile.stampIndex, hrows]
      rfl
    subst he'
    simpa using hrest d.stampIndex true (.inl rfl) (schemaVersion_stampIndex d) fun _ => rfl

/-- What an open leaves of `d`, `clean` telling that it succeeds with no statement failing. -/
inductive Opens (build : VecBuild) (d : DbFile Row) : Bool → DbFile Row → Prop
  /-- the migrations fail, which do not run on a database of a newer engine -/
  | migrating {e} : Extends d e → (2 ≤ d.schemaVersion → e = d) → Opens build d false e
  | kept {m h e clean} : Migratable d → Extends d m → m = migrated d → HealsTo build m clean h →
      (h.schemaVersion ≤ 2 ∨ clean = false) → StampsTo h clean e → Opens build d clean e
  | reset {m h shadows clean} : Migratable d → Extends d m → m = migrated d →
      HealsTo build m clean h → 2 < h.schemaVersion → Opens build d clean (resetOf h shadows)

theorem HealsTo.mono {build : VecBuild} {d e : DbFile Row} {clean clean' : Bool}
    (h : HealsTo build d clean e) (hclean : clean' → clean) : HealsTo build d clean' e :=
  h.imp_left fun h => ⟨h.1, fun hc => h.2 (hclean hc)⟩

/-- The reconciliation after the heal. -/
theorem ensures_reconcile_attempt {build : VecBuild} {d m : DbFile Row} (hmig : Migratable d)
    (hext : Extends d m) (hm : m = migrated d) {c : Conn (DbFile Row)} {clean : Bool}
    (hheal : HealsTo build m clean c.committed) (hopen : clean → c.pending = none) :
    (reconcileOnOpen build).attempt.Ensures c
      (fun _ c b => Opens build d (clean && b) c.committed) fun _ => False := by
  obtain ⟨h, _ | p⟩ := c
  · rw [ensures_attempt]
    refine (ensures_reconcileOnOpen build h).mono ?_ fun c hc => ?_
    · rintro _ ⟨e, _⟩ b ⟨-, ⟨hversion, hstamp⟩ | ⟨hversion, shadows, he⟩⟩
      · have hheal : HealsTo build m (clean && b) h :=
          hheal.mono fun h => (Bool.and_eq_true _ _ ▸ h).1
        refine .kept hmig hext hm hheal (.inl hversion) (hstamp.imp_right fun h => ⟨?_, h.2⟩)
        rw [h.1, Bool.and_false]
      · rw [he]
        exact .reset hmig hext hm (hheal.mono fun h => (Bool.and_eq_true _ _ ▸ h).1) hversion
    · rw [Bool.and_false]
      exact .kept hmig hext hm (hheal.mono (by simp)) (.inr rfl) hc
  · -- a transaction is still open, so a statement has failed
    have hclean : clean = false := by
      cases clean with
      | true => exact absurd (hopen rfl) (by simp)
      | false => rfl
    subst hclean
    rw [ensures_attempt]
    exact (ensures_reconcileOnOpen_pending build h p).mono
      (fun _ c _ hc => .kept hmig hext hm hheal (.inr rfl) (.inr ⟨rfl, hc⟩))
      fun c hc => .kept hmig hext hm hheal (.inr rfl) (.inr ⟨rfl, hc⟩)

theorem ensures_openNewConnection (build : VecBuild) (d : DbFile Row) :
    (openNewConnection build).Ensures ⟨d, none⟩ (fun _ c b => Opens build d b c.committed)
      fun c => Opens build d false c.committed := by
  have hself : Opens build d false d := .migrating (.refl d) fun _ => rfl
  simp only [openNewConnection, pragma, ensures_bind, ensures_onView, ensures_query]
  refine ⟨hself, hself, hself, hself, ?_⟩
  refine (ensures_runMigrations d).mono ?_ fun e he => .migrating he.1 he.2
  rintro _ m _ ⟨rfl, hext, hmig, hm⟩
  rw [ensures_attempt]
  refine (ensures_healLegacyVec0 build m).mono ?_ ?_
  · rintro _ c b ⟨hpending, hheal⟩
    refine (ensures_reconcile_attempt hmig hext hm hheal fun _ => hpending).mono ?_ fun _ h => h.elim
    intro _ c b' hopens
    simpa using hopens
  · intro c hc
    have hheal : HealsTo build m false c.committed := .inl ⟨hc, by simp⟩
    refine (ensures_reconcile_attempt hmig hext hm hheal (by simp)).mono ?_ fun _ h => h.elim
    intro _ c b' hopens
    simpa using hopens

/-! ## States are not mixed -/

/-- `symbol_vec` is a `vec0` table that the build cannot read. -/
def Unreadable (build : VecBuild) (d : DbFile Row) : Prop := d.isVec0 ∧ build = .without

/-- The rows of `meta` but for the stamp of the engine build, which every open writes. -/
def DbFile.metaContents (d : DbFile Row) : List (String × String) :=
  (d.metaRows.getD []).filter (·.1 ≠ "index_version")

/-- The rows of `d` are there in `e`; a missing row of `generation` may have been put in. -/
structure Unchanged (build : VecBuild) (d e : DbFile Row) : Prop where
  rows : ∀ t, e.rows t = d.rows t
  generation : e.generationRows = d.generationRows ∨
    e.generationRows = insertSeed d.generationRows
  vectors : e.vecRows = d.vecRows ∨ Unreadable build d

/-- `e` holds the contents of `d`. -/
structure Former (build : VecBuild) (d e : DbFile Row) : Prop where
  rows : ∀ t, e.rows t = d.rows t
  generation : e.generationRows = d.generationRows
  vectors : e.vecRows = d.vecRows ∨ Unreadable build d
  metaRows : e.metaContents = d.metaContents

/-- A database that has been created, which is the reset of one without rows. -/
def fresh : DbFile Row := resetOf {} []

/-- `e` has the tables of a database that has been created. -/
structure IsFresh (e : DbFile Row) : Prop where
  metaRows : e.metaRows = (fresh : DbFile Row).metaRows
  generation : e.generation = (fresh : DbFile Row).generation
  symbolVec : e.symbolVec = (fresh : DbFile Row).symbolVec
  plain : e.plain = (fresh : DbFile Row).plain

/-- `e` has the rows of `d`. -/
structure SameRows (d e : DbFile Row) : Prop where
  rows : ∀ t, e.rows t = d.rows t
  generation : e.generationRows = d.generationRows
  vectors : e.vecRows = d.vecRows
  metaRows : e.metaRows = d.metaRows

/-- Opening `d` mixes no states, whichever statements fail. -/
structure KeepsStates (build : VecBuild) (d : DbFile Row) : Prop where
  current : d.schemaVersion ≤ latestSchemaVersion →
    ∀ x ∈ openNewConnection build ⟨d, none⟩, Unchanged build d x.state.committed
  newer : latestSchemaVersion < d.schemaVersion →
    ∀ x ∈ openNewConnection build ⟨d, none⟩,
      Former build d x.state.committed ∨ IsFresh x.state.committed
  /-- after an open in which nothing fails, another one changes nothing -/
  again : ∀ c, .done () c true ∈ openNewConnection build ⟨d, none⟩ →
    ∀ x ∈ openNewConnection build ⟨c.committed, none⟩, SameRows c.committed x.state.committed

/-- The tables of migration 002 are as in a database that has been created. -/
structure NewTablesFresh (d : DbFile Row) : Prop where
  generation : insertSeed d.generationRows = [generationSeed]
  rows : ∀ t : PlainTable, t.isNew → d.rows t = []

/-- The vectors can be read, and a failed probe for the extension takes them for others. -/
def AtRisk (build : VecBuild) (d : DbFile Row) : Prop :=
  d.isVec0 ∧ d.vecRows ≠ [] ∧ build ≠ .without ∧ Migratable d

theorem isFresh_resetOf_iff (d : DbFile Row) (shadows : List String) :
    IsFresh (resetOf d shadows) ↔ NewTablesFresh d := by
  have hgen : (resetOf d shadows).generation = (fresh : DbFile Row).generation ↔
      insertSeed d.generationRows = [generationSeed] := by
    show some _ = some [generationSeed] ↔ _
    rw [Option.some.injEq]
  have hplain : (resetOf d shadows).plain = (fresh : DbFile Row).plain ↔
      ∀ t : PlainTable, t.isNew → d.rows t = [] := by
    rw [funext_iff]
    refine forall_congr' fun t => ?_
    by_cases ht : t.isNew
    · have hempty : (({} : DbFile Row)).rows t = [] := rfl
      simp only [resetOf, fresh, ht, if_true, Option.some.injEq, hempty, true_imp_iff]
    · simp [resetOf, fresh, ht]
  exact ⟨fun h => ⟨hgen.1 h.generation, hplain.1 h.plain⟩,
    fun h => ⟨rfl, hgen.2 h.generation, rfl, hplain.2 h.rows⟩⟩

theorem schemaVersion_of_lookup {d : DbFile Row} {rows : List (String × String)} {version : String}
    {n : ℤ} (hrows : d.metaRows = some rows) (hlookup : rows.lookup "schema_version" = some version)
    (hparse : parseI64 version = some n) : d.schemaVersion = n := by
  simp [DbFile.schemaVersion, hrows, hlookup, hparse]

theorem parseI64_two : parseI64 "2" = some 2 := by decide

theorem schemaVersion_stamp {d : DbFile Row} (h : d.metaRows.isSome) :
    (d.stamp "2").schemaVersion = 2 := by
  obtain ⟨rows, hrows⟩ := Option.isSome_iff_exists.1 h
  refine schemaVersion_of_lookup (by rw [DbFile.stamp, hrows, Option.map_some]) ?_ parseI64_two
  rw [lookup_upsert_of_ne (by decide), lookup_upsert_self]

theorem schemaVersion_resetOf (d : DbFile Row) (shadows : List String) :
    (resetOf d shadows).schemaVersion = 2 := schemaVersion_of_lookup rfl rfl parseI64_two

theorem migrated_eq {d : DbFile Row} (h : 2 ≤ d.schemaVersion) : migrated d = d := by
  rw [migrated, if_neg (by omega), if_neg (by omega)]

theorem schemaVersion_migrated {d : DbFile Row} (h : d.schemaVersion < 2) :
    (migrated d).schemaVersion = 2 := by
  rw [migrated]
  by_cases h₁ : d.schemaVersion < 1
  · rw [if_pos h₁]
    exact schemaVersion_stamp rfl
  · rw [if_neg h₁, if_pos h]
    refine schemaVersion_stamp ?_
    show d.metaRows.isSome
    cases hrows : d.metaRows with
    | none => simp [DbFile.schemaVersion, hrows] at h₁
    | some rows => rfl

/-- The version is read from what every open leaves alone. -/
theorem schemaVersion_eq_of_metaContents {d e : DbFile Row} (h : e.metaContents = d.metaContents) :
    e.schemaVersion = d.schemaVersion := by
  have hlookup : ∀ rows : List (String × String),
      (rows.filter (·.1 ≠ "index_version")).lookup "schema_version" = rows.lookup "schema_version" := by
    intro rows
    induction rows with
    | nil => rfl
    | cons r rows ih =>
      obtain ⟨k, v⟩ := r
      by_cases hk : k = "index_version"
      · subst hk
        simpa [List.lookup_cons] using ih
      · simp only [List.filter_cons, hk, ne_eq, not_false_eq_true, decide_true, if_true,
          List.lookup_cons]
        rw [← ih]
  have hversion : ∀ d : DbFile Row, d.schemaVersion =
      ((d.metaContents.lookup "schema_version").bind parseI64).getD 0 := by
    intro d
    rw [DbFile.metaContents, hlookup, DbFile.schemaVersion]
    cases d.metaRows <;> rfl
  rw [hversion, hversion, h]

@[simp]
theorem schemaVersion_withVec (d : DbFile Row) (vec : Option (VecStore Row)) (shadows : List String) :
    (d.withVec vec shadows).schemaVersion = d.schemaVersion := rfl

theorem HealsTo.schemaVersion {build : VecBuild} {d e : DbFile Row} {clean : Bool}
    (h : HealsTo build d clean e) : e.schemaVersion = d.schemaVersion := by
  rcases h with ⟨rfl, -⟩ | ⟨-, shadows, rfl⟩
  · rfl
  · rfl

theorem StampsTo.schemaVersion {d e : DbFile Row} {clean : Bool} (h : StampsTo d clean e) :
    e.schemaVersion = d.schemaVersion := by
  rcases h with rfl | ⟨-, rfl⟩
  · exact schemaVersion_stampIndex d
  · rfl

/-- The heal and the stamp keep the rows, but for vectors that cannot be read. -/
theorem rows_of_heals {build : VecBuild} {d m h e : DbFile Row} {clean clean' : Bool}
    (hext : Extends d m) (hmig : Migratable d) (hrisk : ¬ AtRisk build d)
    (hheal : HealsTo build m clean h) (hstamp : StampsTo h clean' e) :
    (∀ t, e.rows t = m.rows t) ∧ e.generationRows = m.generationRows ∧
      (e.vecRows = d.vecRows ∨ Unreadable build d ∧ e.vecRows = []) := by
  have hrows : (∀ t, e.rows t = h.rows t) ∧ e.generationRows = h.generationRows ∧
      e.vecRows = h.vecRows := by
    rcases hstamp with rfl | ⟨-, rfl⟩
    · exact ⟨fun _ => rfl, rfl, rfl⟩
    · exact ⟨fun _ => rfl, rfl, rfl⟩
  rcases hheal with ⟨rfl, -⟩ | ⟨hvec, shadows, rfl⟩
  · exact ⟨hrows.1, hrows.2.1, .inl (hrows.2.2.trans hext.vecRows)⟩
  · refine ⟨hrows.1, hrows.2.1, ?_⟩
    have hvec : d.isVec0 := hext.isVec0 ▸ hvec
    by_cases hbuild : build = .without
    · exact .inr ⟨⟨hvec, hbuild⟩, hrows.2.2⟩
    · left
      by_contra hne
      exact hrisk ⟨hvec, fun hnil => hne (hrows.2.2.trans hnil.symm), hbuild, hmig⟩

theorem Opens.unchanged {build : VecBuild} {d e : DbFile Row} {clean : Bool}
    (h : Opens build d clean e) (hversion : d.schemaVersion ≤ 2) (hrisk : ¬ AtRisk build d) :
    Unchanged build d e := by
  cases h with
  | migrating hext _ => exact ⟨hext.rows, hext.generation, .inl hext.vecRows⟩
  | kept hmig hext _ hheal _ hstamp =>
    obtain ⟨hrows, hgen, hvec⟩ := rows_of_heals hext hmig hrisk hheal hstamp
    exact ⟨fun t => (hrows t).trans (hext.rows t), hgen ▸ hext.generation, hvec.imp_right (·.1)⟩
  | reset _ _ hm hheal hnewer =>
    -- the migrations end at the version of the engine
    rw [hheal.schemaVersion, hm] at hnewer
    by_cases h : d.schemaVersion < 2
    · rw [schemaVersion_migrated h] at hnewer
      omega
    · rw [migrated_eq (by omega)] at hnewer
      omega

theorem metaContents_of_heals {build : VecBuild} {m h e : DbFile Row} {clean clean' : Bool}
    (hheal : HealsTo build m clean h) (hstamp : StampsTo h clean' e) :
    e.metaContents = m.metaContents := by
  have hm : h.metaContents = m.metaContents := by
    rcases hheal with ⟨rfl, -⟩ | ⟨-, shadows, rfl⟩ <;> rfl
  rw [← hm]
  rcases hstamp with rfl | ⟨-, rfl⟩
  · cases hrows : h.metaRows with
    | none => simp [DbFile.metaContents, DbFile.stampIndex, hrows]
    | some rows => simpa [DbFile.metaContents, DbFile.stampIndex, hrows] using filter_upsert _ _ _
  · rfl

theorem Opens.former_or_isFresh {build : VecBuild} {d e : DbFile Row} {clean : Bool}
    (h : Opens build d clean e) (hversion : 2 < d.schemaVersion) (hnew : NewTablesFresh d)
    (hrisk : ¬ AtRisk build d) : Former build d e ∨ IsFresh e := by
  cases h with
  | migrating _ hself =>
    rw [hself (by omega)]
    exact .inl ⟨fun _ => rfl, rfl, .inl rfl, rfl⟩
  | kept hmig hext hm hheal _ hstamp =>
    rw [migrated_eq (by omega)] at hm
    obtain ⟨hrows, hgen, hvec⟩ := rows_of_heals hext hmig hrisk hheal hstamp
    subst hm
    exact .inl ⟨hrows, hgen, hvec.imp_right (·.1), metaContents_of_heals hheal hstamp⟩
  | reset hmig hext hm hheal _ =>
    rw [migrated_eq (by omega)] at hm
    obtain ⟨hrows, hgen, -⟩ := rows_of_heals hext hmig hrisk hheal (.inr ⟨rfl, rfl⟩)
    subst hm
    rw [isFresh_resetOf_iff]
    exact .inr ⟨hgen ▸ hnew.generation, fun t ht => (hrows t).trans (hnew.rows t ht)⟩

/-- Nothing is left to do for an open. -/
structure Settled (build : VecBuild) (d : DbFile Row) : Prop where
  version : d.schemaVersion = 2
  stamp : d.stampIndex = d
  vectors : d.isVec0 → d.vecRows = []

theorem stampIndex_stampIndex (d : DbFile Row) : d.stampIndex.stampIndex = d.stampIndex := by
  cases hrows : d.metaRows with
  | none => simp [DbFile.stampIndex, hrows]
  | some rows => simp [DbFile.stampIndex, hrows, upsert_upsert]

theorem stampIndex_resetOf (d : DbFile Row) (shadows : List String) :
    (resetOf d shadows).stampIndex = resetOf d shadows := by
  simp [DbFile.stampIndex, resetOf, upsert]

/-- An open in which no statement fails leaves nothing to do. -/
theorem Opens.settled {build : VecBuild} {d e : DbFile Row} (h : Opens build d true e)
    (hrisk : ¬ AtRisk build d) : Settled build e := by
  cases h with
  | kept hmig hext hm hheal hversion hstamp =>
    have hversion : _ ≤ (2 : ℤ) := hversion.resolve_right (by simp)
    refine ⟨?_, ?_, ?_⟩
    · rw [hstamp.schemaVersion, hheal.schemaVersion, hm]
      rw [hheal.schemaVersion, hm] at hversion
      by_cases h : d.schemaVersion < 2
      · exact schemaVersion_migrated h
      · rw [migrated_eq (by omega)] at hversion ⊢
        omega
    · rw [hstamp.resolve_right (by simp), stampIndex_stampIndex]
    · rw [hstamp.resolve_right (by simp)]
      intro hvec
      rcases hheal with ⟨rfl, hread⟩ | ⟨-, shadows, rfl⟩
      · by_contra hne
        refine hrisk ⟨hext.isVec0 ▸ hvec, fun hnil => hne ?_, hread rfl hvec, hmig⟩
        exact hext.vecRows.trans hnil
      · cases hvec
  | reset _ _ _ _ _ =>
    refine ⟨schemaVersion_resetOf _ _, stampIndex_resetOf _ _, fun hvec => ?_⟩
    cases hvec

theorem Settled.sameRows {build : VecBuild} {d e : DbFile Row} {clean : Bool}
    (hd : Settled build d) (h : Opens build d clean e) : SameRows d e := by
  have hversion := hd.version
  cases h with
  | migrating _ hself =>
    rw [hself (by omega)]
    exact ⟨fun _ => rfl, rfl, rfl, rfl⟩
  | kept hmig hext hm hheal _ hstamp =>
    rw [migrated_eq (by omega)] at hm
    subst hm
    have hrisk : ¬ AtRisk build _ := fun h => h.2.1 (hd.vectors h.1)
    obtain ⟨hrows, hgen, hvec⟩ := rows_of_heals hext hmig hrisk hheal hstamp
    refine ⟨hrows, hgen, ?_, ?_⟩
    · rcases hvec with hvec | ⟨hvec, hnil⟩
      · exact hvec
      · rw [hnil, hd.vectors hvec.1]
    · have hmeta := congrArg DbFile.metaRows hd.stamp
      rcases hheal with ⟨rfl, -⟩ | ⟨-, shadows, rfl⟩ <;> rcases hstamp with rfl | ⟨-, rfl⟩
      · exact hmeta
      · rfl
      · exact hmeta
      · rfl
  | reset _ _ hm hheal hnewer =>
    rw [hheal.schemaVersion, hm, migrated_eq (by omega)] at hnewer
    omega

/-! ## Runs that occur -/

theorem done_mem_dropSymbolVec {build : VecBuild} {moduleFree : Bool} {d : DbFile Row}
    (h : moduleFree = false → d.isVec0 → build ≠ .without) :
    ∃ shadows, .done () (d.withVec none shadows) true ∈ dropSymbolVec build moduleFree d := by
  cases moduleFree with
  | true =>
    have hshadows : ∀ (names : List String) vec shadows, ∃ vec' shadows',
        .done () (d.withVec vec' shadows') true ∈ dropShadows names (d.withVec vec shadows) := by
      intro names
      induction names with
      | nil => exact fun vec shadows => ⟨vec, shadows, mem_pure _ _⟩
      | cons name names ih =>
        intro vec shadows
        obtain ⟨vec', shadows', hmem⟩ := ih
          (vec.map fun v : VecStore Row => if v.shape = .blob then v else ⟨v.shape, []⟩)
          (shadows.erase name)
        exact ⟨vec', shadows', mem_bind (mem_update _ _) hmem rfl⟩
    obtain ⟨vec, shadows, hmem⟩ := hshadows d.shadowTables d.symbolVec d.shadowTables
    refine ⟨[], mem_bind (mem_query _ d) (mem_bind hmem ?_ rfl) rfl⟩
    exact mem_bind (mem_query _ _) (mem_bind (mem_update _ _)
      (mem_bind (mem_query _ _) (mem_query _ _) rfl) rfl) rfl
  | false =>
    by_cases hvec : d.isVec0
    · refine ⟨[], ?_⟩
      rw [dropSymbolVec, if_neg (by decide), dropVec]
      refine mem_exec ?_
      rw [if_pos hvec, if_neg (h rfl hvec)]
      rfl
    · refine ⟨d.shadowTables, ?_⟩
      rw [dropSymbolVec, if_neg (by decide), dropVec]
      refine mem_exec ?_
      rw [if_neg hvec]
      rfl

/-- The probes of a run in which no statement fails. -/
theorem done_mem_vecModuleFree (build : VecBuild) (d : DbFile Row) :
    ∃ moduleFree, .done moduleFree d true ∈ vecModuleFree build d ∧
      (moduleFree = false → d.isVec0 → build ≠ .without) := by
  cases hvec : d.isVec0 with
  | false =>
    refine ⟨false, mem_bind (mem_query _ d) ?_ rfl, by simp⟩
    rw [hvec]
    exact mem_pure _ _
  | true =>
    cases build with
    | without =>
      refine ⟨true, mem_bind (mem_query _ d) ?_ rfl, by simp⟩
      rw [hvec]
      exact mem_bind (mem_pure false d) (mem_pure _ _) rfl
    | embedded envPath =>
      refine ⟨false, mem_bind (mem_query _ d) ?_ rfl, by simp⟩
      rw [hvec]
      have hprobe : .done true d true ∈ tryLoadVecExtension (.embedded envPath) d :=
        mem_bind (mem_attempt (mem_query _ d)) (mem_pure true d) rfl
      exact mem_bind hprobe (mem_pure _ _) rfl

theorem done_mem_recreateVecTable (build : VecBuild) (dim : ℕ) (d : DbFile Row) :
    ∃ shadows, .done () (d.withVec (some ⟨.blob, []⟩) shadows) true ∈
      recreateVecTable build false dim d := by
  obtain ⟨moduleFree, hfree, hok⟩ := done_mem_vecModuleFree build d
  obtain ⟨shadows, hdrop⟩ := done_mem_dropSymbolVec hok
  have hcreate : .done () (d.withVec (some ⟨.blob, []⟩) shadows) true ∈
      createVec build .blob (d.withVec none shadows) := mem_exec rfl
  exact ⟨shadows, mem_bind hfree (mem_bind hdrop hcreate rfl) rfl⟩

theorem done_mem_resetTables (build : VecBuild) {moduleFree : Bool} {d : DbFile Row}
    (hok : moduleFree = false → d.isVec0 → build ≠ .without) :
    ∃ shadows, .done () (resetOf d shadows) true ∈ resetTables build moduleFree d := by
  obtain ⟨shadows, hdrop⟩ := done_mem_dropSymbolVec hok
  have hmigratable : Migratable (dropped d shadows) := fun h => absurd h (by
    rw [show (dropped d shadows).schemaVersion = 0 from rfl]; decide)
  obtain ⟨v, hmigrate⟩ := done_mem_runMigrations hmigratable
  rw [migrated_dropped] at hmigrate
  have hplain : dropped d shadows = { d.withVec none shadows with
      metaRows := none
      plain := Function.update (Function.update (Function.update (Function.update (Function.update
        d.plain .symbolFts none) .symbolAttribute none) .edge none) .file none) .symbol none } := by
    refine DbFile.ext rfl rfl rfl rfl (funext fun t => ?_)
    cases t <;> rfl
  rw [hplain] at hmigrate
  exact ⟨shadows, mem_bind hdrop (mem_bind (mem_update _ _) (mem_bind (mem_update _ _)
    (mem_bind (mem_update _ _) (mem_bind (mem_update _ _) (mem_bind (mem_update _ _)
      (mem_bind (mem_update _ _) (mem_bind hmigrate (mem_pure _ _) rfl) rfl) rfl) rfl) rfl) rfl)
        rfl) rfl⟩

/-- A run of the open path, by the runs of its parts. -/
theorem done_mem_openNewConnection {build : VecBuild} {d : DbFile Row} (hmig : Migratable d)
    {heal reconcile : Option Unit} {c c' : Conn (DbFile Row)} {b b' : Bool}
    (hheal : .done heal c b ∈ (healLegacyVec0 build).attempt ⟨migrated d, none⟩)
    (hreconcile : .done reconcile c' b' ∈ (reconcileOnOpen build).attempt c) :
    ∃ b, .done () c' b ∈ openNewConnection build ⟨d, none⟩ := by
  obtain ⟨v, hmigrate⟩ := done_mem_runMigrations hmig
  have hpragma : .done () (⟨d, none⟩ : Conn (DbFile Row)) true ∈ onView pragma ⟨d, none⟩ :=
    mem_onView (mem_query _ d)
  have hmigrate : .done v (⟨migrated d, none⟩ : Conn (DbFile Row)) true ∈
    onView runMigrations ⟨d, none⟩ := mem_onView (c := ⟨d, none⟩) hmigrate
  exact ⟨_, mem_bind hpragma (mem_bind hpragma (mem_bind hpragma (mem_bind hpragma
    (mem_bind hmigrate (mem_bind hheal (mem_bind hreconcile (mem_pure _ _) rfl) rfl) rfl)
      rfl) rfl) rfl) rfl⟩

/-- A database of a newer engine can be reset. -/
theorem exists_reset (build : VecBuild) {d : DbFile Row} (h : 2 < d.schemaVersion) :
    ∃ shadows b, .done () ⟨resetOf d shadows, none⟩ b ∈ openNewConnection build ⟨d, none⟩ := by
  -- the heal and the stamp fail at their first statement
  have hpresent : .failed (⟨d, none⟩ : Conn (DbFile Row)) ∈ onView vec0TablePresent ⟨d, none⟩ :=
    failed_mem_onView (c := ⟨d, none⟩) (failed_mem_query DbFile.isVec0 d)
  have hheal : .done none (⟨d, none⟩ : Conn (DbFile Row)) false ∈
      (healLegacyVec0 build).attempt ⟨migrated d, none⟩ := by
    rw [migrated_eq (Int.le_of_lt h)]
    exact mem_attempt_failed (failed_mem_bind hpresent _)
  have hstamp : .done none (⟨d, none⟩ : Conn (DbFile Row)) false ∈
      (onView (writeMeta "index_version" engineVersion)).attempt ⟨d, none⟩ :=
    mem_attempt_failed (failed_mem_onView (c := ⟨d, none⟩) (failed_mem_exec _ d))
  obtain ⟨moduleFree, hfree, hok⟩ := done_mem_vecModuleFree build d
  obtain ⟨shadows, hreset⟩ := done_mem_resetTables build hok
  have hreset : .done () (⟨resetOf d shadows, none⟩ : Conn (DbFile Row)) true ∈
      safeIndexReset build ⟨d, none⟩ :=
    mem_bind (mem_onView (c := ⟨d, none⟩) hfree) (mem_withWriteTxn hreset) rfl
  have hreconcile : .done () (⟨resetOf d shadows, none⟩ : Conn (DbFile Row)) false ∈
      reconcileOnOpen build ⟨d, none⟩ := by
    have hrest : .done () (⟨resetOf d shadows, none⟩ : Conn (DbFile Row)) true ∈
        (if 2 < d.schemaVersion then safeIndexReset build else pure ()) ⟨d, none⟩ := by
      rwa [if_pos h]
    exact mem_bind hstamp (mem_bind (mem_onView (c := ⟨d, none⟩) (mem_query _ d)) hrest rfl) rfl
  obtain ⟨b, hopen⟩ := done_mem_openNewConnection (fun h' => by omega) hheal
    (mem_attempt hreconcile)
  exact ⟨shadows, b, hopen⟩

/-- Vectors that can be read are lost when the probe for the extension fails. -/
theorem exists_heal {build : VecBuild} {d : DbFile Row} (h : AtRisk build d) :
    ∃ shadows b, .done () ⟨(migrated d).withVec (some ⟨.blob, []⟩) shadows, none⟩ b ∈
      openNewConnection build ⟨d, none⟩ := by
  obtain ⟨hvec, -, hbuild, hmig⟩ := h
  obtain ⟨v, hmigrate⟩ := done_mem_runMigrations hmig
  have hvec : (migrated d).isVec0 := (ensures_runMigrations d _ hmigrate).2.1.isVec0.trans hvec
  generalize hm : migrated d = m at hvec
  have hprobe : .done false m false ∈ tryLoadVecExtension build m := by
    have hfailed : .done none m false ∈ (query fun _ : DbFile Row => ()).attempt m :=
      mem_attempt_failed (failed_mem_exec _ m)
    cases build with
    | without => exact absurd rfl hbuild
    | embedded envPath =>
      cases envPath with
      | false => exact mem_bind hfailed (mem_pure _ _) rfl
      | true => exact mem_bind hfailed (mem_bind hfailed (mem_pure _ _) rfl) rfl
  have hdim : ∃ dim b, .done dim (⟨m, none⟩ : Conn (DbFile Row)) b ∈ healDim ⟨m, none⟩ := by
    have hwidth : .done m.vecWidth (⟨m, none⟩ : Conn (DbFile Row)) true ∈
      onView vecTableDim ⟨m, none⟩ := mem_onView (c := ⟨m, none⟩) (mem_query DbFile.vecWidth m)
    cases hdim : m.vecWidth with
    | some dim =>
      rw [hdim] at hwidth
      exact ⟨dim, _, mem_bind hwidth (mem_pure dim _) rfl⟩
    | none =>
      rw [hdim] at hwidth
      have hread : .done none (⟨m, none⟩ : Conn (DbFile Row)) false ∈
          (onView (readMeta "embedding_dim")).attempt ⟨m, none⟩ :=
        mem_attempt_failed (failed_mem_onView (c := ⟨m, none⟩) (failed_mem_query _ m))
      exact ⟨_, _, mem_bind hwidth (mem_bind hread (mem_pure _ _) rfl) rfl⟩
  obtain ⟨dim, b, hdim⟩ := hdim
  obtain ⟨shadows, hrecreate⟩ := done_mem_recreateVecTable build dim m
  have hheal : .done () (⟨m.withVec (some ⟨.blob, []⟩) shadows, none⟩ : Conn (DbFile Row)) false ∈
      healLegacyVec0 build ⟨m, none⟩ := by
    have hbody : .done () (⟨m.withVec (some ⟨.blob, []⟩) shadows, none⟩ : Conn (DbFile Row)) (b && true) ∈
        (if m.isVec0 && !false then do
          let dim ← healDim
          withWriteTxn (recreateVecTable build false dim)
        else pure () : Script (Conn (DbFile Row)) Unit) ⟨m, none⟩ := by
      rw [if_pos (by simp [hvec])]
      exact mem_bind hdim (mem_withWriteTxn hrecreate) rfl
    exact mem_bind (mem_onView (c := ⟨m, none⟩) (mem_query DbFile.isVec0 m))
      (mem_bind (mem_onView (c := ⟨m, none⟩) hprobe) hbody rfl) rfl
  -- the stamp and the reading of the version fail
  have hreconcile : ∀ d : DbFile Row, .failed (⟨d, none⟩ : Conn (DbFile Row)) ∈
      reconcileOnOpen build ⟨d, none⟩ := by
    intro d
    have hstamp : .done none (⟨d, none⟩ : Conn (DbFile Row)) false ∈
        (onView (writeMeta "index_version" engineVersion)).attempt ⟨d, none⟩ :=
      mem_attempt_failed (failed_mem_onView (c := ⟨d, none⟩) (failed_mem_exec _ d))
    have hread : .failed (⟨d, none⟩ : Conn (DbFile Row)) ∈
        onView (readMeta "schema_version") ⟨d, none⟩ :=
      failed_mem_onView (c := ⟨d, none⟩) (failed_mem_query _ d)
    exact failed_mem_bind_of_done hstamp (failed_mem_bind hread _)
  subst hm
  obtain ⟨b, hopen⟩ := done_mem_openNewConnection hmig (mem_attempt hheal)
    (mem_attempt_failed (hreconcile _))
  exact ⟨shadows, b, hopen⟩

/-! ## When states are not mixed -/

theorem mem_opens {build : VecBuild} {d : DbFile Row} {x : Ending (Conn (DbFile Row)) Unit}
    (hx : x ∈ openNewConnection build ⟨d, none⟩) : ∃ clean, Opens build d clean x.state.committed := by
  have hopens := ensures_openNewConnection build d x hx
  cases x with
  | done a c b => exact ⟨b, hopens⟩
  | failed c => exact ⟨false, hopens⟩

theorem KeepsStates.newTablesFresh {build : VecBuild} {d : DbFile Row} (h : KeepsStates build d)
    (hnewer : latestSchemaVersion < d.schemaVersion) : NewTablesFresh d := by
  obtain ⟨shadows, b, hopen⟩ := exists_reset build hnewer
  rcases h.newer hnewer _ hopen with hformer | hfresh
  · -- the version has changed
    have hversion : (resetOf d shadows).schemaVersion = d.schemaVersion :=
      schemaVersion_eq_of_metaContents hformer.metaRows
    rw [← hversion, schemaVersion_resetOf] at hnewer
    exact absurd hnewer (by decide)
  · exact (isFresh_resetOf_iff d shadows).1 hfresh

theorem KeepsStates.not_atRisk {build : VecBuild} {d : DbFile Row} (h : KeepsStates build d) :
    ¬ AtRisk build d := by
  intro hrisk
  obtain ⟨shadows, b, hopen⟩ := exists_heal hrisk
  obtain ⟨-, hne, hbuild, -⟩ := hrisk
  have hlost : ¬ ([] = d.vecRows ∨ Unreadable build d) := by
    rintro (hnil | ⟨-, hwithout⟩)
    · exact hne hnil.symm
    · exact hbuild hwithout
  by_cases hversion : d.schemaVersion ≤ 2
  · exact hlost (h.current hversion _ hopen).vectors
  · rcases h.newer (Int.not_le.1 hversion) _ hopen with hformer | hfresh
    · exact hlost hformer.vectors
    · have hmeta : (migrated d).metaRows = (fresh : DbFile Row).metaRows := hfresh.metaRows
      rw [migrated_eq (by omega)] at hmeta
      have hd : d.schemaVersion = 2 := schemaVersion_of_lookup hmeta rfl parseI64_two
      omega

/-- **Opening keeps states apart** exactly where a database of a newer engine has nothing in
    the tables of migration 002, and no probe decides over vectors that can be read. -/
theorem keepsStates_iff (build : VecBuild) (d : DbFile Row) :
    KeepsStates build d ↔
      (d.schemaVersion ≤ latestSchemaVersion ∨ NewTablesFresh d) ∧ ¬ AtRisk build d := by
  constructor
  · intro h
    refine ⟨?_, h.not_atRisk⟩
    by_cases hversion : d.schemaVersion ≤ latestSchemaVersion
    · exact .inl hversion
    · exact .inr (h.newTablesFresh (Int.not_le.1 hversion))
  · rintro ⟨hcond, hrisk⟩
    refine ⟨fun hversion x hx => ?_, fun hversion x hx => ?_, fun c hc x hx => ?_⟩
    · obtain ⟨clean, hopens⟩ := mem_opens hx
      exact hopens.unchanged hversion hrisk
    · obtain ⟨clean, hopens⟩ := mem_opens hx
      exact hopens.former_or_isFresh hversion (hcond.resolve_left (Int.not_le.2 hversion)) hrisk
    · have hsettled := (ensures_openNewConnection build d _ hc).settled hrisk
      obtain ⟨clean, hopens⟩ := mem_opens hx
      exact hsettled.sameRows hopens

/-- What is compared with is the database that the open path creates. -/
theorem opens_empty {build : VecBuild} {e : DbFile Row} (h : Opens build ({} : DbFile Row) true e) :
    e = fresh := by
  have hempty : dropped ({} : DbFile Row) [] = {} :=
    DbFile.ext rfl rfl rfl rfl (funext fun t => by cases t <;> rfl)
  have hmigrated : migrated ({} : DbFile Row) = fresh := hempty ▸ migrated_dropped {} []
  cases h with
  | kept _ _ hm hheal _ hstamp =>
    rw [hmigrated] at hm
    subst hm
    rw [hstamp.resolve_right (by simp)]
    rcases hheal with ⟨rfl, -⟩ | ⟨hvec, -⟩
    · exact stampIndex_resetOf _ _
    · cases hvec
  | reset _ _ hm hheal hnewer =>
    rw [hheal.schemaVersion, hm, hmigrated, fresh, schemaVersion_resetOf] at hnewer
    omega

/-- Opening mixes no states, whatever the database. -/
def OpenNeverMixes : Prop := ∀ build (d : DbFile ℕ), KeepsStates build d

/-- A database of version `3` with an entry in `embedding_queue`, which outlives the reset. -/
theorem not_openNeverMixes : ¬ OpenNeverMixes := by
  intro h
  have hnew := (h .without
    { metaRows := some [("schema_version", "3")]
      plain := fun t => if t = .embeddingQueue then some [7] else some [] }).newTablesFresh
    (by decide)
  exact absurd (hnew.rows .embeddingQueue rfl) (by decide)

end Open

end Cognis
