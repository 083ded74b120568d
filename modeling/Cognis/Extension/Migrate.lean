/-
  The migration of a repository's entries from the global MCP config into the one of its
  workspace (`mcpConfigMigrate.ts`), on files whose operations may fail and in a process that
  may crash.

  A write of a config file replaces it as a whole or not at all. A copy first cuts its target,
  which holds anything until the copy has ended.

  * `migrateGlobalEntryToWorkspace` is the program, `effect` what the files do;
  * `Atomic` is the property of the states of a run;
  * `Careful` and `CrashOutside` say of a step that it takes none of the ways in which entries
    are lost;
  * `keeps_rollback`, `keeps_writeDestination`, `keeps_removeSource`: what the parts do;
  * `migration_atomic`: a run of such steps is atomic;
  * `not_migration_atomic`: a repository at the home directory, whose two configs are one file.
-/
import Cognis.Extension.McpConfig
import Cognis.Lib.Crash

namespace Cognis.Extension.Migration

open Crash Transition

/-! ## Files -/

/-- `MigrationStep` -/
inductive MigrationStep where
  | planned | backedUp | wroteDestination | verifiedDestination | removedSource | verifiedSource
  deriving DecidableEq

/-- An operation on the files, or a point where a test may throw. -/
inductive FileOp (B : Type)
  | existsSync (path : ConfigPath)
  | readFileSync (path : ConfigPath)
  /-- the loop of `backupFile` that looks for a name -/
  | backupPath (path : ConfigPath) (timestamp : String)
  /-- `copyFileSync`, up to where the target is cut -/
  | copyStart (source target : ConfigPath)
  /-- the rest of it -/
  | copyEnd (source target : ConfigPath)
  /-- `writeJsonFile`: a temporary file that is renamed -/
  | writeJsonFile (path : ConfigPath) (payload : B)
  | rmSync (path : ConfigPath)
  | fault (step : MigrationStep)

def FileOp.Answer {B : Type} : FileOp B → Type
  | existsSync _ => Bool
  | readFileSync _ => Except String B
  | backupPath _ _ => ConfigPath
  | copyStart _ _ | copyEnd _ _ | writeJsonFile _ _ | rmSync _ | fault _ => Except String Unit

/-- What comes of an operation. -/
inductive Outcome (B : Type)
  | ok
  /-- the target of a copy is cut, and holds this -/
  | torn (contents : B)
  /-- the number of the name that is free -/
  | suffix (k : ℕ)
  | fails (message : String)

/-- The `k`-th name for the backup of a file. -/
def backupCandidate (path : ConfigPath) (timestamp : String) (k : ℕ) : ConfigPath where
  dir := path.dir
  base := path.base ++ "." ++ timestamp ++ (if k = 0 then "" else "." ++ toString k) ++ ".backup"

section
variable {B Dir : Type} [DecidableEq Dir] (sur : Surroundings B Dir)

/-- The answer of an operation and the files after it; none when it cannot have the outcome. -/
def effect (disk : Disk B Dir) : (op : FileOp B) → Outcome B → Option (op.Answer × Disk B Dir)
  | .existsSync p, .ok => some ((disk (sur.place p)).isSome, disk)
  | .readFileSync p, .ok => (disk (sur.place p)).map fun raw => (.ok raw, disk)
  | .readFileSync _, .fails e => some (.error e, disk)
  | .backupPath p timestamp, .suffix k =>
    let candidate := fun k => disk (sur.place (backupCandidate p timestamp k))
    if (candidate k).isNone ∧ ∀ j < k, (candidate j).isSome then
      some (backupCandidate p timestamp k, disk)
    else none
  | .copyStart source target, .torn contents =>
    if (disk (sur.place source)).isSome then
      some (.ok (), Function.update disk (sur.place target) (some contents))
    else none
  | .copyStart _ _, .fails e => some (.error e, disk)
  | .copyEnd source target, .ok =>
    (disk (sur.place source)).map fun contents =>
      (.ok (), Function.update disk (sur.place target) (some contents))
  | .copyEnd _ _, .fails e => some (.error e, disk)
  | .writeJsonFile p payload, .ok =>
    some (.ok (), Function.update disk (sur.place p) (some payload))
  | .writeJsonFile _ _, .fails e => some (.error e, disk)
  | .rmSync p, .ok => some (.ok (), Function.update disk (sur.place p) none)
  | .rmSync _, .fails e => some (.error e, disk)
  | .fault _, .ok => some (.ok (), disk)
  | .fault _, .fails e => some (.error e, disk)
  | _, _ => none

end

/-! ## The program -/

/-- A part of the migration. -/
abbrev FileProg (B ε α : Type) := Prog (FileOp.Answer (B := B)) ε α

/-- `MigrationPlan` -/
structure MigrationPlan where
  repoRoot : String
  host : String
  sourcePath : ConfigPath
  destinationPath : ConfigPath
  serverNames : List String
  canonicalServerName : String
  sourceExists : Bool
  destinationExists : Bool

/-- `willMoveEntry` -/
def MigrationPlan.willMoveEntry (plan : MigrationPlan) : Bool := !plan.serverNames.isEmpty

/-- `MigrationBackup` -/
structure MigrationBackup where
  originalPath : ConfigPath
  backupPath : ConfigPath

/-- `MigrationOutcome`, without the audit trail. -/
structure MigrationOutcome where
  ok : Bool := false
  dryRun : Bool
  plan : MigrationPlan
  backups : List MigrationBackup := []
  movedServerNames : List String := []
  wroteDestination : Bool := false
  removedFromSource : Bool := false
  rolledBack : Bool := false
  error : Option String := none

/-- `MigrateOptions`, with the timestamp of the backups. -/
structure MigrateOptions where
  host : String
  homeDir : String
  dryRun : Bool := false
  retainBackups : Bool := false
  timestamp : String

/-- The variables of a migration. -/
structure Progress where
  outcome : MigrationOutcome
  created : List ConfigPath := []
  /-- the last one first -/
  backupByOriginal : List (ConfigPath × ConfigPath) := []

/-- An error, with the variables where it is thrown. -/
abbrev Thrown := Progress × String

section
variable {B Dir ε : Type}

def existsSync (path : ConfigPath) : FileProg B ε Bool := .ask (.existsSync path) .done

def readJsonFile (text : JsonText B) (path : ConfigPath) : FileProg B String Json :=
  .ask (.existsSync path) fun
    | false => .done (.object [])
    | true => .ask (.readFileSync path) fun
      | .error e => .fail e
      | .ok raw =>
        if text.isBlank raw then .done (.object [])
        else
          match text.parse raw with
          | some cfg => .done cfg
          | none => .fail "Unexpected token in JSON"

/-- The names of the entries to move. -/
def matchingNames (sur : Surroundings B Dir) (repoRoot canonicalServerName : String)
    (sourcePath : ConfigPath) : FileProg B String (List String) := do
  let cfg ← readJsonFile sur.text sourcePath
  let servers ← Prog.ofExcept (toServerMap cfg)
  Prog.ofExcept (findRepoCognisEntries sur.path servers repoRoot canonicalServerName)

/-- `planGlobalEntryToWorkspaceMigration` -/
def planMigration (sur : Surroundings B Dir) (repoRoot : String) (options : MigrateOptions) :
    FileProg B String MigrationPlan :=
  let sourcePath :=
    getGlobalMcpConfigPath sur.path sur.platform sur.appData options.host options.homeDir
  match getWorkspaceMcpConfigPath sur.path repoRoot options.host with
  | none => .fail ("MCP host \"" ++ options.host ++
      "\" has no workspace-scoped config path; cannot migrate to workspace scope")
  | some destinationPath => do
    let canonicalServerName := deriveMcpServerName sur.path repoRoot
    let sourceExists ← existsSync sourcePath
    let destinationExists ← existsSync destinationPath
    let serverNames ←
      if sourceExists then matchingNames sur repoRoot canonicalServerName sourcePath else pure []
    return { repoRoot, host := options.host, sourcePath, destinationPath, serverNames,
             canonicalServerName, sourceExists, destinationExists }

/-- A part that throws with the variables as they are. -/
def attempt {α : Type} (r : Progress) (p : FileProg B String α) : FileProg B Thrown α :=
  p.mapError fun e => (r, e)

/-- `fault` -/
def fault (r : Progress) (step : MigrationStep) : FileProg B Thrown Unit :=
  attempt r (.ask (.fault step) Prog.ofExcept)

def copyFileSync (source target : ConfigPath) : FileProg B String Unit :=
  .ask (.copyStart source target) fun
    | .error e => .fail e
    | .ok () => .ask (.copyEnd source target) Prog.ofExcept

def backupFile (path : ConfigPath) (timestamp : String) : FileProg B String MigrationBackup :=
  .ask (.backupPath path timestamp) fun backupPath =>
    copyFileSync path backupPath >>= fun _ => .done ⟨path, backupPath⟩

/-- The backup of a file that exists. -/
def backUp (timestamp : String) (path : ConfigPath) (r : Progress) :
    FileProg B Thrown Progress :=
  existsSync path >>= fun
    | true => attempt r (backupFile path timestamp) >>= fun backup => .done
      { r with
        outcome := { r.outcome with backups := r.outcome.backups ++ [backup] }
        backupByOriginal := (path, backup.backupPath) :: r.backupByOriginal }
    | false => .done r

/-- Steps 3 and 4; it returns the document of the source and its entries. -/
def writeDestination (text : JsonText B) (plan : MigrationPlan) (r : Progress) :
    FileProg B Thrown (Progress × Json × Json) := do
  let sourceCfg ← attempt r (readJsonFile text plan.sourcePath)
  let sourceServers ← attempt r (Prog.ofExcept (toServerMap sourceCfg))
  let destExistedBefore ← existsSync plan.destinationPath
  let destCfg ← attempt r (readJsonFile text plan.destinationPath)
  let destServers ← attempt r (Prog.ofExcept (toServerMap destCfg))
  let destServers ←
    attempt r (Prog.ofExcept (mergeServers sourceServers plan.serverNames destServers))
  let destCfg ← attempt r (Prog.ofExcept (withServers destCfg destServers))
  let r := if destExistedBefore then r
    else { r with created := r.created ++ [plan.destinationPath] }
  attempt r (.ask (.writeJsonFile plan.destinationPath (text.stringify destCfg)) Prog.ofExcept)
  return ({ r with outcome := { r.outcome with
              wroteDestination := true
              movedServerNames := plan.serverNames } }, sourceCfg, sourceServers)

/-- The check of an entry in the destination. -/
def verifyEntry (path : NodePath) (plan : MigrationPlan) (servers : Json) (name : String) :
    Except String Unit :=
  let block := (servers.get name).getD .null
  let env := envOrEmpty block
  if !truthy block then
    .error ("destination verification failed: " ++ name ++ " missing from " ++
      path.join [plan.destinationPath.dir, plan.destinationPath.base])
  else if truthy ((env.get "COGNIS_DB_PATH").getD .null) then do
    if ← envMatchesRepo path plan.repoRoot env then return
    else .error ("destination verification failed: " ++ name ++ " env does not match repo " ++
      plan.repoRoot)
  else .ok ()

/-- The loop over the names. -/
def verifyEntries (path : NodePath) (plan : MigrationPlan) (servers : Json) :
    List String → Except String Unit
  | [] => .ok ()
  | name :: names => do
    verifyEntry path plan servers name
    verifyEntries path plan servers names

/-- Step 5. -/
def verifyDestination (sur : Surroundings B Dir) (plan : MigrationPlan) (r : Progress) :
    FileProg B Thrown Unit := do
  let verifyCfg ← attempt r (readJsonFile sur.text plan.destinationPath)
  let verifyServers ← attempt r (Prog.ofExcept (toServerMap verifyCfg))
  attempt r (Prog.ofExcept (verifyEntries sur.path plan verifyServers plan.serverNames))

/-- Step 6, up to the write of the source. -/
def removeSource (text : JsonText B) (plan : MigrationPlan) (r : Progress)
    (sourceCfg sourceServers : Json) : FileProg B Thrown Progress := do
  let removedAny := plan.serverNames.any fun name => (sourceServers.get name).isSome
  let sourceCfg ← attempt r
    (Prog.ofExcept (withServers sourceCfg (removeServers plan.serverNames sourceServers)))
  attempt r (.ask (.writeJsonFile plan.sourcePath (text.stringify sourceCfg)) Prog.ofExcept)
  return { r with outcome := { r.outcome with removedFromSource := removedAny } }

/-- The check of the source. -/
def verifySource (sur : Surroundings B Dir) (plan : MigrationPlan) (r : Progress) :
    FileProg B Thrown Unit := do
  let cfg ← attempt r (readJsonFile sur.text plan.sourcePath)
  let sourceVerify ← attempt r (Prog.ofExcept (toServerMap cfg))
  match plan.serverNames.find? fun name => (sourceVerify.get name).isSome with
  | some name => .fail (r, "source verification failed: " ++ name ++ " still present in " ++
      sur.path.join [plan.sourcePath.dir, plan.sourcePath.base])
  | none => return

/-- The removal of a file, best effort. -/
def tryRemove (path : ConfigPath) : FileProg B ε Unit := .ask (.rmSync path) fun _ => .done ()

/-- The removal of the backups. -/
def dropBackups : List MigrationBackup → FileProg B ε Unit
  | [] => .done ()
  | backup :: backups => tryRemove backup.backupPath >>= fun _ => dropBackups backups

/-- The body of the `try`. -/
def migrateBody (sur : Surroundings B Dir) (options : MigrateOptions) (plan : MigrationPlan)
    (r : Progress) : FileProg B Thrown MigrationOutcome := do
  fault r .planned
  let r ← backUp options.timestamp plan.sourcePath r
  let r ← backUp options.timestamp plan.destinationPath r
  fault r .backedUp
  let (r, sourceCfg, sourceServers) ← writeDestination sur.text plan r
  fault r .wroteDestination
  verifyDestination sur plan r
  fault r .verifiedDestination
  let r ← removeSource sur.text plan r sourceCfg sourceServers
  fault r .removedSource
  verifySource sur plan r
  fault r .verifiedSource
  if options.retainBackups then return { r.outcome with ok := true }
  else do
    dropBackups r.outcome.backups
    return { r.outcome with backups := [], ok := true }

/-- The part of `rollback` for one file. -/
def restore (r : Progress) (original : ConfigPath) : FileProg B ε Unit :=
  match r.backupByOriginal.lookup original with
  | some backup => (copyFileSync backup original).tryCatch fun _ => .done ()
  | none => if original ∈ r.created then tryRemove original else .done ()

/-- The handler: `rollback`, and the outcome. -/
def rollback (plan : MigrationPlan) (thrown : Thrown) : FileProg B ε MigrationOutcome := do
  restore thrown.1 plan.destinationPath
  restore thrown.1 plan.sourcePath
  return { thrown.1.outcome with error := some thrown.2, rolledBack := true }

/-- `migrateGlobalEntryToWorkspace`; `inProgress` tells whether the lock is taken. -/
def migrateGlobalEntryToWorkspace (sur : Surroundings B Dir) (repoRoot : String)
    (options : MigrateOptions) (inProgress : Bool) : FileProg B String MigrationOutcome := do
  let plan ← planMigration sur repoRoot options
  let outcome : MigrationOutcome := { dryRun := options.dryRun, plan }
  if options.dryRun then return { outcome with ok := true }
  else if !plan.willMoveEntry then return { outcome with ok := true }
  else if inProgress then
    return { outcome with error := some "a migration for these config files is already in progress" }
  else (migrateBody sur options plan { outcome }).tryCatch (rollback plan)

end

/-! ## Atomicity -/

/-- A call of the migration. -/
structure Call (B Dir : Type) where
  sur : Surroundings B Dir
  repoRoot : String
  options : MigrateOptions

namespace Call

variable {B Dir : Type} (c : Call B Dir)

/-- `plan.sourcePath` -/
def sourcePath : ConfigPath :=
  getGlobalMcpConfigPath c.sur.path c.sur.platform c.sur.appData c.options.host c.options.homeDir

/-- `plan.destinationPath`, where the host has one. -/
def destinationPath : ConfigPath :=
  (getWorkspaceMcpConfigPath c.sur.path c.repoRoot c.options.host).getD c.sourcePath

def source : Location Dir := c.sur.place c.sourcePath

def destination : Location Dir := c.sur.place c.destinationPath

/-- The document of a file: what `readJsonFile` returns. -/
def docAt (disk : Disk B Dir) (l : Location Dir) : Option Json := c.sur.docAt disk l

/-- An entry of the document of a file. -/
def serverAt (disk : Disk B Dir) (l : Location Dir) (name : String) : Option Json :=
  (c.docAt disk l).bind (serverOf · name)

/-- A top-level key of the document of a file. -/
def topLevelAt (disk : Disk B Dir) (l : Location Dir) (key : String) : Option Json :=
  (c.docAt disk l).bind (·.get key)

/-- The entries of the source that belong to the repository. -/
def matched (disk : Disk B Dir) : List (String × Json) :=
  match (c.docAt disk c.source).bind (·.get "mcpServers") with
  | some (.object entries) =>
    entries.filter (isMatch c.sur.path c.repoRoot (deriveMcpServerName c.sur.path c.repoRoot))
  | _ => []

/-- Neither config is changed. -/
def Unchanged (before after : Disk B Dir) : Prop :=
  after c.source = before c.source ∧ after c.destination = before c.destination

/-- The matched entries are in the destination and have left the source, if that is another file;
    all else is as it was. -/
structure Moved (before after : Disk B Dir) : Prop where
  moved : ∀ e ∈ c.matched before, c.serverAt after c.destination e.1 = some e.2
  removed : c.source ≠ c.destination → ∀ e ∈ c.matched before, c.serverAt after c.source e.1 = none
  others : ∀ name ∉ (c.matched before).map Prod.fst,
    c.serverAt after c.destination name = c.serverAt before c.destination name ∧
      c.serverAt after c.source name = c.serverAt before c.source name
  keys : ∀ key, key ≠ "mcpServers" →
    c.topLevelAt after c.destination key = c.topLevelAt before c.destination key ∧
      c.topLevelAt after c.source key = c.topLevelAt before c.source key

/-- Each matched entry is in a config. -/
def Kept (before after : Disk B Dir) : Prop :=
  ∀ e ∈ c.matched before,
    c.serverAt after c.source e.1 = some e.2 ∨ c.serverAt after c.destination e.1 = some e.2

/-- The process that runs the migration. -/
abbrev Process (B Dir : Type) :=
  Machine (FileOp.Answer (B := B)) String MigrationOutcome (Disk B Dir) (Outcome B)

/-- An operation of the rollback. -/
def Restores : FileOp B → Prop
  | .copyStart _ target | .copyEnd _ target | .rmSync target =>
    target = c.sourcePath ∨ target = c.destinationPath
  | _ => False

/-- The write of a config. -/
def IsWrite : FileOp B → Prop
  | .writeJsonFile _ _ => True
  | _ => False

/-- The operations of the rollback do not fail, and a second config is written only where it is
    another file than the first. -/
structure Careful (_ : Disk B Dir) (log : List (FileOp B × Outcome B)) (op : FileOp B)
    (outcome : Outcome B) : Prop where
  restores : c.Restores op → ∀ message, outcome ≠ .fails message
  writes : IsWrite op → outcome = .ok → (∃ done ∈ log, IsWrite done.1) → c.source ≠ c.destination

/-- The process does not crash after the rollback has begun, while the source is not what it
    was. -/
def CrashOutside (before disk : Disk B Dir) (log : List (FileOp B × Outcome B)) : Prop :=
  (∃ done ∈ log, c.Restores done.1) → disk c.source = before c.source

/-- The step takes none of the ways in which entries are lost. -/
def Safe (before : Disk B Dir) (m : Process B Dir) (label : Label (Outcome B)) : Prop :=
  Meets c.Careful (c.CrashOutside before) m label

variable [DecidableEq Dir]

/-- The migration before its first operation. -/
def start (disk : Disk B Dir) (inProgress : Bool) : Process B Dir where
  disk := disk
  rest := migrateGlobalEntryToWorkspace c.sur c.repoRoot c.options inProgress

/-- **Atomicity**, of a state that a migration of the files `before` has reached. -/
structure Atomic (before : Disk B Dir) (m : Process B Dir) : Prop where
  success : ∀ outcome, m.crashed = false → m.rest = .done outcome → outcome.ok = true →
    c.options.dryRun = false → c.Moved before m.disk
  /-- a second run changes nothing -/
  again : ∀ outcome, m.crashed = false → m.rest = .done outcome → outcome.ok = true →
    c.options.dryRun = false → ∀ (inProgress : Bool) (labels : List (Label (Outcome B)))
      (m' : Process B Dir),
        exec (step (effect c.sur)) (c.start m.disk inProgress) labels = some m' → m'.disk = m.disk
  failure : ∀ outcome, m.crashed = false → m.rest = .done outcome → outcome.ok = false →
    c.Unchanged before m.disk
  /-- an error of the planning is not caught -/
  error : ∀ e, m.crashed = false → m.rest = .fail e → c.Unchanged before m.disk
  crash : m.crashed = true → c.Kept before m.disk

end Call

/-! ## Operations -/

section
variable {B Dir : Type} [DecidableEq Dir] {sur : Surroundings B Dir} {disk disk' : Disk B Dir}
  {o : Outcome B}

theorem effect_existsSync {p : ConfigPath} {a : Bool}
    (h : effect sur disk (.existsSync p) o = some (a, disk')) :
    a = (disk (sur.place p)).isSome ∧ disk' = disk := by
  cases o with
  | ok =>
    obtain ⟨rfl, rfl⟩ := Prod.mk.inj (Option.some.inj h)
    exact ⟨rfl, rfl⟩
  | _ => cases h

theorem effect_readFileSync {p : ConfigPath} {a : Except String B}
    (h : effect sur disk (.readFileSync p) o = some (a, disk')) :
    disk' = disk ∧ ∀ raw, a = .ok raw → disk (sur.place p) = some raw := by
  cases o with
  | ok =>
    obtain ⟨raw, hraw, heq⟩ := Option.map_eq_some_iff.1 h
    obtain ⟨rfl, rfl⟩ := Prod.mk.inj heq
    exact ⟨rfl, fun raw' h' => Except.ok.inj h' ▸ hraw⟩
  | fails e =>
    obtain ⟨rfl, rfl⟩ := Prod.mk.inj (Option.some.inj h)
    exact ⟨rfl, nofun⟩
  | _ => cases h

theorem effect_backupPath {p backup : ConfigPath} {timestamp : String}
    (h : effect sur disk (.backupPath p timestamp) o = some (backup, disk')) :
    disk' = disk ∧ disk (sur.place backup) = none ∧ ∃ k, backup = backupCandidate p timestamp k := by
  cases o with
  | suffix k =>
    unfold effect at h
    dsimp only at h
    split at h
    next hfree =>
      obtain ⟨rfl, rfl⟩ := Prod.mk.inj (Option.some.inj h)
      exact ⟨rfl, Option.isNone_iff_eq_none.1 hfree.1, k, rfl⟩
    next => cases h
  | _ => cases h

theorem effect_copyStart {source target : ConfigPath} {a : Except String Unit}
    (h : effect sur disk (.copyStart source target) o = some (a, disk')) :
    (a = .ok () ∧ ∃ contents, disk' = Function.update disk (sur.place target) (some contents)) ∨
      ∃ e, o = .fails e ∧ a = .error e ∧ disk' = disk := by
  cases o with
  | torn contents =>
    unfold effect at h
    dsimp only at h
    split at h
    next =>
      obtain ⟨rfl, rfl⟩ := Prod.mk.inj (Option.some.inj h)
      exact .inl ⟨rfl, contents, rfl⟩
    next => cases h
  | fails e =>
    obtain ⟨rfl, rfl⟩ := Prod.mk.inj (Option.some.inj h)
    exact .inr ⟨e, rfl, rfl, rfl⟩
  | _ => cases h

theorem effect_copyEnd {source target : ConfigPath} {a : Except String Unit}
    (h : effect sur disk (.copyEnd source target) o = some (a, disk')) :
    (a = .ok () ∧ disk' = Function.update disk (sur.place target) (disk (sur.place source))) ∨
      ∃ e, o = .fails e ∧ a = .error e ∧ disk' = disk := by
  cases o with
  | ok =>
    obtain ⟨contents, hcontents, heq⟩ := Option.map_eq_some_iff.1 h
    obtain ⟨rfl, rfl⟩ := Prod.mk.inj heq
    exact .inl ⟨rfl, by rw [hcontents]⟩
  | fails e =>
    obtain ⟨rfl, rfl⟩ := Prod.mk.inj (Option.some.inj h)
    exact .inr ⟨e, rfl, rfl, rfl⟩
  | _ => cases h

theorem effect_writeJsonFile {p : ConfigPath} {payload : B} {a : Except String Unit}
    (h : effect sur disk (.writeJsonFile p payload) o = some (a, disk')) :
    (o = .ok ∧ a = .ok () ∧ disk' = Function.update disk (sur.place p) (some payload)) ∨
      ∃ e, a = .error e ∧ disk' = disk := by
  cases o with
  | ok =>
    obtain ⟨rfl, rfl⟩ := Prod.mk.inj (Option.some.inj h)
    exact .inl ⟨rfl, rfl, rfl⟩
  | fails e =>
    obtain ⟨rfl, rfl⟩ := Prod.mk.inj (Option.some.inj h)
    exact .inr ⟨e, rfl, rfl⟩
  | _ => cases h

theorem effect_rmSync {p : ConfigPath} {a : Except String Unit}
    (h : effect sur disk (.rmSync p) o = some (a, disk')) :
    disk' = Function.update disk (sur.place p) none ∨ ∃ e, o = .fails e ∧ disk' = disk := by
  cases o with
  | ok =>
    obtain ⟨-, rfl⟩ := Prod.mk.inj (Option.some.inj h)
    exact .inl rfl
  | fails e =>
    obtain ⟨-, rfl⟩ := Prod.mk.inj (Option.some.inj h)
    exact .inr ⟨e, rfl, rfl⟩
  | _ => cases h

theorem effect_fault {s : MigrationStep} {a : Except String Unit}
    (h : effect sur disk (.fault s) o = some (a, disk')) : disk' = disk := by
  cases o with
  | ok => exact (Prod.mk.inj (Option.some.inj h)).2.symm
  | fails e => exact (Prod.mk.inj (Option.some.inj h)).2.symm
  | _ => cases h

end

/-! ## Parts that change no file -/

section
variable {B Dir : Type} [DecidableEq Dir] {c : Call B Dir} {disk : Disk B Dir}
  {log : List (FileOp B × Outcome B)}
  {G : Disk B Dir → List (FileOp B × Outcome B) → FileOp B → Outcome B → Prop}
  {C : Disk B Dir → List (FileOp B × Outcome B) → Prop}

theorem keeps_ofExcept {ε α : Type} (hC : C disk log) (x : Except ε α) :
    Keeps (effect c.sur) G C (fun r disk' _ => disk' = disk ∧ r = x)
      (Prog.ofExcept x : FileProg B ε α) disk log := by
  cases x with
  | ok a => exact ⟨hC, rfl, rfl⟩
  | error e => exact ⟨hC, rfl, rfl⟩

theorem keeps_existsSync {ε : Type} (hC : ∀ log, C disk log) (p : ConfigPath) :
    Keeps (effect c.sur) G C (fun r disk' _ => disk' = disk ∧ r = .ok (disk (c.sur.place p)).isSome)
      (existsSync p : FileProg B ε Bool) disk log := by
  refine ⟨hC log, fun o a disk' _ heffect => ?_⟩
  obtain ⟨ha, hdisk⟩ := effect_existsSync heffect
  exact ⟨hdisk ▸ hC _, hdisk, congrArg Except.ok ha⟩

theorem keeps_fault (hC : ∀ log, C disk log) (s : MigrationStep) :
    Keeps (effect c.sur) G C (fun _ disk' _ => disk' = disk ∧ True)
      (.ask (.fault s) Prog.ofExcept : FileProg B String Unit) disk log := by
  refine ⟨hC log, fun o a disk' _ heffect => ?_⟩
  obtain rfl := effect_fault heffect
  cases a with
  | ok u => exact ⟨hC _, rfl, trivial⟩
  | error e => exact ⟨hC _, rfl, trivial⟩

theorem keeps_attempt {α : Type} (r : Progress) {p : FileProg B String α}
    {post : Except String α → Disk B Dir → List (FileOp B × Outcome B) → Prop}
    (h : Keeps (effect c.sur) G C post p disk log) :
    Keeps (effect c.sur) G C (ends (fun a => post (.ok a))
      fun thrown disk log => thrown.1 = r ∧ ∃ e, post (.error e) disk log) (attempt r p) disk log :=
  h.mapError (fun _ _ _ hpost => hpost) fun e _ _ hpost => ⟨rfl, e, hpost⟩

theorem keeps_readJsonFile (hC : ∀ log, C disk log) (p : ConfigPath) :
    Keeps (effect c.sur) G C
      (fun r disk' _ => disk' = disk ∧ ∀ cfg, r = .ok cfg → c.docAt disk (c.sur.place p) = some cfg)
      (readJsonFile c.sur.text p) disk log := by
  refine ⟨hC log, fun o a disk' _ heffect => ?_⟩
  obtain ⟨ha, rfl⟩ := effect_existsSync heffect
  cases a with
  | false =>
    have hnone : disk' (c.sur.place p) = none := by
      rw [← Option.not_isSome_iff_eq_none, ← ha]
      decide
    refine ⟨hC _, rfl, fun cfg hcfg => ?_⟩
    rw [Call.docAt, Surroundings.docAt, hnone, ← Except.ok.inj hcfg]
  | true =>
    refine ⟨hC _, fun o a disk'' _ heffect => ?_⟩
    obtain ⟨rfl, hraw⟩ := effect_readFileSync heffect
    cases a with
    | error e => exact ⟨hC _, rfl, fun _ hcfg => by cases hcfg⟩
    | ok raw =>
      have hdoc : c.docAt disk'' (c.sur.place p) =
          if c.sur.text.isBlank raw then some (.object []) else c.sur.text.parse raw := by
        rw [Call.docAt, Surroundings.docAt, hraw raw rfl]
      rw [hdoc]
      dsimp only
      by_cases hblank : c.sur.text.isBlank raw = true
      · rw [if_pos hblank, if_pos hblank]
        exact ⟨hC _, rfl, fun cfg hcfg => congrArg some (Except.ok.inj hcfg)⟩
      · rw [if_neg hblank, if_neg hblank]
        cases hparse : c.sur.text.parse raw with
        | none => exact ⟨hC _, rfl, fun _ hcfg => by cases hcfg⟩
        | some cfg => exact ⟨hC _, rfl, fun cfg' hcfg => congrArg some (Except.ok.inj hcfg)⟩

end

/-! ## The plan -/

/-- The plan of the migration of some files. -/
structure Call.Planned {B Dir : Type} (c : Call B Dir) (disk : Disk B Dir) (plan : MigrationPlan) :
    Prop where
  repoRoot : plan.repoRoot = c.repoRoot
  sourcePath : plan.sourcePath = c.sourcePath
  destinationPath : plan.destinationPath = c.destinationPath
  host : (getWorkspaceMcpConfigPath c.sur.path c.repoRoot c.options.host).isSome
  names : disk c.source = none ∧ plan.serverNames = [] ∨
    (disk c.source).isSome ∧ ∃ cfg servers, c.docAt disk c.source = some cfg ∧
      toServerMap cfg = .ok servers ∧
        findRepoCognisEntries c.sur.path servers c.repoRoot
          (deriveMcpServerName c.sur.path c.repoRoot) = .ok plan.serverNames

section
variable {B Dir : Type} [DecidableEq Dir] {c : Call B Dir} {disk : Disk B Dir}
  {log : List (FileOp B × Outcome B)}
  {G : Disk B Dir → List (FileOp B × Outcome B) → FileOp B → Outcome B → Prop}
  {C : Disk B Dir → List (FileOp B × Outcome B) → Prop}

theorem keeps_matchingNames (hC : ∀ log, C disk log) : Keeps (effect c.sur) G C
    (fun r disk' _ => disk' = disk ∧ ∀ names, r = .ok names → ∃ cfg servers,
      c.docAt disk c.source = some cfg ∧ toServerMap cfg = .ok servers ∧
        findRepoCognisEntries c.sur.path servers c.repoRoot
          (deriveMcpServerName c.sur.path c.repoRoot) = .ok names)
    (matchingNames c.sur c.repoRoot (deriveMcpServerName c.sur.path c.repoRoot) c.sourcePath)
    disk log := by
  refine (keeps_readJsonFile hC c.sourcePath).bind ?_ fun e d l h => ⟨h.1, nofun⟩
  rintro cfg disk log ⟨rfl, hcfg⟩ -
  refine (keeps_ofExcept (hC _) (toServerMap cfg)).bind ?_ fun e d l h => ⟨h.1, nofun⟩
  rintro servers disk log ⟨rfl, hservers⟩ -
  refine (keeps_ofExcept (hC _) _).mono ?_
  rintro r disk log ⟨rfl, rfl⟩
  exact ⟨rfl, fun names hnames => ⟨cfg, servers, hcfg cfg rfl, hservers.symm, hnames⟩⟩

/-- Planning changes no file. -/
theorem keeps_planMigration (hC : ∀ log, C disk log) :
    Keeps (effect c.sur) G C
      (fun r disk' _ => disk' = disk ∧ ∀ plan, r = .ok plan → c.Planned disk plan)
      (planMigration c.sur c.repoRoot c.options) disk log := by
  unfold planMigration
  dsimp only
  cases hdest : getWorkspaceMcpConfigPath c.sur.path c.repoRoot c.options.host with
  | none => exact ⟨hC _, rfl, nofun⟩
  | some destinationPath =>
    have hpath : destinationPath = c.destinationPath := by rw [Call.destinationPath, hdest]; rfl
    have hhost : (getWorkspaceMcpConfigPath c.sur.path c.repoRoot c.options.host).isSome := by
      rw [hdest]
      rfl
    refine (keeps_existsSync hC c.sourcePath).bind ?_ fun e d l h => ⟨h.1, nofun⟩
    rintro sourceExists disk log ⟨rfl, hexists⟩ -
    refine (keeps_existsSync hC destinationPath).bind ?_ fun e d l h => ⟨h.1, nofun⟩
    rintro destinationExists disk log ⟨rfl, -⟩ -
    have hexists : (disk c.source).isSome = sourceExists := (Except.ok.inj hexists).symm
    cases sourceExists with
    | false =>
      refine ⟨hC _, rfl, fun plan hplan => ?_⟩
      obtain rfl := Except.ok.inj hplan
      refine ⟨rfl, rfl, hpath, hhost, .inl ⟨?_, rfl⟩⟩
      rw [← Option.not_isSome_iff_eq_none, hexists]
      decide
    | true =>
      refine (keeps_matchingNames hC).bind ?_ fun e d l h => ⟨h.1, nofun⟩
      rintro names disk log ⟨rfl, hnames⟩ -
      refine ⟨hC _, rfl, fun plan hplan => ?_⟩
      obtain rfl := Except.ok.inj hplan
      exact ⟨rfl, rfl, hpath, hhost, .inr ⟨hexists, hnames names rfl⟩⟩

/-- A migration that finds nothing changes no file. -/
theorem keeps_of_none {disk₀ : Disk B Dir} (inProgress : Bool)
    (hnone : ∀ cfg servers names, c.docAt disk₀ c.source = some cfg → toServerMap cfg = .ok servers →
      findRepoCognisEntries c.sur.path servers c.repoRoot
        (deriveMcpServerName c.sur.path c.repoRoot) = .ok names → names = []) :
    Keeps (effect c.sur) G (fun disk _ => disk = disk₀) (fun _ disk _ => disk = disk₀)
      (migrateGlobalEntryToWorkspace c.sur c.repoRoot c.options inProgress) disk₀ log := by
  unfold migrateGlobalEntryToWorkspace
  refine (keeps_planMigration fun _ => rfl).bind ?_ fun e d l h => h.1
  rintro plan disk log ⟨rfl, hplan⟩ -
  have hnames : plan.serverNames = [] := by
    rcases (hplan plan rfl).names with ⟨-, hnames⟩ | ⟨-, cfg, servers, hcfg, hservers, hfound⟩
    · exact hnames
    · exact hnone cfg servers _ hcfg hservers hfound
  have hstay : plan.willMoveEntry = false := by rw [MigrationPlan.willMoveEntry, hnames]; rfl
  dsimp only
  split
  · exact ⟨rfl, rfl⟩
  · rw [hstay, Bool.not_false, if_pos rfl]
    exact ⟨rfl, rfl⟩

end

/-! ## The rollback -/

section
variable {B Dir : Type}

/-- What the rollback of a file needs. -/
def Call.Undoes (c : Call B Dir) (before : Disk B Dir) (r : Progress) (disk : Disk B Dir)
    (p : ConfigPath) : Prop :=
  match r.backupByOriginal.lookup p with
  | some backup => disk (c.sur.place backup) = before (c.sur.place p) ∧
      (before (c.sur.place p)).isSome ∧ c.sur.place backup ≠ c.source ∧
        c.sur.place backup ≠ c.destination
  | none =>
    if p ∈ r.created then before (c.sur.place p) = none
    else disk (c.sur.place p) = before (c.sur.place p)

variable {c : Call B Dir} {before disk : Disk B Dir} {log : List (FileOp B × Outcome B)}

theorem docAt_congr {l : Location Dir} (h : disk l = before l) : c.docAt disk l = c.docAt before l := by
  rw [Call.docAt, Call.docAt, Surroundings.docAt, Surroundings.docAt, h]

theorem serverAt_of_matched (htext : ∀ cfg, c.docAt before c.source = some cfg → Textual cfg)
    {e : String × Json} (he : e ∈ c.matched before) : c.serverAt before c.source e.1 = some e.2 := by
  unfold Call.matched at he
  rw [Call.serverAt]
  cases hcfg : c.docAt before c.source with
  | none => rw [hcfg] at he; cases he
  | some cfg =>
    rw [hcfg, Option.bind_some] at he
    rw [Option.bind_some, serverOf]
    cases hservers : cfg.get "mcpServers" with
    | none => rw [hservers] at he; cases he
    | some servers =>
      rw [hservers] at he
      have hobject := (htext cfg hcfg).get hservers
      cases hobject with
      | object entries hkeys hall => exact lookup_eq_some hkeys (List.mem_of_mem_filter he)
      | _ => cases he

/-- While the source is what it was, no entry is lost. -/
theorem kept_of_source (htext : ∀ cfg, c.docAt before c.source = some cfg → Textual cfg)
    (hsource : disk c.source = before c.source) : c.Kept before disk := by
  intro e he
  left
  rw [Call.serverAt, docAt_congr hsource]
  exact serverAt_of_matched htext he

theorem kept_of_restores (htext : ∀ cfg, c.docAt before c.source = some cfg → Textual cfg)
    (hlog : ∃ done ∈ log, c.Restores done.1) (h : c.CrashOutside before disk log) :
    c.Kept before disk := kept_of_source htext (h hlog)

variable [DecidableEq Dir]

/-- What a part of the migration does, in a run whose steps take none of the ways in which
    entries are lost. -/
abbrev Call.Does {ε α : Type} (c : Call B Dir) (before : Disk B Dir)
    (post : Except ε α → Disk B Dir → List (FileOp B × Outcome B) → Prop)
    (p : FileProg B ε α) (disk : Disk B Dir) (log : List (FileOp B × Outcome B)) : Prop :=
  Keeps (effect c.sur) c.Careful
    (fun disk log => c.CrashOutside before disk log → c.Kept before disk) post p disk log

/-- A file is restored, and no other is changed. -/
theorem keeps_restore {ε : Type} (htext : ∀ cfg, c.docAt before c.source = some cfg → Textual cfg)
    {r : Progress} {p : ConfigPath} (hp : p = c.sourcePath ∨ p = c.destinationPath)
    (hundo : c.Undoes before r disk p)
    (hcut : c.CrashOutside before disk log → c.Kept before disk) :
    c.Does before (fun x disk' _ => x = .ok () ∧ disk' (c.sur.place p) = before (c.sur.place p) ∧
        ∀ l, l ≠ c.sur.place p → disk' l = disk l)
      (restore r p : FileProg B ε Unit) disk log := by
  have hrestored : ∀ {disk : Disk B Dir} {log : List (FileOp B × Outcome B)} {op o},
      c.Restores op → c.CrashOutside before disk (log ++ [(op, o)]) → c.Kept before disk :=
    fun hop => kept_of_restores htext ⟨_, List.mem_append_right _ (List.mem_singleton_self _), hop⟩
  unfold Call.Undoes at hundo
  unfold restore
  cases hbackup : r.backupByOriginal.lookup p with
  | some backup =>
    rw [hbackup] at hundo
    obtain ⟨hcontents, -, hsource, hdestination⟩ := hundo
    have hne : c.sur.place backup ≠ c.sur.place p := by
      rcases hp with rfl | rfl
      · exact hsource
      · exact hdestination
    refine ⟨hcut, fun o a disk₁ hcareful heffect => ?_⟩
    rcases effect_copyStart heffect with ⟨rfl, torn, rfl⟩ | ⟨e, rfl, -, -⟩
    · refine ⟨hrestored hp, fun o a disk₂ hcareful heffect => ?_⟩
      rcases effect_copyEnd heffect with ⟨rfl, rfl⟩ | ⟨e, rfl, -, -⟩
      · refine ⟨hrestored hp, rfl, ?_, fun l hl => ?_⟩
        · rw [Function.update_self, Function.update_of_ne hne, hcontents]
        · rw [Function.update_of_ne hl, Function.update_of_ne hl]
      · exact absurd rfl (hcareful.restores hp e)
    · exact absurd rfl (hcareful.restores hp e)
  | none =>
    rw [hbackup] at hundo
    dsimp only at hundo ⊢
    by_cases hcreated : p ∈ r.created
    · rw [if_pos hcreated] at hundo ⊢
      refine ⟨hcut, fun o a disk₁ hcareful heffect => ?_⟩
      rcases effect_rmSync heffect with rfl | ⟨e, rfl, -⟩
      · exact ⟨hrestored hp, rfl, by rw [Function.update_self, hundo],
          fun l hl => Function.update_of_ne hl _ _⟩
      · exact absurd rfl (hcareful.restores hp e)
    · rw [if_neg hcreated] at hundo ⊢
      exact ⟨hcut, rfl, hundo, fun _ _ => rfl⟩

/-- **The rollback** restores both configs. -/
theorem keeps_rollback {ε : Type} (htext : ∀ cfg, c.docAt before c.source = some cfg → Textual cfg)
    {plan : MigrationPlan} (hplan : c.Planned before plan) {thrown : Thrown}
    (hsource : c.Undoes before thrown.1 disk c.sourcePath)
    (hdestination : c.Undoes before thrown.1 disk c.destinationPath)
    (hkept : c.Kept before disk) :
    c.Does before (fun x disk' _ => ∃ outcome, x = .ok outcome ∧
        outcome.ok = thrown.1.outcome.ok ∧ c.Unchanged before disk')
      (rollback plan thrown : FileProg B ε MigrationOutcome) disk log := by
  unfold rollback
  rw [hplan.sourcePath, hplan.destinationPath]
  refine (keeps_restore htext (.inr rfl) hdestination fun _ => hkept).bind ?_
    fun e d l h => nomatch h.1
  rintro ⟨⟩ disk₁ log₁ ⟨-, hrestored, hother⟩ hcut
  have hundo : c.Undoes before thrown.1 disk₁ c.sourcePath := by
    unfold Call.Undoes at hsource ⊢
    split at hsource
    next backup hbackup =>
      obtain ⟨hcontents, hrest⟩ := hsource
      exact ⟨(hother _ hrest.2.2).trans hcontents, hrest⟩
    next =>
      by_cases hcreated : c.sourcePath ∈ thrown.1.created
      · rw [if_pos hcreated] at hsource ⊢
        exact hsource
      · rw [if_neg hcreated] at hsource ⊢
        by_cases hsame : c.source = c.destination
        · exact (congrArg disk₁ hsame).trans (hrestored.trans (congrArg before hsame.symm))
        · exact (hother _ hsame).trans hsource
  refine (keeps_restore htext (.inl rfl) hundo hcut).bind ?_ fun e d l h => nomatch h.1
  rintro ⟨⟩ disk₂ log₂ ⟨-, hrestored₂, hother₂⟩ hcut₂
  refine ⟨hcut₂, _, rfl, rfl, hrestored₂, ?_⟩
  by_cases hsame : c.destination = c.source
  · exact (congrArg disk₂ hsame).trans (hrestored₂.trans (congrArg before hsame.symm))
  · exact (hother₂ _ hsame).trans hrestored

end

/-! ## The backups -/

section
variable {B Dir : Type} {c : Call B Dir} {before disk : Disk B Dir}

/-- Both configs are what they were, and the backups made so far hold them. -/
structure Call.BackingUp (c : Call B Dir) (before : Disk B Dir) (r : Progress)
    (disk : Disk B Dir) : Prop where
  unchanged : c.Unchanged before disk
  ok : r.outcome.ok = false
  created : r.created = []
  byOriginal : ∀ e ∈ r.backupByOriginal, disk (c.sur.place e.2) = before (c.sur.place e.1) ∧
    (before (c.sur.place e.1)).isSome ∧ c.sur.place e.2 ≠ c.source ∧
      c.sur.place e.2 ≠ c.destination
  backups : ∀ b ∈ r.outcome.backups, c.sur.place b.backupPath ≠ c.source ∧
    c.sur.place b.backupPath ≠ c.destination

theorem Call.BackingUp.undoes {r : Progress} (h : c.BackingUp before r disk) {p : ConfigPath}
    (hp : p = c.sourcePath ∨ p = c.destinationPath) : c.Undoes before r disk p := by
  unfold Call.Undoes
  split
  next backup hbackup =>
    obtain ⟨l₁, l₂, hsplit, -⟩ := List.lookup_eq_some_iff.1 hbackup
    exact h.byOriginal (p, backup) (by rw [hsplit]; simp)
  next =>
    rw [h.created, if_neg List.not_mem_nil]
    rcases hp with rfl | rfl
    · exact h.unchanged.1
    · exact h.unchanged.2

/-- A backup has another name than the configs. -/
theorem backupCandidate_base (p : ConfigPath) (timestamp : String) (k : ℕ) :
    (backupCandidate p timestamp k).base ≠ p.base := by
  intro h
  have hlength := congrArg String.length h
  have hsuffix : ".backup".length = 7 := by decide
  simp only [backupCandidate, String.length_append, hsuffix] at hlength
  omega

theorem base_of_host
    (hhost : (getWorkspaceMcpConfigPath c.sur.path c.repoRoot c.options.host).isSome) :
    c.sourcePath.base = "mcp.json" ∧ c.destinationPath.base = "mcp.json" := by
  unfold Call.destinationPath Call.sourcePath
  generalize c.options.host = host at hhost ⊢
  unfold getWorkspaceMcpConfigPath at hhost ⊢
  split at hhost
  · exact ⟨rfl, rfl⟩
  · exact ⟨rfl, rfl⟩
  · exact ⟨rfl, rfl⟩
  · cases hhost

theorem place_of_backup {p backup : ConfigPath} {timestamp : String} {k : ℕ}
    (hhost : (getWorkspaceMcpConfigPath c.sur.path c.repoRoot c.options.host).isSome)
    (hp : p = c.sourcePath ∨ p = c.destinationPath)
    (hbackup : backup = backupCandidate p timestamp k) :
    c.sur.place backup ≠ c.source ∧ c.sur.place backup ≠ c.destination := by
  obtain ⟨hsource, hdestination⟩ := base_of_host hhost
  have hbase : p.base = "mcp.json" := by
    rcases hp with rfl | rfl
    · exact hsource
    · exact hdestination
  have hother : backup.base ≠ "mcp.json" := by
    rw [hbackup, ← hbase]
    exact backupCandidate_base p timestamp k
  exact ⟨fun h => hother ((congrArg Prod.snd h).trans hsource),
    fun h => hother ((congrArg Prod.snd h).trans hdestination)⟩

variable [DecidableEq Dir] {log : List (FileOp B × Outcome B)}

/-- A file that is neither a config nor a backup does not matter. -/
theorem Call.BackingUp.update {r : Progress} (h : c.BackingUp before r disk) {l : Location Dir}
    {b : Option B} (hsource : l ≠ c.source) (hdestination : l ≠ c.destination)
    (hnew : ∀ e ∈ r.backupByOriginal, c.sur.place e.2 ≠ l) :
    c.BackingUp before r (Function.update disk l b) where
  unchanged :=
    ⟨(Function.update_of_ne hsource.symm _ _).trans h.unchanged.1,
      (Function.update_of_ne hdestination.symm _ _).trans h.unchanged.2⟩
  ok := h.ok
  created := h.created
  byOriginal e he := by
    rw [Function.update_of_ne (hnew e he)]
    exact h.byOriginal e he
  backups := h.backups

/-- The backup of a config changes neither config, and holds the config. -/
theorem keeps_backupFile (htext : ∀ cfg, c.docAt before c.source = some cfg → Textual cfg)
    (hhost : (getWorkspaceMcpConfigPath c.sur.path c.repoRoot c.options.host).isSome)
    {r : Progress} (h : c.BackingUp before r disk) {p : ConfigPath}
    (hp : p = c.sourcePath ∨ p = c.destinationPath) (timestamp : String) :
    c.Does before (fun x disk' _ => c.BackingUp before r disk' ∧ ∀ backup, x = .ok backup →
        disk' (c.sur.place backup.backupPath) = before (c.sur.place p) ∧
          c.sur.place backup.backupPath ≠ c.source ∧ c.sur.place backup.backupPath ≠ c.destination)
      (backupFile p timestamp) disk log := by
  refine ⟨fun _ => kept_of_source htext h.unchanged.1, fun o backup disk₁ _ heffect => ?_⟩
  obtain ⟨rfl, hfree, k, hbackup⟩ := effect_backupPath heffect
  obtain ⟨hsource, hdestination⟩ := place_of_backup hhost hp hbackup
  have hnew : ∀ e ∈ r.backupByOriginal, c.sur.place e.2 ≠ c.sur.place backup := by
    intro e he heq
    obtain ⟨hcontents, hsome, -⟩ := h.byOriginal e he
    rw [← hcontents, heq, hfree] at hsome
    cases hsome
  have hplace : c.sur.place p ≠ c.sur.place backup := by
    rcases hp with rfl | rfl
    · exact hsource.symm
    · exact hdestination.symm
  refine ⟨fun _ => kept_of_source htext h.unchanged.1, fun o a disk₂ _ heffect => ?_⟩
  rcases effect_copyStart heffect with ⟨rfl, torn, rfl⟩ | ⟨e, -, rfl, rfl⟩
  · have h₂ := h.update (b := some torn) hsource hdestination hnew
    refine ⟨fun _ => kept_of_source htext h₂.unchanged.1, fun o a disk₃ _ heffect => ?_⟩
    rcases effect_copyEnd heffect with ⟨rfl, rfl⟩ | ⟨e, -, rfl, rfl⟩
    · have h₃ := h₂.update (b := (Function.update disk₁ (c.sur.place backup) (some torn))
        (c.sur.place p)) hsource hdestination hnew
      refine ⟨fun _ => kept_of_source htext h₃.unchanged.1, h₃, ?_⟩
      rintro _ hresult
      obtain rfl := Except.ok.inj hresult
      refine ⟨?_, hsource, hdestination⟩
      rw [Function.update_self, Function.update_of_ne hplace]
      rcases hp with rfl | rfl
      · exact h.unchanged.1
      · exact h.unchanged.2
    · exact ⟨fun _ => kept_of_source htext h₂.unchanged.1, h₂, nofun⟩
  · exact ⟨fun _ => kept_of_source htext h.unchanged.1, h, nofun⟩

/-- The step of the loop for a config. -/
theorem keeps_backUp (htext : ∀ cfg, c.docAt before c.source = some cfg → Textual cfg)
    (hhost : (getWorkspaceMcpConfigPath c.sur.path c.repoRoot c.options.host).isSome)
    {r : Progress} (h : c.BackingUp before r disk) {p : ConfigPath}
    (hp : p = c.sourcePath ∨ p = c.destinationPath) (timestamp : String) :
    c.Does before (ends
        (fun r' disk' _ => c.BackingUp before r' disk' ∧
          ((before (c.sur.place p)).isSome → (r'.backupByOriginal.lookup p).isSome) ∧
          ∀ q, (r.backupByOriginal.lookup q).isSome → (r'.backupByOriginal.lookup q).isSome)
        fun thrown disk' _ => c.BackingUp before thrown.1 disk')
      (backUp timestamp p r) disk log := by
  have hplace : disk (c.sur.place p) = before (c.sur.place p) := by
    rcases hp with rfl | rfl
    · exact h.unchanged.1
    · exact h.unchanged.2
  refine (keeps_existsSync (fun _ _ => kept_of_source htext h.unchanged.1) p).bind ?_
    fun e d l h => nomatch h.2
  rintro found disk log ⟨rfl, hfound⟩ hcut
  have hfound : (before (c.sur.place p)).isSome = found := hplace ▸ (Except.ok.inj hfound).symm
  cases found with
  | false =>
    refine ⟨hcut, h, fun hsome => ?_, fun _ hq => hq⟩
    rw [hfound] at hsome
    cases hsome
  | true =>
    refine (keeps_attempt r (keeps_backupFile htext hhost h hp timestamp)).bind ?_ ?_
    · rintro backup disk log ⟨h, hbackup⟩ hcut
      obtain ⟨hcontents, hsource, hdestination⟩ := hbackup backup rfl
      refine ⟨hcut, ⟨h.unchanged, h.ok, h.created, ?_, ?_⟩, fun _ => ?_, fun q hq => ?_⟩
      · rintro e he
        rcases List.mem_cons.1 he with rfl | he
        · exact ⟨hcontents, hfound, hsource, hdestination⟩
        · exact h.byOriginal e he
      · intro b hb
        rcases List.mem_append.1 hb with hb | hb
        · exact h.backups b hb
        · rw [List.mem_singleton.1 hb]
          exact ⟨hsource, hdestination⟩
      · rw [List.lookup_cons_self]
        rfl
      · rw [List.lookup_cons]
        split
        · rfl
        · exact hq
    · rintro thrown disk log ⟨rfl, e, h, -⟩
      exact h

end

/-! ## The destination -/

/-- What the rollback needs, where the entries are kept. -/
structure Call.Recoverable {B Dir : Type} (c : Call B Dir) (before : Disk B Dir) (r : Progress)
    (disk : Disk B Dir) : Prop where
  ok : r.outcome.ok = false
  source : c.Undoes before r disk c.sourcePath
  destination : c.Undoes before r disk c.destinationPath
  kept : c.Kept before disk

/-- Whatever the configs hold, the rollback restores them. -/
structure Call.Armed {B Dir : Type} (c : Call B Dir) (before : Disk B Dir) (r : Progress)
    (disk : Disk B Dir) : Prop where
  ok : r.outcome.ok = false
  byOriginal : ∀ e ∈ r.backupByOriginal, disk (c.sur.place e.2) = before (c.sur.place e.1) ∧
    (before (c.sur.place e.1)).isSome ∧ c.sur.place e.2 ≠ c.source ∧
      c.sur.place e.2 ≠ c.destination
  backups : ∀ b ∈ r.outcome.backups, c.sur.place b.backupPath ≠ c.source ∧
    c.sur.place b.backupPath ≠ c.destination
  saved : ∀ p, p = c.sourcePath ∨ p = c.destinationPath → (before (c.sur.place p)).isSome →
    (r.backupByOriginal.lookup p).isSome
  created : ∀ p, p = c.sourcePath ∨ p = c.destinationPath → before (c.sur.place p) = none →
    p ∈ r.created

/-- The document that a migration writes to the destination. -/
def Call.Merges {B Dir : Type} (c : Call B Dir) (before : Disk B Dir) (names : List String)
    (servers cfg : Json) : Prop :=
  ∃ dest destServers merged, c.docAt before c.destination = some dest ∧
    toServerMap dest = .ok destServers ∧ mergeServers servers names destServers = .ok merged ∧
      withServers dest merged = .ok cfg

/-- The documents of the configs are such that their text determines them. -/
structure Call.Documents {B Dir : Type} (c : Call B Dir) (before : Disk B Dir) : Prop where
  lawful : c.sur.text.Lawful
  source : ∀ cfg, c.docAt before c.source = some cfg → Textual cfg
  destination : ∀ cfg, c.docAt before c.destination = some cfg → Textual cfg

section
variable {B Dir : Type} {c : Call B Dir} {before disk : Disk B Dir} {r : Progress}
  {plan : MigrationPlan}

theorem Call.BackingUp.recoverable (hdocs : c.Documents before) (h : c.BackingUp before r disk) :
    c.Recoverable before r disk where
  ok := h.ok
  source := h.undoes (.inl rfl)
  destination := h.undoes (.inr rfl)
  kept := kept_of_source hdocs.source h.unchanged.1

theorem Call.Armed.undoes (h : c.Armed before r disk) {p : ConfigPath}
    (hp : p = c.sourcePath ∨ p = c.destinationPath) : c.Undoes before r disk p := by
  unfold Call.Undoes
  split
  next backup hbackup =>
    obtain ⟨l₁, l₂, hsplit, -⟩ := List.lookup_eq_some_iff.1 hbackup
    exact h.byOriginal (p, backup) (by rw [hsplit]; simp)
  next hnone =>
    have hbefore : before (c.sur.place p) = none := by
      by_contra hsome
      have hsaved := h.saved p hp (Option.isSome_iff_ne_none.2 hsome)
      rw [hnone] at hsaved
      cases hsaved
    rw [if_pos (h.created p hp hbefore)]
    exact hbefore

theorem Call.Armed.recoverable (h : c.Armed before r disk) (hkept : c.Kept before disk) :
    c.Recoverable before r disk where
  ok := h.ok
  source := h.undoes (.inl rfl)
  destination := h.undoes (.inr rfl)
  kept := hkept

/-- The names of the plan are those of the matched entries. -/
theorem Call.Planned.serverNames_eq (h : c.Planned before plan) :
    plan.serverNames = (c.matched before).map Prod.fst := by
  unfold Call.matched
  rcases h.names with ⟨hnone, hnames⟩ | ⟨-, cfg, servers, hcfg, hservers, hfound⟩
  · have hdoc : c.docAt before c.source = some (.object []) := by rw [Call.docAt, Surroundings.docAt, hnone]
    rw [hnames, hdoc]
    rfl
  · rw [hcfg, Option.bind_some]
    have heq : servers = orEmpty (cfg.get "mcpServers") := by
      cases cfg with
      | null => cases hservers
      | _ => exact (Except.ok.inj hservers).symm
    rw [heq, orEmpty] at hfound
    cases hget : cfg.get "mcpServers" with
    | none =>
      rw [hget] at hfound
      exact (Except.ok.inj hfound).symm
    | some v =>
      rw [hget] at hfound
      cases v with
      | object entries => exact findInEntries_eq hfound
      | _ => exact (Except.ok.inj hfound).symm

/-- The entries to move are those of the source. -/
theorem get_of_matched (hdocs : c.Documents before) {cfg servers : Json}
    (hcfg : c.docAt before c.source = some cfg) (hservers : toServerMap cfg = .ok servers)
    {e : String × Json} (he : e ∈ c.matched before) : servers.get e.1 = some e.2 := by
  have hat := serverAt_of_matched hdocs.source he
  rw [Call.serverAt, hcfg, Option.bind_some] at hat
  rw [get_toServerMap hservers, hat]

theorem isSome_of_mem_serverNames (hdocs : c.Documents before) (h : c.Planned before plan)
    {cfg servers : Json} (hcfg : c.docAt before c.source = some cfg)
    (hservers : toServerMap cfg = .ok servers) :
    ∀ name ∈ plan.serverNames, (servers.get name).isSome := by
  intro name hname
  rw [h.serverNames_eq] at hname
  obtain ⟨e, he, rfl⟩ := List.mem_map.1 hname
  rw [get_of_matched hdocs hcfg hservers he]
  rfl

theorem Call.Merges.textual (hdocs : c.Documents before) {cfg servers sourceCfg : Json}
    {names : List String} (hcfg : c.docAt before c.source = some sourceCfg)
    (hservers : toServerMap sourceCfg = .ok servers) (h : c.Merges before names servers cfg) :
    Textual cfg := by
  obtain ⟨dest, destServers, merged, hdest, hmap, hmerge, hwith⟩ := h
  have hsource := (hdocs.source _ hcfg).toServerMap hservers
  have htext := hdocs.destination _ hdest
  exact htext.withServers (hsource.mergeServers (htext.toServerMap hmap) hmerge) hwith

/-- The document of a written config. -/
theorem docAt_of_written (hdocs : c.Documents before) {cfg : Json} (h : Textual cfg)
    {l : Location Dir} (hwritten : disk l = some (c.sur.text.stringify cfg)) :
    c.docAt disk l = some cfg := c.sur.docAt_of_stringify hdocs.lawful h hwritten

/-- The copied entries are kept in the destination. -/
theorem kept_of_destination (hdocs : c.Documents before) (hplan : c.Planned before plan)
    {cfg servers sourceCfg : Json} (hcfg : c.docAt before c.source = some sourceCfg)
    (hservers : toServerMap sourceCfg = .ok servers)
    (hdest : c.docAt disk c.destination = some cfg)
    (hcopied : ∀ k ∈ plan.serverNames, serverOf cfg k = servers.get k) : c.Kept before disk := by
  intro e he
  right
  have hname : e.1 ∈ plan.serverNames := by
    rw [hplan.serverNames_eq]
    exact List.mem_map_of_mem he
  rw [Call.serverAt, hdest, Option.bind_some, hcopied _ hname, get_of_matched hdocs hcfg hservers he]

end

section
variable {B Dir : Type} {c : Call B Dir} {before disk : Disk B Dir} {r : Progress}
  {plan : MigrationPlan} {sourceCfg servers cfg : Json}

/-- The state after the write of the destination. -/
structure Call.Written (c : Call B Dir) (before : Disk B Dir) (plan : MigrationPlan) (r : Progress)
    (disk : Disk B Dir) (sourceCfg servers cfg : Json) : Prop where
  armed : c.Armed before r disk
  source : c.source ≠ c.destination → disk c.source = before c.source
  docAt_source : c.docAt before c.source = some sourceCfg
  toServerMap_source : toServerMap sourceCfg = .ok servers
  merges : c.Merges before plan.serverNames servers cfg
  destination : disk c.destination = some (c.sur.text.stringify cfg)

/-- Whoever looks for the entries finds those of the plan. -/
theorem Call.Planned.eq_serverNames (hplan : c.Planned before plan) {names : List String}
    (hcfg : c.docAt before c.source = some sourceCfg) (hservers : toServerMap sourceCfg = .ok servers)
    (hfound : findRepoCognisEntries c.sur.path servers c.repoRoot
      (deriveMcpServerName c.sur.path c.repoRoot) = .ok names) : names = plan.serverNames := by
  rcases hplan.names with ⟨hnone, hempty⟩ | ⟨-, cfg, servers', hcfg', hservers', hfound'⟩
  · rw [Call.docAt, Surroundings.docAt, hnone] at hcfg
    obtain rfl := Option.some.inj hcfg
    obtain rfl := Except.ok.inj hservers
    rw [hempty]
    exact (Except.ok.inj hfound).symm
  · obtain rfl := Option.some.inj (hcfg.symm.trans hcfg')
    obtain rfl := Except.ok.inj (hservers.symm.trans hservers')
    exact Except.ok.inj (hfound.symm.trans hfound')

theorem Call.Planned.found (hplan : c.Planned before plan) (hnames : plan.serverNames ≠ [])
    (hcfg : c.docAt before c.source = some sourceCfg) (hservers : toServerMap sourceCfg = .ok servers) :
    findRepoCognisEntries c.sur.path servers c.repoRoot
      (deriveMcpServerName c.sur.path c.repoRoot) = .ok plan.serverNames := by
  rcases hplan.names with ⟨-, hnone⟩ | ⟨-, cfg, servers', hcfg', hservers', hfound⟩
  · exact absurd hnone hnames
  · obtain rfl := Option.some.inj (hcfg.symm.trans hcfg')
    obtain rfl := Except.ok.inj (hservers.symm.trans hservers')
    exact hfound

theorem isObject_of_isSome {v : Json} {key : String} (h : (v.get key).isSome) :
    isObject v = true := by
  by_contra hnot
  rw [get_of_not_isObject (Bool.not_eq_true _ ▸ hnot)] at h
  cases h

/-- The documents of a source with an entry. -/
theorem isObject_of_names (hdocs : c.Documents before) (hplan : c.Planned before plan)
    (hnames : plan.serverNames ≠ []) (hcfg : c.docAt before c.source = some sourceCfg)
    (hservers : toServerMap sourceCfg = .ok servers) :
    isObject servers = true ∧ isObject sourceCfg = true := by
  obtain ⟨name, hname⟩ := List.exists_mem_of_ne_nil _ hnames
  have hsome := isSome_of_mem_serverNames hdocs hplan hcfg hservers name hname
  refine ⟨isObject_of_isSome hsome, ?_⟩
  rw [get_toServerMap hservers, serverOf] at hsome
  cases hget : sourceCfg.get "mcpServers" with
  | none => rw [hget] at hsome; cases hsome
  | some v => exact isObject_of_isSome (by rw [hget]; rfl)

/-- Where both configs are one file, the copied entries are in it. -/
theorem copied_of_same (hdocs : c.Documents before) (hplan : c.Planned before plan)
    (hnames : plan.serverNames ≠ []) (hsame : c.source = c.destination)
    (hcfg : c.docAt before c.source = some sourceCfg)
    (hservers : toServerMap sourceCfg = .ok servers)
    (h : c.Merges before plan.serverNames servers cfg) :
    ∀ k ∈ plan.serverNames, serverOf cfg k = servers.get k := by
  obtain ⟨dest, destServers, merged, hdest, hmap, hmerge, hwith⟩ := h
  rw [← hsame, hcfg] at hdest
  obtain rfl := Option.some.inj hdest
  obtain rfl := Except.ok.inj (hservers.symm.trans hmap)
  obtain ⟨hobject, hdoc⟩ := isObject_of_names hdocs hplan hnames hcfg hservers
  have hfound := isSome_of_mem_serverNames hdocs hplan hcfg hservers
  intro k hk
  rw [serverOf_withServers hwith, if_pos hdoc, (mergeServers_spec hfound hmerge).2,
    if_pos ⟨hk, hobject⟩]

theorem Call.Written.kept (hdocs : c.Documents before) (hplan : c.Planned before plan)
    (hnames : plan.serverNames ≠ []) (h : c.Written before plan r disk sourceCfg servers cfg) :
    c.Kept before disk := by
  by_cases hsame : c.source = c.destination
  · have htext := h.merges.textual hdocs h.docAt_source h.toServerMap_source
    exact kept_of_destination hdocs hplan h.docAt_source h.toServerMap_source
      (docAt_of_written hdocs htext h.destination)
      (copied_of_same hdocs hplan hnames hsame h.docAt_source h.toServerMap_source h.merges)
  · exact kept_of_source hdocs.source (h.source hsame)

end

section
variable {B Dir : Type} [DecidableEq Dir] {c : Call B Dir} {before disk : Disk B Dir}
  {log : List (FileOp B × Outcome B)} {r : Progress} {plan : MigrationPlan}

theorem Call.Armed.update (h : c.Armed before r disk) {l : Location Dir} {b : Option B}
    (hl : l = c.source ∨ l = c.destination) :
    c.Armed before r (Function.update disk l b) where
  ok := h.ok
  byOriginal e he := by
    have hne : c.sur.place e.2 ≠ l := by
      rcases hl with rfl | rfl
      · exact (h.byOriginal e he).2.2.1
      · exact (h.byOriginal e he).2.2.2
    rw [Function.update_of_ne hne]
    exact h.byOriginal e he
  backups := h.backups
  saved := h.saved
  created := h.created

/-- A part that changes no file: when it throws, the rollback has what it needs. -/
theorem keeps_attempt_reads {α : Type} {p : FileProg B String α} {P : Except String α → Prop}
    (hrec : c.Recoverable before r disk)
    (h : c.Does before (fun x disk' _ => disk' = disk ∧ P x) p disk log) :
    c.Does before (ends (fun a disk' log' => (disk' = disk ∧ P (.ok a)) ∧ log <+: log')
      fun thrown disk' _ => c.Recoverable before thrown.1 disk') (attempt r p) disk log := by
  refine (keeps_attempt r h.grows).mono ?_
  rintro (thrown | a) disk' log' hpost
  · obtain ⟨rfl, e, ⟨rfl, -⟩, -⟩ := hpost
    exact hrec
  · exact hpost

theorem keeps_attempt_bind {α β : Type} {p : FileProg B String α} {f : α → FileProg B Thrown β}
    {P : Except String α → Prop} {post : β → Disk B Dir → List (FileOp B × Outcome B) → Prop}
    (hrec : c.Recoverable before r disk)
    (h : c.Does before (fun x disk' _ => disk' = disk ∧ P x) p disk log)
    (hok : ∀ a log', P (.ok a) → log <+: log' → c.Does before
      (ends post fun thrown disk' _ => c.Recoverable before thrown.1 disk') (f a) disk log') :
    c.Does before (ends post fun thrown disk' _ => c.Recoverable before thrown.1 disk')
      (attempt r p >>= f) disk log := by
  refine (keeps_attempt_reads hrec h).bind ?_ fun _ _ _ hthrown => hthrown
  rintro a disk' log' ⟨⟨rfl, ha⟩, hlog⟩ -
  exact hok a log' ha hlog

/-- The write of a config: it is done, or nothing is changed. -/
theorem keeps_write_bind {β : Type} {p : ConfigPath} {payload : B} {f : Unit → FileProg B Thrown β}
    {post : β → Disk B Dir → List (FileOp B × Outcome B) → Prop}
    (hrec : c.Recoverable before r disk)
    (hok : ((∃ done ∈ log, Call.IsWrite done.1) → c.source ≠ c.destination) → ∀ o, c.Does before
      (ends post fun thrown disk' _ => c.Recoverable before thrown.1 disk') (f ())
        (Function.update disk (c.sur.place p) (some payload)) (log ++ [(.writeJsonFile p payload, o)])) :
    c.Does before (ends post fun thrown disk' _ => c.Recoverable before thrown.1 disk')
      (attempt r (.ask (.writeJsonFile p payload) Prog.ofExcept) >>= f) disk log := by
  refine ⟨fun _ => hrec.kept, fun o a disk' hcareful heffect => ?_⟩
  rcases effect_writeJsonFile heffect with ⟨rfl, rfl, rfl⟩ | ⟨e, rfl, rfl⟩
  · exact hok (hcareful.writes trivial rfl) _
  · exact ⟨fun _ => hrec.kept, hrec⟩

/-- The destination is written as a whole, or not at all. -/
theorem keeps_writeDestination (hdocs : c.Documents before) (hplan : c.Planned before plan)
    (hnames : plan.serverNames ≠ []) (h : c.BackingUp before r disk)
    (hsaved : ∀ p, p = c.sourcePath ∨ p = c.destinationPath → (before (c.sur.place p)).isSome →
      (r.backupByOriginal.lookup p).isSome) :
    c.Does before (ends
        (fun x disk' log' => (∃ cfg, c.Written before plan x.1 disk' x.2.1 x.2.2 cfg) ∧
          ∃ done ∈ log', Call.IsWrite done.1)
        fun thrown disk' _ => c.Recoverable before thrown.1 disk')
      (writeDestination c.sur.text plan r) disk log := by
  have hrec := h.recoverable hdocs
  have hsource : (before c.source).isSome := by
    rcases hplan.names with ⟨-, hnone⟩ | ⟨hsome, -⟩
    · exact absurd hnone hnames
    · exact hsome
  have hC : ∀ log, c.CrashOutside before disk log → c.Kept before disk := fun _ _ => hrec.kept
  unfold writeDestination
  rw [hplan.sourcePath, hplan.destinationPath]
  refine keeps_attempt_bind hrec (keeps_readJsonFile hC c.sourcePath) fun sourceCfg log hread _ => ?_
  have hcfg : c.docAt before c.source = some sourceCfg :=
    (docAt_congr h.unchanged.1).symm.trans (hread sourceCfg rfl)
  refine keeps_attempt_bind hrec (keeps_ofExcept (hC _) _) fun servers log hservers _ => ?_
  refine (keeps_existsSync hC c.destinationPath).bind ?_ fun e d l hno => nomatch hno.2
  rintro destExistedBefore disk log ⟨rfl, hexisted⟩ -
  refine keeps_attempt_bind hrec (keeps_readJsonFile hC c.destinationPath) fun dest log hread' _ => ?_
  have hdest : c.docAt before c.destination = some dest :=
    (docAt_congr h.unchanged.2).symm.trans (hread' dest rfl)
  refine keeps_attempt_bind hrec (keeps_ofExcept (hC _) _) fun destServers log hmap _ => ?_
  refine keeps_attempt_bind hrec (keeps_ofExcept (hC _) _) fun merged log hmerge _ => ?_
  refine keeps_attempt_bind hrec (keeps_ofExcept (hC _) _) fun cfg log hwith _ => ?_
  have hexisted : destExistedBefore = (before c.destination).isSome :=
    (Except.ok.inj hexisted).trans (congrArg Option.isSome h.unchanged.2)
  -- the destination is created exactly when there is no backup of it
  have harmed : c.Armed before (if destExistedBefore then r
      else { r with created := r.created ++ [c.destinationPath] }) disk := by
    cases destExistedBefore with
    | true =>
      refine ⟨h.ok, h.byOriginal, h.backups, hsaved, ?_⟩
      rintro p (rfl | rfl) hnone
      · exact absurd hnone (Option.isSome_iff_ne_none.1 hsource)
      · exact absurd hnone (Option.isSome_iff_ne_none.1 hexisted.symm)
    | false =>
      refine ⟨h.ok, h.byOriginal, h.backups, hsaved, ?_⟩
      rintro p (rfl | rfl) hnone
      · exact absurd hnone (Option.isSome_iff_ne_none.1 hsource)
      · exact List.mem_append_right _ (List.mem_singleton_self _)
  refine keeps_write_bind (harmed.recoverable hrec.kept) fun _ o => ?_
  generalize (if destExistedBefore then r
    else { r with created := r.created ++ [c.destinationPath] }) = r' at harmed ⊢
  have harmed' := harmed.update (l := c.destination)
    (b := some (c.sur.text.stringify cfg)) (.inr rfl)
  have hwritten : c.Written before plan { r' with outcome := { r'.outcome with
      wroteDestination := true, movedServerNames := plan.serverNames } }
      (Function.update disk c.destination (some (c.sur.text.stringify cfg))) sourceCfg servers cfg :=
    { armed := ⟨harmed'.ok, harmed'.byOriginal, harmed'.backups, harmed'.saved, harmed'.created⟩
      source := fun hne => (Function.update_of_ne hne _ _).trans h.unchanged.1
      docAt_source := hcfg
      toServerMap_source := hservers.symm
      merges := ⟨dest, destServers, merged, hdest, hmap.symm, hmerge.symm, hwith.symm⟩
      destination := Function.update_self _ _ _ }
  refine ⟨fun _ => hwritten.kept hdocs hplan hnames, ⟨cfg, hwritten⟩, ?_⟩
  exact ⟨_, List.mem_append_right _ (List.mem_singleton_self _), trivial⟩

end

/-! ## The verification of the destination -/

theorem isSome_of_verifyEntries {path : NodePath} {plan : MigrationPlan} {servers : Json}
    {names : List String} (h : verifyEntries path plan servers names = .ok ()) :
    ∀ name ∈ names, (servers.get name).isSome := by
  induction names with
  | nil => exact fun name hname => nomatch hname
  | cons name names ih =>
    rw [verifyEntries] at h
    cases hentry : verifyEntry path plan servers name with
    | error e => rw [hentry] at h; cases h
    | ok u =>
      rw [hentry] at h
      intro name' hname'
      rcases List.mem_cons.1 hname' with rfl | hname'
      · rw [verifyEntry] at hentry
        cases hget : servers.get name' with
        | some block => rfl
        | none => rw [hget] at hentry; cases hentry
      · exact ih h name' hname'

section
variable {B Dir : Type} [DecidableEq Dir] {c : Call B Dir} {before disk : Disk B Dir}
  {log : List (FileOp B × Outcome B)} {r : Progress} {plan : MigrationPlan}
  {sourceCfg servers cfg : Json}

theorem keeps_fault_bind {β : Type} {f : Unit → FileProg B Thrown β}
    {post : β → Disk B Dir → List (FileOp B × Outcome B) → Prop}
    (hrec : c.Recoverable before r disk) (s : MigrationStep)
    (hok : ∀ log', log <+: log' → c.Does before
      (ends post fun thrown disk' _ => c.Recoverable before thrown.1 disk') (f ()) disk log') :
    c.Does before (ends post fun thrown disk' _ => c.Recoverable before thrown.1 disk')
      (fault r s >>= f) disk log := by
  unfold fault
  exact keeps_attempt_bind hrec (keeps_fault (fun _ _ => hrec.kept) s) fun _ log' _ => hok log'

/-- The verification finds the entries in what has been written. -/
theorem keeps_verifyDestination (hdocs : c.Documents before) (hplan : c.Planned before plan)
    (hnames : plan.serverNames ≠ []) (h : c.Written before plan r disk sourceCfg servers cfg) :
    c.Does before (ends
        (fun _ disk' _ => disk' = disk ∧ ∀ name ∈ plan.serverNames, (serverOf cfg name).isSome)
        fun thrown disk' _ => c.Recoverable before thrown.1 disk')
      (verifyDestination c.sur plan r) disk log := by
  have hkept := h.kept hdocs hplan hnames
  have hrec := h.armed.recoverable hkept
  have hC : ∀ log, c.CrashOutside before disk log → c.Kept before disk := fun _ _ => hkept
  have hdoc : c.docAt disk c.destination = some cfg :=
    docAt_of_written hdocs (h.merges.textual hdocs h.docAt_source h.toServerMap_source)
      h.destination
  unfold verifyDestination
  rw [hplan.destinationPath]
  refine keeps_attempt_bind hrec (keeps_readJsonFile hC c.destinationPath) fun cfg' log hread _ => ?_
  obtain rfl : cfg = cfg' := Option.some.inj (hdoc.symm.trans (hread cfg' rfl))
  refine keeps_attempt_bind hrec (keeps_ofExcept (hC _) _) fun verifyServers log hmap _ => ?_
  refine (keeps_attempt_reads hrec (keeps_ofExcept (hC _) _)).mono ?_
  rintro (thrown | u) disk' log' hpost
  · exact hpost
  · obtain ⟨⟨rfl, hverified⟩, -⟩ := hpost
    refine ⟨rfl, fun name hname => ?_⟩
    rw [← get_toServerMap hmap.symm]
    exact isSome_of_verifyEntries hverified.symm name hname

end

/-! ## The removal from the source -/

/-- The entries are moved, and the source has no more of them to move. -/
structure Call.Settled {B Dir : Type} (c : Call B Dir) (before disk : Disk B Dir) : Prop where
  moved : c.Moved before disk
  quiet : ∀ cfg servers names, c.docAt disk c.source = some cfg → toServerMap cfg = .ok servers →
    findRepoCognisEntries c.sur.path servers c.repoRoot
      (deriveMcpServerName c.sur.path c.repoRoot) = .ok names → names = []

section
variable {B Dir : Type} {c : Call B Dir} {before disk disk' : Disk B Dir}

theorem Call.Settled.kept (h : c.Settled before disk) : c.Kept before disk :=
  fun e he => .inr (h.moved.moved e he)

/-- Only the two configs matter. -/
theorem Call.Settled.congr (h : c.Settled before disk) (hconfigs : c.Unchanged disk disk') :
    c.Settled before disk' := by
  have hsource := docAt_congr (c := c) hconfigs.1
  have hdestination := docAt_congr (c := c) hconfigs.2
  have hserver : ∀ name, c.serverAt disk' c.source name = c.serverAt disk c.source name ∧
      c.serverAt disk' c.destination name = c.serverAt disk c.destination name := fun name => by
    simp only [Call.serverAt, hsource, hdestination, and_self]
  have hkey : ∀ key, c.topLevelAt disk' c.source key = c.topLevelAt disk c.source key ∧
      c.topLevelAt disk' c.destination key = c.topLevelAt disk c.destination key := fun key => by
    simp only [Call.topLevelAt, hsource, hdestination, and_self]
  refine ⟨⟨fun e he => ?_, fun hne e he => ?_, fun name hname => ?_, fun key hk => ?_⟩, ?_⟩
  · exact (hserver e.1).2.trans (h.moved.moved e he)
  · exact (hserver e.1).1.trans (h.moved.removed hne e he)
  · obtain ⟨hd, hs⟩ := h.moved.others name hname
    exact ⟨(hserver name).2.trans hd, (hserver name).1.trans hs⟩
  · obtain ⟨hd, hs⟩ := h.moved.keys key hk
    exact ⟨(hkey key).2.trans hd, (hkey key).1.trans hs⟩
  · rw [hsource]
    exact h.quiet

variable {r : Progress} {plan : MigrationPlan} {sourceCfg sourceCfg' servers cfg : Json}

/-- The configs after both writes. -/
theorem settled_of_removed (hdocs : c.Documents before) (hplan : c.Planned before plan)
    (hnames : plan.serverNames ≠ []) (h : c.Written before plan r disk sourceCfg servers cfg)
    (hverified : ∀ name ∈ plan.serverNames, (serverOf cfg name).isSome)
    (hremove : withServers sourceCfg (removeServers plan.serverNames servers) = .ok sourceCfg')
    (hsource : c.docAt disk' c.source = some sourceCfg')
    (hdestination : c.docAt disk' c.destination = some cfg) : c.Settled before disk' := by
  obtain ⟨dest, destServers, merged, hdest, hmap, hmerge, hwith⟩ := h.merges
  obtain ⟨hservers, hdoc⟩ := isObject_of_names hdocs hplan hnames h.docAt_source h.toServerMap_source
  have hfound := isSome_of_mem_serverNames hdocs hplan h.docAt_source h.toServerMap_source
  obtain ⟨name₀, hname₀⟩ := List.exists_mem_of_ne_nil _ hnames
  obtain ⟨hcopied, hothers⟩ := merged_spec hfound hmap hmerge hwith (hverified name₀ hname₀)
  have hleft : ∀ name, serverOf sourceCfg' name =
      if name ∈ plan.serverNames then none else serverOf sourceCfg name := fun name => by
    rw [serverOf_withServers hremove, if_pos hdoc, get_removeServers,
      get_toServerMap h.toServerMap_source]
  have hmem : ∀ e ∈ c.matched before, e.1 ∈ plan.serverNames := fun e he => by
    rw [hplan.serverNames_eq]
    exact List.mem_map_of_mem he
  refine ⟨⟨fun e he => ?_, fun _ e he => ?_, fun name hname => ?_, fun key hkey => ?_⟩, ?_⟩
  · rw [Call.serverAt, hdestination, Option.bind_some, hcopied _ (hmem e he)]
    exact get_of_matched hdocs h.docAt_source h.toServerMap_source he
  · rw [Call.serverAt, hsource, Option.bind_some, hleft, if_pos (hmem e he)]
  · rw [← hplan.serverNames_eq] at hname
    simp only [Call.serverAt, hsource, hdestination, h.docAt_source, hdest, Option.bind_some]
    exact ⟨hothers name hname, (hleft name).trans (if_neg hname)⟩
  · simp only [Call.topLevelAt, hsource, hdestination, h.docAt_source, hdest, Option.bind_some]
    exact ⟨get_withServers hwith hkey, get_withServers hremove hkey⟩
  · intro cfg₁ servers₁ names₁ hcfg₁ hservers₁ hfound₁
    obtain rfl := Option.some.inj (hsource.symm.trans hcfg₁)
    have hfoundNames := hplan.found hnames h.docAt_source h.toServerMap_source
    cases servers with
    | object entries =>
      rw [removeServers_object] at hremove
      obtain rfl := Except.ok.inj ((toServerMap_withServers hdoc hremove).symm.trans hservers₁)
      have hnone := findInEntries_filter hfoundNames fun _ hname => hname
      exact (Except.ok.inj (hnone.symm.trans hfound₁)).symm
    | _ => cases hservers

end

section
variable {B Dir : Type} [DecidableEq Dir] {c : Call B Dir} {before disk : Disk B Dir}
  {log : List (FileOp B × Outcome B)} {r : Progress} {plan : MigrationPlan}
  {sourceCfg servers cfg : Json}

/-- The source is written as a whole, or not at all. -/
theorem keeps_removeSource (hdocs : c.Documents before) (hplan : c.Planned before plan)
    (hnames : plan.serverNames ≠ []) (h : c.Written before plan r disk sourceCfg servers cfg)
    (hverified : ∀ name ∈ plan.serverNames, (serverOf cfg name).isSome)
    (hlog : ∃ done ∈ log, Call.IsWrite done.1) :
    c.Does before (ends
        (fun r' disk' _ => c.Armed before r' disk' ∧ c.Settled before disk')
        fun thrown disk' _ => c.Recoverable before thrown.1 disk')
      (removeSource c.sur.text plan r sourceCfg servers) disk log := by
  have hkept := h.kept hdocs hplan hnames
  have hrec := h.armed.recoverable hkept
  unfold removeSource
  rw [hplan.sourcePath]
  refine keeps_attempt_bind hrec (keeps_ofExcept (fun _ => hkept) _) fun sourceCfg' log' hremove hgrows => ?_
  refine keeps_write_bind hrec fun hdistinct o => ?_
  obtain ⟨done, hdone, hwrite⟩ := hlog
  have hne : c.source ≠ c.destination := hdistinct ⟨done, hgrows.subset hdone, hwrite⟩
  have hdest : c.docAt disk c.destination = some cfg :=
    docAt_of_written hdocs (h.merges.textual hdocs h.docAt_source h.toServerMap_source)
      h.destination
  have htext : Textual sourceCfg' :=
    (hdocs.source _ h.docAt_source).withServers
      (((hdocs.source _ h.docAt_source).toServerMap h.toServerMap_source).removeServers _)
      hremove.symm
  have hsettled : c.Settled before
      (Function.update disk c.source (some (c.sur.text.stringify sourceCfg'))) := by
    refine settled_of_removed hdocs hplan hnames h hverified hremove.symm ?_ ?_
    · exact docAt_of_written hdocs htext (Function.update_self _ _ _)
    · exact (docAt_congr (Function.update_of_ne hne.symm _ _)).trans hdest
  have harmed := h.armed.update (l := c.source) (b := some (c.sur.text.stringify sourceCfg')) (.inl rfl)
  exact ⟨fun _ => hsettled.kept,
    ⟨harmed.ok, harmed.byOriginal, harmed.backups, harmed.saved, harmed.created⟩, hsettled⟩

theorem keeps_verifySource (hplan : c.Planned before plan) (harmed : c.Armed before r disk)
    (hkept : c.Kept before disk) :
    c.Does before (ends (fun _ disk' _ => disk' = disk)
        fun thrown disk' _ => c.Recoverable before thrown.1 disk')
      (verifySource c.sur plan r) disk log := by
  have hrec := harmed.recoverable hkept
  unfold verifySource
  rw [hplan.sourcePath]
  refine keeps_attempt_bind hrec (keeps_readJsonFile (fun _ _ => hkept) c.sourcePath)
    fun cfg log _ _ => ?_
  refine keeps_attempt_bind hrec (keeps_ofExcept (fun _ => hkept) _) fun sourceVerify log _ _ => ?_
  split
  · exact ⟨fun _ => hkept, hrec⟩
  · exact ⟨fun _ => hkept, rfl⟩

/-- The removal of the backups leaves the configs. -/
theorem keeps_dropBackups {ε : Type} {backups : List MigrationBackup}
    (hbackups : ∀ b ∈ backups, c.sur.place b.backupPath ≠ c.source ∧
      c.sur.place b.backupPath ≠ c.destination) (h : c.Settled before disk) :
    c.Does before (fun x disk' _ => x = .ok () ∧ c.Settled before disk')
      (dropBackups backups : FileProg B ε Unit) disk log := by
  induction backups generalizing disk log with
  | nil => exact ⟨fun _ => h.kept, rfl, h⟩
  | cons backup backups ih =>
    refine ⟨fun _ => h.kept, fun o a disk' _ heffect => ?_⟩
    refine ih (fun b hb => hbackups b (List.mem_cons_of_mem _ hb)) ?_
    obtain ⟨hsource, hdestination⟩ := hbackups backup List.mem_cons_self
    rcases effect_rmSync heffect with rfl | ⟨e, -, rfl⟩
    · exact h.congr ⟨Function.update_of_ne hsource.symm _ _,
        Function.update_of_ne hdestination.symm _ _⟩
    · exact h

/-! ## The migration -/

/-- The body succeeds with the entries moved, or throws where the rollback has what it needs. -/
theorem keeps_migrateBody (hdocs : c.Documents before) (hplan : c.Planned before plan)
    (hnames : plan.serverNames ≠ []) (h : c.BackingUp before r disk) :
    c.Does before (ends (fun outcome disk' _ => outcome.ok = true ∧ c.Settled before disk')
        fun thrown disk' _ => c.Recoverable before thrown.1 disk')
      (migrateBody c.sur c.options plan r) disk log := by
  unfold migrateBody
  rw [hplan.sourcePath, hplan.destinationPath]
  refine keeps_fault_bind (h.recoverable hdocs) .planned fun log _ => ?_
  refine (keeps_backUp hdocs.source hplan.host h (.inl rfl) _).bind ?_
    fun thrown disk log hthrown => hthrown.recoverable hdocs
  rintro r disk log ⟨h, hsource, -⟩ -
  refine (keeps_backUp hdocs.source hplan.host h (.inr rfl) _).bind ?_
    fun thrown disk log hthrown => hthrown.recoverable hdocs
  rintro r disk log ⟨h, hdestination, hmore⟩ -
  refine keeps_fault_bind (h.recoverable hdocs) .backedUp fun log _ => ?_
  have hsaved : ∀ p, p = c.sourcePath ∨ p = c.destinationPath → (before (c.sur.place p)).isSome →
      (r.backupByOriginal.lookup p).isSome := by
    rintro p (rfl | rfl) hsome
    · exact hmore _ (hsource hsome)
    · exact hdestination hsome
  refine (keeps_writeDestination hdocs hplan hnames h hsaved).bind ?_ fun _ _ _ hthrown => hthrown
  rintro ⟨r, sourceCfg, servers⟩ disk log ⟨⟨cfg, hwritten⟩, hlog⟩ -
  have hrec := hwritten.armed.recoverable (hwritten.kept hdocs hplan hnames)
  refine keeps_fault_bind hrec .wroteDestination fun log₁ hlog₁ => ?_
  refine (keeps_verifyDestination hdocs hplan hnames hwritten).grows.bind ?_
    fun _ _ _ hthrown => hthrown.1
  rintro u disk log₂ ⟨⟨rfl, hverified⟩, hlog₂⟩ -
  refine keeps_fault_bind hrec .verifiedDestination fun log₃ hlog₃ => ?_
  obtain ⟨done, hdone, hwrite⟩ := hlog
  have hlog : ∃ done ∈ log₃, Call.IsWrite done.1 :=
    ⟨done, (hlog₁.trans (hlog₂.trans hlog₃)).subset hdone, hwrite⟩
  refine (keeps_removeSource hdocs hplan hnames hwritten hverified hlog).bind ?_
    fun _ _ _ hthrown => hthrown
  rintro r disk log ⟨harmed, hsettled⟩ -
  have hrec := harmed.recoverable hsettled.kept
  refine keeps_fault_bind hrec .removedSource fun log _ => ?_
  refine (keeps_verifySource hplan harmed hsettled.kept).bind ?_ fun _ _ _ hthrown => hthrown
  rintro u disk log rfl -
  refine keeps_fault_bind hrec .verifiedSource fun log _ => ?_
  split
  · exact ⟨fun _ => hsettled.kept, rfl, hsettled⟩
  · refine (keeps_dropBackups harmed.backups hsettled).bind ?_ fun _ _ _ hno => nomatch hno.1
    rintro u disk log ⟨-, hsettled⟩ -
    exact ⟨fun _ => hsettled.kept, rfl, hsettled⟩

/-- What the migration does, from its first operation on. -/
theorem keeps_migrate (hdocs : c.Documents before) (inProgress : Bool) :
    c.Does before (ends
        (fun outcome disk' _ =>
          (outcome.ok = true → c.options.dryRun = false → c.Settled before disk') ∧
            (outcome.ok = false → c.Unchanged before disk'))
        fun _ disk' _ => c.Unchanged before disk')
      (migrateGlobalEntryToWorkspace c.sur c.repoRoot c.options inProgress) before log := by
  have hkept : c.Kept before before := kept_of_source hdocs.source rfl
  unfold migrateGlobalEntryToWorkspace
  refine (keeps_planMigration fun _ _ => hkept).bind ?_ fun e disk log h => ?_
  · rintro plan disk log ⟨rfl, hplan⟩ -
    have hplan := hplan plan rfl
    dsimp only
    split
    next hdry =>
      refine ⟨fun _ => hkept, fun _ hwet => ?_, nofun⟩
      rw [hdry] at hwet
      cases hwet
    next =>
      by_cases hnames : plan.serverNames = []
      · have hstay : plan.willMoveEntry = false := by rw [MigrationPlan.willMoveEntry, hnames]; rfl
        rw [hstay, Bool.not_false, if_pos rfl]
        refine ⟨fun _ => hkept, fun _ _ => ?_, nofun⟩
        have hmatched : c.matched disk = [] :=
          List.map_eq_nil_iff.1 (hplan.serverNames_eq.symm.trans hnames)
        refine ⟨⟨?_, ?_, fun _ _ => ⟨rfl, rfl⟩, fun _ _ => ⟨rfl, rfl⟩⟩, ?_⟩
        · rw [hmatched]
          exact nofun
        · rw [hmatched]
          exact fun _ => nofun
        · intro cfg servers names hcfg hservers hfound
          exact (hplan.eq_serverNames hcfg hservers hfound).trans hnames
      · have hmove : plan.willMoveEntry = true := by
          rw [MigrationPlan.willMoveEntry, List.isEmpty_eq_false_iff.2 hnames]
          rfl
        rw [hmove, Bool.not_true, if_neg Bool.false_ne_true]
        split
        · exact ⟨fun _ => hkept, nofun, fun _ => ⟨rfl, rfl⟩⟩
        · have hbackingUp : c.BackingUp disk { outcome := { dryRun := c.options.dryRun, plan } } disk :=
            ⟨⟨rfl, rfl⟩, rfl, rfl, nofun, nofun⟩
          refine (keeps_migrateBody hdocs hplan hnames hbackingUp).tryCatch ?_ ?_
          · rintro outcome disk' log ⟨hok, hsettled⟩
            exact ⟨fun _ _ => hsettled, fun hno => absurd hno (by rw [hok]; decide)⟩
          · rintro thrown disk' log hrec -
            refine (keeps_rollback hdocs.source hplan hrec.source hrec.destination hrec.kept).mono ?_
            rintro x disk' log ⟨outcome, rfl, hok, hunchanged⟩
            exact ⟨fun hyes => absurd hyes (by rw [hok, hrec.ok]; decide), fun _ => hunchanged⟩
  · obtain ⟨rfl, -⟩ := h
    exact ⟨rfl, rfl⟩

end

section
variable {B Dir : Type} [DecidableEq Dir] {c : Call B Dir} {before disk : Disk B Dir}

/-- A migration of files where there is nothing to move changes no file. -/
theorem Call.Settled.again (h : c.Settled before disk) {inProgress : Bool}
    {labels : List (Label (Outcome B))} {m : Call.Process B Dir}
    (hrun : exec (step (effect c.sur)) (c.start disk inProgress) labels = some m) :
    m.disk = disk := (keeps_of_none inProgress h.quiet).exec_cut rfl hrun

/-- **A migration is atomic**, in every run whose steps take none of the ways in which entries
    are lost. -/
theorem migration_atomic (c : Call B Dir) {before : Disk B Dir} (hdocs : c.Documents before)
    (inProgress : Bool) {labels : List (Label (Outcome B))} {m : Call.Process B Dir}
    (hrun : exec (step (effect c.sur)) (c.start before inProgress) labels = some m)
    (hsafe : Always (step (effect c.sur)) (c.Safe before) (c.start before inProgress) labels) :
    c.Atomic before m := by
  obtain ⟨hgoes, hcrashed⟩ := (keeps_migrate hdocs inProgress).exec rfl hrun hsafe
  have hends : ∀ outcome, m.crashed = false → m.rest = .done outcome →
      (outcome.ok = true → c.options.dryRun = false → c.Settled before m.disk) ∧
        (outcome.ok = false → c.Unchanged before m.disk) := fun outcome hc hrest => by
    have h := hgoes hc
    rw [hrest] at h
    exact h.2
  refine ⟨fun outcome hc hrest hok hwet => ?_, fun outcome hc hrest hok hwet => ?_,
    fun outcome hc hrest hok => ?_, fun e hc hrest => ?_, fun hc => ?_⟩
  · exact ((hends outcome hc hrest).1 hok hwet).moved
  · exact fun inProgress labels m' hrun' => ((hends outcome hc hrest).1 hok hwet).again hrun'
  · exact (hends outcome hc hrest).2 hok
  · have h := hgoes hc
    rw [hrest] at h
    exact h.2
  · obtain ⟨hkept, houtside⟩ := hcrashed hc
    exact hkept houtside

end

/-- Where the configs are two files and nothing fails, the steps are safe. -/
theorem always_safe {B Dir : Type} [DecidableEq Dir] {c : Call B Dir} {before : Disk B Dir}
    (hne : c.source ≠ c.destination) {labels : List (Label (Outcome B))}
    (h : ∀ label ∈ labels, ∃ o, label = .request o ∧ ∀ message, o ≠ .fails message)
    (m : Call.Process B Dir) : Always (step (effect c.sur)) (c.Safe before) m labels := by
  refine (always_of_forall h m).of_invariant (I := fun _ => True) (fun _ _ _ _ _ _ => trivial)
    (fun m label _ hlabel => ?_) trivial
  obtain ⟨o, rfl, ho⟩ := hlabel
  exact fun _ _ _ => ⟨fun _ => ho, fun _ _ _ => hne⟩

/-! ### A migration of a repository of the home directory -/

/-- Paths in lower case, of a system without drives. -/
def slashPath : NodePath := ⟨fun parts => "/".intercalate parts, id, id⟩

/-- Files that hold the documents themselves. -/
def documentText : JsonText Json := ⟨fun _ => false, some, id⟩

def cursorCall (repoRoot : String) : Call Json String where
  sur := ⟨slashPath, .other, none, id, documentText⟩
  repoRoot := repoRoot
  options := { host := "cursor", homeDir := "/home/ada", timestamp := "2026-01-01T00-00-00-000Z" }

/-- A config with two entries and another key. -/
def configWith (name : String) : Json :=
  .object [("mcpServers", .object [(name, .object [("command", .string "node")]),
    ("docs", .object [("url", .string "http://localhost")])]), ("inputs", .array [])]

/-- The entry of the repository is in the source. -/
def beforeMove (repoRoot : String) : Disk Json String := fun l =>
  if l = (cursorCall repoRoot).source then
    some (configWith (deriveMcpServerName slashPath repoRoot))
  else if l = (cursorCall repoRoot).destination then some (configWith "git")
  else none

/-- A run in which every operation is done, and the `k`-th name is free for the second backup. -/
def movingRun (k : ℕ) : List (Label (Outcome Json)) :=
  List.replicate 6 (.request .ok) ++ [.request (.suffix 0), .request (.torn .null)] ++
    List.replicate 2 (.request .ok) ++ [.request (.suffix k), .request (.torn .null)] ++
      List.replicate 19 (.request .ok)

/-- What has become of the migration of a repository. -/
def moved (repoRoot : String) (k : ℕ) : Option (Call.Process Json String) :=
  exec (step (effect (cursorCall repoRoot).sur))
    ((cursorCall repoRoot).start (beforeMove repoRoot) false) (movingRun k)

def succeeded (m : Call.Process Json String) : Bool :=
  match m.rest with
  | .done outcome => outcome.ok && !m.crashed
  | _ => false

theorem exists_of_succeeded {m : Call.Process Json String} (h : succeeded m = true) :
    ∃ outcome, m.crashed = false ∧ m.rest = .done outcome ∧ outcome.ok = true := by
  unfold succeeded at h
  split at h
  next outcome hrest =>
    obtain ⟨hok, hcrashed⟩ := Bool.and_eq_true_iff.1 h
    exact ⟨outcome, by simpa using hcrashed, hrest, hok⟩
  next => cases h

theorem textual_configWith {name : String} (h : name ≠ "docs") : Textual (configWith name) := by
  have hentry : ∀ key s, Textual (.object [(key, .string s)]) := fun key s =>
    .object _ (by simp) fun e he => by
      rw [List.mem_singleton.1 he]
      exact .string s
  refine .object _ (by simp) fun e he => ?_
  rcases List.mem_pair.1 he with rfl | rfl
  · refine .object _ (by simpa using h) fun e he => ?_
    rcases List.mem_pair.1 he with rfl | rfl
    · exact hentry _ _
    · exact hentry _ _
  · exact .array [] nofun

theorem documents_beforeMove {repoRoot : String}
    (h : deriveMcpServerName slashPath repoRoot ≠ "docs") :
    (cursorCall repoRoot).Documents (beforeMove repoRoot) := by
  have htext : ∀ l cfg, (cursorCall repoRoot).docAt (beforeMove repoRoot) l = some cfg →
      Textual cfg := by
    intro l cfg hcfg
    unfold Call.docAt Surroundings.docAt beforeMove at hcfg
    split at hcfg
    next => exact Option.some.inj hcfg ▸ .object [] List.nodup_nil nofun
    next raw hraw =>
      obtain rfl : raw = cfg := Option.some.inj hcfg
      split at hraw
      · exact Option.some.inj hraw ▸ textual_configWith h
      · split at hraw
        · exact Option.some.inj hraw ▸ textual_configWith (by decide)
        · cases hraw
  exact ⟨⟨fun _ _ => rfl, fun _ _ => rfl⟩, htext _, htext _⟩

theorem migration_atomic_repo : ∃ m outcome, moved "/home/ada/repo" 0 = some m ∧
    m.crashed = false ∧ m.rest = .done outcome ∧ outcome.ok = true ∧
      (cursorCall "/home/ada/repo").Atomic (beforeMove "/home/ada/repo") m := by
  have hsuccess : (moved "/home/ada/repo" 0).any succeeded = true := by decide +kernel
  obtain ⟨m, hrun, hm⟩ := (Option.any_eq_true _ _).1 hsuccess
  obtain ⟨outcome, hcrashed, hrest, hok⟩ := exists_of_succeeded hm
  have hfine : ∀ label ∈ movingRun 0, ∃ o, label = .request o ∧ ∀ message, o ≠ .fails message := by
    intro label h
    simp only [movingRun, List.mem_append, List.mem_replicate, List.mem_pair] at h
    rcases h with (((⟨-, rfl⟩ | rfl | rfl) | ⟨-, rfl⟩) | rfl | rfl) | ⟨-, rfl⟩
    all_goals exact ⟨_, rfl, nofun⟩
  refine ⟨m, outcome, hrun, hcrashed, hrest, hok, ?_⟩
  exact migration_atomic _ (documents_beforeMove (by decide +kernel)) false hrun
    (always_safe (by decide +kernel) hfine _)

/-- Every migration is atomic, whatever happens in it. -/
def AlwaysAtomic : Prop :=
  ∀ (B Dir : Type) [DecidableEq Dir] (c : Call B Dir) (before : Disk B Dir), c.Documents before →
    ∀ (inProgress : Bool) (labels : List (Label (Outcome B))) (m : Call.Process B Dir),
      exec (step (effect c.sur)) (c.start before inProgress) labels = some m → c.Atomic before m

/-- The repository is the home directory, and both configs are one file: the entry is lost. -/
theorem not_migration_atomic : ¬ AlwaysAtomic := by
  intro hall
  let c := cursorCall "/home/ada"
  have hlost : (moved "/home/ada" 1).any (fun m => succeeded m &&
      (c.matched (beforeMove "/home/ada")).any fun e =>
        (c.serverAt m.disk c.destination e.1).isNone) = true := by
    decide +kernel
  obtain ⟨m, hrun, hm⟩ := (Option.any_eq_true _ _).1 hlost
  obtain ⟨hsuccess, hm⟩ := Bool.and_eq_true_iff.1 hm
  obtain ⟨e, he, hnone⟩ := List.any_eq_true.1 hm
  obtain ⟨outcome, hcrashed, hrest, hok⟩ := exists_of_succeeded hsuccess
  have hdocs : c.Documents (beforeMove "/home/ada") := documents_beforeMove (by decide +kernel)
  have hmoved := (hall _ _ c _ hdocs false _ m hrun).success outcome hcrashed hrest hok rfl
  rw [hmoved.moved e he] at hnone
  cases hnone

end Cognis.Extension.Migration
