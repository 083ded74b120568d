/-
  The MCP config documents (`mcpConfig.ts`), their paths (`mcpConfigPaths.ts`) and the entries
  that belong to a repository (`mcpServerName.ts`, `mcpEnv.ts`, `mcpConfigMigrate.ts`).

  A document is the value that `JSON.parse` returns, with a number by its text in JavaScript;
  a property that a text of JSON cannot show, such as a named one of an array, is left out.

  * `serverOf` and `topLevel` read a document, `findRepoCognisEntries` finds the entries;
  * `mergeServers`, `removeServers` and `withServers` are the changes of a migration;
  * `mergeServers_spec`, `get_removeServers`, `findInEntries_filter`: what the changed documents
    hold;
  * `Textual` is about the documents that their text determines.
-/
import Cognis.Lib.Json
import Mathlib.Data.List.DropRight
import Mathlib.Data.List.Lex
import Mathlib.Data.String.Basic

namespace Cognis.Extension

/-- The module `path`, and the case mapping of the strings. -/
structure NodePath where
  join : List String → String
  resolve : String → String
  toLowerCase : String → String

/-! ## Paths -/

/-- The path of a config file: its directory and its name. -/
structure ConfigPath where
  dir : String
  base : String
  deriving DecidableEq

/-- `process.platform`, as far as the paths ask for it. -/
inductive NodePlatform where
  | win32 | darwin | other
  deriving DecidableEq

section
variable (path : NodePath)

def getGlobalMcpConfigPath (platform : NodePlatform) (appData : Option String)
    (host homeDir : String) : ConfigPath :=
  match host with
  | "cursor" => ⟨path.join [homeDir, ".cursor"], "mcp.json"⟩
  | "vscode" => ⟨path.join [homeDir, ".vscode"], "mcp.json"⟩
  | "kiro" => ⟨path.join [homeDir, ".kiro", "settings"], "mcp.json"⟩
  | "claude" =>
    match platform with
    | .win32 => ⟨path.join [appData.getD homeDir, "Claude"], "claude_desktop_config.json"⟩
    | .darwin =>
      ⟨path.join [homeDir, "Library", "Application Support", "Claude"],
        "claude_desktop_config.json"⟩
    | .other => ⟨path.join [homeDir, ".config", "Claude"], "claude_desktop_config.json"⟩
  | _ => ⟨path.join [homeDir, ".vscode"], "mcp.json"⟩

def getWorkspaceMcpConfigPath (repoRoot host : String) : Option ConfigPath :=
  match host with
  | "cursor" => some ⟨path.join [repoRoot, ".cursor"], "mcp.json"⟩
  | "vscode" => some ⟨path.join [repoRoot, ".vscode"], "mcp.json"⟩
  | "kiro" => some ⟨path.join [repoRoot, ".kiro", "settings"], "mcp.json"⟩
  | _ => none

/-! ## Server names -/

/-- `replace(/\\/g, "/")` -/
def forwardSlashes (s : String) : String := s.map fun c => if c = '\\' then '/' else c

/-- One byte of the hash, of 32 bits. -/
def fnvStep (hash : ℕ) (b : UInt8) : ℕ := (hash ^^^ b.toNat) * 0x01000193 % 2 ^ 32

def shortPathHash (resolvedPath : String) : String :=
  let norm := path.toLowerCase (forwardSlashes resolvedPath)
  let hash := norm.toUTF8.toList.foldl fnvStep 0x811c9dc5
  let digits := Nat.toDigits 16 hash
  .ofList ((List.replicate (8 - digits.length) '0' ++ digits).take 6)

/-- Runs of other characters become one `-`, and none stands at an end. -/
def slugOf (base : List Char) : List Char :=
  let kept := fun c : Char => decide (('a' ≤ c ∧ c ≤ 'z') ∨ ('0' ≤ c ∧ c ≤ '9'))
  let words := (base.splitOnP fun c => !kept c).filter (· ≠ [])
  ['-'].intercalate words

def deriveMcpServerName (repoRoot : String) : String :=
  let resolved := path.resolve repoRoot
  let normalized := (forwardSlashes resolved).toList.rdropWhile (· = '/')
  let base := path.toLowerCase (.ofList (normalized.rtakeWhile (· ≠ '/')))
  let slug := slugOf base.toList
  "cognis-" ++ (if slug = [] then "repo" else .ofList slug) ++ "-" ++ shortPathHash path resolved

def isCognisMcpServerName (name : String) : Bool :=
  name = "cognis" || "cognis-".toList.isPrefixOf name.toList

/-! ## The repository of an entry -/

def expectedDbPathForRepo (repoRoot : String) : String :=
  path.resolve (path.join [repoRoot, ".cognis", "uckg.db"])

def normalizePathForCompare (filePath : String) : String :=
  path.toLowerCase (forwardSlashes (path.resolve filePath))

def pathsEqual (a b : String) : Bool :=
  normalizePathForCompare path a = normalizePathForCompare path b

/-- Whether a value counts as true in a condition. -/
def truthy : Json → Bool
  | .null => false
  | .bool b => b
  | .number literal => literal ≠ "0"
  | .string s => s ≠ ""
  | .array _ | .object _ => true

/-- `value ?? {}` -/
def orEmpty (value : Option Json) : Json := (value.bind Json.nonNull).getD (.object [])

/-- `block?.env ?? {}` -/
def envOrEmpty (block : Json) : Json := orEmpty (block.get "env")

/-- `value && !pathsEqual(value, expected)`: a path that is no string is an error. -/
def differs (value : Json) (expected : String) : Except String Bool :=
  if truthy value then
    match value with
    | .string s => .ok (!pathsEqual path s expected)
    | _ => .error "The \"path\" argument must be of type string."
  else .ok false

def envMatchesRepo (repoRoot : String) (env : Json) : Except String Bool := do
  let envDbPath := (env.get "COGNIS_DB_PATH").getD .null
  if !truthy envDbPath || (← differs path envDbPath (expectedDbPathForRepo path repoRoot)) then
    return false
  let property := fun key => (env.get key).bind Json.nonNull
  let envRoot :=
    (property "COGNIS_REPO_ROOT" <|> property "REPO_ROOT" <|> property "repo_root").getD .null
  return !(← differs path envRoot (path.resolve repoRoot))

/-- `name === canonicalServerName || envMatchesRepo(repoRoot, env)`, of a Cognis entry. -/
def belongsToRepo (repoRoot canonicalServerName name : String) (block : Json) :
    Except String Bool :=
  if isCognisMcpServerName name then
    if name = canonicalServerName then .ok true else envMatchesRepo path repoRoot (envOrEmpty block)
  else .ok false

/-- The loop over `Object.entries`. -/
def findInEntries (repoRoot canonicalServerName : String) :
    List (String × Json) → Except String (List String)
  | [] => .ok []
  | (name, block) :: entries => do
    let found ← belongsToRepo path repoRoot canonicalServerName name block
    let names ← findInEntries repoRoot canonicalServerName entries
    return if found then name :: names else names

/-- The keys of a value that is no object are indices, and none is the name of an entry. -/
def findRepoCognisEntries (sourceServers : Json) (repoRoot canonicalServerName : String) :
    Except String (List String) :=
  match sourceServers with
  | .object entries => findInEntries path repoRoot canonicalServerName entries
  | _ => .ok []

end

/-! ## Documents -/

/-- `toServerMap` -/
def toServerMap : Json → Except String Json
  | .null => .error "Cannot read properties of null (reading 'mcpServers')"
  | cfg => .ok (orEmpty (cfg.get "mcpServers"))

/-- The entries of an object with a value under a key. -/
def setEntry (key : String) (value : Json) : List (String × Json) → List (String × Json)
  | [] => [(key, value)]
  | e :: entries => if e.1 = key then (key, value) :: entries else e :: setEntry key value entries

/-- `target[key] = value`: an array does not show the property in its text. -/
def setProperty (target : Json) (key : String) (value : Json) : Except String Json :=
  match target with
  | .object entries => .ok (.object (setEntry key value entries))
  | .array items => .ok (.array items)
  | .null => .error ("Cannot set properties of null (setting '" ++ key ++ "')")
  | .bool b => .error (primitive ("boolean '" ++ toString b))
  | .number literal => .error (primitive ("number '" ++ literal))
  | .string s => .error (primitive ("string '" ++ s))
where
  primitive (value : String) : String :=
    "Cannot create property '" ++ key ++ "' on " ++ value ++ "'"

/-- `delete target[key]` -/
def deleteProperty (target : Json) (key : String) : Json :=
  match target with
  | .object entries => .object (entries.filter (·.1 ≠ key))
  | other => other

/-- The loop that copies the entries. What is undefined is not in the text. -/
def mergeServers (sourceServers : Json) : List String → Json → Except String Json
  | [], destServers => .ok destServers
  | name :: names, destServers => do
    let destServers ← match sourceServers.get name with
      | some block => setProperty destServers name block
      | none => .ok (deleteProperty destServers name)
    mergeServers sourceServers names destServers

/-- `delete sourceServers[name]`, of the names. -/
def removeServers (names : List String) (sourceServers : Json) : Json :=
  names.foldl deleteProperty sourceServers

/-- `cfg.mcpServers = servers` -/
def withServers (cfg servers : Json) : Except String Json := setProperty cfg "mcpServers" servers

/-- The entry of a document. -/
def serverOf (cfg : Json) (name : String) : Option Json := (cfg.get "mcpServers").bind (·.get name)

/-! ## What the changes do -/

def isObject : Json → Bool
  | .object _ => true
  | _ => false

theorem get_of_not_isObject {v : Json} (h : isObject v = false) (key : String) : v.get key = none := by
  cases v with
  | object entries => cases h
  | _ => rfl

theorem lookup_cons (e : String × Json) (entries : List (String × Json)) (k : String) :
    (e :: entries).lookup k = if k = e.1 then some e.2 else entries.lookup k := by
  rw [List.lookup_cons]
  by_cases hk : k = e.1
  · rw [if_pos hk, beq_iff_eq.2 hk]
  · rw [if_neg hk, beq_eq_false_iff_ne.2 hk]

theorem lookup_setEntry (key : String) (value : Json) (entries : List (String × Json))
    (k : String) : (setEntry key value entries).lookup k =
      if k = key then some value else entries.lookup k := by
  induction entries with
  | nil => exact lookup_cons _ _ k
  | cons e entries ih =>
    rw [setEntry]
    by_cases he : e.1 = key
    · rw [if_pos he, lookup_cons, lookup_cons, he]
      by_cases hk : k = key
      · rw [if_pos hk, if_pos hk]
      · rw [if_neg hk, if_neg hk, if_neg hk]
    · rw [if_neg he, lookup_cons, lookup_cons, ih]
      by_cases hk : k = e.1
      · rw [if_pos hk, if_pos hk, if_neg (hk ▸ he)]
      · rw [if_neg hk, if_neg hk]

theorem get_setProperty {target target' : Json} {key : String} {value : Json}
    (h : setProperty target key value = .ok target') : isObject target' = isObject target ∧
      ∀ k, target'.get k = if k = key ∧ isObject target then some value else target.get k := by
  cases target with
  | object entries =>
    obtain rfl := Except.ok.inj h
    refine ⟨rfl, fun k => ?_⟩
    simpa [isObject, Json.get] using lookup_setEntry key value entries k
  | array items =>
    obtain rfl := Except.ok.inj h
    exact ⟨rfl, fun k => by simp [isObject]⟩
  | _ => cases h

theorem lookup_filter_ne (key : String) (entries : List (String × Json)) (k : String) :
    (entries.filter (·.1 ≠ key)).lookup k = if k = key then none else entries.lookup k := by
  induction entries with
  | nil => exact (ite_self _).symm
  | cons e entries ih =>
    by_cases he : e.1 = key
    · rw [List.filter_cons_of_neg (by simpa using he), ih, lookup_cons, he]
      by_cases hk : k = key
      · rw [if_pos hk, if_pos hk]
      · rw [if_neg hk, if_neg hk, if_neg hk]
    · rw [List.filter_cons_of_pos (by simpa using he), lookup_cons, ih, lookup_cons]
      by_cases hk : k = e.1
      · rw [if_pos hk, if_pos hk, if_neg (hk ▸ he)]
      · rw [if_neg hk, if_neg hk]

theorem get_deleteProperty (target : Json) (key k : String) :
    (deleteProperty target key).get k = if k = key then none else target.get k := by
  cases target with
  | object entries => exact lookup_filter_ne key entries k
  | _ => exact (ite_self _).symm

theorem get_removeServers (names : List String) (servers : Json) (k : String) :
    (removeServers names servers).get k = if k ∈ names then none else servers.get k := by
  unfold removeServers
  induction names generalizing servers with
  | nil => simp
  | cons name names ih =>
    rw [List.foldl_cons, ih, get_deleteProperty]
    by_cases hk : k = name
    · simp [hk]
    · simp [hk]

theorem removeServers_object (names : List String) (entries : List (String × Json)) :
    removeServers names (.object entries) = .object (entries.filter (·.1 ∉ names)) := by
  unfold removeServers
  induction names generalizing entries with
  | nil => simp
  | cons name names ih =>
    rw [List.foldl_cons, deleteProperty, ih, List.filter_filter]
    simp only [List.mem_cons, not_or, Bool.decide_and, Bool.and_comm, ne_eq]

/-- The copied entries of an object; a value that is no object is as it was. -/
theorem mergeServers_spec {sourceServers destServers merged : Json} {names : List String}
    (hfound : ∀ name ∈ names, (sourceServers.get name).isSome)
    (h : mergeServers sourceServers names destServers = .ok merged) :
    isObject merged = isObject destServers ∧ ∀ k, merged.get k =
      if k ∈ names ∧ isObject destServers then sourceServers.get k else destServers.get k := by
  induction names generalizing destServers with
  | nil =>
    obtain rfl := Except.ok.inj h
    exact ⟨rfl, fun k => by simp⟩
  | cons name names ih =>
    obtain ⟨block, hblock⟩ := Option.isSome_iff_exists.1 (hfound name List.mem_cons_self)
    rw [mergeServers, hblock] at h
    dsimp only at h
    cases hset : setProperty destServers name block with
    | error e => rw [hset] at h; cases h
    | ok next =>
      rw [hset] at h
      obtain ⟨hobject, hget⟩ := get_setProperty hset
      obtain ⟨hmerged, hmget⟩ := ih (fun n hn => hfound n (List.mem_cons_of_mem _ hn)) h
      refine ⟨hmerged.trans hobject, fun k => ?_⟩
      rw [hmget, hget, hobject]
      by_cases hdest : isObject destServers = true
      · by_cases hk : k = name
        · simp [hk, hdest, hblock]
        · simp [hk, hdest]
      · simp [hdest]

theorem get_toServerMap {cfg servers : Json} (h : toServerMap cfg = .ok servers) (name : String) :
    servers.get name = serverOf cfg name := by
  have hservers : servers = orEmpty (cfg.get "mcpServers") := by
    cases cfg with
    | null => cases h
    | _ => exact (Except.ok.inj h).symm
  rw [hservers, serverOf, orEmpty]
  cases hget : cfg.get "mcpServers" with
  | none => rfl
  | some v => cases v <;> rfl

theorem serverOf_withServers {cfg cfg' servers : Json} (h : withServers cfg servers = .ok cfg')
    (name : String) :
    serverOf cfg' name = if isObject cfg then servers.get name else none := by
  obtain ⟨-, hget⟩ := get_setProperty h
  rw [serverOf, hget]
  by_cases hcfg : isObject cfg = true
  · simp [hcfg]
  · simp [hcfg, get_of_not_isObject (Bool.not_eq_true _ ▸ hcfg)]

theorem get_withServers {cfg cfg' servers : Json} (h : withServers cfg servers = .ok cfg')
    {key : String} (hkey : key ≠ "mcpServers") : cfg'.get key = cfg.get key := by
  rw [(get_setProperty h).2, if_neg fun hif => hkey hif.1]

theorem toServerMap_withServers {cfg cfg' : Json} {entries : List (String × Json)}
    (hcfg : isObject cfg = true) (h : withServers cfg (.object entries) = .ok cfg') :
    toServerMap cfg' = .ok (.object entries) := by
  obtain ⟨hobject, hget⟩ := get_setProperty h
  rw [hcfg] at hobject
  cases cfg' with
  | object entries' =>
    rw [toServerMap, hget, if_pos ⟨rfl, hcfg⟩]
    · rfl
    · exact nofun
  | _ => cases hobject

/-- The destination with the copied entries, when any entry is there: it has them all, and
    what else it had. -/
theorem merged_spec {sourceServers dest destServers merged cfg : Json} {names : List String}
    (hfound : ∀ name ∈ names, (sourceServers.get name).isSome)
    (hdest : toServerMap dest = .ok destServers)
    (hmerged : mergeServers sourceServers names destServers = .ok merged)
    (hcfg : withServers dest merged = .ok cfg) {name : String}
    (hthere : (serverOf cfg name).isSome) :
    (∀ k ∈ names, serverOf cfg k = sourceServers.get k) ∧
      ∀ k, k ∉ names → serverOf cfg k = serverOf dest k := by
  obtain ⟨-, hget⟩ := mergeServers_spec hfound hmerged
  have hdoc : isObject dest = true := by
    by_contra hnot
    rw [serverOf_withServers hcfg, if_neg hnot] at hthere
    cases hthere
  have hservers : isObject destServers = true := by
    by_contra hnot
    have hnone := get_of_not_isObject (Bool.not_eq_true _ ▸ hnot) name
    rw [serverOf_withServers hcfg, if_pos hdoc, hget, if_neg fun hif => hnot hif.2, hnone] at hthere
    cases hthere
  refine ⟨fun k hk => ?_, fun k hk => ?_⟩
  · rw [serverOf_withServers hcfg, if_pos hdoc, hget, if_pos ⟨hk, hservers⟩]
  · rw [serverOf_withServers hcfg, if_pos hdoc, hget, if_neg fun hif => hk hif.1,
      get_toServerMap hdest]

/-! ## The entries found -/

section
variable {path : NodePath} {repoRoot canonicalServerName : String}

/-- The entry is one of the repository's. -/
def isMatch (path : NodePath) (repoRoot canonicalServerName : String) (e : String × Json) : Bool :=
  match belongsToRepo path repoRoot canonicalServerName e.1 e.2 with
  | .ok found => found
  | .error _ => false

theorem findInEntries_cons {e : String × Json} {entries : List (String × Json)}
    {names : List String}
    (h : findInEntries path repoRoot canonicalServerName (e :: entries) = .ok names) :
    ∃ found rest, belongsToRepo path repoRoot canonicalServerName e.1 e.2 = .ok found ∧
      findInEntries path repoRoot canonicalServerName entries = .ok rest ∧
      names = if found then e.1 :: rest else rest := by
  rw [findInEntries] at h
  cases hfound : belongsToRepo path repoRoot canonicalServerName e.1 e.2 with
  | error message => rw [hfound] at h; cases h
  | ok found =>
    rw [hfound] at h
    cases hrest : findInEntries path repoRoot canonicalServerName entries with
    | error message =>
      simp only [hrest] at h
      cases h
    | ok rest =>
      simp only [hrest] at h
      exact ⟨found, rest, rfl, rfl, (Except.ok.inj h).symm⟩

theorem findInEntries_eq {entries : List (String × Json)} {names : List String}
    (h : findInEntries path repoRoot canonicalServerName entries = .ok names) :
    names = (entries.filter (isMatch path repoRoot canonicalServerName)).map Prod.fst := by
  induction entries generalizing names with
  | nil => exact (Except.ok.inj h).symm
  | cons e entries ih =>
    obtain ⟨found, rest, hfound, hrest, rfl⟩ := findInEntries_cons h
    have hmatch : isMatch path repoRoot canonicalServerName e = found := by
      rw [isMatch, hfound]
    rw [List.filter_cons, hmatch, ih hrest]
    cases found <;> rfl

/-- Without the entries found, none is found. -/
theorem findInEntries_filter {entries : List (String × Json)} {names removed : List String}
    (h : findInEntries path repoRoot canonicalServerName entries = .ok names)
    (hsub : ∀ name ∈ names, name ∈ removed) :
    findInEntries path repoRoot canonicalServerName (entries.filter (·.1 ∉ removed)) = .ok [] := by
  induction entries generalizing names with
  | nil => rfl
  | cons e entries ih =>
    obtain ⟨found, rest, hfound, hrest, rfl⟩ := findInEntries_cons h
    cases found with
    | true =>
      have he : e.1 ∈ removed := hsub _ List.mem_cons_self
      rw [List.filter_cons_of_neg (by simpa using he)]
      exact ih hrest fun name hname => hsub name (List.mem_cons_of_mem _ hname)
    | false =>
      have hnone := ih hrest hsub
      by_cases he : e.1 ∈ removed
      · rw [List.filter_cons_of_neg (by simpa using he)]
        exact hnone
      · rw [List.filter_cons_of_pos (by simpa using he), findInEntries, hfound, hnone]
        rfl

end

/-! ## Documents that their text determines -/

/-- What `JSON.parse` returns, where the numbers are finite: the keys of an object are
    distinct. -/
inductive Textual : Json → Prop
  | null : Textual .null
  | bool (b : Bool) : Textual (.bool b)
  | number (literal : String) : literal ∉ ["Infinity", "-Infinity"] → Textual (.number literal)
  | string (s : String) : Textual (.string s)
  | array (items : List Json) : (∀ v ∈ items, Textual v) → Textual (.array items)
  | object (entries : List (String × Json)) : (entries.map Prod.fst).Nodup →
      (∀ e ∈ entries, Textual e.2) → Textual (.object entries)

theorem lookup_eq_some {entries : List (String × Json)} (h : (entries.map Prod.fst).Nodup)
    {e : String × Json} (he : e ∈ entries) : entries.lookup e.1 = some e.2 := by
  induction entries with
  | nil => cases he
  | cons e' entries ih =>
    obtain ⟨hnew, h⟩ := List.nodup_cons.1 h
    rw [lookup_cons]
    rcases List.mem_cons.1 he with rfl | he
    · rw [if_pos rfl]
    · have hne : e.1 ≠ e'.1 := fun heq => hnew (List.mem_map.2 ⟨e, he, heq⟩)
      rw [if_neg hne]
      exact ih h he

theorem mem_of_lookup {entries : List (String × Json)} {key : String} {v : Json}
    (h : entries.lookup key = some v) : (key, v) ∈ entries := by
  induction entries with
  | nil => cases h
  | cons e entries ih =>
    rw [lookup_cons] at h
    split at h
    next hkey => exact List.mem_cons.2 (.inl (Prod.ext hkey (Option.some.inj h).symm))
    next => exact List.mem_cons_of_mem _ (ih h)

namespace Textual

theorem get {v w : Json} {key : String} (h : Textual v) (hget : v.get key = some w) : Textual w := by
  cases h with
  | object entries hkeys hall => exact hall _ (mem_of_lookup hget)
  | _ => cases hget

theorem mem_setEntry {key : String} {value : Json} {entries : List (String × Json)}
    {e : String × Json} (he : e ∈ setEntry key value entries) : e = (key, value) ∨ e ∈ entries := by
  induction entries with
  | nil => exact .inl (List.mem_singleton.1 he)
  | cons e' entries ih =>
    rw [setEntry] at he
    split at he
    · exact (List.mem_cons.1 he).imp id (List.mem_cons_of_mem _)
    · rcases List.mem_cons.1 he with rfl | he
      · exact .inr List.mem_cons_self
      · exact (ih he).imp id (List.mem_cons_of_mem _)

theorem nodup_setEntry {key : String} {value : Json} {entries : List (String × Json)}
    (h : (entries.map Prod.fst).Nodup) : ((setEntry key value entries).map Prod.fst).Nodup := by
  induction entries with
  | nil => exact List.nodup_cons.2 ⟨List.not_mem_nil, List.nodup_nil⟩
  | cons e entries ih =>
    obtain ⟨hnew, h⟩ := List.nodup_cons.1 h
    rw [setEntry]
    split
    next hkey => exact List.nodup_cons.2 ⟨hkey ▸ hnew, h⟩
    next hkey =>
      refine List.nodup_cons.2 ⟨fun hmem => ?_, ih h⟩
      obtain ⟨e', he', heq⟩ := List.mem_map.1 hmem
      rcases mem_setEntry he' with rfl | he'
      · exact hkey heq.symm
      · exact hnew (List.mem_map.2 ⟨e', he', heq⟩)

theorem setProperty {target target' value : Json} {key : String} (h : Textual target)
    (hvalue : Textual value) (hset : setProperty target key value = .ok target') :
    Textual target' := by
  cases h with
  | object entries hkeys hall =>
    obtain rfl := Except.ok.inj hset
    refine .object _ (nodup_setEntry hkeys) fun e he => ?_
    rcases mem_setEntry he with rfl | he
    · exact hvalue
    · exact hall e he
  | array items hall =>
    obtain rfl := Except.ok.inj hset
    exact .array items hall
  | _ => cases hset

theorem deleteProperty {target : Json} (h : Textual target) (key : String) :
    Textual (deleteProperty target key) := by
  cases h with
  | object entries hkeys hall =>
    exact .object _ (hkeys.sublist (List.filter_sublist.map _)) fun e he =>
      hall e (List.mem_of_mem_filter he)
  | null => exact .null
  | bool b => exact .bool b
  | number literal h => exact .number literal h
  | string s => exact .string s
  | array items hall => exact .array items hall

theorem removeServers {servers : Json} (h : Textual servers) (names : List String) :
    Textual (removeServers names servers) := by
  unfold Extension.removeServers
  induction names generalizing servers with
  | nil => exact h
  | cons name names ih => exact ih (h.deleteProperty name)

theorem mergeServers {sourceServers destServers merged : Json} {names : List String}
    (hsource : Textual sourceServers) (hdest : Textual destServers)
    (h : mergeServers sourceServers names destServers = .ok merged) : Textual merged := by
  induction names generalizing destServers with
  | nil => exact Except.ok.inj h ▸ hdest
  | cons name names ih =>
    rw [Extension.mergeServers] at h
    cases hblock : sourceServers.get name with
    | none =>
      rw [hblock] at h
      exact ih (hdest.deleteProperty name) h
    | some block =>
      rw [hblock] at h
      dsimp only at h
      cases hset : Extension.setProperty destServers name block with
      | error e => rw [hset] at h; cases h
      | ok next =>
        rw [hset] at h
        exact ih (hdest.setProperty (hsource.get hblock) hset) h

theorem toServerMap {cfg servers : Json} (h : Textual cfg) (hmap : toServerMap cfg = .ok servers) :
    Textual servers := by
  have hservers : servers = orEmpty (cfg.get "mcpServers") := by
    cases cfg with
    | null => cases hmap
    | _ => exact (Except.ok.inj hmap).symm
  have hempty : Textual (.object []) := .object [] List.nodup_nil nofun
  rw [hservers, orEmpty]
  cases hget : cfg.get "mcpServers" with
  | none => exact hempty
  | some v =>
    have hv := h.get hget
    cases v with
    | null => exact hempty
    | _ => exact hv

theorem withServers {cfg cfg' servers : Json} (h : Textual cfg) (hservers : Textual servers)
    (hset : withServers cfg servers = .ok cfg') : Textual cfg' := h.setProperty hservers hset

end Textual

/-! ## Files -/

/-- The texts of JSON documents, in files with contents `B`. -/
structure JsonText (B : Type) where
  /-- nothing is left of the text when it is trimmed -/
  isBlank : B → Bool
  /-- `JSON.parse` of the trimmed text; none when it throws -/
  parse : B → Option Json
  /-- the indented text of `JSON.stringify`, and a newline -/
  stringify : Json → B

/-- A value is read back from its text. -/
structure JsonText.Lawful {B : Type} (text : JsonText B) : Prop where
  isBlank_stringify : ∀ v, Textual v → text.isBlank (text.stringify v) = false
  parse_stringify : ∀ v, Textual v → text.parse (text.stringify v) = some v

/-- What the extension runs in. -/
structure Surroundings (B Dir : Type) where
  path : NodePath
  platform : NodePlatform
  appData : Option String
  /-- the directory that the path of a directory leads to -/
  locate : String → Dir
  text : JsonText B

/-- The place of a file. -/
abbrev Location (Dir : Type) := Dir × String

/-- The contents of the files that exist. -/
abbrev Disk (B Dir : Type) := Location Dir → Option B

namespace Surroundings

variable {B Dir : Type} (sur : Surroundings B Dir)

def place (path : ConfigPath) : Location Dir := (sur.locate path.dir, path.base)

/-- The document of a file: what `readJsonFile` returns, none when it throws. -/
def docAt (disk : Disk B Dir) (l : Location Dir) : Option Json :=
  match disk l with
  | none => some (.object [])
  | some raw => if sur.text.isBlank raw then some (.object []) else sur.text.parse raw

/-- The document of a file that has been written. -/
theorem docAt_of_stringify (hlawful : sur.text.Lawful) {cfg : Json} (h : Textual cfg)
    {disk : Disk B Dir} {l : Location Dir} (hwritten : disk l = some (sur.text.stringify cfg)) :
    sur.docAt disk l = some cfg := by
  rw [docAt, hwritten]
  dsimp only
  rw [hlawful.isBlank_stringify cfg h, if_neg Bool.false_ne_true, hlawful.parse_stringify cfg h]

end Surroundings

end Cognis.Extension
