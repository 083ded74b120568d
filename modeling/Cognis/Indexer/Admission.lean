/-
  The files that are indexed (`pipeline.rs`, `planner.rs`).

  * `SourceTree` holds the regular files under the root; symbolic links are left out;
  * `admittedRelPaths` is the walk of the tree, `isAdmitted` the test of one path;
  * `mem_admittedRelPaths_of_isAdmitted`: the walk meets every path that passes the test.
-/
import Cognis.Indexer.Text
import Cognis.Lib.Table

namespace Cognis

open Table

/-- `Config`, the fields that decide which files are indexed. -/
structure IndexConfig where
  /-- `repo.ignore` -/
  ignore : List String
  /-- `languages.enabled` -/
  languagesEnabled : List String
  /-- `artifact.enabled` -/
  artifactEnabled : Bool
  /-- `artifact.ci_descriptors` -/
  ciDescriptors : List String
  deriving DecidableEq, Repr

/-- `ArtifactKind` -/
inductive ArtifactKind where
  | yaml | toml | sql | html | markdown
  deriving DecidableEq, Repr

/-- The regular files under a root, by their path relative to it, with their bytes or the
    error of reading them. -/
structure SourceTree where
  root : String
  files : List (String × Except String ByteArray)

/-! ## Paths -/

/-- The components of a relative path. -/
def pathComponents (path : String) : List (List Char) := Text.splitOn '/' path.toList

/-- `Path::file_name` -/
def fileName (path : String) : List Char := (pathComponents path).getLastD []

/-- `Path::extension`: after the last dot, unless only that dot begins the name. -/
def extension (path : String) : Option (List Char) :=
  let name := fileName path
  let ext := (name.reverse.takeWhile (· ≠ '.')).reverse
  if ext.length + 1 < name.length then some ext else none

/-- `LANG_BY_EXT` -/
def langByExt : List (String × String) :=
  [("ts", "typescript"), ("tsx", "typescript"), ("py", "python"), ("go", "go"), ("cs", "csharp"),
    ("java", "java"), ("rs", "rust"), ("c", "c"), ("h", "c"), ("cc", "cpp"), ("cpp", "cpp"),
    ("cxx", "cpp"), ("hpp", "cpp"), ("hh", "cpp"), ("hxx", "cpp"), ("rb", "ruby"), ("php", "php"),
    ("phtml", "php")]

/-- `ARTIFACT_BY_EXT` -/
def artifactByExt : List (String × ArtifactKind) :=
  [("md", .markdown), ("yaml", .yaml), ("yml", .yaml), ("toml", .toml), ("html", .html),
    ("htm", .html), ("sql", .sql)]

/-- The extension in lower case. -/
def lowerExtension (path : String) : Option String :=
  (extension path).map fun ext => String.ofList (Text.toAsciiLowercase ext)

namespace IndexConfig

variable (config : IndexConfig)

/-- `detect_language` -/
def detectLanguage (path : String) : Option String :=
  ((lowerExtension path).bind fun ext => (lookup Prod.fst langByExt ext).map Prod.snd).filter
    (· ∈ config.languagesEnabled)

/-- `detect_artifact` -/
def detectArtifact (path : String) : Option ArtifactKind :=
  ((lowerExtension path).bind fun ext => (lookup Prod.fst artifactByExt ext).map Prod.snd) <|>
    let name := String.ofList (Text.toAsciiLowercase (fileName path))
    if config.ciDescriptors.any fun pat =>
        pat != "" && hasSubstring name (String.ofList (Text.toAsciiLowercase pat.toList)) then
      some .yaml
    else none

/-- A code file, or an artifact when they are enabled. -/
def isSupported (path : String) : Bool :=
  (config.detectLanguage path).isSome || config.artifactEnabled && (config.detectArtifact path).isSome

/-- The names that are never entered. -/
def ignored : List (List Char) := (config.ignore ++ [".cognis", ".git"]).map String.toList

end IndexConfig

namespace SourceTree

variable (tree : SourceTree) (config : IndexConfig)

/-- Whether a regular file is at the path. -/
def isFile (path : String) : Bool := (lookup Prod.fst tree.files path).isSome

/-- `is_admitted`: no component of the path is ignored, the name of the file included. -/
def isAdmitted (path : String) : Bool :=
  tree.isFile path && (pathComponents path).all (· ∉ config.ignored) && config.isSupported path

/-- `admitted_rel_paths`: the walk does not enter ignored directories. -/
def admittedRelPaths : List String :=
  (tree.files.map Prod.fst).filter fun path =>
    (pathComponents path).dropLast.all (· ∉ config.ignored) && config.isSupported path

/-- `read_exact_bytes` -/
def readExactBytes (path : String) : Except String ByteArray :=
  match lookup Prod.fst tree.files path with
  | none => .error ("read " ++ tree.root ++ "/" ++ path ++ ": entity not found")
  | some (_, .error e) => .error ("read " ++ tree.root ++ "/" ++ path ++ ": " ++ e)
  | some (_, .ok bytes) => .ok bytes

variable {tree config}

/-- **The walk meets every path that is admitted on its own.** -/
theorem mem_admittedRelPaths_of_isAdmitted {path : String} (h : tree.isAdmitted config path = true) :
    path ∈ tree.admittedRelPaths config := by
  simp only [isAdmitted, isFile, Bool.and_eq_true, Option.isSome_iff_exists, List.all_eq_true] at h
  obtain ⟨⟨⟨row, hrow⟩, hall⟩, hsupported⟩ := h
  refine List.mem_filter.2 ⟨List.mem_map.2 ⟨row, List.mem_of_find?_eq_some hrow, ?_⟩, ?_⟩
  · simpa using List.find?_some hrow
  · rw [Bool.and_eq_true, List.all_eq_true]
    exact ⟨fun c hc => hall c (List.mem_of_mem_dropLast hc), hsupported⟩

end SourceTree

end Cognis
