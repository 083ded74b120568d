/-
  Where the owner of a workspace works (`become_owner`, `acquire_resources`, `serve_owned`),
  and where a client looks for it (`wait_for_advertised_endpoint`).

  The client joins names to the root as it is given. The owner takes the root of the repository
  identity for a path: a text whose letters are lower case, made to be compared.

  * `denotes_joinPath_iff`: what a joined path denotes depends on what the path denotes;
  * `worksInRoot_iff`: the owner works in the directory it is given exactly when the normalised
    name of the root, and that of the database, still lead there;
  * `leadsBack_of_unchanged`: a name that is its own normal form does.
-/
import Cognis.Core.Resolve

namespace Cognis

open Segment AbsPath

namespace FileSystem

variable {Loc : Type} (fs : FileSystem Loc)

/-- Two paths denote the same place, if any. -/
def SamePlace (p q : AbsPath) : Prop := ∀ l missing, fs.Denotes p l missing ↔ fs.Denotes q l missing

end FileSystem

namespace Owner

/-! ## Paths -/

/-- `owner.lease` -/
def ownerLeaseFile : Segment :=
  [0x6F, 0x77, 0x6E, 0x65, 0x72, 0x2E, 0x6C, 0x65, 0x61, 0x73, 0x65]

/-- `config.yaml` -/
def configFileName : Segment := [0x63, 0x6F, 0x6E, 0x66, 0x69, 0x67, 0x2E, 0x79, 0x61, 0x6D, 0x6C]

/-- `mcpd.endpoint` -/
def endpointFile : Segment :=
  [0x6D, 0x63, 0x70, 0x64, 0x2E, 0x65, 0x6E, 0x64, 0x70, 0x6F, 0x69, 0x6E, 0x74]

/-- A file in the configuration directory of a repository. -/
def configDirFile (repoRoot file : List UInt8) : List UInt8 :=
  joinPath (joinPath repoRoot configDirName) file

/-- `lease_path`, of the owner. -/
def leasePath (repoRoot : List UInt8) : List UInt8 := configDirFile repoRoot ownerLeaseFile

/-- The path that `Config::load` reads. -/
def configPath (repoRoot : List UInt8) : List UInt8 := configDirFile repoRoot configFileName

/-- The path that `write_mcpd_endpoint` writes and `advertised_endpoint_url` reads. -/
def endpointPath (repoRoot : List UInt8) : List UInt8 := configDirFile repoRoot endpointFile

/-- The paths that an owner works with. -/
structure Paths where
  lease : List UInt8
  config : List UInt8
  database : List UInt8
  watched : List UInt8
  endpoint : List UInt8

/-- The paths under a repository root, as a client sees them. -/
def Paths.under (repoRoot : List UInt8) : Paths where
  lease := leasePath repoRoot
  config := configPath repoRoot
  database := RepoIdentity.defaultDbPath repoRoot
  watched := repoRoot
  endpoint := endpointPath repoRoot

section
variable {Loc : Type} (fs : FileSystem Loc) (cwd : AbsPath)

/-- `become_owner`, as far as the paths go: the root of the identity is the canonical root. -/
def becomeOwner (repoRoot : List UInt8) : Paths :=
  let identity := RepoIdentity.fromPaths fs cwd repoRoot (RepoIdentity.defaultDbPath repoRoot)
  let canonicalRoot := asBytes identity.root
  { lease := leasePath canonicalRoot
    config := configPath canonicalRoot
    database := asBytes identity.dbPath
    watched := canonicalRoot
    endpoint := endpointPath canonicalRoot }

/-- The two sets of paths denote the same places. -/
structure Paths.Agree (a b : Paths) : Prop where
  lease : fs.SamePlace (absolutePath cwd a.lease) (absolutePath cwd b.lease)
  config : fs.SamePlace (absolutePath cwd a.config) (absolutePath cwd b.config)
  database : fs.SamePlace (absolutePath cwd a.database) (absolutePath cwd b.database)
  watched : fs.SamePlace (absolutePath cwd a.watched) (absolutePath cwd b.watched)
  endpoint : fs.SamePlace (absolutePath cwd a.endpoint) (absolutePath cwd b.endpoint)

/-- If the root denotes a directory, the owner works in it. -/
def WorksInRoot (repoRoot : List UInt8) : Prop :=
  ∀ l missing, fs.Denotes (absolutePath cwd repoRoot) l missing → fs.isDir l →
    Paths.Agree fs cwd (becomeOwner fs cwd repoRoot) (.under repoRoot)

/-- The name of what a path leads to leads back there when it is normalised: without the
    verbatim prefix and the separators at the end, with its backslashes for separators and its
    letters of ASCII in lower case. -/
def LeadsBack (p : AbsPath) : Prop :=
  fs.SamePlace
    (absolutePath cwd (asBytes (.ofList (normalizeCanonical (fs.followedName p))))) p

end

section
variable {Loc : Type} {fs : FileSystem Loc} {cwd : AbsPath}

theorem absolutePath_append_sep (cwd : AbsPath) (q t : List UInt8) :
    absolutePath cwd (q ++ 0x2F :: t) =
      (if q = [] then [] else absolutePath cwd q) ++ t.splitOn 0x2F := by
  cases q with
  | nil => rfl
  | cons b q =>
    rw [if_neg (List.cons_ne_nil b q), absolutePath, absolutePath]
    by_cases hb : b = 0x2F
    · rw [if_pos (by simp [hb]), if_pos (by simp [hb])]
      exact List.splitOn_append_cons_self q t
    · rw [if_neg (by simp [hb]), if_neg (by simp [hb]), List.splitOn_append_cons_self,
        List.append_assoc]

/-- A path with a name joined to it. -/
theorem denotes_joinPath_iff {name : Segment} (hs : Plain name) (hsep : 0x2F ∉ name)
    (p : List UInt8) {l' : Loc} {missing' : List Segment} :
    fs.Denotes (absolutePath cwd (joinPath p name)) l' missing' ↔
      ∃ l missing, fs.Denotes (absolutePath cwd p) l missing ∧ fs.isDir l ∧
        fs.Below l missing name l' missing' := by
  have hhead : name.head? ≠ some 0x2F := fun h => hsep (List.mem_of_mem_head? h)
  have hsingle : name.splitOn 0x2F = [name] := List.splitOn_eq_singleton hsep
  -- a separator at the end of the path asks for a directory, as the name does
  have hend : ∀ q : AbsPath, fs.Denotes (q ++ [name]) l' missing' ↔
      ∃ l missing, fs.Denotes (q ++ [[]]) l missing ∧ fs.isDir l ∧
        fs.Below l missing name l' missing' := by
    intro q
    rw [FileSystem.denotes_concat_iff hs]
    simp only [FileSystem.denotes_concat_nil_iff]
    constructor
    · rintro ⟨l, missing, h, hd, hb⟩
      exact ⟨l, missing, ⟨h, hd⟩, hd, hb⟩
    · rintro ⟨l, missing, ⟨h, hd⟩, -, hb⟩
      exact ⟨l, missing, h, hd, hb⟩
  rw [joinPath, if_neg hhead]
  split
  next h =>
    rcases h with rfl | h
    · rw [List.nil_append, absolutePath, if_neg hhead, hsingle]
      exact hend cwd
    · obtain ⟨q, rfl⟩ := List.getLast?_eq_some_iff.1 h
      rw [List.append_assoc, List.singleton_append, absolutePath_append_sep,
        absolutePath_append_sep, hsingle, List.splitOn_nil]
      exact hend _
  next h =>
    rw [not_or] at h
    rw [absolutePath_append_sep, if_neg h.1, hsingle]
    exact FileSystem.denotes_concat_iff hs

theorem samePlace_joinPath {name : Segment} (hs : Plain name) (hsep : 0x2F ∉ name)
    {a b : List UInt8} (h : fs.SamePlace (absolutePath cwd a) (absolutePath cwd b)) :
    fs.SamePlace (absolutePath cwd (joinPath a name)) (absolutePath cwd (joinPath b name)) := by
  intro l missing
  rw [denotes_joinPath_iff hs hsep, denotes_joinPath_iff hs hsep]
  simp only [h _ _]

theorem samePlace_configDirFile {file : Segment} (hs : Plain file) (hsep : 0x2F ∉ file)
    {a b : List UInt8} (h : fs.SamePlace (absolutePath cwd a) (absolutePath cwd b)) :
    fs.SamePlace (absolutePath cwd (configDirFile a file))
      (absolutePath cwd (configDirFile b file)) :=
  samePlace_joinPath hs hsep (samePlace_joinPath (by decide) (by decide) h)

theorem root_fromPaths (fs : FileSystem Loc) (cwd : AbsPath) (repoRoot dbPath : List UInt8) :
    (RepoIdentity.fromPaths fs cwd repoRoot dbPath).root = canonicalizePath fs cwd repoRoot := rfl

theorem dbPath_fromPaths (fs : FileSystem Loc) (cwd : AbsPath) (repoRoot dbPath : List UInt8) :
    (RepoIdentity.fromPaths fs cwd repoRoot dbPath).dbPath = canonicalizePath fs cwd dbPath := rfl

theorem canonicalizePath_eq (hroot : fs.isDir fs.root) (cwd : AbsPath) (target : List UInt8) :
    canonicalizePath fs cwd target =
      .ofList (normalizeCanonical (fs.followedName (absolutePath cwd target))) := by
  rw [canonicalizePath, FileSystem.resolve_eq_followedName hroot]

theorem watched_becomeOwner (hroot : fs.isDir fs.root) (cwd : AbsPath) (repoRoot : List UInt8) :
    (becomeOwner fs cwd repoRoot).watched = asBytes (.ofList (normalizeCanonical
      (fs.followedName (absolutePath cwd repoRoot)))) := by
  rw [becomeOwner]
  dsimp only
  rw [root_fromPaths, canonicalizePath_eq hroot]

theorem database_becomeOwner (hroot : fs.isDir fs.root) (cwd : AbsPath) (repoRoot : List UInt8) :
    (becomeOwner fs cwd repoRoot).database = asBytes (.ofList (normalizeCanonical
      (fs.followedName (absolutePath cwd (RepoIdentity.defaultDbPath repoRoot))))) := by
  rw [becomeOwner]
  dsimp only
  rw [dbPath_fromPaths, canonicalizePath_eq hroot]

/-- Under two roots that are one place, each file is one place. -/
theorem agree_of_samePlace {a : Paths} {repoRoot : List UInt8}
    (hlease : a.lease = leasePath a.watched) (hconfig : a.config = configPath a.watched)
    (hendpoint : a.endpoint = endpointPath a.watched)
    (hroot : fs.SamePlace (absolutePath cwd a.watched) (absolutePath cwd repoRoot))
    (hdb : fs.SamePlace (absolutePath cwd a.database)
      (absolutePath cwd (RepoIdentity.defaultDbPath repoRoot))) :
    Paths.Agree fs cwd a (.under repoRoot) := by
  refine ⟨?_, ?_, hdb, hroot, ?_⟩
  · rw [hlease]
    exact samePlace_configDirFile (by decide) (by decide) hroot
  · rw [hconfig]
    exact samePlace_configDirFile (by decide) (by decide) hroot
  · rw [hendpoint]
    exact samePlace_configDirFile (by decide) (by decide) hroot

/-- The owner works in the directory that it is given exactly when the normalised names of the
    root and of the database lead back to them. -/
theorem worksInRoot_iff (fs : FileSystem Loc) (hroot : fs.isDir fs.root) (cwd : AbsPath)
    (repoRoot : List UInt8) :
    WorksInRoot fs cwd repoRoot ↔
      ∀ l missing, fs.Denotes (absolutePath cwd repoRoot) l missing → fs.isDir l →
        LeadsBack fs cwd (absolutePath cwd repoRoot) ∧
          LeadsBack fs cwd (absolutePath cwd (RepoIdentity.defaultDbPath repoRoot)) := by
  have hwatched := watched_becomeOwner hroot cwd repoRoot
  have hdatabase := database_becomeOwner hroot cwd repoRoot
  constructor
  · intro h l missing hden hdir
    have hagree := h l missing hden hdir
    refine ⟨?_, ?_⟩
    · rw [LeadsBack, ← hwatched]
      exact hagree.watched
    · rw [LeadsBack, ← hdatabase]
      exact hagree.database
  · intro h l missing hden hdir
    obtain ⟨hback, hdb⟩ := h l missing hden hdir
    rw [LeadsBack, ← hwatched] at hback
    rw [LeadsBack, ← hdatabase] at hdb
    refine agree_of_samePlace ?_ ?_ ?_ hback hdb
    all_goals rw [becomeOwner]

/-! ## Names that normalisation leaves alone -/

theorem samePlace_of_denotes {p q : AbsPath} {l : Loc} {missing : List Segment}
    (hp : fs.Denotes p l missing) (hq : fs.Denotes q l missing) : fs.SamePlace p q := by
  intro l' missing'
  constructor
  · intro h
    obtain ⟨rfl, rfl⟩ := h.unique hp
    exact hq
  · intro h
    obtain ⟨rfl, rfl⟩ := h.unique hq
    exact hp

/-- The path that the bytes of a path spell. -/
theorem absolutePath_bytes (cwd : AbsPath) {p : AbsPath} (hne : p ≠ [])
    (hsep : ∀ s ∈ p, 0x2F ∉ s) : absolutePath cwd p.bytes = p := by
  have hbytes : p.bytes = 0x2F :: [0x2F].intercalate p := by
    rw [AbsPath.bytes, if_neg (by simpa using hne)]
    clear hsep
    induction p with
    | nil => exact absurd rfl hne
    | cons s p ih =>
      cases p with
      | nil => simp
      | cons s' p => rw [List.flatMap_cons, ih (List.cons_ne_nil s' p)]; simp
  rw [hbytes, absolutePath, List.head?_cons, if_pos rfl]
  exact List.splitOn_intercalate 0x2F hsep hne

/-- A root whose canonical name is already in normal form. -/
theorem leadsBack_of_unchanged (hroot : fs.isDir fs.root) {p : AbsPath}
    {place : FileSystem.Place Loc} (h : fs.Locates p place) (hne : fs.placeName place ≠ [])
    (hsep : ∀ s ∈ fs.placeName place, 0x2F ∉ s)
    (hnormal : asBytes (.ofList (normalizeCanonical (fs.placeName place))) =
      (fs.placeName place).bytes) : LeadsBack fs cwd p := by
  rw [LeadsBack, ← FileSystem.resolve_eq_followedName hroot, h.resolve, hnormal,
    absolutePath_bytes cwd hne hsep]
  exact samePlace_of_denotes h.1.name_append h.1

end

/-! ## Two directories whose names differ in the case of one letter -/

open CaseTree in
/-- `/repo` is its own normal form. -/
theorem worksInRoot_sample : WorksInRoot CaseTree.fs [] (bytes [lowerName]) := by
  refine (worksInRoot_iff CaseTree.fs rfl [] (bytes [lowerName])).2 fun _ _ _ _ => ⟨?_, ?_⟩
  · refine leadsBack_of_unchanged rfl means_lower.root ?_ ?_ ?_ <;> decide +kernel
  · have hdb : absolutePath [] (RepoIdentity.defaultDbPath (bytes [lowerName])) =
        absolutePath [] (invocation lowerName [configDir, defaultDb]).dbPath := by decide
    rw [hdb]
    refine leadsBack_of_unchanged rfl means_lower.db ?_ ?_ ?_ <;> decide +kernel

/-- On every file system the owner works in the directory that its root denotes. -/
def OwnerWorksInRoot : Prop :=
  ∀ (Loc : Type) (fs : FileSystem Loc) (cwd : AbsPath) (repoRoot : List UInt8),
    fs.isDir fs.root → WorksInRoot fs cwd repoRoot

open CaseTree in
/-- The owner of `/Repo` works in `/repo`. -/
theorem not_ownerWorksInRoot : ¬ OwnerWorksInRoot := by
  intro h
  have hagree := h CaseTree CaseTree.fs [] (bytes [upperName]) rfl upper [] means_upper.root.1 rfl
  have hpath : absolutePath [] (becomeOwner CaseTree.fs [] (bytes [upperName])).watched =
      [lowerName] := by
    rw [watched_becomeOwner rfl]
    decide +kernel
  have hupper : CaseTree.fs.Denotes [lowerName] upper [] := by
    have := (hagree.watched upper []).2 means_upper.root.1
    rwa [hpath] at this
  exact absurd (hupper.unique means_lower.root.1).1 (by decide)

end Owner

end Cognis
