/-
  What `canonicalize_path` makes of a path that denotes no place.

  Where the path does not exist, the walk up stops at the nearest existing ancestor, and the
  names below it are appended. Among them `..` has no name and is dropped.

  * `followedName`: the name of what the path leads to when links are followed, for any path;
  * `resolve_eq_followedName`: it is what the code resolves the path to.
-/
import Cognis.Core.Identity
import Cognis.Lib.PathWalk

namespace Cognis

open Segment AbsPath

namespace AbsPath

/-- `parent`, so many times. -/
def ups : ℕ → AbsPath → AbsPath
  | 0, p => p
  | n + 1, p => ups n (p.parent.getD p)

/-- The path with `..` dropped from its last `n` names. -/
def dropParents (n : ℕ) (p : AbsPath) : AbsPath :=
  ups n p ++ ((components p).rtake n).filter (· != dotDot)

end AbsPath

namespace FileSystem

variable {Loc : Type} (fs : FileSystem Loc)

/-- The nearest existing location above the path, and the segments below it. The last name of a
    path that does not exist is one of them. -/
def nearest (p : AbsPath) : Loc × List Segment :=
  match fs.walk p with
  | some l => (l, [])
  | none =>
    let up := fs.stop (components p).dropLast
    (up.1, up.2 ++ (components p).getLast?.toList)

/-- The name of what a path leads to. Where more than 4096 names are missing it keeps the
    spelling. -/
def followedName (p : AbsPath) : AbsPath :=
  let (l, rest) := fs.nearest p
  if rest.length ≤ 4096 then fs.name l ++ rest.filter (· != dotDot) else dropParents 4096 p

variable {fs} {p : AbsPath} {l : Loc} {s : Segment} {rest : List Segment}

theorem components_concat {up : AbsPath} (hs : ¬ ignorable s) :
    components (up ++ [s]) = components up ++ [s] := by
  simp [components, List.filter_append, hs]

theorem not_ignorable_trimEnd (p : AbsPath) : ∀ s ∈ (trimEnd p).getLast?, ¬ ignorable s := by
  intro s hs
  obtain ⟨hne, rfl⟩ := List.mem_getLast?_eq_getLast hs
  exact List.rdropWhile_last_not ignorable p hne

/-- A path that has a name: its parent, and what `file_name` gives. -/
theorem exists_parent {names : List Segment} (h : components p = names ++ [s]) :
    ∃ up, p.parent = some up ∧ components up = names ∧ up = trimEnd up ∧
      p.fileName.toList = [s].filter (· != dotDot) := by
  have htrim : components (trimEnd p) = names ++ [s] := (components_trimEnd p).trans h
  obtain hnil | ⟨up, s', hup⟩ := (trimEnd p).eq_nil_or_concat'
  · rw [hnil] at htrim
    cases names <;> cases htrim
  · have hs' : ¬ ignorable s' := not_ignorable_trimEnd p s' (by simp [hup])
    rw [hup, components_concat hs'] at htrim
    obtain ⟨rfl, hss⟩ := List.append_inj' htrim rfl
    cases hss
    refine ⟨trimEnd up, parent_eq hup, components_trimEnd up, ?_, ?_⟩
    · exact (List.rdropWhile_idempotent ..).symm
    · rw [AbsPath.fileName, hup, List.getLast?_concat]
      by_cases hdd : s = dotDot <;> simp [hdd, Option.filter]

/-- One turn of the walk up. -/
theorem ascend_succ {up : AbsPath} {names : List Segment} (hw : fs.walk p = none)
    (hp : components p = names ++ [s]) (hparent : p.parent = some up)
    (hup : components up = names) (hname : p.fileName.toList = [s].filter (· != dotDot))
    (fuel : ℕ) (tail : List Segment) :
    fs.ascend (fuel + 1) p tail = fs.ascend fuel up ([s].filter (· != dotDot) ++ tail) := by
  rw [ascend, pathExists, hw, if_neg (by simp), hparent]
  dsimp only
  rw [if_pos, hname]
  rw [hup, hp]
  intro heq
  simpa using congrArg List.length heq

theorem walk_trimmed (h : p = trimEnd p) : fs.walk p = fs.walk (components p) :=
  FileTree.walk_components fs.toFileTree (h ▸ not_ignorable_trimEnd p)

/-- The walk up reaches the nearest existing location. -/
theorem ascend_of_le (htrim : p = trimEnd p) (h : fs.Stops (components p) l rest) {fuel : ℕ}
    (hle : rest.length ≤ fuel) (tail : List Segment) :
    ∃ a, fs.ascend fuel p tail = some (a, rest.filter (· != dotDot) ++ tail) ∧
      fs.walk a = some l := by
  induction rest using List.reverseRecOn generalizing p fuel tail with
  | nil =>
    have hw : fs.walk p = some l := (walk_trimmed htrim).trans h.walk
    refine ⟨p, ?_, hw⟩
    cases fuel with
    | zero => rfl
    | succ fuel =>
      rw [ascend, pathExists, hw]
      rfl
  | append_singleton rest s ih =>
    obtain ⟨names, hnames⟩ := h.last
    rw [hnames] at h
    have hw : fs.walk p = none := by
      rw [walk_trimmed htrim, hnames, h.walk, if_neg (by simp)]
    obtain ⟨up, hparent, hup, hutrim, hname⟩ := exists_parent hnames
    rw [List.length_append, List.length_singleton] at hle
    cases fuel with
    | zero => omega
    | succ fuel =>
      obtain ⟨a, hasc, ha⟩ := ih hutrim (hup ▸ h.init) (Nat.le_of_succ_le_succ hle)
        ([s].filter (· != dotDot) ++ tail)
      refine ⟨a, ?_, ha⟩
      rw [ascend_succ hw hnames hparent hup hname, hasc, List.filter_append, List.append_assoc]

/-- The walk up ends before it reaches one. -/
theorem ascend_of_lt (htrim : p = trimEnd p) (h : fs.Stops (components p) l rest) {fuel : ℕ}
    (hlt : fuel < rest.length) (tail : List Segment) :
    fs.ascend fuel p tail =
        some (ups fuel p, ((components p).rtake fuel).filter (· != dotDot) ++ tail) ∧
      fs.walk (ups fuel p) = none := by
  induction fuel generalizing p rest tail with
  | zero =>
    refine ⟨by simp [ascend, ups], ?_⟩
    rw [ups, walk_trimmed htrim, h.walk, if_neg (List.ne_nil_of_length_pos hlt)]
  | succ fuel ih =>
    obtain rfl | ⟨rest, s, rfl⟩ := rest.eq_nil_or_concat'
    · cases hlt
    obtain ⟨names, hnames⟩ := h.last
    rw [hnames] at h
    have hw : fs.walk p = none := by
      rw [walk_trimmed htrim, hnames, h.walk, if_neg (by simp)]
    obtain ⟨up, hparent, hup, hutrim, hname⟩ := exists_parent hnames
    rw [List.length_append, List.length_singleton] at hlt
    obtain ⟨hasc, hwalk⟩ := ih hutrim (hup ▸ h.init) (Nat.lt_of_succ_lt_succ hlt)
      ([s].filter (· != dotDot) ++ tail)
    have hups : ups (fuel + 1) p = ups fuel up := by rw [ups, hparent, Option.getD_some]
    rw [hups]
    refine ⟨?_, hwalk⟩
    rw [ascend_succ hw hnames hparent hup hname, hasc, hup, hnames, List.rtake_concat_succ,
      List.filter_append, List.append_assoc]

/-- The root itself exists, however it is spelled. -/
theorem walk_of_components_nil (hroot : fs.isDir fs.root) (h : components p = []) :
    fs.walk p = some fs.root := by
  induction p using List.reverseRecOn with
  | nil => rfl
  | append_singleton p s ih =>
    rw [components, List.filter_append, List.append_eq_nil_iff] at h
    have hs : ignorable s := by
      by_contra hs
      simp [hs] at h
    rw [walk_concat, ih h.1, Option.bind_some, step_ignorable hs, if_pos hroot]

/-- The walk up and what is made of its result, for a path that does not exist. -/
theorem getD_ascend {up : AbsPath} {names : List Segment} (hw : fs.walk p = none)
    (hnames : components p = names ++ [s]) (hparent : p.parent = some up)
    (hup : components up = names) (hutrim : up = trimEnd up)
    (hname : p.fileName.toList = [s].filter (· != dotDot)) (h : fs.Stops names l rest) (fuel : ℕ) :
    ∃ a tail, fs.ascend (fuel + 1) p [] = some (a, tail) ∧
      (fs.canonicalize a).getD a ++ tail =
        if (rest ++ [s]).length ≤ fuel + 1 then fs.name l ++ (rest ++ [s]).filter (· != dotDot)
        else dropParents (fuel + 1) p := by
  have hasc := ascend_succ hw hnames hparent hup hname fuel []
  have hstop : fs.Stops (components up) l rest := hup ▸ h
  rw [hasc, List.length_append, List.length_singleton]
  by_cases hle : rest.length ≤ fuel
  · obtain ⟨a, ha, hwalk⟩ := ascend_of_le hutrim hstop hle ([s].filter (· != dotDot) ++ [])
    refine ⟨a, _, ha, ?_⟩
    rw [if_pos (by omega), canonicalize, hwalk, List.filter_append, List.append_nil]
    rfl
  · obtain ⟨ha, hwalk⟩ :=
      ascend_of_lt hutrim hstop (Nat.lt_of_not_le hle) ([s].filter (· != dotDot) ++ [])
    refine ⟨_, _, ha, ?_⟩
    rw [if_neg (by omega), canonicalize, hwalk, dropParents, ups, hparent, hnames, hup,
      List.rtake_concat_succ, List.filter_append, List.append_nil]
    rfl

/-- The code resolves a path to the name of what it leads to. -/
theorem resolve_eq_followedName (hroot : fs.isDir fs.root) (p : AbsPath) :
    fs.resolve p = fs.followedName p := by
  rw [resolve, canonicalize, followedName, nearest]
  cases hw : fs.walk p with
  | some l => simp
  | none =>
    obtain hnil | ⟨names, s, hnames⟩ := (components p).eq_nil_or_concat'
    · rw [walk_of_components_nil hroot hnil] at hw
      cases hw
    obtain ⟨up, hparent, hup, hutrim, hname⟩ := exists_parent hnames
    obtain ⟨a, tail, hasc, heq⟩ := getD_ascend hw hnames hparent hup hutrim hname
      (FileTree.stop_spec fs.toFileTree names) 4095
    rw [canonicalizeViaExistingAncestor, hasc, hnames, List.dropLast_concat, List.getLast?_concat]
    exact heq

end FileSystem

/-! ## The default database -/

/-- `Path::join` -/
def joinPath (p name : List UInt8) : List UInt8 :=
  if name.head? = some 0x2F then name
  else if p = [] ∨ p.getLast? = some 0x2F then p ++ name
  else p ++ 0x2F :: name

/-- `.cognis` -/
def configDirName : Segment := [0x2E, 0x63, 0x6F, 0x67, 0x6E, 0x69, 0x73]

/-- `uckg.db` -/
def databaseName : Segment := [0x75, 0x63, 0x6B, 0x67, 0x2E, 0x64, 0x62]

/-- `default_db_path` -/
def RepoIdentity.defaultDbPath (repoRoot : List UInt8) : List UInt8 :=
  joinPath (joinPath repoRoot configDirName) databaseName

section
variable {cwd : AbsPath} {p name : List UInt8}

/-- The names of the path that `target` names. -/
theorem components_absolutePath (cwd : AbsPath) (target : List UInt8) :
    components (absolutePath cwd target) =
      (if target.head? = some 0x2F then [] else components cwd) ++
        components (target.splitOn 0x2F) := by
  rw [absolutePath]
  split
  next h =>
    obtain ⟨t, rfl⟩ : ∃ t, target = 0x2F :: t := by
      cases target with
      | nil => cases h
      | cons b t => exact ⟨t, by rw [Option.some.inj h]⟩
    have hsplit : (0x2F :: t).splitOn 0x2F = [] :: t.splitOn 0x2F :=
      List.splitOn_append_cons_self [] t
    rw [hsplit]
    rfl
  · rw [components, components, List.filter_append]
    rfl

/-- A name joined to a path is one name more. -/
theorem components_splitOn_joinPath (hsep : 0x2F ∉ name) (hplain : ¬ ignorable name)
    (p : List UInt8) :
    components ((joinPath p name).splitOn 0x2F) = components (p.splitOn 0x2F) ++ [name] := by
  have hhead : name.head? ≠ some 0x2F := fun h => hsep (List.mem_of_mem_head? h)
  have hsingle : name.splitOn 0x2F = [name] := List.splitOn_eq_singleton hsep
  have hsep : ∀ q : List UInt8, components ((q ++ 0x2F :: name).splitOn 0x2F) =
      components (q.splitOn 0x2F) ++ [name] := by
    intro q
    rw [List.splitOn_append_cons_self, hsingle, FileSystem.components_concat hplain]
  rw [joinPath, if_neg hhead]
  split
  next h =>
    rcases h with rfl | h
    · rw [List.nil_append, hsingle, List.splitOn_nil]
      have hnil : components ([] ++ [name]) = components [] ++ [name] :=
        FileSystem.components_concat hplain
      exact hnil
    · obtain ⟨q, rfl⟩ := List.getLast?_eq_some_iff.1 h
      rw [List.append_assoc, List.singleton_append, hsep, List.splitOn_append_cons_self q []]
      simp [components, ignorable, List.filter_append]
  · exact hsep p

theorem head?_joinPath (hsep : 0x2F ∉ name) (p : List UInt8) :
    (joinPath p name).head? = some 0x2F ↔ p.head? = some 0x2F := by
  have hhead : name.head? ≠ some 0x2F := fun h => hsep (List.mem_of_mem_head? h)
  rw [joinPath, if_neg hhead]
  cases p with
  | nil => simpa using hhead
  | cons b p => split <;> simp

theorem components_absolutePath_joinPath (hsep : 0x2F ∉ name) (hplain : ¬ ignorable name) (cwd : AbsPath) (p : List UInt8) :
    components (absolutePath cwd (joinPath p name)) = components (absolutePath cwd p) ++ [name] := by
  rw [components_absolutePath, components_absolutePath,
    components_splitOn_joinPath hsep hplain, if_congr (head?_joinPath hsep p) rfl rfl,
    List.append_assoc]

theorem components_defaultDbPath (cwd : AbsPath) (repoRoot : List UInt8) :
    components (absolutePath cwd (RepoIdentity.defaultDbPath repoRoot)) =
      components (absolutePath cwd repoRoot) ++ [configDirName, databaseName] := by
  rw [RepoIdentity.defaultDbPath,
    components_absolutePath_joinPath (by decide) (by decide),
    components_absolutePath_joinPath (by decide) (by decide), List.append_assoc]
  rfl

end

end Cognis
