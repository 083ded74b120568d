/-
  The repository identity of the extension (`mcpCanonical.ts`), and when it is that of the
  engine.

  The extension takes `..` out of a path textually before it asks the file system, and folds the
  case of all letters; the engine has `..` looked up, and folds the letters of ASCII.

  * `canonicalizePath_eq_iff`: on one path the two agree exactly when the path `AgreesAt`;
  * `followedName_eq_lexicalName`: without `..` both reach the same name;
  * `mirrors_iff`: the identities agree exactly when the root and the database path do.
-/
import Cognis.Core.Resolve

namespace Cognis

open Segment AbsPath

namespace FileSystem

variable {Loc : Type} (fs : FileSystem Loc)

/-- The name of what a path leads to when `..` is first removed textually. Where more than 4096
    names are missing it keeps the spelling. -/
def lexicalName (p : AbsPath) : AbsPath :=
  let absolute := normalizeSegments false p
  let (l, rest) := fs.stop absolute
  if rest.length ≤ 4096 then fs.name l ++ rest else absolute

end FileSystem

namespace Extension

/-! ## Paths -/

/-- `path.resolve` -/
def pathResolve (cwd : AbsPath) (target : List UInt8) : AbsPath :=
  normalizeSegments false (absolutePath cwd target)

/-- `path.normalize` -/
def pathNormalize (path : List UInt8) : List UInt8 :=
  let isAbsolute := path.head? == some 0x2F
  let trailingSeparator := path.getLast? == some 0x2F
  let text := [0x2F].intercalate (normalizeSegments (!isAbsolute) (path.splitOn 0x2F))
  if path = [] then dot
  else if text = [] then
    if isAbsolute then [0x2F] else if trailingSeparator then dot ++ [0x2F] else dot
  else
    let text := if trailingSeparator then text ++ [0x2F] else text
    if isAbsolute then 0x2F :: text else text

/-- `path.join` -/
def pathJoin (parts : List (List UInt8)) : List UInt8 :=
  pathNormalize ([0x2F].intercalate (parts.filter (!·.isEmpty)))

/-- `String.prototype.toLowerCase`: it takes letters of ASCII for their lower case, and a second
    time it changes nothing. -/
structure LowerCase where
  toLowerCase : List Char → List Char
  toLowerCase_toLower : ∀ s, toLowerCase (s.map Char.toLower) = toLowerCase s
  toLowerCase_toLowerCase : ∀ s, toLowerCase (toLowerCase s) = toLowerCase s

/-! ## The identity -/

section
variable {Loc : Type} (fs : FileSystem Loc) (lower : LowerCase)

/-- The loop of `canonicalizeViaExistingAncestor`, for at most `fuel` turns. `none` where it has
    reached the root. -/
def climb : ℕ → AbsPath → List Segment → Option (AbsPath × List Segment)
  | 0, ancestor, tail => some (ancestor, tail)
  | fuel + 1, ancestor, tail =>
    if fs.pathExists ancestor then some (ancestor, tail)
    else if ancestor.dropLast = ancestor then none
    else climb fuel ancestor.dropLast (ancestor.getLast?.toList ++ tail)

def canonicalizeViaExistingAncestor (absolute : AbsPath) : AbsPath :=
  match climb fs 4096 absolute [] with
  | none => absolute
  | some (ancestor, tail) =>
    match fs.canonicalize ancestor with
    | some realAncestor =>
      if tail.isEmpty then realAncestor else normalizeSegments false (realAncestor ++ tail)
    | none => absolute

def normalizeCanonical (resolved : AbsPath) : List Char :=
  lower.toLowerCase ((resolved.toStringLossy.map slash).rdropWhile (· == '/'))

/-- `canonicalizePath` -/
def canonicalizePath (cwd : AbsPath) (target : List UInt8) : String :=
  let absolute := pathResolve cwd target
  let resolved := (fs.canonicalize absolute).getD (canonicalizeViaExistingAncestor fs absolute)
  .ofList (normalizeCanonical lower resolved)

def defaultDbPathForRepo (repoRoot : List UInt8) : List UInt8 :=
  pathJoin [repoRoot, configDirName, databaseName]

/-- `RepoCanonicalIdentity` -/
structure RepoCanonicalIdentity where
  root : String
  dbPath : String
  key : String

def canonicalRepoIdentity (cwd : AbsPath) (repoRoot : List UInt8)
    (dbPathOverride : Option (List UInt8)) : RepoCanonicalIdentity :=
  let root := canonicalizePath fs lower cwd repoRoot
  let dbPath :=
    canonicalizePath fs lower cwd (dbPathOverride.getD (defaultDbPathForRepo repoRoot))
  { root, dbPath, key := root ++ "\x00" ++ dbPath }

/-- `repoWireKey` -/
def repoWireKey (sha256 : List UInt8 → List UInt8) (identity : RepoCanonicalIdentity) : String :=
  .ofList (hexLower (sha256 (asBytes identity.key)))

end

/-! ## What the walk up reaches -/

section
variable {Loc : Type} {fs : FileSystem Loc} {p : AbsPath} {l : Loc} {rest : List Segment}

theorem climb_of_le (h : fs.Stops p l rest) {fuel : ℕ} (hle : rest.length ≤ fuel)
    (tail : List Segment) :
    ∃ a, climb fs fuel p tail = some (a, rest ++ tail) ∧ fs.walk a = some l := by
  induction rest using List.reverseRecOn generalizing p fuel tail with
  | nil =>
    refine ⟨p, ?_, h.walk⟩
    cases fuel with
    | zero => rfl
    | succ fuel =>
      rw [climb, FileSystem.pathExists, h.walk]
      rfl
  | append_singleton rest s ih =>
    obtain ⟨up, rfl⟩ := h.last
    rw [List.length_append, List.length_singleton] at hle
    cases fuel with
    | zero => omega
    | succ fuel =>
      obtain ⟨a, hclimb, ha⟩ := ih h.init (Nat.le_of_succ_le_succ hle) (s :: tail)
      refine ⟨a, ?_, ha⟩
      rw [climb, FileSystem.pathExists, h.walk, if_neg (by simp), if_neg (by simp)]
      simpa using hclimb

theorem climb_of_lt (h : fs.Stops p l rest) {fuel : ℕ} (hlt : fuel < rest.length)
    (tail : List Segment) :
    ∃ a tail', climb fs fuel p tail = some (a, tail') ∧ fs.walk a = none := by
  induction fuel generalizing p rest tail with
  | zero => exact ⟨p, tail, rfl, by rw [h.walk, if_neg (List.ne_nil_of_length_pos hlt)]⟩
  | succ fuel ih =>
    obtain rfl | ⟨rest, s, rfl⟩ := rest.eq_nil_or_concat'
    · cases hlt
    obtain ⟨up, rfl⟩ := h.last
    rw [List.length_append, List.length_singleton] at hlt
    obtain ⟨a, tail', hclimb, ha⟩ := ih h.init (Nat.lt_of_succ_lt_succ hlt) (s :: tail)
    refine ⟨a, tail', ?_, ha⟩
    rw [climb, FileSystem.pathExists, h.walk, if_neg (by simp), if_neg (by simp)]
    simpa using hclimb

theorem stops_subset (h : fs.Stops p l rest) : rest ⊆ p := by
  obtain ⟨found, rfl, -⟩ := h
  exact List.subset_append_right found rest

/-- What the extension resolves a path to. -/
theorem resolved_eq (p : AbsPath) :
    (fs.canonicalize (normalizeSegments false p)).getD
        (canonicalizeViaExistingAncestor fs (normalizeSegments false p)) =
      fs.lexicalName p := by
  have hlex := lexical_normalizeSegments p
  have hstop := FileTree.stop_spec fs.toFileTree (normalizeSegments false p)
  rw [FileSystem.lexicalName]
  generalize fs.stop (normalizeSegments false p) = place at hstop
  obtain ⟨l, rest⟩ := place
  dsimp only at hstop ⊢
  by_cases hle : rest.length ≤ 4096
  · rw [if_pos hle]
    obtain ⟨a, hclimb, ha⟩ := climb_of_le hstop hle []
    have hjoin : Lexical (fs.name l ++ rest) := by
      intro s hs
      rcases List.mem_append.1 hs with hs | hs
      · have hplain := fs.name_plain l s hs
        exact ⟨hplain.1, hplain.2.1⟩
      · exact hlex s (stops_subset hstop hs)
    rw [FileSystem.canonicalize, hstop.walk, canonicalizeViaExistingAncestor, hclimb,
      List.append_nil]
    dsimp only
    rw [FileSystem.canonicalize, ha, Option.map_some]
    dsimp only
    rw [normalizeSegments_of_lexical hjoin]
    by_cases hrest : rest = []
    · simp [hrest]
    · simp [hrest]
  · have hne : rest ≠ [] := fun h => hle (by simp [h])
    obtain ⟨a, tail, hclimb, ha⟩ := climb_of_lt hstop (Nat.lt_of_not_le hle) []
    rw [if_neg hle, FileSystem.canonicalize, hstop.walk, if_neg hne,
      canonicalizeViaExistingAncestor, hclimb]
    dsimp only
    rw [FileSystem.canonicalize, ha]
    rfl

theorem canonicalizePath_eq (fs : FileSystem Loc) (lower : LowerCase) (cwd : AbsPath)
    (target : List UInt8) :
    canonicalizePath fs lower cwd target =
      .ofList (normalizeCanonical lower (fs.lexicalName (absolutePath cwd target))) := by
  rw [canonicalizePath, pathResolve, resolved_eq]

end

/-! ## Normalising before resolving -/

theorem notMem_of_mem_splitOn {b : UInt8} {path s : List UInt8} (h : s ∈ path.splitOn b) : b ∉ s := by
  induction path generalizing s with
  | nil =>
    cases List.mem_singleton.1 (List.splitOn_nil b ▸ h)
    exact List.not_mem_nil
  | cons c path ih =>
    rw [List.splitOn_cons_eq_if_modifyHead] at h
    split at h
    · rcases List.mem_cons.1 h with rfl | h
      · exact List.not_mem_nil
      · exact ih h
    next hc =>
      cases hsplit : path.splitOn b with
      | nil => exact absurd hsplit (List.splitOn_ne_nil b path)
      | cons t ts =>
        rw [hsplit] at h ih
        rcases List.mem_cons.1 h with rfl | h
        · intro hmem
          rcases List.mem_cons.1 hmem with rfl | hmem
          · simp at hc
          · exact ih List.mem_cons_self hmem
        · exact ih (List.mem_cons_of_mem t h)

theorem mem_of_mem_normalizeSegments {b : Bool} {q : List Segment} {s : Segment}
    (h : s ∈ normalizeSegments b q) : s ∈ q := by
  induction q using List.reverseRecOn with
  | nil => cases h
  | append_singleton q s' ih =>
    have hpush : s ∈ normalizeSegments b q ++ [s'] → s ∈ q ++ [s'] := by
      intro hs
      rcases List.mem_append.1 hs with hs | hs
      · exact List.mem_append_left _ (ih hs)
      · exact List.mem_append_right _ hs
    rw [normalizeSegments_append, List.foldl_cons, List.foldl_nil, pushSegment] at h
    split at h
    · exact List.mem_append_left _ (ih h)
    split at h
    · split at h
      · exact List.mem_append_left _ (ih (List.dropLast_subset _ h))
      · split at h
        · exact hpush h
        · exact List.mem_append_left _ (ih h)
    · exact hpush h

/-- The segments of a text that is made of segments, with or without a separator at the end. -/
theorem components_splitOn_intercalate {names : List Segment} (hne : names ≠ [])
    (hsep : ∀ s ∈ names, 0x2F ∉ s) (hplain : ∀ s ∈ names, ¬ ignorable s) (trailing : Bool) :
    components ((if trailing then [0x2F].intercalate names ++ [0x2F]
      else [0x2F].intercalate names).splitOn 0x2F) = names := by
  have hsplit := List.splitOn_intercalate 0x2F hsep hne
  have hnames : components names = names := List.filter_eq_self.2 (by simpa using hplain)
  cases trailing with
  | false => rw [if_neg (by simp), hsplit, hnames]
  | true =>
    have hend := List.splitOn_append_cons_self ([0x2F].intercalate names) [] (a := 0x2F)
    rw [if_pos rfl, hend, hsplit, List.splitOn_nil, components, List.filter_append]
    exact (List.append_nil _).trans hnames

theorem intercalate_ne_nil {names : List Segment} (hne : names ≠ []) (hsep : ∀ s ∈ names, 0x2F ∉ s)
    (hplain : ∀ s ∈ names, ¬ ignorable s) : [0x2F].intercalate names ≠ [] := by
  intro h
  have hsplit := List.splitOn_intercalate 0x2F hsep hne
  rw [h, List.splitOn_nil] at hsplit
  exact hplain [] (hsplit ▸ List.mem_singleton_self []) rfl

theorem head?_intercalate {names : List Segment} (hne : names ≠ []) (hsep : ∀ s ∈ names, 0x2F ∉ s)
    (hplain : ∀ s ∈ names, ¬ ignorable s) : ([0x2F].intercalate names).head? ≠ some 0x2F := by
  intro h
  have hsplit := List.splitOn_intercalate 0x2F hsep hne
  obtain ⟨t, ht⟩ : ∃ t, [0x2F].intercalate names = 0x2F :: t := by
    cases htext : [0x2F].intercalate names with
    | nil => rw [htext] at h; cases h
    | cons b t => rw [htext] at h; exact ⟨t, by rw [Option.some.inj h]⟩
  rw [ht, show 0x2F :: t = [] ++ 0x2F :: t from rfl, List.splitOn_append_cons_self] at hsplit
  exact hplain [] (hsplit ▸ List.mem_cons_self) rfl

theorem normalizeSegments_components (b : Bool) (p : List Segment) :
    normalizeSegments b (components p) = normalizeSegments b p :=
  foldl_pushSegment_components b [] p

/-- `path.resolve` takes a normalised path where it takes the path. -/
theorem normalizeSegments_pathNormalize (cwd : AbsPath) (path : List UInt8) :
    normalizeSegments false (absolutePath cwd (pathNormalize path)) =
      normalizeSegments false (absolutePath cwd path) := by
  rw [← normalizeSegments_components, components_absolutePath,
    ← normalizeSegments_components false (absolutePath cwd path), components_absolutePath]
  rw [pathNormalize]
  simp only
  by_cases hpath : path = []
  · rw [if_pos hpath, hpath]
    rfl
  rw [if_neg hpath]
  have hnames : ∀ b, ∀ s ∈ normalizeSegments b (path.splitOn 0x2F), 0x2F ∉ s := fun b s hs =>
    notMem_of_mem_splitOn (mem_of_mem_normalizeSegments hs)
  have hplain := fun b => not_ignorable_normalizeSegments b (path.splitOn 0x2F)
  have hempty : ([0x2F] : List UInt8).intercalate [] = [] := rfl
  by_cases habs : path.head? = some 0x2F
  · have hroot : (path.head? == some 0x2F) = true := by simpa using habs
    rw [hroot, if_pos habs, List.nil_append, normalizeSegments_components, Bool.not_true]
    have hlex := lexical_normalizeSegments (path.splitOn 0x2F)
    have hsep := hnames false
    have hplain := hplain false
    generalize normalizeSegments false (path.splitOn 0x2F) = names at hsep hplain hlex ⊢
    obtain rfl | hne := eq_or_ne names []
    · rw [if_pos hempty, if_pos rfl]
      rfl
    · rw [if_neg (intercalate_ne_nil hne hsep hplain), if_pos rfl, List.head?_cons, if_pos rfl,
        List.nil_append]
      generalize htext : (if (path.getLast? == some 0x2F) = true then
        [0x2F].intercalate names ++ [0x2F] else [0x2F].intercalate names) = text
      have hsplit : (0x2F :: text).splitOn 0x2F = [] :: text.splitOn 0x2F :=
        List.splitOn_append_cons_self [] text
      have hcomp := components_splitOn_intercalate hne hsep hplain (path.getLast? == some 0x2F)
      rw [htext] at hcomp
      rw [hsplit, show components ([] :: text.splitOn 0x2F) = components (text.splitOn 0x2F) from rfl,
        hcomp, normalizeSegments_of_lexical hlex]
  · have hroot : (path.head? == some 0x2F) = false := by simpa using habs
    rw [hroot, if_neg habs, Bool.not_false, normalizeSegments_append false (components cwd),
      foldl_pushSegment_components, ← foldl_pushSegment_normalizeSegments]
    have hsep := hnames true
    have hplain := hplain true
    generalize normalizeSegments true (path.splitOn 0x2F) = names at hsep hplain ⊢
    obtain rfl | hne := eq_or_ne names []
    · rw [if_pos hempty]
      simp only [Bool.false_eq_true, if_false]
      cases path.getLast? == some 0x2F <;> exact normalizeSegments_append ..
    · rw [if_neg (intercalate_ne_nil hne hsep hplain)]
      simp only [Bool.false_eq_true, if_false]
      have hhead := head?_intercalate hne hsep hplain
      rw [if_neg, components_splitOn_intercalate hne hsep hplain, normalizeSegments_append]
      split
      · rwa [List.head?_append_of_ne_nil _ (intercalate_ne_nil hne hsep hplain)]
      · exact hhead

/-! ## The two identities -/

/-- Both take the same database of a repository by default. -/
theorem normalizeSegments_defaultDbPathForRepo (cwd : AbsPath) (repoRoot : List UInt8) :
    normalizeSegments false (absolutePath cwd (defaultDbPathForRepo repoRoot)) =
      normalizeSegments false (absolutePath cwd (RepoIdentity.defaultDbPath repoRoot)) := by
  rw [defaultDbPathForRepo, pathJoin, normalizeSegments_pathNormalize,
    ← normalizeSegments_components false (absolutePath cwd (RepoIdentity.defaultDbPath repoRoot)),
    components_defaultDbPath, ← normalizeSegments_components, components_absolutePath,
    components_absolutePath]
  congr 1
  cases repoRoot with
  | nil => simp [configDirName, databaseName, ignorable, components]; decide
  | cons b root =>
    have hjoin : [0x2F].intercalate ([b :: root, configDirName, databaseName].filter (!·.isEmpty)) =
        (b :: root) ++ 0x2F :: [0x2F].intercalate [configDirName, databaseName] := rfl
    have hrest : ([0x2F].intercalate [configDirName, databaseName]).splitOn 0x2F =
        [configDirName, databaseName] := List.splitOn_intercalate 0x2F (by decide) (by decide)
    have happ : components ((b :: root).splitOn 0x2F ++ [configDirName, databaseName]) =
        components ((b :: root).splitOn 0x2F) ++ [configDirName, databaseName] :=
      List.filter_append ..
    rw [hjoin, List.splitOn_append_cons_self, hrest, happ, List.append_assoc]
    rfl

section
variable {Loc : Type}

/-- The name as the extension compares it, apart from letter case. -/
def extensionText (p : AbsPath) : List Char := (p.toStringLossy.map slash).rdropWhile (· == '/')

/-- The name as the engine compares it, apart from letter case. -/
def engineText (p : AbsPath) : List Char := (comparable p).map slash

/-- With `..` looked up and with `..` removed textually, the path leads to names that differ in
    letter case at most; and no letter outside ASCII is upper case in the first one. -/
def AgreesAt (fs : FileSystem Loc) (lower : LowerCase) (p : AbsPath) : Prop :=
  let text := engineText (fs.followedName p)
  lower.toLowerCase text = lower.toLowerCase (extensionText (fs.lexicalName p)) ∧
    lower.toLowerCase text = text.map Char.toLower

/-- A condition on the path alone, as far as the extension goes by its normal form. -/
theorem canonicalizePath_congr (fs : FileSystem Loc) (lower : LowerCase) {cwd : AbsPath}
    {target target' : List UInt8}
    (h : normalizeSegments false (absolutePath cwd target) =
      normalizeSegments false (absolutePath cwd target')) :
    canonicalizePath fs lower cwd target = canonicalizePath fs lower cwd target' := by
  rw [canonicalizePath, canonicalizePath, pathResolve, pathResolve, h]

/-- The two canonicalisations of one path. -/
theorem canonicalizePath_eq_iff {fs : FileSystem Loc} (hroot : fs.isDir fs.root) (lower : LowerCase)
    (cwd : AbsPath) (target : List UInt8) :
    Cognis.canonicalizePath fs cwd target = canonicalizePath fs lower cwd target ↔
      AgreesAt fs lower (absolutePath cwd target) := by
  rw [Cognis.canonicalizePath, canonicalizePath_eq, FileSystem.resolve_eq_followedName hroot,
    String.ofList_inj, normalizeCanonical_eq, ← Function.comp_def, ← List.map_map,
    normalizeCanonical, AgreesAt]
  show (engineText _).map Char.toLower = lower.toLowerCase (extensionText _) ↔ _
  generalize engineText (fs.followedName (absolutePath cwd target)) = e
  generalize extensionText (fs.lexicalName (absolutePath cwd target)) = x
  constructor
  · intro h
    have hlower : lower.toLowerCase e = lower.toLowerCase x := by
      rw [← lower.toLowerCase_toLower e, h, lower.toLowerCase_toLowerCase]
    exact ⟨hlower, hlower.trans h.symm⟩
  · rintro ⟨hname, hcase⟩
    exact hcase.symm.trans hname

/-- Without `..` the path leads to one name either way. -/
theorem followedName_eq_lexicalName {fs : FileSystem Loc} {p : AbsPath} (hdd : dotDot ∉ p)
    (htrim : p = trimEnd p) (hlen : (components p).length ≤ 4096) :
    fs.followedName p = fs.lexicalName p := by
  have hlex : Lexical (components p) := by
    intro s hs
    obtain ⟨hs, hplain⟩ := List.mem_filter.1 hs
    exact ⟨by simpa using hplain, fun h => hdd (h ▸ hs)⟩
  have hnorm : normalizeSegments false p = components p := by
    rw [← normalizeSegments_components, normalizeSegments_of_lexical hlex]
  have hstop := FileTree.stop_spec fs.toFileTree (components p)
  have hwalk : fs.walk p = fs.walk (components p) := FileSystem.walk_trimmed htrim
  rw [FileSystem.followedName, FileSystem.lexicalName, hnorm, FileSystem.nearest, hwalk]
  generalize fs.stop (components p) = place at hstop
  obtain ⟨l, rest⟩ := place
  dsimp only at hstop ⊢
  rw [hstop.walk]
  have hrest : rest.length ≤ 4096 := by
    obtain ⟨found, hfound, -⟩ := hstop
    rw [hfound, List.length_append] at hlen
    omega
  obtain rfl | ⟨up, s, rfl⟩ := rest.eq_nil_or_concat'
  · simp
  · obtain ⟨names, hnames⟩ := hstop.last
    have hup := (hnames ▸ hstop).init.stop_eq
    have hdots : (up ++ [s]).filter (· != dotDot) = up ++ [s] := by
      refine List.filter_eq_self.2 fun s' hs' => ?_
      simpa using (hlex s' (stops_subset hstop hs')).2
    have hnone : (if up ++ [s] = [] then some l else none) = none := if_neg (by simp)
    rw [hnone, hnames, List.dropLast_concat, List.getLast?_concat]
    dsimp only
    rw [hup, Option.toList_some, if_pos hrest, hdots, if_pos hrest]

/-- The two identities are the same, and so are the digests. -/
def Mirrors (sha256 : List UInt8 → List UInt8) (engine : RepoIdentity)
    (extension : RepoCanonicalIdentity) : Prop :=
  engine.root = extension.root ∧ engine.key = extension.key ∧
    engine.wireKey sha256 = repoWireKey sha256 extension

/-- The identities of a repository agree exactly when its root and its database path do. -/
theorem mirrors_iff (fs : FileSystem Loc) (hroot : fs.isDir fs.root) (lower : LowerCase)
    (sha256 : List UInt8 → List UInt8) (cwd : AbsPath) (repoRoot : List UInt8)
    (dbPath : Option (List UInt8)) :
    Mirrors sha256
        (.fromPaths fs cwd repoRoot (dbPath.getD (RepoIdentity.defaultDbPath repoRoot)))
        (canonicalRepoIdentity fs lower cwd repoRoot dbPath) ↔
      AgreesAt fs lower (absolutePath cwd repoRoot) ∧
        AgreesAt fs lower
          (absolutePath cwd (dbPath.getD (RepoIdentity.defaultDbPath repoRoot))) := by
  have hdb : canonicalizePath fs lower cwd (dbPath.getD (defaultDbPathForRepo repoRoot)) =
      canonicalizePath fs lower cwd (dbPath.getD (RepoIdentity.defaultDbPath repoRoot)) := by
    cases dbPath with
    | some db => rfl
    | none =>
      exact canonicalizePath_congr fs lower (normalizeSegments_defaultDbPathForRepo cwd repoRoot)
  rw [← canonicalizePath_eq_iff hroot, ← canonicalizePath_eq_iff hroot, Mirrors,
    RepoIdentity.fromPaths, canonicalRepoIdentity, hdb]
  generalize Cognis.canonicalizePath fs cwd repoRoot = root
  generalize canonicalizePath fs lower cwd repoRoot = root'
  constructor
  · rintro ⟨hrootEq, hkey, -⟩
    dsimp only at hrootEq hkey
    subst hrootEq
    have hlist := congrArg String.toList hkey
    simp only [String.toList_append] at hlist
    exact ⟨rfl, String.toList_inj.1 (List.append_cancel_left hlist)⟩
  · rintro ⟨rfl, hdbEq⟩
    dsimp only
    rw [hdbEq]
    exact ⟨rfl, rfl, rfl⟩

end

/-- A lower-casing of texts in ASCII. -/
def asciiLowerCase : LowerCase where
  toLowerCase s := s.map Char.toLower
  toLowerCase_toLower s := by simp [toLower_toLower]
  toLowerCase_toLowerCase s := by simp [toLower_toLower]

open CaseTree in
/-- `/Repo/./../repo`, where both directories exist. -/
theorem mirrors_iff_sample :
    Mirrors sha256
      (.fromPaths CaseTree.fs [] (bytes [upperName, dot, dotDot, lowerName])
        (RepoIdentity.defaultDbPath (bytes [upperName, dot, dotDot, lowerName])))
      (canonicalRepoIdentity CaseTree.fs asciiLowerCase []
        (bytes [upperName, dot, dotDot, lowerName]) none) :=
  (mirrors_iff CaseTree.fs rfl asciiLowerCase sha256 [] (bytes [upperName, dot, dotDot, lowerName])
    none).2 ⟨⟨by decide +kernel, by decide +kernel⟩, by decide +kernel, by decide +kernel⟩

/-- On this file system the identities agree for every path. -/
def MirrorsOn {Loc : Type} (fs : FileSystem Loc) (lower : LowerCase)
    (sha256 : List UInt8 → List UInt8) : Prop :=
  ∀ (cwd : AbsPath) (repoRoot : List UInt8) (dbPath : Option (List UInt8)),
    Mirrors sha256 (.fromPaths fs cwd repoRoot (dbPath.getD (RepoIdentity.defaultDbPath repoRoot)))
      (canonicalRepoIdentity fs lower cwd repoRoot dbPath)

open CaseTree in
/-- `/other.db/../repo`, where there is no `/other.db`: the engine keeps the missing name. -/
theorem not_mirrorsOn : ¬ MirrorsOn CaseTree.fs asciiLowerCase sha256 := by
  intro h
  have hroot := (h [] (bytes [otherDb, dotDot, lowerName]) none).1
  have hagree := (canonicalizePath_eq_iff rfl asciiLowerCase [] _).1 hroot
  exact absurd hagree.1 (by decide +kernel)

end Extension

end Cognis
