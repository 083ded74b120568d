/-
  The identity of a repository (`identity.rs`): the canonical root and database path,
  joined into a key, and the digest of the key that travels on the wire.

  * `resolve_eq`: `fs::canonicalize`, and where it fails the walk up to the nearest existing
    ancestor, give the canonical name of what the path denotes.
  * `normalizeCanonical_eq_iff`: two names normalise to one text exactly when they are
    `Confusable`, that is when they differ in letter case and separators only.
  * `tellsApart_iff`: two repositories are told apart exactly when their names are equal or
    not confusable. Two spellings of one place always share a key; two directories that
    differ in the case of a letter share theirs too.
-/
import Cognis.Indexer.Text
import Cognis.Lib.FileSystem
import Cognis.Lib.Utf8
import Mathlib.Data.List.Basic
import Mathlib.Data.List.Forall2

namespace Cognis

open AbsPath

namespace FileSystem

variable {Loc : Type} (fs : FileSystem Loc)

/-- The loop of `canonicalize_via_existing_ancestor`, for at most `fuel` turns: the ancestor
    it stops at, and the names that it has taken off. `none` where the path has no parent
    left. -/
def ascend : ℕ → AbsPath → List Segment → Option (AbsPath × List Segment)
  | 0, ancestor, tail => some (ancestor, tail)
  | fuel + 1, ancestor, tail =>
    if fs.pathExists ancestor then some (ancestor, tail)
    else
      match ancestor.parent with
      | some up =>
        if components up ≠ components ancestor then
          ascend fuel up (ancestor.fileName.toList ++ tail)
        else none
      | none => none

def canonicalizeViaExistingAncestor (absolute : AbsPath) : AbsPath :=
  match fs.ascend 4096 absolute [] with
  | some (ancestor, tail) => (fs.canonicalize ancestor).getD ancestor ++ tail
  | none => absolute

/-- The canonical form of a path that may not exist yet. -/
def resolve (absolute : AbsPath) : AbsPath :=
  (fs.canonicalize absolute).getD (fs.canonicalizeViaExistingAncestor absolute)

variable {fs} {p : AbsPath} {l : Loc} {s : Segment} {missing : List Segment}

theorem trimEnd_concat : trimEnd (p ++ [s]) = if s.ignorable then trimEnd p else p ++ [s] :=
  List.rdropWhile_concat ..

theorem components_trimEnd (p : AbsPath) : components (trimEnd p) = components p := by
  induction p using List.reverseRecOn with
  | nil => rfl
  | append_singleton p s ih =>
    rw [trimEnd_concat]
    split_ifs with hs
    · rw [ih, components, components, List.filter_append]
      simp [hs]
    · rfl

theorem walk_trimEnd (h : fs.walk p = some l) : fs.walk (trimEnd p) = some l := by
  induction p using List.reverseRecOn generalizing l with
  | nil => exact h
  | append_singleton p s ih =>
    rw [trimEnd_concat]
    split_ifs with hs
    · obtain ⟨l', hl', hstep⟩ := Option.bind_eq_some_iff.1 (walk_concat ▸ h)
      rw [step_ignorable hs] at hstep
      split_ifs at hstep
      exact Option.some.inj hstep ▸ ih hl'
    · exact h

theorem Denotes.trimEnd (h : fs.Denotes p l missing) : fs.Denotes (trimEnd p) l missing := by
  induction h with
  | found hw => exact .found (walk_trimEnd hw)
  | stay _ _ hs ih => rwa [trimEnd_concat, if_pos hs]
  | miss h hd hs hnone _ =>
    rw [trimEnd_concat, if_neg hs.1]
    exact h.miss hd hs hnone

/-- The last missing name is the last segment of the path that counts. -/
theorem Denotes.concat_inv (h : fs.Denotes p l (missing ++ [s])) :
    ∃ up, AbsPath.trimEnd p = up ++ [s] ∧ fs.Denotes up l missing ∧ s.Plain := by
  generalize hm : missing ++ [s] = m at h
  induction h with
  | found => exact absurd hm (List.append_ne_nil_of_right_ne_nil _ (List.cons_ne_nil _ _))
  | stay _ _ hs ih =>
    rw [trimEnd_concat, if_pos hs]
    exact ih hm
  | miss h _ hs _ _ =>
    obtain ⟨rfl, hs'⟩ := List.append_inj' hm rfl
    cases hs'
    exact ⟨_, by rw [trimEnd_concat, if_neg hs.1], h, hs⟩

theorem parent_eq {up : AbsPath} (h : trimEnd p = up ++ [s]) : p.parent = some (trimEnd up) := by
  rw [AbsPath.parent]
  split
  · next h' => exact absurd (h'.symm.trans h).symm (by simp)
  · next h' => rw [← h', h, List.dropLast_concat]

theorem fileName_eq {up : AbsPath} (h : trimEnd p = up ++ [s]) (hs : s.Plain) :
    p.fileName = some s := by
  rw [AbsPath.fileName, h, List.getLast?_concat, Option.filter_some, if_pos]
  exact bne_iff_ne.2 hs.2.1

theorem components_ne {up : AbsPath} (h : trimEnd p = up ++ [s]) (hs : s.Plain) :
    components (trimEnd up) ≠ components p := by
  rw [components_trimEnd, ← components_trimEnd p, h, components, components, List.filter_append]
  intro heq
  have := congrArg List.length heq
  simp [hs.1] at this

/-- The loop takes off the missing names, and nothing else. -/
theorem Denotes.ascend_eq (h : fs.Denotes p l missing) {fuel : ℕ} (hlen : missing.length ≤ fuel)
    (tail : List Segment) :
    ∃ ancestor, fs.ascend fuel p tail = some (ancestor, missing ++ tail) ∧
      fs.walk ancestor = some l := by
  induction missing using List.reverseRecOn generalizing p fuel tail with
  | nil =>
    have hw : fs.walk p = some l := h.walk
    refine ⟨p, ?_, hw⟩
    cases fuel with
    | zero => rfl
    | succ fuel => rw [ascend, pathExists, hw]; rfl
  | append_singleton missing s ih =>
    have hne : missing ++ [s] ≠ [] := List.append_ne_nil_of_right_ne_nil _ (List.cons_ne_nil _ _)
    have hw : fs.walk p = none := h.walk.trans (if_neg hne)
    obtain ⟨up, htrim, hup, hs⟩ := h.concat_inv
    rw [List.length_append, List.length_singleton] at hlen
    cases fuel with
    | zero => omega
    | succ fuel =>
      obtain ⟨ancestor, hasc, hanc⟩ :=
        ih hup.trimEnd (Nat.le_of_succ_le_succ hlen) (p.fileName.toList ++ tail)
      refine ⟨ancestor, ?_, hanc⟩
      rw [ascend, pathExists, hw, if_neg (by simp), parent_eq htrim]
      dsimp only
      rw [if_pos (components_ne htrim hs), hasc, fileName_eq htrim hs]
      simp

/-- What the code resolves a path to is the canonical name of what the path denotes. -/
theorem resolve_eq (h : fs.Denotes p l missing) (hlen : missing.length ≤ 4096) :
    fs.resolve p = fs.name l ++ missing := by
  by_cases hm : missing = []
  · rw [resolve, canonicalize, h.walk, if_pos hm, hm]
    exact (List.append_nil _).symm
  · obtain ⟨ancestor, hasc, hw⟩ := h.ascend_eq hlen []
    rw [resolve, canonicalize, h.walk, if_neg hm, canonicalizeViaExistingAncestor, hasc]
    simp [canonicalize, hw]

/-- What a path denotes: an existing location and the names missing below it. -/
structure Place (Loc : Type) where
  loc : Loc
  missing : List Segment
deriving DecidableEq

variable (fs)

/-- The canonical name of a place. -/
def placeName (place : Place Loc) : AbsPath := fs.name place.loc ++ place.missing

/-- The path denotes the place. At most 4096 names are missing: no system call takes a
    longer path. -/
def Locates (absolute : AbsPath) (place : Place Loc) : Prop :=
  fs.Denotes absolute place.loc place.missing ∧ place.missing.length ≤ 4096

variable {fs}

theorem Locates.resolve {absolute : AbsPath} {place : Place Loc} (h : fs.Locates absolute place) :
    fs.resolve absolute = fs.placeName place := resolve_eq h.1 h.2

theorem Locates.name_inj {absolute absolute' : AbsPath} {place place' : Place Loc}
    (h : fs.Locates absolute place) (h' : fs.Locates absolute' place')
    (heq : fs.placeName place = fs.placeName place') : place = place' := by
  obtain ⟨hl, hm⟩ := h.1.name_inj h'.1 heq
  cases place
  cases place'
  exact congrArg₂ Place.mk hl hm

end FileSystem

/-! ## Normalisation -/

/-- `Path::to_string_lossy` -/
def AbsPath.toStringLossy (p : AbsPath) : List Char := fromUtf8Lossy p.bytes

/-- The text without the Windows verbatim prefix. -/
def stripVerbatim (s : List Char) : List Char :=
  if ['\\', '\\', '?', '\\'] <+: s ∨ ['/', '/', '?', '/'] <+: s then s.drop 4 else s

/-- `replace('\\', "/")`, on a character. -/
def slash (c : Char) : Char := if c = '\\' then '/' else c

/-- Slash and case normalisation. -/
def normalizeCanonical (resolved : AbsPath) : List Char :=
  (((stripVerbatim resolved.toStringLossy).map slash).rdropWhile (· == '/')).map Char.toLower

/-- The path that `target` names for a process whose working directory is `cwd`. -/
def absolutePath (cwd : AbsPath) (target : List UInt8) : AbsPath :=
  if target.head? = some 0x2F then target.tail.splitOn 0x2F else cwd ++ target.splitOn 0x2F

/-- `canonicalize_path` -/
def canonicalizePath {Loc : Type} (fs : FileSystem Loc) (cwd : AbsPath) (target : List UInt8) :
    String := .ofList (normalizeCanonical (fs.resolve (absolutePath cwd target)))

/-- The name as it is compared: neither the verbatim prefix nor the separators at the end
    count. -/
def comparable (p : AbsPath) : List Char :=
  (stripVerbatim p.toStringLossy).rdropWhile fun c => c == '/' || c == '\\'

/-- Two separators, or one letter in either case. -/
def SameFolded (c d : Char) : Prop := slash c = slash d ∨ c.toLower = d.toLower

/-- Two names that are told apart by letter case and separators only. -/
def Confusable (p q : AbsPath) : Prop := List.Forall₂ SameFolded (comparable p) (comparable q)

theorem toLower_eq_slash {c : Char} (h : c.toLower = '/') : c = '/' :=
  eq_of_toLower_eq h (by decide)

theorem toLower_eq_backslash {c : Char} (h : c.toLower = '\\') : c = '\\' :=
  eq_of_toLower_eq h (by decide)

theorem slash_eq_slash {c : Char} : slash c = '/' ↔ c = '/' ∨ c = '\\' := by
  rw [slash]
  split_ifs with h
  · simp [h]
  · simp [h]

theorem toLower_slash_eq_iff {c d : Char} :
    (slash c).toLower = (slash d).toLower ↔ SameFolded c d := by
  constructor
  · intro h
    by_cases hc : c = '\\'
    · rw [slash, if_pos hc] at h
      have hd : slash d = '/' := toLower_eq_slash h.symm
      exact .inl (by rw [hd, slash, if_pos hc])
    by_cases hd : d = '\\'
    · rw [slash.eq_def d, if_pos hd] at h
      have hc : slash c = '/' := toLower_eq_slash h
      exact .inl (by rw [hc, slash, if_pos hd])
    rw [slash, slash, if_neg hc, if_neg hd] at h
    exact .inr h
  · rintro (h | h)
    · rw [h]
    · by_cases hc : c = '\\'
      · have hd : d = '\\' := toLower_eq_backslash (by rw [← h, hc]; decide)
        rw [hc, hd]
      · have hd : d ≠ '\\' := fun hd => hc (toLower_eq_backslash (by rw [h, hd]; decide))
        rwa [slash, slash, if_neg hc, if_neg hd]

theorem normalizeCanonical_eq (p : AbsPath) :
    normalizeCanonical p = (comparable p).map fun c => (slash c).toLower := by
  have htrim : ∀ s : List Char, (s.map slash).rdropWhile (· == '/') =
      (s.rdropWhile fun c => c == '/' || c == '\\').map slash := by
    intro s
    induction s using List.reverseRecOn with
    | nil => rfl
    | append_singleton s c ih =>
      rw [List.map_append, List.map_singleton, List.rdropWhile_concat, List.rdropWhile_concat]
      have hcond : (slash c == '/') = (c == '/' || c == '\\') := by
        rw [Bool.eq_iff_iff]
        simp [slash_eq_slash]
      rw [hcond, ih]
      split_ifs <;> simp
  rw [normalizeCanonical, htrim, List.map_map]
  rfl

theorem normalizeCanonical_eq_iff {p q : AbsPath} :
    normalizeCanonical p = normalizeCanonical q ↔ Confusable p q := by
  rw [normalizeCanonical_eq, normalizeCanonical_eq, ← List.forall₂_eq_eq_eq,
    List.forall₂_map_left_iff, List.forall₂_map_right_iff]
  simp only [toLower_slash_eq_iff]
  rfl

/-! ## The key and its digest -/

structure RepoIdentity where
  root : String
  dbPath : String
  key : String
deriving DecidableEq

/-- `hex_lower` -/
def hexLower (bytes : List UInt8) : List Char :=
  bytes.flatMap fun b => [Nat.digitChar (b.toNat / 16), Nat.digitChar (b.toNat % 16)]

/-- `str::as_bytes` -/
def asBytes (s : String) : List UInt8 := s.toByteArray.data.toList

namespace RepoIdentity

def fromPaths {Loc : Type} (fs : FileSystem Loc) (cwd : AbsPath) (repoRoot dbPath : List UInt8) :
    RepoIdentity :=
  let root := canonicalizePath fs cwd repoRoot
  let db := canonicalizePath fs cwd dbPath
  { root, dbPath := db, key := root ++ "\x00" ++ db }

/-- The digest of the key in hexadecimal. -/
def wireKey (sha256 : List UInt8 → List UInt8) (id : RepoIdentity) : String :=
  .ofList (hexLower (sha256 (asBytes id.key)))

/-- `same_as` -/
def SameAs (id other : RepoIdentity) : Prop := id.key = other.key

end RepoIdentity

inductive AttachmentDecision
  | allow
  | rejectCrossRepository (ownerKey presentedKey : String)
deriving DecidableEq

def AttachmentDecision.isAllowed : AttachmentDecision → Bool
  | allow => true
  | rejectCrossRepository _ _ => false

/-- `str::trim` and `to_ascii_lowercase` -/
def foldPresented (presented : List Char) : List Char := (Text.trim presented).map Char.toLower

def verifyRepoWireKey (sha256 : List UInt8 → List UInt8) (owner : RepoIdentity)
    (presentedWireKey : List Char) : AttachmentDecision :=
  let presented := String.ofList (foldPresented presentedWireKey)
  let ownerWire := owner.wireKey sha256
  if presented ≠ "" ∧ presented = ownerWire then .allow
  else .rejectCrossRepository ownerWire presented

theorem digitChar_inj {m n : ℕ} (hm : m < 16) (hn : n < 16) (h : m.digitChar = n.digitChar) :
    m = n := by
  have hall : ∀ m : Fin 16, ∀ n : Fin 16, Nat.digitChar m = Nat.digitChar n → m = n := by decide
  exact congrArg Fin.val (hall ⟨m, hm⟩ ⟨n, hn⟩ h)

theorem toDigits_inj {m n : ℕ} (h : Nat.toDigits 10 m = Nat.toDigits 10 n) : m = n := by
  rw [← Nat.ofDigitChars_ten_toDigits (n := m), h, Nat.ofDigitChars_ten_toDigits]

theorem hexLower_inj {bs bs' : List UInt8} (h : hexLower bs = hexLower bs') : bs = bs' := by
  induction bs generalizing bs' with
  | nil =>
    cases bs' with
    | nil => rfl
    | cons => exact absurd h (by simp [hexLower])
  | cons b bs ih =>
    cases bs' with
    | nil => exact absurd h (by simp [hexLower])
    | cons b' bs' =>
      simp only [hexLower, List.flatMap_cons, List.cons_append, List.nil_append,
        List.cons.injEq] at h
      obtain ⟨hhigh, hlow, hrest⟩ := h
      have hb := b.toNat_lt
      have hb' := b'.toNat_lt
      have hdiv := digitChar_inj (by omega) (by omega) hhigh
      have hmod := digitChar_inj (Nat.mod_lt _ (by omega)) (Nat.mod_lt _ (by omega)) hlow
      rw [ih hrest, UInt8.toNat_inj.1 (show b.toNat = b'.toNat by omega)]

theorem asBytes_inj {s s' : String} (h : asBytes s = asBytes s') : s = s' := by
  apply String.toByteArray_inj.1
  exact ByteArray.ext (Array.toList_inj.1 h)

/-! ## Separation -/

theorem nul_notMem_bytes {p : AbsPath} (h : ∀ s ∈ p, Segment.Plain s) : 0 ∉ p.bytes := by
  rw [AbsPath.bytes]
  split_ifs
  · decide
  · intro hmem
    obtain ⟨s, hs, h0⟩ := List.mem_flatMap.1 hmem
    rcases List.mem_cons.1 h0 with h0 | h0
    · exact absurd h0 (by decide)
    · exact (h s hs).2.2 h0

/-- No NUL is left to be mistaken for the one between the root and the database path. -/
theorem nul_notMem_normalizeCanonical {p : AbsPath} (h : ∀ s ∈ p, Segment.Plain s) :
    '\x00' ∉ normalizeCanonical p := by
  rw [normalizeCanonical_eq]
  intro hmem
  obtain ⟨c, hc, heq⟩ := List.mem_map.1 hmem
  have hc : c ∈ p.toStringLossy := by
    have hc := (List.rdropWhile_prefix _ _).subset hc
    rw [stripVerbatim] at hc
    split_ifs at hc
    · exact List.mem_of_mem_drop hc
    · exact hc
  have hslash : slash c = '\x00' := eq_of_toLower_eq heq (by decide)
  rw [slash] at hslash
  split_ifs at hslash
  · exact absurd hslash (by decide)
  · exact nul_notMem_fromUtf8Lossy (nul_notMem_bytes h) (hslash ▸ hc)

/-- The root and the database of a repository. -/
structure Repository (Loc : Type) where
  root : FileSystem.Place Loc
  db : FileSystem.Place Loc
deriving DecidableEq

/-- What a process is given: its working directory and the two paths. -/
structure Invocation where
  cwd : AbsPath
  repoRoot : List UInt8
  dbPath : List UInt8

def Invocation.identity {Loc : Type} (fs : FileSystem Loc) (a : Invocation) : RepoIdentity :=
  .fromPaths fs a.cwd a.repoRoot a.dbPath

/-- The paths denote the root and the database of the repository. -/
structure Invocation.Means {Loc : Type} (a : Invocation) (fs : FileSystem Loc)
    (repo : Repository Loc) : Prop where
  root : fs.Locates (absolutePath a.cwd a.repoRoot) repo.root
  db : fs.Locates (absolutePath a.cwd a.dbPath) repo.db

/-- The canonical names of the root and of the database. -/
def Repository.names {Loc : Type} (repo : Repository Loc) (fs : FileSystem Loc) :
    AbsPath × AbsPath := (fs.placeName repo.root, fs.placeName repo.db)

/-- Both names are confusable. -/
def ConfusableNames (n n' : AbsPath × AbsPath) : Prop := Confusable n.1 n'.1 ∧ Confusable n.2 n'.2

section

variable {Loc : Type} {fs : FileSystem Loc} {a a' : Invocation} {repo repo' : Repository Loc}

theorem Invocation.Means.key_eq (h : a.Means fs repo) :
    (a.identity fs).key = .ofList (normalizeCanonical (repo.names fs).1 ++
      '\x00' :: normalizeCanonical (repo.names fs).2) := by
  rw [Invocation.identity, RepoIdentity.fromPaths, canonicalizePath, canonicalizePath,
    h.root.resolve, h.db.resolve]
  apply String.toList_inj.1
  simp [Repository.names]

theorem nul_notMem_placeName {absolute : AbsPath} {place : FileSystem.Place Loc}
    (h : fs.Locates absolute place) : '\x00' ∉ normalizeCanonical (fs.placeName place) := by
  apply nul_notMem_normalizeCanonical
  intro s hs
  rcases List.mem_append.1 hs with hs | hs
  · exact fs.name_plain _ s hs
  · exact h.1.plain s hs

/-- Two keys agree exactly when the names of the root and of the database are confusable. -/
theorem key_eq_iff (h : a.Means fs repo) (h' : a'.Means fs repo') :
    (a.identity fs).key = (a'.identity fs).key ↔
      ConfusableNames (repo.names fs) (repo'.names fs) := by
  have hroot : '\x00' ∉ normalizeCanonical (repo.names fs).1 := nul_notMem_placeName h.root
  have hdb : '\x00' ∉ normalizeCanonical (repo.names fs).2 := nul_notMem_placeName h.db
  rw [h.key_eq, h'.key_eq, String.ofList_inj, List.append_cons_inj_of_notMem hroot hdb]
  simp only [normalizeCanonical_eq_iff, true_and]
  rfl

theorem names_inj (h : a.Means fs repo) (h' : a'.Means fs repo') :
    repo.names fs = repo'.names fs ↔ repo = repo' := by
  constructor
  · intro heq
    have hroot := h.root.name_inj h'.root (congrArg Prod.fst heq)
    have hdb := h.db.name_inj h'.db (congrArg Prod.snd heq)
    cases repo
    cases repo'
    exact congrArg₂ Repository.mk hroot hdb
  · exact fun heq => heq ▸ rfl

/-- The digest does not collide on the two keys. -/
def NoCollision (sha256 : List UInt8 → List UInt8) (id id' : RepoIdentity) : Prop :=
  sha256 (asBytes id.key) = sha256 (asBytes id'.key) → asBytes id.key = asBytes id'.key

theorem wireKey_eq_iff {sha256 : List UInt8 → List UInt8} {id id' : RepoIdentity}
    (hsha : NoCollision sha256 id id') :
    id.wireKey sha256 = id'.wireKey sha256 ↔ id.key = id'.key := by
  constructor
  · intro h
    exact asBytes_inj (hsha (hexLower_inj (String.ofList_inj.1 h)))
  · intro h
    rw [RepoIdentity.wireKey, RepoIdentity.wireKey, h]

theorem Confusable.refl (p : AbsPath) : Confusable p p := normalizeCanonical_eq_iff.1 rfl

end

/-- The keys are equal exactly when the repositories are, and so are the wire keys. -/
def TellsApart {Loc : Type} (sha256 : List UInt8 → List UInt8) (id id' : RepoIdentity)
    (repo repo' : Repository Loc) : Prop :=
  (id.key = id'.key ↔ repo = repo') ∧ (id.wireKey sha256 = id'.wireKey sha256 ↔ repo = repo')

/-- The identities tell two repositories apart exactly when the canonical names are equal,
    or differ in more than letter case and separators. -/
theorem tellsApart_iff {Loc : Type} (fs : FileSystem Loc) (sha256 : List UInt8 → List UInt8)
    (a a' : Invocation) (repo repo' : Repository Loc) (h : a.Means fs repo)
    (h' : a'.Means fs repo') (hsha : NoCollision sha256 (a.identity fs) (a'.identity fs)) :
    TellsApart sha256 (a.identity fs) (a'.identity fs) repo repo' ↔
      repo.names fs = repo'.names fs ∨ ¬ ConfusableNames (repo.names fs) (repo'.names fs) := by
  rw [TellsApart, wireKey_eq_iff hsha, and_self, ← names_inj h h', key_eq_iff h h']
  have hrefl : repo.names fs = repo'.names fs → ConfusableNames (repo.names fs) (repo'.names fs) :=
    fun heq => heq ▸ ⟨.refl _, .refl _⟩
  tauto

/-- On this file system any two repositories are told apart, however they are spelled. -/
def SeparatesRepositories {Loc : Type} (fs : FileSystem Loc)
    (sha256 : List UInt8 → List UInt8) : Prop :=
  ∀ (a a' : Invocation) (repo repo' : Repository Loc), a.Means fs repo → a'.Means fs repo' →
    NoCollision sha256 (a.identity fs) (a'.identity fs) →
      TellsApart sha256 (a.identity fs) (a'.identity fs) repo repo'

/-! Two directories whose names differ in the case of one letter. -/

inductive CaseTree
  | top
  | upper
  | lower
deriving DecidableEq

namespace CaseTree

def upperName : Segment := [0x52, 0x65, 0x70, 0x6F]

def lowerName : Segment := [0x72, 0x65, 0x70, 0x6F]

/-- `.cognis` -/
def configDir : Segment := [0x2E, 0x63, 0x6F, 0x67, 0x6E, 0x69, 0x73]

/-- `uckg.db` -/
def defaultDb : Segment := [0x75, 0x63, 0x6B, 0x67, 0x2E, 0x64, 0x62]

/-- `other.db` -/
def otherDb : Segment := [0x6F, 0x74, 0x68, 0x65, 0x72, 0x2E, 0x64, 0x62]

def fs : FileSystem CaseTree where
  root := top
  isDir _ := true
  entry
    | top, s => if s = upperName then some upper else if s = lowerName then some lower else none
    | _, _ => none
  parent _ := top
  name
    | top => []
    | upper => [upperName]
    | lower => [lowerName]
  walk_name l := by cases l <;> decide
  name_plain l := by cases l <;> decide

/-- A process started at the top with absolute paths to a directory and the database in it. -/
def invocation (dir : Segment) (db : AbsPath) : Invocation :=
  { cwd := [], repoRoot := bytes [dir], dbPath := bytes (dir :: db) }

/-- The repository at a directory, whose database is not there yet. -/
def repository (l : CaseTree) (db : AbsPath) : Repository CaseTree :=
  { root := ⟨l, []⟩, db := ⟨l, db⟩ }

theorem means_upper : (invocation upperName [configDir, defaultDb]).Means fs
    (repository upper [configDir, defaultDb]) where
  root := ⟨.found (by decide), by decide⟩
  db := ⟨((FileSystem.Denotes.found (p := [upperName]) (by decide)).miss rfl (by decide)
    (fun _ => rfl)).miss rfl (by decide) (by decide), by decide⟩

theorem means_lower : (invocation lowerName [configDir, defaultDb]).Means fs
    (repository lower [configDir, defaultDb]) where
  root := ⟨.found (by decide), by decide⟩
  db := ⟨((FileSystem.Denotes.found (p := [lowerName]) (by decide)).miss rfl (by decide)
    (fun _ => rfl)).miss rfl (by decide) (by decide), by decide⟩

theorem means_other : (invocation upperName [otherDb]).Means fs
    (repository upper [otherDb]) where
  root := ⟨.found (by decide), by decide⟩
  db := ⟨(FileSystem.Denotes.found (p := [upperName]) (by decide)).miss rfl (by decide)
    (fun _ => rfl), by decide⟩

theorem confusable_upper_lower : ConfusableNames
    ((repository upper [configDir, defaultDb]).names fs)
    ((repository lower [configDir, defaultDb]).names fs) :=
  ⟨normalizeCanonical_eq_iff.1 (by decide), normalizeCanonical_eq_iff.1 (by decide)⟩

theorem not_confusable_other : ¬ ConfusableNames
    ((repository upper [configDir, defaultDb]).names fs) ((repository upper [otherDb]).names fs) :=
  fun h => absurd (normalizeCanonical_eq_iff.2 h.2) (by decide)

/-- The digests of the keys of `/Repo` with the default database and with another one. -/
def sha256 (key : List UInt8) : List UInt8 :=
  if key = asBytes "/repo\x00/repo/other.db" then
    [0xD9, 0x90, 0x00, 0xFE, 0x70, 0xB0, 0x63, 0x9E, 0xB9, 0x64, 0x35, 0x37, 0x53, 0x6D, 0x62, 0x61,
      0x81, 0x0D, 0x75, 0xD1, 0x6A, 0x9F, 0x8C, 0xF8, 0x7D, 0x45, 0x0F, 0xB0, 0xF3, 0x4A, 0x73,
      0x63]
  else
    [0x42, 0xE3, 0xE8, 0x46, 0xED, 0x34, 0xDA, 0x90, 0x44, 0xA5, 0xA2, 0xF5, 0x22, 0x86, 0x34, 0xB8,
      0x36, 0x43, 0x57, 0x04, 0x95, 0x52, 0x2A, 0xF8, 0x90, 0x27, 0xF8, 0xF1, 0xD3, 0xBB, 0x76,
      0x98]

end CaseTree

open CaseTree in
theorem tellsApart_other :
    TellsApart sha256 ((invocation upperName [configDir, defaultDb]).identity fs)
      ((invocation upperName [otherDb]).identity fs)
      (repository upper [configDir, defaultDb]) (repository upper [otherDb]) :=
  (tellsApart_iff fs sha256 _ _ _ _ means_upper means_other
    (fun h => absurd h (by decide +kernel))).2 (.inr not_confusable_other)

open CaseTree in
/-- `/Repo` and `/repo`, each with its default database, share their key. -/
theorem not_separatesRepositories : ¬ SeparatesRepositories CaseTree.fs sha256 := by
  intro h
  have hkey := (key_eq_iff means_upper means_lower).2 confusable_upper_lower
  have heq := (h _ _ _ _ means_upper means_lower fun _ => congrArg asBytes hkey).1.1 hkey
  exact absurd (congrArg (·.root.loc) heq) (by decide)

end Cognis
