/-
  File systems, and what an absolute path denotes in one.

  A path is the list of its segments as they are spelled: empty segments and `.` are kept,
  since `p/` and `p/.` denote nothing when `p` is a file. Looking a segment up follows
  symbolic links. A location has one canonical name, which leads back to it.

  * `Denotes p l missing`: the path leads to the existing location `l` and goes on with the
    names `missing`, which are not there yet.
  * `Denotes.unique`: a path denotes at most one place.
  * `Denotes.name_inj`: the canonical name, with the missing names appended, determines
    the place.
-/
import Mathlib.Data.List.DropRight
import Mathlib.Data.UInt
import Mathlib.Tactic.Common

namespace Cognis

/-- What stands between two separators of a path. -/
abbrev Segment := List UInt8

/-- An absolute path: the segments after the root separator. -/
abbrev AbsPath := List Segment

namespace Segment

/-- `.` -/
def dot : Segment := [0x2E]

/-- `..` -/
def dotDot : Segment := [0x2E, 0x2E]

/-- A segment that stays where it is: two separators in a row, or `.`. -/
def ignorable (s : Segment) : Bool := s.isEmpty || s == dot

/-- A name that an entry of a directory can have. -/
def Plain (s : Segment) : Prop := ¬ ignorable s ∧ s ≠ dotDot ∧ 0 ∉ s

instance decidablePlain (s : Segment) : Decidable (Plain s) :=
  inferInstanceAs (Decidable (_ ∧ _ ∧ _))

end Segment

open Segment

namespace AbsPath

/-- `Path::components`, which drops the segments that stay where they are. -/
def components (p : AbsPath) : List Segment := p.filter (!ignorable ·)

/-- The path without the segments at its end that stay where they are. -/
def trimEnd (p : AbsPath) : AbsPath := p.rdropWhile ignorable

/-- `Path::parent` -/
def parent (p : AbsPath) : Option AbsPath :=
  match trimEnd p with
  | [] => none
  | s :: p => some (trimEnd (s :: p).dropLast)

/-- `Path::file_name` -/
def fileName (p : AbsPath) : Option Segment := (trimEnd p).getLast?.filter (· != dotDot)

/-- The bytes of a path. -/
def bytes (p : AbsPath) : List UInt8 := if p.isEmpty then [0x2F] else p.flatMap (0x2F :: ·)

end AbsPath

open AbsPath

/-- The directories of a file system, their entries and the canonical names. -/
structure FileTree (Loc : Type) where
  root : Loc
  isDir : Loc → Bool
  /-- The entry of a directory under a name, with symbolic links followed. -/
  entry : Loc → Segment → Option Loc
  /-- The directory that `..` leads to. -/
  parent : Loc → Loc
  name : Loc → AbsPath

namespace FileTree

variable {Loc : Type} (t : FileTree Loc)

/-- One segment of a path. -/
def step (l : Loc) (s : Segment) : Option Loc :=
  if t.isDir l then
    if ignorable s then some l else if s = dotDot then some (t.parent l) else t.entry l s
  else none

/-- Path resolution. -/
def walk (p : AbsPath) : Option Loc := p.foldlM t.step t.root

end FileTree

/-- A file system: the canonical name of a location leads to it, and its segments are
    names. -/
structure FileSystem (Loc : Type) extends FileTree Loc where
  walk_name : ∀ l, toFileTree.walk (name l) = some l
  name_plain : ∀ l, ∀ s ∈ name l, Plain s

namespace FileSystem

variable {Loc : Type} (fs : FileSystem Loc)

/-- `Path::exists` -/
def pathExists (p : AbsPath) : Bool := (fs.walk p).isSome

/-- `fs::canonicalize` -/
def canonicalize (p : AbsPath) : Option AbsPath := (fs.walk p).map fs.name

/-- The path leads to the existing location `l` and from there on with the names `missing`,
    the first of which is no entry of `l`. -/
inductive Denotes : AbsPath → Loc → List Segment → Prop
  | found {p l} : fs.walk p = some l → Denotes p l []
  | stay {p l missing s} : Denotes p l missing → fs.isDir l → ignorable s →
      Denotes (p ++ [s]) l missing
  | miss {p l missing s} : Denotes p l missing → fs.isDir l → Plain s →
      (missing = [] → fs.entry l s = none) → Denotes (p ++ [s]) l (missing ++ [s])

variable {fs} {p q : AbsPath} {l l' : Loc} {s : Segment} {missing missing' : List Segment}

theorem walk_concat : fs.walk (p ++ [s]) = (fs.walk p).bind (fs.step · s) := by
  simp [FileTree.walk, List.foldlM_append]

theorem step_ignorable (hs : ignorable s) : fs.step l s = if fs.isDir l then some l else none := by
  simp only [FileTree.step, hs, if_true]

theorem step_plain (hd : fs.isDir l) (hs : Plain s) : fs.step l s = fs.entry l s := by
  simp only [FileTree.step, hd, if_true, hs.1, hs.2.1, if_false, Bool.false_eq_true]

/-- A path exists exactly when nothing is missing. -/
theorem Denotes.walk (h : fs.Denotes p l missing) :
    fs.walk p = if missing = [] then some l else none := by
  induction h with
  | found hw => rw [hw, if_pos rfl]
  | @stay p l missing s _ hd hs ih =>
    rw [walk_concat, ih]
    split_ifs with hm
    · rw [Option.bind_some, step_ignorable hs, if_pos hd]
    · rfl
  | @miss p l missing s _ hd hs hnone ih =>
    rw [walk_concat, ih, if_neg (List.append_ne_nil_of_right_ne_nil _ (List.cons_ne_nil _ _))]
    split_ifs with hm
    · rw [Option.bind_some, step_plain hd hs, hnone hm]
    · rfl

theorem Denotes.plain (h : fs.Denotes p l missing) : ∀ s ∈ missing, Plain s := by
  induction h with
  | found => exact fun _ hs => absurd hs List.not_mem_nil
  | stay _ _ _ ih => exact ih
  | miss _ _ hs _ ih =>
    intro s' hs'
    rcases List.mem_append.1 hs' with h | h
    · exact ih s' h
    · exact List.mem_singleton.1 h ▸ hs

theorem Denotes.unique (h : fs.Denotes p l missing) (h' : fs.Denotes p l' missing') :
    l = l' ∧ missing = missing' := by
  induction h generalizing l' missing' with
  | @found p l hw =>
    have hw' := h'.walk
    rw [hw] at hw'
    split_ifs at hw' with hm
    · exact ⟨Option.some.inj hw', hm.symm⟩
  | @stay p l missing s h hd hs ih =>
    generalize hq : p ++ [s] = q at h'
    cases h' with
    | found hw =>
      have hw' := (h.stay hd hs).walk
      rw [hq, hw] at hw'
      split_ifs at hw' with hm
      · exact ⟨(Option.some.inj hw').symm, hm⟩
    | stay h' _ _ =>
      obtain ⟨rfl, -⟩ := List.append_inj' hq rfl
      exact ih h'
    | miss _ _ hs' _ =>
      obtain ⟨-, hs''⟩ := List.append_inj' hq rfl
      cases hs''
      exact absurd hs hs'.1
  | @miss p l missing s h hd hs hnone ih =>
    generalize hq : p ++ [s] = q at h'
    cases h' with
    | found hw =>
      have hw' := (h.miss hd hs hnone).walk
      rw [hq, hw, if_neg (List.append_ne_nil_of_right_ne_nil _ (List.cons_ne_nil _ _))] at hw'
      cases hw'
    | stay _ _ hs' =>
      obtain ⟨-, hs''⟩ := List.append_inj' hq rfl
      cases hs''
      exact absurd hs' hs.1
    | miss h' _ _ _ =>
      obtain ⟨rfl, hs''⟩ := List.append_inj' hq rfl
      obtain ⟨rfl, rfl⟩ := ih h'
      exact ⟨rfl, by rw [hs'']⟩

/-- The canonical spelling denotes the place too. -/
theorem Denotes.name_append (h : fs.Denotes p l missing) :
    fs.Denotes (fs.name l ++ missing) l missing := by
  induction h with
  | @found p l hw =>
    rw [List.append_nil]
    exact .found (fs.walk_name l)
  | stay _ _ _ ih => exact ih
  | miss _ hd hs hnone ih =>
    rw [← List.append_assoc]
    exact ih.miss hd hs hnone

/-- Two places with the same canonical name are one. -/
theorem Denotes.name_inj (h : fs.Denotes p l missing) (h' : fs.Denotes q l' missing')
    (heq : fs.name l ++ missing = fs.name l' ++ missing') : l = l' ∧ missing = missing' := by
  have hname := h.name_append
  rw [heq] at hname
  exact hname.unique h'.name_append

end FileSystem

end Cognis
