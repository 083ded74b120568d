/-
  How far a path leads in a file system, and the lexical normal form of a path.

  * `stop p`: the location where looking `p` up stops, and the segments that are left;
    `Stops` is its graph.
  * `denotes_concat_iff`: what a path denotes with one name more.
  * `walk_components`: the segments that stay where they are do not matter, except at the end.
  * `normalizeSegments`: the path with `..` removed textually, that is without following links.
-/
import Cognis.Lib.FileSystem
import Mathlib.Data.List.Basic

namespace Cognis

open Segment AbsPath

namespace FileTree

variable {Loc : Type} (t : FileTree Loc)

/-- Look the names up one after the other, from `l`, as long as there is an entry. -/
def stopFrom : Loc → List Segment → Loc × List Segment
  | l, [] => (l, [])
  | l, s :: p =>
    match t.step l s with
    | some l' => stopFrom l' p
    | none => (l, s :: p)

/-- The location where the path stops, and what is left of it. -/
def stop (p : AbsPath) : Loc × List Segment := t.stopFrom t.root p

/-- The graph of `stop`. -/
def Stops (p : AbsPath) (l : Loc) (rest : List Segment) : Prop :=
  ∃ found, p = found ++ rest ∧ t.walk found = some l ∧ ∀ s ∈ rest.head?, t.step l s = none

variable {t} {p : AbsPath} {l : Loc} {s : Segment} {rest : List Segment}

theorem stopFrom_spec (t : FileTree Loc) (l : Loc) (p : AbsPath) :
    ∃ found, p = found ++ (t.stopFrom l p).2 ∧
      found.foldlM t.step l = some (t.stopFrom l p).1 ∧
      ∀ s ∈ (t.stopFrom l p).2.head?, t.step (t.stopFrom l p).1 s = none := by
  induction p generalizing l with
  | nil => exact ⟨[], rfl, rfl, by simp [stopFrom]⟩
  | cons s p ih =>
    rw [stopFrom]
    cases hs : t.step l s with
    | none => exact ⟨[], rfl, rfl, by simp [hs]⟩
    | some l' =>
      obtain ⟨found, hp, hfound, hrest⟩ := ih l'
      refine ⟨s :: found, by rw [List.cons_append, ← hp], ?_, hrest⟩
      rw [List.foldlM_cons, hs]
      exact hfound

theorem stop_spec (t : FileTree Loc) (p : AbsPath) : t.Stops p (t.stop p).1 (t.stop p).2 :=
  stopFrom_spec t t.root p

/-- A path exists exactly when nothing is left of it. -/
theorem Stops.walk (h : t.Stops p l rest) : t.walk p = if rest = [] then some l else none := by
  obtain ⟨found, rfl, hfound, hrest⟩ := h
  cases rest with
  | nil => simpa using hfound
  | cons s rest =>
    rw [if_neg (List.cons_ne_nil s rest), FileTree.walk, List.foldlM_append,
      show found.foldlM t.step t.root = some l from hfound]
    simp [hrest s rfl]

/-- One segment less. -/
theorem Stops.init (h : t.Stops (p ++ [s]) l (rest ++ [s])) : t.Stops p l rest := by
  obtain ⟨found, hp, hfound, hrest⟩ := h
  rw [← List.append_assoc] at hp
  refine ⟨found, (List.append_inj' hp rfl).1, hfound, fun s' hs' => hrest s' ?_⟩
  cases rest with
  | nil => cases hs'
  | cons => exact hs'

/-- One segment more, after a path that does not exist or leads to no such entry. -/
theorem Stops.concat (h : t.Stops p l rest) (hs : rest = [] → t.step l s = none) :
    t.Stops (p ++ [s]) l (rest ++ [s]) := by
  obtain ⟨found, rfl, hfound, hrest⟩ := h
  refine ⟨found, List.append_assoc .., hfound, fun s' hs' => ?_⟩
  cases rest with
  | nil =>
    cases hs'
    exact hs rfl
  | cons => exact hrest s' hs'

/-- The last segment of what is left is the last one of the path. -/
theorem Stops.last (h : t.Stops p l (rest ++ [s])) : ∃ up, p = up ++ [s] := by
  obtain ⟨found, rfl, -, -⟩ := h
  exact ⟨found ++ rest, (List.append_assoc ..).symm⟩

theorem Stops.unique {l' : Loc} {rest' : List Segment} (h : t.Stops p l rest)
    (h' : t.Stops p l' rest') : l = l' ∧ rest = rest' := by
  induction p using List.reverseRecOn generalizing rest rest' with
  | nil =>
    obtain ⟨found, hp, hfound, -⟩ := h
    obtain ⟨found', hp', hfound', -⟩ := h'
    obtain ⟨rfl, rfl⟩ := List.append_eq_nil_iff.1 hp.symm
    obtain ⟨rfl, rfl⟩ := List.append_eq_nil_iff.1 hp'.symm
    exact ⟨Option.some.inj (hfound.symm.trans hfound'), rfl⟩
  | append_singleton p s ih =>
    have hw := h.walk
    rw [h'.walk] at hw
    obtain rfl | ⟨left, s₁, rfl⟩ := rest.eq_nil_or_concat'
    · by_cases hrest : rest' = []
      · rw [if_pos hrest, if_pos rfl] at hw
        exact ⟨(Option.some.inj hw).symm, hrest.symm⟩
      · rw [if_neg hrest, if_pos rfl] at hw
        cases hw
    · obtain rfl | ⟨left', s₂, rfl⟩ := rest'.eq_nil_or_concat'
      · rw [if_pos rfl, if_neg (by simp)] at hw
        cases hw
      · obtain ⟨up, hup⟩ := h.last
        obtain ⟨up', hup'⟩ := h'.last
        cases (List.append_inj' hup rfl).2
        cases (List.append_inj' hup' rfl).2
        obtain ⟨rfl, rfl⟩ := ih h.init h'.init
        exact ⟨rfl, rfl⟩

theorem Stops.stop_eq (h : t.Stops p l rest) : t.stop p = (l, rest) := by
  obtain ⟨h₁, h₂⟩ := (stop_spec t p).unique h
  exact Prod.ext h₁ h₂

/-! ## Segments that stay where they are -/

theorem foldlM_components (t : FileTree Loc) (l : Loc) (p : AbsPath)
    (hp : ∀ s ∈ p.getLast?, ¬ ignorable s) :
    p.foldlM t.step l = (components p).foldlM t.step l := by
  induction p generalizing l with
  | nil => rfl
  | cons s p ih =>
    have hlast : ∀ s ∈ p.getLast?, ¬ ignorable s := by
      intro s' hs'
      refine hp s' ?_
      rw [List.getLast?_cons, Option.mem_def.1 hs']
      rfl
    by_cases hs : ignorable s
    · rw [components, List.filter_cons_of_neg (by simp [hs]), ← components, List.foldlM_cons,
        FileTree.step, if_pos hs]
      by_cases hd : t.isDir l
      · rw [if_pos hd]
        exact ih l hlast
      · -- the next name, which there is, cannot be looked up either
        rw [if_neg hd]
        cases hcs : components p with
        | cons s' cs => simp [FileTree.step, hd]
        | nil =>
          exfalso
          obtain rfl | ⟨q, s', rfl⟩ := p.eq_nil_or_concat'
          · exact hp s (by simp) hs
          · have := hlast s' (by simp)
            rw [components, List.filter_append] at hcs
            simp [this] at hcs
    · rw [components, List.filter_cons_of_pos (by simp [hs]), ← components, List.foldlM_cons,
        List.foldlM_cons]
      congr 1
      funext l'
      exact ih l' hlast

theorem walk_components (t : FileTree Loc) {p : AbsPath} (hp : ∀ s ∈ p.getLast?, ¬ ignorable s) :
    t.walk p = t.walk (components p) := foldlM_components t t.root p hp

end FileTree

/-! ## One name more -/

namespace FileSystem

variable {Loc : Type} (fs : FileSystem Loc) {p : AbsPath} {s : Segment} {l : Loc}
  {missing : List Segment}

/-- Where a name leads to from a directory, and from what is missing below it. -/
def Below (l : Loc) (missing : List Segment) (s : Segment) (l' : Loc) (missing' : List Segment) :
    Prop :=
  (missing = [] ∧ fs.entry l s = some l' ∧ missing' = []) ∨
    (l' = l ∧ missing' = missing ++ [s] ∧ (missing = [] → fs.entry l s = none))

variable {fs}

/-- What a path with one name more denotes depends on what the path denotes. -/
theorem denotes_concat_iff (hs : Plain s) {l' : Loc} {missing' : List Segment} :
    fs.Denotes (p ++ [s]) l' missing' ↔
      ∃ l missing, fs.Denotes p l missing ∧ fs.isDir l ∧ fs.Below l missing s l' missing' := by
  constructor
  · intro h
    generalize hq : p ++ [s] = q at h
    cases h with
    | found hw =>
      rw [← hq, walk_concat] at hw
      obtain ⟨l, hl, hstep⟩ := Option.bind_eq_some_iff.1 hw
      by_cases hd : fs.isDir l
      · exact ⟨l, [], .found hl, hd, .inl ⟨rfl, step_plain hd hs ▸ hstep, rfl⟩⟩
      · simp [FileTree.step, hd] at hstep
    | stay _ _ hs' =>
      obtain ⟨-, hss⟩ := List.append_inj' hq rfl
      cases hss
      exact absurd hs' hs.1
    | miss h hd _ hnone =>
      obtain ⟨rfl, hss⟩ := List.append_inj' hq rfl
      cases hss
      exact ⟨_, _, h, hd, .inr ⟨rfl, rfl, hnone⟩⟩
  · rintro ⟨l, missing, h, hd, ⟨rfl, hentry, rfl⟩ | ⟨rfl, rfl, hnone⟩⟩
    · refine .found ?_
      rw [walk_concat, h.walk, if_pos rfl, Option.bind_some, step_plain hd hs, hentry]
    · exact h.miss hd hs hnone

/-- A separator at the end asks for a directory. -/
theorem denotes_concat_nil_iff :
    fs.Denotes (p ++ [[]]) l missing ↔ fs.Denotes p l missing ∧ fs.isDir l := by
  constructor
  · intro h
    generalize hq : p ++ [[]] = q at h
    cases h with
    | found hw =>
      rw [← hq, walk_concat] at hw
      obtain ⟨l', hl, hstep⟩ := Option.bind_eq_some_iff.1 hw
      rw [step_ignorable rfl] at hstep
      split at hstep
      next hd =>
        cases hstep
        exact ⟨.found hl, hd⟩
      · cases hstep
    | stay h hd _ =>
      obtain ⟨rfl, -⟩ := List.append_inj' hq rfl
      exact ⟨h, hd⟩
    | miss _ _ hs _ =>
      obtain ⟨-, hss⟩ := List.append_inj' hq rfl
      cases hss
      exact absurd rfl hs.1
  · rintro ⟨h, hd⟩
    exact h.stay hd rfl

end FileSystem

/-! ## The lexical normal form -/

namespace AbsPath

/-- One segment: `..` takes the last one off, if there is one that it can take off. -/
def pushSegment (allowAboveRoot : Bool) (p : AbsPath) (s : Segment) : AbsPath :=
  if ignorable s then p
  else if s = dotDot then
    if p ≠ [] ∧ p.getLast? ≠ some dotDot then p.dropLast
    else if allowAboveRoot then p ++ [s] else p
  else p ++ [s]

/-- The path without the segments that stay where they are, and with `..` removed textually. -/
def normalizeSegments (allowAboveRoot : Bool) (p : List Segment) : AbsPath :=
  p.foldl (pushSegment allowAboveRoot) []

/-- A path in lexical normal form. -/
def Lexical (p : AbsPath) : Prop := ∀ s ∈ p, ¬ ignorable s ∧ s ≠ dotDot

theorem lexical_pushSegment {p : AbsPath} (h : Lexical p) (s : Segment) :
    Lexical (pushSegment false p s) := by
  rw [pushSegment]
  split
  · exact h
  next hs =>
    split
    · simp only [Bool.false_eq_true, if_false]
      split
      · exact fun s' hs' => h s' (List.dropLast_subset p hs')
      · exact h
    next hdd =>
      intro s' hs'
      rcases List.mem_append.1 hs' with hs' | hs'
      · exact h s' hs'
      · cases List.mem_singleton.1 hs'
        exact ⟨hs, hdd⟩

theorem lexical_foldl {p : AbsPath} (h : Lexical p) (q : List Segment) :
    Lexical (q.foldl (pushSegment false) p) := by
  induction q generalizing p with
  | nil => exact h
  | cons s q ih => exact ih (lexical_pushSegment h s)

theorem lexical_normalizeSegments (p : List Segment) : Lexical (normalizeSegments false p) :=
  lexical_foldl (fun _ h => absurd h List.not_mem_nil) p

/-- Names without `..` are taken as they are. -/
theorem foldl_pushSegment {q : List Segment} (h : Lexical q) (b : Bool) (p : AbsPath) :
    q.foldl (pushSegment b) p = p ++ q := by
  induction q generalizing p with
  | nil => simp
  | cons s q ih =>
    have hs := h s List.mem_cons_self
    rw [List.foldl_cons, ih fun s' hs' => h s' (List.mem_cons_of_mem s hs'), pushSegment,
      if_neg hs.1, if_neg hs.2, List.append_assoc, List.singleton_append]

theorem normalizeSegments_append (b : Bool) (p q : List Segment) :
    normalizeSegments b (p ++ q) = q.foldl (pushSegment b) (normalizeSegments b p) :=
  List.foldl_append

theorem normalizeSegments_of_lexical {p : AbsPath} (h : Lexical p) (b : Bool) :
    normalizeSegments b p = p := foldl_pushSegment h b []

/-- Segments that stay where they are do not count. -/
theorem foldl_pushSegment_components (b : Bool) (p : AbsPath) (q : List Segment) :
    (components q).foldl (pushSegment b) p = q.foldl (pushSegment b) p := by
  induction q generalizing p with
  | nil => rfl
  | cons s q ih =>
    by_cases hs : ignorable s
    · rw [components, List.filter_cons_of_neg (by simp [hs]), ← components, ih, List.foldl_cons,
        pushSegment, if_pos hs]
    · rw [components, List.filter_cons_of_pos (by simp [hs]), ← components, List.foldl_cons, ih,
        List.foldl_cons]

theorem not_ignorable_normalizeSegments (b : Bool) (q : List Segment) :
    ∀ s ∈ normalizeSegments b q, ¬ ignorable s := by
  induction q using List.reverseRecOn with
  | nil => exact fun s hs => absurd hs List.not_mem_nil
  | append_singleton q s ih =>
    rw [normalizeSegments_append]
    simp only [List.foldl_cons, List.foldl_nil]
    rw [pushSegment]
    split
    · exact ih
    next hs =>
      have hpush : ∀ s' ∈ normalizeSegments b q ++ [s], ¬ ignorable s' := by
        intro s' hs'
        rcases List.mem_append.1 hs' with hs' | hs'
        · exact ih s' hs'
        · exact List.mem_singleton.1 hs' ▸ hs
      split
      · split
        · exact fun s' hs' => ih s' (List.dropLast_subset _ hs')
        · split
          · exact hpush
          · exact ih
      · exact hpush

/-- What a relative path is normalised to leads where it leads, in normal form. -/
theorem foldl_pushSegment_normalizeSegments (p : AbsPath) (q : List Segment) :
    (normalizeSegments true q).foldl (pushSegment false) p = q.foldl (pushSegment false) p := by
  induction q using List.reverseRecOn with
  | nil => rfl
  | append_singleton q s ih =>
    rw [normalizeSegments_append, List.foldl_append, ← ih]
    simp only [List.foldl_cons, List.foldl_nil]
    have hr := not_ignorable_normalizeSegments true q
    generalize normalizeSegments true q = r at hr
    rw [pushSegment.eq_def true]
    split
    next hs => rw [pushSegment, if_pos hs]
    next hs =>
      split
      next hdd =>
        subst hdd
        have hdot : ¬ ignorable dotDot := hs
        split
        next htop =>
          -- the last name of `r` is the last one of the path that it leads to
          obtain rfl | ⟨r', s', rfl⟩ := r.eq_nil_or_concat'
          · exact absurd rfl htop.1
          · have hs' : ¬ ignorable s' := hr s' (by simp)
            have hdd : s' ≠ dotDot := by simpa using htop.2
            rw [List.dropLast_concat, List.foldl_append]
            simp only [List.foldl_cons, List.foldl_nil]
            rw [pushSegment, if_neg hdot, if_pos rfl, pushSegment, if_neg hs', if_neg hdd,
              if_pos (by simp [hdd]), List.dropLast_concat]
        next htop => simp
      next hdd => simp

end AbsPath

end Cognis
