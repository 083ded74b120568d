/-
  The history of a versioned store, and what is kept from an earlier version.

  A history is the list of the committed states, newest first.

  * `Keeps`: a cell that holds a value computed from the state of a version, with the
    version;
  * `Advancing`: each commit advances the version. Then a version determines the state
    committed at it (`At.unique`), and a value that is read back at its version is the one
    computed from that state (`Keeps.read`).
-/
import Mathlib.Order.Basic
import Mathlib.Tactic.Common

namespace Cognis.History

variable {σ β ν : Type*} (version : σ → ν)

/-- The state has been committed at the version. -/
def At (states : List σ) (v : ν) (s : σ) : Prop := s ∈ states ∧ version s = v

/-- The cell is empty, or holds a version with what `f` computes from its state. -/
def Keeps (f : σ → β) (states : List σ) (cell : Option (ν × β)) : Prop :=
  ∀ v b, cell = some (v, b) → ∃ s, At version states v s ∧ b = f s

variable {version} {states : List σ} {v : ν} {s s' : σ} {f : σ → β} {cell : Option (ν × β)}

theorem At.newest : At version (s :: states) (version s) s := ⟨List.mem_cons_self, rfl⟩

theorem At.commit (h : At version states v s) : At version (s' :: states) v s :=
  ⟨List.mem_cons_of_mem _ h.1, h.2⟩

theorem keeps_none : Keeps version f states none := by
  intro v b h
  cases h

theorem keeps_write (h : At version states v s) : Keeps version f states (some (v, f s)) := by
  intro v' b hcell
  cases hcell
  exact ⟨s, h, rfl⟩

theorem Keeps.commit (hkeeps : Keeps version f states cell) :
    Keeps version f (s' :: states) cell := by
  intro v b hcell
  obtain ⟨s, hs, hb⟩ := hkeeps v b hcell
  exact ⟨s, hs.commit, hb⟩

/-! ## Versions that advance -/

section
variable [Preorder ν]

/-- Each commit has advanced the version. -/
def Advancing (version : σ → ν) (states : List σ) : Prop :=
  states.Pairwise fun s t => version t < version s

theorem Advancing.commit (hadv : Advancing version (s :: states)) (hlt : version s < version s') :
    Advancing version (s' :: s :: states) := by
  refine List.pairwise_cons.2 ⟨fun t ht => ?_, hadv⟩
  rcases List.mem_cons.1 ht with rfl | ht
  · exact hlt
  · exact (List.rel_of_pairwise_cons hadv ht).trans hlt

theorem At.unique (hadv : Advancing version states) (h : At version states v s)
    (h' : At version states v s') : s = s' := by
  induction states with
  | nil => cases h.1
  | cons t states ih =>
    obtain ⟨hnewest, hadv⟩ := List.pairwise_cons.1 hadv
    rcases List.mem_cons.1 h.1 with rfl | hs
    · rcases List.mem_cons.1 h'.1 with rfl | hs'
      · rfl
      · exact absurd (h'.2.trans h.2.symm) (hnewest s' hs').ne
    · rcases List.mem_cons.1 h'.1 with rfl | hs'
      · exact absurd (h.2.trans h'.2.symm) (hnewest s hs).ne
      · exact ih hadv ⟨hs, h.2⟩ ⟨hs', h'.2⟩

theorem Keeps.read {b : β} (hadv : Advancing version states) (hkeeps : Keeps version f states cell)
    (hcell : cell = some (v, b)) (h : At version states v s) : b = f s := by
  obtain ⟨s', hs', rfl⟩ := hkeeps v b hcell
  rw [hs'.unique hadv h]

end

end Cognis.History
