/-
  Loops: a step function that returns the next state, or `none` at the exit.

  * `Loop.invariant`: what one step preserves holds in every state reached;
  * `Loop.run_eq_some`: a finished run has reached an exit state;
  * `Loop.Reaches.exit`: the states on the way to the exit lead to it;
  * `Loop.terminates`: a loop with a decreasing measure finishes;
  * `Loop.foldl_invariant`: the same for a loop over a list;
  * `Loop.foldl_update`: a loop that writes one entry of a table after another.
-/
import Mathlib.Logic.Function.Basic
import Mathlib.Logic.Relation
import Mathlib.Tactic.Common

namespace Cognis.Loop

variable {σ : Type*} (step : σ → Option σ)

/-- `t` is reached from `s` by iterations of the loop. -/
def Reaches : σ → σ → Prop := Relation.ReflTransGen fun s t => step s = some t

/-- Run the loop for at most `fuel` iterations; `none` when it has not finished. -/
def run : ℕ → σ → Option σ
  | 0, s => if (step s).isNone then some s else none
  | fuel + 1, s =>
    match step s with
    | none => some s
    | some t => run fuel t

variable {step}

/-- **Invariant rule.** -/
theorem invariant {I : σ → Prop} (hstep : ∀ s t, I s → step s = some t → I t) {s t : σ}
    (h : Reaches step s t) (hs : I s) : I t := by
  induction h with
  | refl => exact hs
  | tail _ hst ih => exact hstep _ _ ih hst

/-- A finished run has reached an exit state. -/
theorem run_eq_some {fuel : ℕ} {s t : σ} (h : run step fuel s = some t) :
    Reaches step s t ∧ step t = none := by
  induction fuel generalizing s with
  | zero =>
    simp only [run, Option.isNone_iff_eq_none] at h
    split_ifs at h with hs
    cases h
    exact ⟨.refl, hs⟩
  | succ fuel ih =>
    simp only [run] at h
    cases hs : step s with
    | none =>
      rw [hs] at h
      cases h
      exact ⟨.refl, hs⟩
    | some u =>
      rw [hs] at h
      obtain ⟨hu, ht⟩ := ih h
      exact ⟨.head hs hu, ht⟩

/-- The exit comes after every state on the way. -/
theorem Reaches.exit {s t u : σ} (ht : Reaches step s t) (hu : Reaches step s u)
    (hexit : step u = none) : Reaches step t u := by
  have hunique : Relator.RightUnique fun s t : σ => step s = some t :=
    fun _ _ _ h h' => Option.some.inj (h.symm.trans h')
  rcases Relation.ReflTransGen.total_of_right_unique hunique ht hu with h | h
  · exact h
  · rcases Relation.ReflTransGen.cases_head h with rfl | ⟨v, hv, -⟩
    · exact .refl
    · rw [hexit] at hv
      cases hv

/-- **Termination rule**: a measure that decreases under an invariant. -/
theorem terminates {I : σ → Prop} {μ : σ → ℕ} (hstep : ∀ s t, I s → step s = some t → I t)
    (hμ : ∀ s t, I s → step s = some t → μ t < μ s) {s : σ} (hs : I s) {fuel : ℕ}
    (hfuel : μ s ≤ fuel) : ∃ t, run step fuel s = some t := by
  induction fuel generalizing s with
  | zero =>
    cases h : step s with
    | none => exact ⟨s, by simp [run, h]⟩
    | some t => have := hμ s t hs h; omega
  | succ fuel ih =>
    cases h : step s with
    | none => exact ⟨s, by simp [run, h]⟩
    | some t =>
      have := hμ s t hs h
      obtain ⟨u, hu⟩ := ih (hstep s t hs h) (by omega)
      exact ⟨u, by simp [run, h, hu]⟩

/-- **Invariant rule for a loop over a list**, the invariant speaking of the elements
    done so far. -/
theorem foldl_invariant {α β : Type*} {I : List α → β → Prop} {f : β → α → β} {l : List α} {s : β}
    (hinit : I [] s)
    (hstep : ∀ done a rest s, l = done ++ a :: rest → I done s → I (done ++ [a]) (f s a)) :
    I l (l.foldl f s) := by
  suffices h : ∀ rest done s, l = done ++ rest → I done s → I l (rest.foldl f s) from
    h l [] s rfl hinit
  intro rest
  induction rest with
  | nil =>
    intro done s hl hI
    rw [List.append_nil] at hl
    subst hl
    exact hI
  | cons a rest ih =>
    intro done s hl hI
    exact ih (done ++ [a]) (f s a) (by simp [hl]) (hstep done a rest s hl hI)

/-- **A loop over the entries of a table**: each step writes the entry of its element,
    from that entry and from entries the loop leaves alone. -/
theorem foldl_update {ι γ : Type*} [DecidableEq ι] {l : List ι} (hl : l.Nodup)
    {g : (ι → γ) → ι → γ}
    (hg : ∀ T T' : ι → γ, ∀ u ∈ l, T u = T' u → (∀ w, w ∉ l → T w = T' w) → g T u = g T' u)
    (T : ι → γ) (w : ι) : l.foldl (fun T u => Function.update T u (g T u)) T w =
      if w ∈ l then g T w else T w := by
  have h := foldl_invariant (l := l) (s := T) (f := fun T u => Function.update T u (g T u))
    (I := fun done T' => ∀ w, T' w = if w ∈ done then g T w else T w)
    (fun w => by simp) fun done u rest T' heq hT' w => by
      have hu : u ∉ done := by
        rw [heq] at hl
        exact fun hmem => (List.nodup_append.1 hl).2.2 u hmem u (List.mem_cons_self ..) rfl
      have hdone : ∀ w ∈ done, w ∈ l := fun w hw => by rw [heq]; exact List.mem_append_left _ hw
      by_cases hwu : w = u
      · subst hwu
        rw [Function.update_self, if_pos (by simp)]
        refine hg _ _ _ (by simp [heq]) (by rw [hT', if_neg hu]) fun v hv => ?_
        rw [hT', if_neg fun hd => hv (hdone v hd)]
      · rw [Function.update_of_ne hwu, hT' w]
        simp [hwu]
  exact h w

/-- What holds of every element and the elements before it, by position. -/
theorem forall_split_iff {α : Type*} {P : List α → α → Prop} {l : List α} :
    (∀ done a rest, l = done ++ a :: rest → P done a) ↔
      ∀ i, ∀ h : i < l.length, P (l.take i) l[i] := by
  constructor
  · intro hall i hi
    exact hall _ _ (l.drop (i + 1)) (by rw [List.getElem_cons_drop, List.take_append_drop])
  · rintro hall done a rest rfl
    simpa using hall done.length (by simp)

end Cognis.Loop
