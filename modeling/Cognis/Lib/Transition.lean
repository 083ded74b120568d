/-
  Labelled transition systems: the steps of a system are a function of the
  label, undefined where the label is not enabled.

  * `exec` runs a list of labels; `Always G` says that a run takes each of its
    steps in a state and with a label that satisfy `G`;
  * `exec_invariant`: what such a step preserves holds after such a run;
  * `Always.of_invariant`: so does what it lets the steps do;
  * `exec_preserves`: what every step preserves holds after every run.
-/
import Mathlib.Tactic.Common

namespace Cognis.Transition

variable {σ ℓ : Type*} (step : σ → ℓ → Option σ)

/-- Run a list of labels. -/
def exec : σ → List ℓ → Option σ
  | s, [] => some s
  | s, a :: as =>
    match step s a with
    | none => none
    | some t => exec t as

/-- Every step of the run satisfies `G`, of the state before it and its label. -/
def Always (G : σ → ℓ → Prop) : σ → List ℓ → Prop
  | _, [] => True
  | s, a :: as => G s a ∧ ∀ t, step s a = some t → Always G t as

instance Always.decidable {G : σ → ℓ → Prop} [∀ s a, Decidable (G s a)] :
    ∀ s as, Decidable (Always step G s as)
  | _, [] => .isTrue trivial
  | s, a :: as =>
    have : Decidable (∀ t, step s a = some t → Always step G t as) :=
      match step s a with
      | none => .isTrue nofun
      | some t =>
        have : Decidable (Always step G t as) := Always.decidable t as
        decidable_of_iff (Always step G t as)
          ⟨fun ht _ hu => Option.some.inj hu ▸ ht, fun hall => hall t rfl⟩
    inferInstanceAs (Decidable (_ ∧ _))

variable {step}

theorem exec_append {s t : σ} {as bs : List ℓ} (h : exec step s as = some t) :
    exec step s (as ++ bs) = exec step t bs := by
  induction as generalizing s with
  | nil => cases h; rfl
  | cons a as ih =>
    simp only [exec, List.cons_append] at h ⊢
    cases hs : step s a with
    | none => rw [hs] at h; cases h
    | some u => rw [hs] at h; exact ih h

theorem exec_append_eq (s : σ) (as bs : List ℓ) :
    exec step s (as ++ bs) = (exec step s as).bind fun t => exec step t bs := by
  cases h : exec step s as with
  | some t => exact exec_append h
  | none =>
    induction as generalizing s with
    | nil => cases h
    | cons a as ih =>
      simp only [exec, List.cons_append] at h ⊢
      cases hs : step s a with
      | none => rfl
      | some u => rw [hs] at h; exact ih u h

/-- A condition on the labels alone. -/
theorem always_of_forall {Q : ℓ → Prop} {as : List ℓ} (h : ∀ a ∈ as, Q a) (s : σ) :
    Always step (fun _ a => Q a) s as := by
  induction as generalizing s with
  | nil => exact trivial
  | cons a as ih =>
    exact ⟨h a List.mem_cons_self, fun t _ => ih (fun b hb => h b (List.mem_cons_of_mem _ hb)) t⟩

theorem Always.and {G H : σ → ℓ → Prop} {s : σ} {as : List ℓ} (hG : Always step G s as)
    (hH : Always step H s as) : Always step (fun s a => G s a ∧ H s a) s as := by
  induction as generalizing s with
  | nil => exact trivial
  | cons a as ih => exact ⟨⟨hG.1, hH.1⟩, fun t ht => ih (hG.2 t ht) (hH.2 t ht)⟩

/-- The parts of a run. -/
theorem Always.of_append {G : σ → ℓ → Prop} {s t : σ} {as bs : List ℓ}
    (hG : Always step G s (as ++ bs)) (h : exec step s as = some t) :
    Always step G s as ∧ Always step G t bs := by
  induction as generalizing s with
  | nil =>
    obtain rfl := Option.some.inj h
    exact ⟨trivial, hG⟩
  | cons a as ih =>
    simp only [exec] at h
    cases hsa : step s a with
    | none => rw [hsa] at h; cases h
    | some u =>
      rw [hsa] at h
      have hrest := ih (hG.2 u hsa) h
      refine ⟨⟨hG.1, fun u' hu' => ?_⟩, hrest.2⟩
      rw [hsa] at hu'
      exact Option.some.inj hu' ▸ hrest.1

/-- **Invariant rule**, for runs whose steps satisfy `G`. -/
theorem exec_invariant {I : σ → Prop} {G : σ → ℓ → Prop}
    (hstep : ∀ s a t, I s → G s a → step s a = some t → I t) {s t : σ} {as : List ℓ}
    (h : exec step s as = some t) (hG : Always step G s as) (hs : I s) : I t := by
  induction as generalizing s with
  | nil => cases h; exact hs
  | cons a as ih =>
    simp only [exec] at h
    cases hsa : step s a with
    | none => rw [hsa] at h; cases h
    | some u =>
      rw [hsa] at h
      exact ih h (hG.2 u hsa) (hstep s a u hs hG.1 hsa)

/-- **Invariant rule**, for what the steps of such a run do. -/
theorem Always.of_invariant {I : σ → Prop} {G P : σ → ℓ → Prop}
    (hstep : ∀ s a t, I s → G s a → step s a = some t → I t) (hP : ∀ s a, I s → G s a → P s a)
    {s : σ} {as : List ℓ} (hG : Always step G s as) (hs : I s) : Always step P s as := by
  induction as generalizing s with
  | nil => exact trivial
  | cons a as ih =>
    exact ⟨hP s a hs hG.1, fun t ht => ih (hG.2 t ht) (hstep s a t hs hG.1 ht)⟩

/-- **Invariant rule**, for all runs. -/
theorem exec_preserves {I : σ → Prop} (hstep : ∀ s a t, I s → step s a = some t → I t) {s t : σ}
    {as : List ℓ} (h : exec step s as = some t) (hs : I s) : I t := by
  have hG : Always step (fun _ _ => True) s as := always_of_forall (fun _ _ => trivial) s
  exact exec_invariant (fun s a t hs _ hst => hstep s a t hs hst) h hG hs

end Cognis.Transition
