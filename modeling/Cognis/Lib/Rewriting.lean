/-
  Texts in which parts are cut out and marked.

  `Rewrites Kept Cut input out`: the characters of `input` are copied to `out`, but for the
  parts that are cut out and replaced by a mark. `Cut a b m` says that, after the copied
  characters `a`, the part `b` may give way to the mark `m`; every copied character is at the
  start of a rest of the input that satisfies `Kept`.

  * `Rewrites.clean`: a set of words that begin at no kept place, inside no mark, and that
    cross into no mark unless another one of them reaches as far into the cut part, does not
    occur in the output.
-/
import Mathlib.Data.List.Infix
import Mathlib.Tactic.Common

namespace Cognis

variable {α : Type*} {Kept : List α → Prop} {Cut : List α → List α → List α → Prop}

/-- The output copies the input but for what is cut. -/
inductive Rewrites (Kept : List α → Prop) (Cut : List α → List α → List α → Prop) :
    List α → List α → Prop
  | nil : Rewrites Kept Cut [] []
  | keep {c : α} {cs out : List α} (hkept : Kept (c :: cs)) (h : Rewrites Kept Cut cs out) :
      Rewrites Kept Cut (c :: cs) (c :: out)
  | cut {a b m cs out : List α} (hcut : Cut a b m)
      (hkept : ∀ a', a' <:+ a → a' ≠ [] → Kept (a' ++ b ++ cs)) (h : Rewrites Kept Cut cs out) :
      Rewrites Kept Cut (a ++ b ++ cs) (a ++ m ++ out)

namespace Rewrites

variable {input out w : List α}

/-- A condition that holds of every rest of the input. -/
theorem of_suffix {Kept' : List α → Prop} (h : Rewrites Kept Cut input out)
    (hkept : ∀ t, t <:+ input → Kept' t) : Rewrites Kept' Cut input out := by
  induction h with
  | nil => exact .nil
  | keep _ _ ih =>
    exact .keep (hkept _ (List.suffix_refl _)) (ih fun t ht => hkept t (ht.trans (List.suffix_cons _ _)))
  | @cut a b m cs out hcut _ _ ih =>
    refine .cut hcut (fun a' ha' _ => hkept _ ?_) (ih fun t ht => hkept t (ht.trans (List.suffix_append _ _)))
    obtain ⟨l, rfl⟩ := ha'
    exact ⟨l, by simp⟩

theorem mono {Kept' : List α → Prop} (h : Rewrites Kept Cut input out)
    (hkept : ∀ t, Kept t → Kept' t) : Rewrites Kept' Cut input out := by
  induction h with
  | nil => exact .nil
  | keep hc _ ih => exact .keep (hkept _ hc) ih
  | cut hcut ha _ ih => exact .cut hcut (fun a' ha' hne => hkept _ (ha a' ha' hne)) ih

/-- A part that is copied as it is. -/
theorem append {x : List α} (h : Rewrites (fun _ => True) Cut input out) :
    Rewrites (fun _ => True) Cut (x ++ input) (x ++ out) := by
  induction x with
  | nil => exact h
  | cons c x ih => exact .keep trivial ih

/-- The end of the input is copied where no part that is cut out reaches into it. -/
theorem copies_suffix {v : List α} (h : Rewrites Kept Cut input out)
    (hwithin : ∀ a b m, Cut a b m → ¬ b <:+: v)
    (hcross : ∀ a b m y, Cut a b m → y ≠ [] → y <:+ b → ¬ y <+: v) :
    (v <:+ input → v <:+ out) ∧ (input <:+ v → out = input) := by
  induction h with
  | nil => exact ⟨id, fun _ => rfl⟩
  | @keep c cs out _ _ ih =>
    constructor
    · intro hv
      rcases List.suffix_cons_iff.1 hv with rfl | hv
      · rw [ih.2 (List.suffix_cons c cs)]
      · exact (ih.1 hv).trans (List.suffix_cons c out)
    · intro hv
      rw [ih.2 ((List.suffix_cons c cs).trans hv)]
  | @cut a b m cs out hcut _ _ ih =>
    have hpart : ¬ b ++ cs <:+ v := fun hv =>
      hwithin a b m hcut ((List.prefix_append b cs).isInfix.trans hv.isInfix)
    constructor
    · rintro ⟨x, hx⟩
      rw [List.append_assoc] at hx
      rcases List.append_eq_append_iff.1 hx with ⟨y, rfl, rfl⟩ | ⟨y, rfl, hy⟩
      · exact absurd (List.suffix_append y (b ++ cs)) hpart
      · rcases List.append_eq_append_iff.1 hy with ⟨z, rfl, rfl⟩ | ⟨z, rfl, rfl⟩
        · exact (ih.1 (List.suffix_append z v)).trans (List.suffix_append _ _)
        · by_cases hz : z = []
          · subst hz
            exact (ih.1 (List.suffix_refl cs)).trans (List.suffix_append _ _)
          · exact absurd (List.prefix_append z cs)
              (hcross a (y ++ z) m z hcut hz (List.suffix_append y z))
    · intro hv
      exact absurd ((List.suffix_append a (b ++ cs)).trans (by simpa using hv)) hpart

/-- A prefix of the output is one of the input, or crosses into a mark. -/
theorem prefix_cases (h : Rewrites Kept Cut input out) (hw : w <+: out) :
    w <+: input ∨ ∃ a b m u v z, Cut a b m ∧ w = u ++ v ∧ v ≠ [] ∧ v <+: m ++ z ∧ a <:+ u ∧
      u ++ b <+: input := by
  induction h generalizing w with
  | nil => exact .inl hw
  | @keep c cs out _ _ ih =>
    cases w with
    | nil => exact .inl (List.nil_prefix)
    | cons d w =>
      obtain ⟨rfl, htail⟩ := List.cons_prefix_cons.1 hw
      rcases ih htail with hin | ⟨a, b, m, u, v, z, hcut, rfl, hv, hvm, ha, hu⟩
      · exact .inl (List.cons_prefix_cons.2 ⟨rfl, hin⟩)
      · exact .inr ⟨a, b, m, d :: u, v, z, hcut, rfl, hv, hvm, ha.trans (List.suffix_cons _ _),
          List.cons_prefix_cons.2 ⟨rfl, hu⟩⟩
  | @cut a b m cs out hcut _ _ _ =>
    obtain ⟨t, ht⟩ := hw
    rw [List.append_assoc] at ht
    rcases List.append_eq_append_iff.1 ht with ⟨v, rfl, hv⟩ | ⟨v, rfl, hv⟩
    · exact .inl ⟨v ++ b ++ cs, by simp⟩
    · by_cases hnil : v = []
      · subst hnil
        exact .inl ⟨b ++ cs, by simp⟩
      · exact .inr ⟨a, b, m, a, v, out, hcut, rfl, hnil, ⟨t, hv.symm⟩, List.suffix_refl a,
          List.prefix_append _ cs⟩

/-- **The output has no word of `W`.** -/
theorem clean {W : List α → Prop} (h : Rewrites Kept Cut input out)
    (hkept : ∀ t w, Kept t → W w → ¬ w <+: t)
    (hmark : ∀ a b m y z w, Cut a b m → y ≠ [] → y <:+ m → W w → ¬ w <+: y ++ z)
    (hcross : ∀ a b m u v z, Cut a b m → u ≠ [] → a <:+ u ∨ u <:+ a → v ≠ [] → v <+: m ++ z →
      W (u ++ v) → ∃ w, W w ∧ w <+: u ++ b)
    (hne : ¬ W []) (hw : W w) : ¬ w <:+: out := by
  induction h generalizing w with
  | nil =>
    intro hwithin
    exact hne (List.infix_nil.1 hwithin ▸ hw)
  | @keep c cs out hc hrest ih =>
    intro hwithin
    rcases List.infix_cons_iff.1 hwithin with hstart | hwithin
    · cases w with
      | nil => exact hne hw
      | cons d w =>
        obtain ⟨rfl, htail⟩ := List.cons_prefix_cons.1 hstart
        rcases hrest.prefix_cases htail with hin | ⟨a, b, m, u, v, z, hcut, rfl, hv, hvm, ha, hu⟩
        · exact hkept _ _ hc hw (List.cons_prefix_cons.2 ⟨rfl, hin⟩)
        · obtain ⟨w', hw', hin⟩ := hcross a b m (d :: u) v z hcut (List.cons_ne_nil _ _)
            (.inl (ha.trans (List.suffix_cons _ _))) hv hvm hw
          exact hkept _ _ hc hw' (hin.trans (List.cons_prefix_cons.2 ⟨rfl, hu⟩))
    · exact ih hw hwithin
  | @cut a b m cs out hcut ha _ ih =>
    have hm : ∀ y, y <:+ m → ¬ w <:+: y ++ out := by
      intro y
      induction y with
      | nil => exact fun _ => ih hw
      | cons c y ihy =>
        intro hy hwithin
        rcases List.infix_cons_iff.1 hwithin with hstart | hwithin
        · exact hmark a b m _ out w hcut (List.cons_ne_nil c y) hy hw hstart
        · exact ihy ((List.suffix_cons c y).trans hy) hwithin
    have hcopied : ∀ a', a' <:+ a → ¬ w <:+: a' ++ m ++ out := by
      intro a'
      induction a' with
      | nil => exact fun _ => hm m (List.suffix_refl m)
      | cons c a' iha =>
        intro ha' hwithin
        rcases List.infix_cons_iff.1 hwithin with hstart | hwithin
        · have hplace := ha _ ha' (List.cons_ne_nil c a')
          obtain ⟨t, ht⟩ := hstart
          have ht : w ++ t = (c :: a') ++ (m ++ out) := ht.trans (by simp)
          rcases List.append_eq_append_iff.1 ht with ⟨v, hv, -⟩ | ⟨v, rfl, hv⟩
          · exact hkept _ _ hplace hw ⟨v ++ b ++ cs, by rw [hv]; simp⟩
          · by_cases hnil : v = []
            · subst hnil
              exact hkept _ _ hplace hw ⟨b ++ cs, by simp⟩
            · obtain ⟨w', hw', hin⟩ := hcross a b m (c :: a') v out hcut (List.cons_ne_nil _ _)
                (.inr ha') hnil ⟨t, hv.symm⟩ hw
              exact hkept _ _ hplace hw' (hin.trans (List.prefix_append _ cs))
        · exact iha ((List.suffix_cons c a').trans ha') hwithin
    exact hcopied a (List.suffix_refl a)

/-- A word without the last character of a mark does not go on after it. -/
theorem infix_of_prefix_mark {c : α} {m y z : List α} (hc : m.getLast? = some c) (hy : y ≠ [])
    (hsuffix : y <:+ m) (hw : w <+: y ++ z) (hcw : c ∉ w) : w <:+: m := by
  rcases List.prefix_or_prefix_of_prefix hw (List.prefix_append y z) with h | h
  · exact h.isInfix.trans hsuffix.isInfix
  · obtain ⟨l, rfl⟩ := hsuffix
    rw [List.getLast?_append_of_ne_nil l hy] at hc
    exact absurd (h.subset (List.mem_of_getLast? hc)) hcw

/-- The marks stand in brackets that no word of `W` has. -/
theorem clean_of_brackets {W : List α → Prop} (h : Rewrites Kept Cut input out)
    (hkept : ∀ t w, Kept t → W w → ¬ w <+: t)
    (hopen : ∀ a b m w, Cut a b m → W w → ∃ c, m.head? = some c ∧ c ∉ w)
    (hclose : ∀ a b m w, Cut a b m → W w → ∃ c, m.getLast? = some c ∧ c ∉ w)
    (hmark : ∀ a b m w, Cut a b m → W w → ¬ w <:+: m)
    (hne : ¬ W []) (hw : W w) : ¬ w <:+: out := by
  refine h.clean hkept ?_ ?_ hne hw
  · intro a b m y z w hcut hy hsuffix hw hstart
    obtain ⟨c, hc, hcw⟩ := hclose a b m w hcut hw
    exact hmark a b m w hcut hw (infix_of_prefix_mark hc hy hsuffix hstart hcw)
  · intro a b m u v z hcut _ _ hv hvm hw
    obtain ⟨c, hc, hcw⟩ := hopen a b m _ hcut hw
    obtain ⟨m, rfl⟩ := List.head?_eq_some_iff.1 hc
    obtain ⟨d, v, rfl⟩ := List.exists_cons_of_ne_nil hv
    obtain ⟨rfl, -⟩ := List.cons_prefix_cons.1 hvm
    exact absurd (List.mem_append_right u List.mem_cons_self) hcw

end Rewrites

end Cognis
