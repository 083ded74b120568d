/-
  Products of the bases of exponential classes, in any order.

  `baseMul` saturates at `255` and is at least `2`, so a base of `0` or `1` is
  lost in a product with a larger base but counts as `2` on its own.

  * `BaseOf` is what all products of the same bases have in common;
  * `unambiguous_baseMul`: when the order of the bases does not matter.
-/
import Cognis.Lib.Bracketing
import Cognis.Core.Complexity
import Mathlib.Algebra.BigOperators.Group.List.Lemmas

namespace Cognis

open Bracketing

/-- `b1.saturating_mul(b2).max(2)` -/
def baseMul (b1 b2 : UInt8) : UInt8 := max (satMul b1 b2) 2

theorem toNat_baseMul (b1 b2 : UInt8) :
    (baseMul b1 b2).toNat = max (min 255 (b1.toNat * b2.toNat)) 2 := by
  rw [baseMul, toNat_max, toNat_satMul]; rfl

/-- The product of the bases, not saturated. -/
def baseProd (bs : List UInt8) : ℕ := (bs.map UInt8.toNat).prod

theorem baseProd_append (bs bs' : List UInt8) : baseProd (bs ++ bs') = baseProd bs * baseProd bs' := by
  simp [baseProd]

theorem baseProd_perm {bs bs' : List UInt8} (h : bs.Perm bs') : baseProd bs = baseProd bs' :=
  (h.map _).prod_eq

@[simp] theorem baseProd_cons (b : UInt8) (bs : List UInt8) :
    baseProd (b :: bs) = b.toNat * baseProd bs := by
  simp [baseProd]

theorem toNat_pos_of_ne {b : UInt8} (h : b ≠ 0) : 0 < b.toNat :=
  Nat.pos_of_ne_zero fun h' => h (UInt8.toNat_inj.1 h')

theorem baseProd_pos {bs : List UInt8} (h : 0 ∉ bs) : 0 < baseProd bs := by
  induction bs with
  | nil => simp [baseProd]
  | cons b bs ih =>
    simp only [List.mem_cons, not_or] at h
    rw [baseProd_cons]
    exact Nat.mul_pos (toNat_pos_of_ne (Ne.symm h.1)) (ih h.2)

theorem one_lt_baseProd {bs : List UInt8} (h0 : 0 ∉ bs) (h1 : 1 ∉ bs) (hne : bs ≠ []) :
    1 < baseProd bs := by
  obtain ⟨b, bs', rfl⟩ := List.exists_cons_of_ne_nil hne
  simp only [List.mem_cons, not_or] at h0 h1
  have hb := toNat_pos_of_ne (Ne.symm h0.1)
  have hb1 : b.toNat ≠ 1 := fun h => h1.1 (UInt8.toNat_inj.1 h.symm)
  calc 1 < b.toNat * 1 := by omega
    _ ≤ b.toNat * baseProd bs' := Nat.mul_le_mul_left _ (baseProd_pos h0.2)
    _ = baseProd (b :: bs') := (baseProd_cons b bs').symm

theorem min_mul_min {x y : ℕ} (hx : 0 < x) (hy : 0 < y) :
    min 255 (min 255 x * min 255 y) = min 255 (x * y) := by
  rcases le_total x 255 with h | h <;> rcases le_total y 255 with h' | h'
  · rw [min_eq_right h, min_eq_right h']
  · rw [min_eq_right h, min_eq_left h', min_eq_left (by nlinarith), min_eq_left (by nlinarith)]
  · rw [min_eq_left h, min_eq_right h', min_eq_left (by nlinarith), min_eq_left (by nlinarith)]
  · rw [min_eq_left h, min_eq_left h', min_eq_left (by omega), min_eq_left (by nlinarith)]

/-- What every bracketing of the bases `bs` has in common: its value `v`. -/
structure BaseOf (bs : List UInt8) (v : UInt8) : Prop where
  ne_nil : bs ≠ []
  single : bs.length = 1 → v.toNat = baseProd bs
  two_le : 2 ≤ bs.length → 2 ≤ v.toNat
  le_prod : 0 ∉ bs → min 255 (baseProd bs) ≤ v.toNat
  eq_prod : 0 ∉ bs → bs.count 1 ≤ 1 → v.toNat = min 255 (baseProd bs)
  pair : bs.length = 2 → v.toNat = max (min 255 (baseProd bs)) 2
  small : bs.length = 3 → (∀ b ∈ bs, b ≤ 1) → v.toNat = 2

theorem baseProd_le_one {bs : List UInt8} (h : ∀ b ∈ bs, b ≤ 1) : baseProd bs ≤ 1 := by
  induction bs with
  | nil => simp [baseProd]
  | cons b bs ih =>
    rw [baseProd_cons]
    exact Nat.mul_le_mul (UInt8.le_iff_toNat_le.1 (h b (by simp)))
      (ih fun x hx => h x (List.mem_cons_of_mem b hx))

theorem BaseOf.leaf (b : UInt8) : BaseOf [b] b := by
  have hb := toNat_le_255 b
  constructor <;> simp [baseProd, hb]

theorem BaseOf.node {bs bs' : List UInt8} {v v' : UInt8} (h : BaseOf bs v) (h' : BaseOf bs' v') :
    BaseOf (bs ++ bs') (baseMul v v') := by
  have hl := List.length_pos_iff.2 h.ne_nil
  have hl' := List.length_pos_iff.2 h'.ne_nil
  refine ⟨by simp [h.ne_nil], ?_, ?_, ?_, ?_, ?_, ?_⟩
  · rw [List.length_append]; omega
  · rw [toNat_baseMul]; omega
  · intro h0
    simp only [List.mem_append, not_or] at h0
    rw [toNat_baseMul, baseProd_append, ← min_mul_min (baseProd_pos h0.1) (baseProd_pos h0.2)]
    have := Nat.mul_le_mul (h.le_prod h0.1) (h'.le_prod h0.2)
    omega
  · intro h0 h1
    simp only [List.mem_append, not_or] at h0
    rw [List.count_append] at h1
    have hv := h.eq_prod h0.1 (by omega)
    have hv' := h'.eq_prod h0.2 (by omega)
    rw [toNat_baseMul, hv, hv', min_mul_min (baseProd_pos h0.1) (baseProd_pos h0.2), baseProd_append]
    -- one of the two sides has no `1`, hence a product of at least `2`
    have h2 : 2 ≤ baseProd bs * baseProd bs' := by
      rcases (by omega : bs.count 1 = 0 ∨ bs'.count 1 = 0) with hc | hc
      · have := one_lt_baseProd h0.1 (List.count_eq_zero.1 hc) h.ne_nil
        have := baseProd_pos h0.2
        nlinarith
      · have := one_lt_baseProd h0.2 (List.count_eq_zero.1 hc) h'.ne_nil
        have := baseProd_pos h0.1
        nlinarith
    omega
  · rw [List.length_append, toNat_baseMul, baseProd_append]
    intro h2
    rw [h.single (by omega), h'.single (by omega)]
  · rw [List.length_append, toNat_baseMul]
    intro h3 hle
    have hp := baseProd_le_one fun b hb => hle b (List.mem_append_left _ hb)
    have hp' := baseProd_le_one fun b hb => hle b (List.mem_append_right _ hb)
    rcases (by omega : bs.length = 1 ∨ bs'.length = 1) with h1 | h1
    · rw [h.single h1, h'.pair (by omega), show max (min 255 (baseProd bs')) 2 = 2 by omega]
      omega
    · rw [h'.single h1, h.pair (by omega), show max (min 255 (baseProd bs)) 2 = 2 by omega]
      omega

theorem BaseOf.of_bracketing (t : Bracketing UInt8) : BaseOf t.leaves (t.eval baseMul) :=
  eval_rel baseMul (P := fun _ => True) (fun b _ => .leaf b) .node t fun _ _ => trivial

theorem BaseOf.perm {bs bs' : List UInt8} {v : UInt8} (h : BaseOf bs v) (hp : bs.Perm bs') :
    BaseOf bs' v := by
  obtain ⟨h1, h2, h3, h4, h5, h6, h7⟩ := h
  refine ⟨fun e => h1 (by simpa [e] using hp), ?_, ?_, ?_, ?_, ?_, ?_⟩ <;>
    simpa only [← hp.length_eq, ← baseProd_perm hp, ← hp.mem_iff, ← hp.count_eq] using by assumption

/-- The bases on which the order of the products does not matter. -/
def BasesAgree (bs : List UInt8) : Prop :=
  bs.length ≤ 2 ∨ (0 ∉ bs ∧ bs.count 1 ≤ 1) ∨ (bs.length = 3 ∧ ∀ b ∈ bs, b ≤ 1) ∨
    (0 ∉ bs ∧ 255 ≤ baseProd bs)

instance (bs : List UInt8) : Decidable (BasesAgree bs) :=
  haveI : Decidable (∀ b ∈ bs, b ≤ 1) := List.decidableBAll (· ≤ 1) bs
  inferInstanceAs (Decidable (_ ∨ _))

theorem BaseOf.unique {bs : List UInt8} {v v' : UInt8} (hbs : BasesAgree bs) (h : BaseOf bs v)
    (h' : BaseOf bs v') : v = v' := by
  apply UInt8.toNat_inj.1
  have hv := toNat_le_255 v
  have hv' := toNat_le_255 v'
  rcases hbs with h2 | ⟨h0, h1⟩ | ⟨h3, h1⟩ | ⟨h0, h255⟩
  · have hl := List.length_pos_iff.2 h.ne_nil
    rcases (by omega : bs.length = 1 ∨ bs.length = 2) with hl | hl
    · rw [h.single hl, h'.single hl]
    · rw [h.pair hl, h'.pair hl]
  · rw [h.eq_prod h0 h1, h'.eq_prod h0 h1]
  · rw [h.small h3 h1, h'.small h3 h1]
  · have := h.le_prod h0
    have := h'.le_prod h0
    omega

theorem toNat_eval_ofList (b : UInt8) (bs : List UInt8) (h : 1 < b.toNat ∨ bs ≠ []) :
    2 ≤ ((ofList b bs).eval baseMul).toNat := by
  have hb := BaseOf.of_bracketing (ofList b bs)
  rw [leaves_ofList] at hb
  cases bs with
  | nil => simp only [ne_eq, not_true, or_false] at h; exact h
  | cons c bs => exact hb.two_le (by simp)

/-- Without a base `0`, ones can be absorbed before they count. -/
theorem exists_small {bs : List UInt8} (h0 : 0 ∉ bs) (hne : bs ≠ []) (h1 : bs ≠ [1]) :
    ∃ t : Bracketing UInt8, t.leaves.Perm bs ∧
      (t.eval baseMul).toNat = max (min 255 (baseProd bs)) 2 := by
  have hsplit := (List.filter_append_perm (fun b : UInt8 => decide (b ≠ 1)) bs)
  have hones : bs.filter (fun b => !decide (b ≠ 1)) =
      List.replicate (bs.count 1) 1 := by
    rw [List.count, List.countP_eq_length_filter]
    refine List.eq_replicate_iff.2 ⟨by congr 2; ext b; simp; rfl, fun b hb => ?_⟩
    simpa using (List.mem_filter.1 hb).2
  rw [hones] at hsplit
  have hprod : baseProd (bs.filter (fun b => decide (b ≠ 1))) = baseProd bs := by
    rw [← baseProd_perm hsplit, baseProd_append]; simp [baseProd]
  have habs : ∀ {v : UInt8} {n : ℕ}, 2 ≤ v.toNat → ∀ x ∈ List.replicate n (1 : UInt8),
      baseMul v x = v := by
    intro v n hv x hx
    rw [List.eq_of_mem_replicate hx]
    apply UInt8.toNat_inj.1
    have := toNat_le_255 v
    rw [toNat_baseMul, show (1 : UInt8).toNat = 1 from rfl]
    omega
  cases hl : bs.filter (fun b => decide (b ≠ 1)) with
  | nil =>
    -- only ones: two of them make a `2`, which absorbs the others
    rw [hl, List.nil_append] at hsplit
    rw [hl] at hprod
    obtain ⟨n, hn⟩ : ∃ n, bs.count 1 = n + 2 := by
      refine ⟨bs.count 1 - 2, ?_⟩
      have : bs.count 1 ≠ 0 := fun h => hne (by simpa [h] using hsplit.symm)
      have : bs.count 1 ≠ 1 := fun h => h1 (by simpa [h] using hsplit.symm)
      omega
    obtain ⟨t, ht, hv⟩ := exists_absorb baseMul (l := [1, 1]) (v := 2)
      (List.replicate n 1) (habs (by decide)) ⟨.node (.leaf 1) (.leaf 1), by simp [leaves], by decide⟩
    refine ⟨t, ht.trans ?_, ?_⟩
    · rw [hn] at hsplit; exact hsplit
    · rw [hv, ← hprod]; decide
  | cons b bs' =>
    have hmem : ∀ x ∈ b :: bs', x ≠ 0 ∧ x ≠ 1 := by
      intro x hx
      rw [← hl, List.mem_filter] at hx
      exact ⟨fun h => h0 (h ▸ hx.1), by simpa using hx.2⟩
    have h0' : 0 ∉ b :: bs' := fun h => (hmem 0 h).1 rfl
    have h1' : 1 ∉ b :: bs' := fun h => (hmem 1 h).2 rfl
    have hv := (BaseOf.of_bracketing (ofList b bs'))
    rw [leaves_ofList] at hv
    have hval := hv.eq_prod h0' (by rw [List.count_eq_zero.2 h1']; omega)
    have h2 := one_lt_baseProd h0' h1' (by simp)
    rw [hl] at hsplit hprod
    obtain ⟨t, ht, he⟩ := exists_absorb baseMul (l := b :: bs')
      (List.replicate (bs.count 1) 1) (habs (by rw [hval]; omega))
      ⟨ofList b bs', by rw [leaves_ofList], rfl⟩
    refine ⟨t, ht.trans hsplit, ?_⟩
    rw [he, hval, hprod]
    omega

theorem basesAgree_of_unambiguous {bs : List UInt8} (h : Unambiguous baseMul bs) :
    BasesAgree bs := by
  by_contra hbs
  simp only [BasesAgree, not_or, not_and, not_le] at hbs
  obtain ⟨h2, h01, h3, h0p⟩ := hbs
  by_cases h0 : 0 ∈ bs
  · -- a zero last gives `2`; a zero first gives at least `4`
    obtain ⟨a, b, tl, hperm, htl⟩ : ∃ a b tl, bs.Perm (0 :: a :: b :: tl) ∧
        (1 < b.toNat ∨ tl ≠ []) := by
      have hp := List.perm_cons_erase h0
      have hlen := hp.length_eq
      match he : bs.erase 0, hp with
      | [], _ | [_], _ => simp [he] at hlen; omega
      | a :: b :: c :: tl, hp => exact ⟨a, b, c :: tl, hp, .inr (by simp)⟩
      | [a, b], hp =>
        have h3' := h3 (by simpa [he] using hlen)
        simp only [not_forall, UInt8.not_le] at h3'
        obtain ⟨x, hx, hx1⟩ := h3'
        have hx1 : 1 < x.toNat := UInt8.lt_iff_toNat_lt.1 hx1
        rw [hp.mem_iff] at hx
        simp only [List.mem_cons, List.not_mem_nil, or_false] at hx
        rcases hx with rfl | rfl | rfl
        · exact absurd hx1 (by decide)
        · exact ⟨b, x, [], hp.trans ((List.Perm.swap b x []).cons 0), .inl hx1⟩
        · exact ⟨a, x, [], hp, .inl hx1⟩
    have heq := h (.node (.leaf 0) (.node (.leaf a) (ofList b tl)))
      (.node (.node (.leaf 0) (.leaf a)) (ofList b tl))
      (by simp [leaves, leaves_ofList, hperm.symm]) (by simp [leaves, leaves_ofList, hperm.symm])
    have hv := toNat_eval_ofList b tl htl
    have heq := congrArg UInt8.toNat heq
    simp only [eval, toNat_baseMul, show (0 : UInt8).toNat = 0 from rfl, Nat.zero_mul,
      show max (min 255 0) 2 = 2 from rfl] at heq
    omega
  · -- two ones together count twice; absorbed one by one they do not count
    have h11 := h01 h0
    have hp255 := h0p h0
    obtain ⟨tl, hperm⟩ : ∃ tl, bs.Perm (1 :: 1 :: tl) := by
      have hm : 1 ∈ bs := List.count_pos_iff.1 (by omega)
      have hm' : 1 ∈ bs.erase 1 := List.count_pos_iff.1 (by rw [List.count_erase_self]; omega)
      exact ⟨_, (List.perm_cons_erase hm).trans ((List.perm_cons_erase hm').cons 1)⟩
    have htl0 : 0 ∉ tl := fun h => h0 (hperm.mem_iff.2 (by simp [h]))
    have hne : tl ≠ [] := fun e => by have := hperm.length_eq; simp [e] at this; omega
    have hne1 : tl ≠ [1] := by
      rintro rfl
      have := h3 (by simpa using hperm.length_eq)
      exact this fun b hb => by
        rw [hperm.mem_iff] at hb; simp at hb; rw [hb]; decide
    obtain ⟨t, ht, hv⟩ := exists_small htl0 hne hne1
    have heq := h (.node (.leaf 1) (.node (.leaf 1) t)) (.node (.node (.leaf 1) (.leaf 1)) t)
      ((by simpa [leaves] using ht : List.Perm _ (1 :: 1 :: tl)).trans hperm.symm)
      ((by simpa [leaves] using ht : List.Perm _ (1 :: 1 :: tl)).trans hperm.symm)
    have heq := congrArg UInt8.toNat heq
    have hprod := baseProd_perm hperm
    simp only [baseProd_cons, show (1 : UInt8).toNat = 1 from rfl, one_mul] at hprod
    rw [hprod] at hp255
    simp only [eval, toNat_baseMul, show (1 : UInt8).toNat = 1 from rfl, hv, Nat.one_mul,
      show max (min 255 1) 2 = 2 from rfl] at heq
    omega

/-- **Products of bases**: when their value depends on neither order nor bracketing. -/
theorem unambiguous_baseMul (bs : List UInt8) : Unambiguous baseMul bs ↔ BasesAgree bs :=
  ⟨basesAgree_of_unambiguous, fun h t t' ht ht' =>
    BaseOf.unique h ((BaseOf.of_bracketing t).perm ht) ((BaseOf.of_bracketing t').perm ht')⟩

end Cognis
