/-
  Bracketings of a list under a binary operation that is not assumed to be
  associative or commutative.

  * `Bracketing.eval_rel`: a relation between the leaves and the value that
    holds at the leaves and is kept by the operation holds of every bracketing;
  * `Bracketing.exists_map`: a bracketing is transported along a homomorphism;
  * `orderFree_iff`: an operation with a left identity folds a list to a value
    that depends on neither order nor bracketing iff any two bracketings of the
    list agree (`Unambiguous`).
-/
import Mathlib.Data.List.Perm.Basic

namespace Cognis

/-- A bracketing: a binary tree with the operands at its leaves. -/
inductive Bracketing (α : Type*) where
  | leaf (a : α)
  | node (l r : Bracketing α)

namespace Bracketing

variable {α : Type*} (op : α → α → α)

/-- The operands, from left to right. -/
def leaves : Bracketing α → List α
  | leaf a => [a]
  | node l r => l.leaves ++ r.leaves

/-- The value of a bracketing. -/
def eval : Bracketing α → α
  | leaf a => a
  | node l r => op l.eval r.eval

/-- The bracketing to the left of `a :: as`. -/
def ofList (a : α) : List α → Bracketing α :=
  List.foldl (fun t b => node t (leaf b)) (leaf a)

theorem leaves_ne_nil : ∀ t : Bracketing α, t.leaves ≠ []
  | leaf a => List.cons_ne_nil a []
  | node l _ => List.append_ne_nil_of_left_ne_nil l.leaves_ne_nil _

theorem leaves_foldl (as : List α) (t : Bracketing α) :
    (as.foldl (fun t b => node t (leaf b)) t).leaves = t.leaves ++ as := by
  induction as generalizing t with
  | nil => simp
  | cons a as ih => rw [List.foldl_cons, ih]; simp [leaves]

theorem eval_foldl (as : List α) (t : Bracketing α) :
    (as.foldl (fun t b => node t (leaf b)) t).eval op = as.foldl op (t.eval op) := by
  induction as generalizing t with
  | nil => rfl
  | cons a as ih => rw [List.foldl_cons, ih]; rfl

theorem leaves_ofList (a : α) (as : List α) : (ofList a as).leaves = a :: as :=
  leaves_foldl as (leaf a)

theorem eval_ofList (a : α) (as : List α) : (ofList a as).eval op = as.foldl op a :=
  eval_foldl op as (leaf a)

/-- **Induction on bracketings**, for a relation between operands and value. -/
theorem eval_rel {P : α → Prop} {R : List α → α → Prop} (leaf : ∀ a, P a → R [a] a)
    (node : ∀ {l l' a b}, R l a → R l' b → R (l ++ l') (op a b)) :
    ∀ t : Bracketing α, (∀ a ∈ t.leaves, P a) → R t.leaves (t.eval op)
  | .leaf a, h => leaf a (h a (by simp [leaves]))
  | .node l r, h =>
    node (eval_rel leaf node l fun a ha => h a (by simp [leaves, ha]))
      (eval_rel leaf node r fun a ha => h a (by simp [leaves, ha]))

/-- A bracketing is transported along a homomorphism. -/
theorem exists_map {β : Type*} (op' : β → β → β) (f : α → β)
    (hf : ∀ a b, f (op a b) = op' (f a) (f b)) :
    ∀ t : Bracketing α, ∃ t' : Bracketing β, t'.leaves = t.leaves.map f ∧ t'.eval op' = f (t.eval op)
  | leaf a => ⟨leaf (f a), rfl, rfl⟩
  | node l r => by
    obtain ⟨l', hl, el⟩ := exists_map op' f hf l
    obtain ⟨r', hr, er⟩ := exists_map op' f hf r
    exact ⟨node l' r', by simp [leaves, hl, hr], by simp only [eval, el, er, hf]⟩

/-- Operands that the value absorbs can be added without changing it. -/
theorem exists_absorb {l : List α} {v : α} (xs : List α) (habs : ∀ x ∈ xs, op v x = v)
    (h : ∃ t : Bracketing α, t.leaves.Perm l ∧ t.eval op = v) :
    ∃ t : Bracketing α, t.leaves.Perm (l ++ xs) ∧ t.eval op = v := by
  obtain ⟨t, hl, rfl⟩ := h
  refine ⟨xs.foldl (fun t b => Bracketing.node t (Bracketing.leaf b)) t, ?_, ?_⟩
  · rw [leaves_foldl]; exact hl.append_right xs
  · rw [eval_foldl]
    induction xs with
    | nil => rfl
    | cons x xs ih =>
      rw [List.foldl_cons, habs x (by simp)]
      exact ih fun y hy => habs y (by simp [hy])

end Bracketing

/-- All bracketings of all orders of `l` have one value. -/
def Unambiguous {α : Type*} (op : α → α → α) (l : List α) : Prop :=
  ∀ t t' : Bracketing α, t.leaves.Perm l → t'.leaves.Perm l → t.eval op = t'.eval op

/-- The value of `op` over `l`, from `e`, depends neither on the order of `l`
    nor on the bracketing. -/
def OrderFree {α : Type*} (op : α → α → α) (e : α) (l : List α) : Prop :=
  ∀ t : Bracketing α, t.leaves.Perm l → t.eval op = l.foldl op e

theorem orderFree_iff {α : Type*} {op : α → α → α} {e : α} (he : ∀ a, op e a = a) {l : List α} :
    OrderFree op e l ↔ Unambiguous op l := by
  refine ⟨fun h t t' ht ht' => (h t ht).trans (h t' ht').symm, fun h t ht => ?_⟩
  cases l with
  | nil => exact absurd ht.eq_nil t.leaves_ne_nil
  | cons a as =>
    rw [List.foldl_cons, he, ← Bracketing.eval_ofList]
    exact h t _ ht (by rw [Bracketing.leaves_ofList])

end Cognis
