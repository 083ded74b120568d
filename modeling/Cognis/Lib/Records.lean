/-
  Lists of records as multisets: a canonical order, the differences of two sorted lists by
  one pass over both, and the concatenation of self-delimiting records.

  * `sorted_eq_iff`: two lists have the same sorted form exactly when they are permutations;
  * `splitDiff_spec`: the pass finds the two multiset differences;
  * `flatMap_inj`: a concatenation of self-delimiting records determines them.
-/
import Mathlib.Data.List.Dedup
import Mathlib.Data.List.Sort
import Mathlib.Data.Multiset.AddSub
import Mathlib.Order.Lattice
import Mathlib.Tactic.Common
import Mathlib.Tactic.Linarith

namespace Cognis.Records

section Order
variable {α : Type*} [LinearOrder α]

/-- The canonical order. -/
def sorted (l : List α) : List α := l.insertionSort (· ≤ ·)

variable {l r : List α}

theorem sorted_perm (l : List α) : (sorted l).Perm l := List.perm_insertionSort _ l

theorem pairwise_sorted (l : List α) : (sorted l).Pairwise (· ≤ ·) := List.pairwise_insertionSort _ l

theorem sorted_eq_iff : sorted l = sorted r ↔ l.Perm r := by
  constructor
  · intro h
    have hperm := sorted_perm r
    rw [← h] at hperm
    exact (sorted_perm l).symm.trans hperm
  · intro h
    refine ((sorted_perm l).trans (h.trans (sorted_perm r).symm)).eq_of_pairwise ?_
      (pairwise_sorted l) (pairwise_sorted r)
    intro a b _ _ hab hba
    exact le_antisymm hab hba

/-- A set as a sorted list. -/
def sortedSet (l : List α) : List α := sorted l.dedup

theorem mem_sortedSet {a : α} : a ∈ sortedSet l ↔ a ∈ l := by
  rw [sortedSet, (sorted_perm _).mem_iff, List.mem_dedup]

theorem pairwise_sortedSet (l : List α) : (sortedSet l).Pairwise (· < ·) := by
  have hnodup : (sortedSet l).Nodup := (sorted_perm _).nodup_iff.2 l.nodup_dedup
  exact (pairwise_sorted l.dedup).imp₂ (fun _ _ hle hne => lt_of_le_of_ne hle hne) hnodup

/-- One pass over two sorted lists, for the elements that only one of them has; `fuel` is at
    least the number of elements. -/
def splitDiff : ℕ → List α → List α → List α × List α
  | fuel + 1, a :: l, b :: r =>
    if a < b then
      let rest := splitDiff fuel l (b :: r)
      (a :: rest.1, rest.2)
    else if b < a then
      let rest := splitDiff fuel (a :: l) r
      (rest.1, b :: rest.2)
    else splitDiff fuel l r
  | _, l, r => (l, r)

/-- A smaller element is not in a sorted list. -/
theorem count_eq_zero_of_lt [BEq α] [LawfulBEq α] {a b : α} (hr : (b :: r).Pairwise (· ≤ ·)) (h : a < b) :
    (b :: r).count a = 0 := by
  refine List.count_eq_zero_of_not_mem fun ha => ?_
  rcases List.mem_cons.1 ha with rfl | ha
  · exact lt_irrefl _ h
  · exact ((List.pairwise_cons.1 hr).1 a ha).not_gt h

/-- **The pass finds the two differences**, with their multiplicities. -/
theorem count_splitDiff [BEq α] [LawfulBEq α] {fuel : ℕ} (hl : l.Pairwise (· ≤ ·)) (hr : r.Pairwise (· ≤ ·))
    (hfuel : l.length + r.length ≤ fuel) (x : α) :
    (splitDiff fuel l r).1.count x = l.count x - r.count x ∧
      (splitDiff fuel l r).2.count x = r.count x - l.count x := by
  induction fuel generalizing l r with
  | zero =>
    obtain ⟨rfl, rfl⟩ : l = [] ∧ r = [] := by
      constructor <;> refine List.eq_nil_of_length_eq_zero ?_ <;> omega
    exact ⟨rfl, rfl⟩
  | succ fuel ih =>
    cases l with
    | nil => simp [splitDiff]
    | cons a l =>
      cases r with
      | nil => simp [splitDiff]
      | cons b r =>
        have htl := (List.pairwise_cons.1 hl).2
        have htr := (List.pairwise_cons.1 hr).2
        simp only [List.length_cons] at hfuel
        rw [splitDiff]
        split_ifs with hab hba
        · -- `a` is on the left only
          obtain ⟨h1, h2⟩ := ih htl hr (by simp only [List.length_cons]; omega)
          rw [List.count_cons (a := x) (b := a) (l := l)]
          by_cases hx : a = x
          · subst hx
            have hzero := count_eq_zero_of_lt hr hab
            simp only [List.count_cons_self, h1, h2, hzero, beq_self_eq_true, if_true]
            omega
          · simp only [List.count_cons_of_ne hx, h1, h2, beq_iff_eq, hx, if_false, add_zero,
              and_self]
        · -- `b` is on the right only
          obtain ⟨h1, h2⟩ := ih hl htr (by simp only [List.length_cons]; omega)
          rw [List.count_cons (a := x) (b := b) (l := r)]
          by_cases hx : b = x
          · subst hx
            have hzero := count_eq_zero_of_lt hl hba
            simp only [List.count_cons_self, h1, h2, hzero, beq_self_eq_true, if_true]
            omega
          · simp only [List.count_cons_of_ne hx, h1, h2, beq_iff_eq, hx, if_false, add_zero,
              and_self]
        · obtain rfl : a = b := le_antisymm (not_lt.1 hba) (not_lt.1 hab)
          obtain ⟨h1, h2⟩ := ih htl htr (by omega)
          simp only [List.count_cons, h1, h2]
          omega

end Order

/-! ## Self-delimiting records -/

section Frames
variable {α β : Type*} {encode : β → List α}

/-- The records of `P` are self-delimiting: they end where their text says. -/
def Delimited (encode : β → List α) (P : β → Prop) : Prop :=
  ∀ a b, P a → P b → ∀ x y, encode a ++ x = encode b ++ y → a = b ∧ x = y

/-- **A concatenation of records determines them.** -/
theorem Delimited.flatMap_inj {P : β → Prop} (h : Delimited encode P)
    (hne : ∀ a, encode a ≠ []) {l r : List β} (hl : ∀ a ∈ l, P a) (hr : ∀ a ∈ r, P a)
    (heq : l.flatMap encode = r.flatMap encode) : l = r := by
  induction l generalizing r with
  | nil =>
    cases r with
    | nil => rfl
    | cons b r => simp [hne] at heq
  | cons a l ih =>
    cases r with
    | nil => simp [hne] at heq
    | cons b r =>
      rw [List.forall_mem_cons] at hl hr
      rw [List.flatMap_cons, List.flatMap_cons] at heq
      obtain ⟨rfl, htail⟩ := h a b hl.1 hr.1 _ _ heq
      rw [ih hl.2 hr.2 htail]

/-- The last `width` bytes of a number, the highest first. -/
def beBytes : ℕ → ℕ → List UInt8
  | 0, _ => []
  | width + 1, n => beBytes width (n / 256) ++ [UInt8.ofNat n]

@[simp] theorem length_beBytes (width n : ℕ) : (beBytes width n).length = width := by
  induction width generalizing n with
  | zero => rfl
  | succ width ih => simp [beBytes, ih]

/-- A number that fits is determined by its bytes. -/
theorem beBytes_inj {width m n : ℕ} (hm : m < 256 ^ width) (hn : n < 256 ^ width)
    (h : beBytes width m = beBytes width n) : m = n := by
  induction width generalizing m n with
  | zero => omega
  | succ width ih =>
    obtain ⟨hhigh, hlow⟩ := List.append_inj h (by simp)
    have hquot : m / 256 = n / 256 := by
      refine ih ?_ ?_ hhigh <;> rw [Nat.div_lt_iff_lt_mul (by omega), ← pow_succ] <;> assumption
    have hrem : m % 256 = n % 256 := by
      have := congrArg UInt8.toNat (List.singleton_inj.1 hlow)
      simpa using this
    omega

/-- A record after its length, in `width` bytes. -/
def lengthPrefixed (width : ℕ) (bytes : List UInt8) : List UInt8 :=
  beBytes width bytes.length ++ bytes

theorem delimited_lengthPrefixed (width : ℕ) :
    Delimited (lengthPrefixed width) fun bytes => bytes.length < 256 ^ width := by
  intro a b ha hb x y h
  unfold lengthPrefixed at h
  rw [List.append_assoc, List.append_assoc] at h
  obtain ⟨hlen, hrest⟩ := List.append_inj h (by simp)
  exact List.append_inj hrest (beBytes_inj ha hb hlen)

end Frames

end Cognis.Records
