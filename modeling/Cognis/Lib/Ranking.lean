/-
  The head of a ranking: the first places of a list sorted by a key, best key first,
  with a stable sort.

  * `Untied`: elements that tie for one of the first places have the same label;
  * `mem_take_ranked_iff`: with distinct keys, who has one of the first places;
  * `untied_iff`: this says exactly that the labels of the first places do not depend
    on the order of the list.
-/
import Mathlib.Data.List.Sort
import Mathlib.Order.Lattice
import Mathlib.Tactic.Common

namespace Cognis.Ranking

variable {α β γ κ : Type*} [LinearOrder κ] (key : α → κ)

/-- Best key first, the order of the list at a tie. -/
def ranked (l : List α) : List α := l.insertionSort fun a b => key b ≤ key a

/-- The number of elements with a better key. -/
def above (l : List α) (k : κ) : ℕ := l.countP fun a => k < key a

/-- Elements that tie for one of the first `n` places have the same label. -/
def Untied (label : α → β) (n : ℕ) (l : List α) : Prop :=
  ∀ a ∈ l, ∀ b ∈ l, key a = key b → above key l (key a) < n → label a = label b

instance decidableUntied [DecidableEq β] (label : α → β) (n : ℕ) (l : List α) :
    Decidable (Untied key label n l) :=
  inferInstanceAs (Decidable (∀ a ∈ l, ∀ b ∈ l, _ → _ → _))

theorem ranked_perm (l : List α) : (ranked key l).Perm l := List.perm_insertionSort _ l

theorem pairwise_ranked (l : List α) : (ranked key l).Pairwise fun a b => key b ≤ key a := by
  have : Std.Total fun a b : α => key b ≤ key a := ⟨fun a b => le_total _ _⟩
  have : IsTrans α fun a b => key b ≤ key a := ⟨fun _ _ _ h h' => h'.trans h⟩
  exact List.pairwise_insertionSort _ l

variable {key} {l l' : List α}

theorem above_perm (h : l.Perm l') (k : κ) : above key l k = above key l' k := h.countP_eq _

/-- The keys of a ranking do not depend on the order of the list. -/
theorem map_key_ranked (h : l.Perm l') : (ranked key l).map key = (ranked key l').map key := by
  have hperm : ((ranked key l).map key).Perm ((ranked key l').map key) :=
    ((ranked_perm key l).trans (h.trans (ranked_perm key l').symm)).map key
  have hsorted : ∀ l, ((ranked key l).map key).Pairwise fun x y => y ≤ x := fun l =>
    List.pairwise_map.2 (pairwise_ranked key l)
  refine hperm.eq_of_pairwise ?_ (hsorted l) (hsorted l')
  intro x y _ _ hxy hyx
  exact le_antisymm hyx hxy

/-- In a sorted list only the elements before a place have a better key than it. -/
theorem above_le_of_pairwise (h : l.Pairwise fun a b => key b ≤ key a) {i : ℕ} {a : α}
    (ha : l[i]? = some a) : above key l (key a) ≤ i := by
  induction l generalizing i with
  | nil => cases ha
  | cons b l ih =>
    rw [List.pairwise_cons] at h
    cases i with
    | zero =>
      obtain rfl : b = a := by simpa using ha
      refine Nat.le_zero.2 (List.countP_eq_zero.2 fun x hx => ?_)
      rcases List.mem_cons.1 hx with rfl | hx
      · simp
      · simpa using h.1 x hx
    | succ i =>
      have hi := ih h.2 (i := i) (by simpa using ha)
      unfold above at hi ⊢
      rw [List.countP_cons]
      split_ifs <;> omega

/-- With distinct keys, exactly the elements before a place have a better key. -/
theorem above_eq_of_pairwise (h : l.Pairwise fun a b => key b ≤ key a) (hl : (l.map key).Nodup)
    {i : ℕ} {a : α} (ha : l[i]? = some a) : above key l (key a) = i := by
  refine le_antisymm (above_le_of_pairwise h ha) ?_
  obtain ⟨hi, rfl⟩ := List.getElem?_eq_some_iff.1 ha
  have hall : ∀ x ∈ l.take i, key l[i] < key x := by
    intro x hx
    obtain ⟨j, hj, rfl⟩ := List.mem_iff_getElem.1 hx
    rw [List.length_take] at hj
    rw [List.getElem_take]
    refine lt_of_le_of_ne (List.pairwise_iff_getElem.1 h j i (by omega) hi (by omega)) fun heq => ?_
    have hij : i = j := by
      have hi' : i < (l.map key).length := by simpa using hi
      have hj' : j < (l.map key).length := by simp; omega
      have hkeys : (l.map key)[i] = (l.map key)[j] := by simpa using heq
      exact hl.getElem_inj_iff.1 hkeys
    omega
  have hcount : (l.take i).countP (fun x => key l[i] < key x) = i := by
    rw [List.countP_eq_length.2 (by simpa using hall), List.length_take]
    omega
  calc i = (l.take i).countP fun x => key l[i] < key x := hcount.symm
    _ ≤ above key l (key l[i]) := (List.take_sublist i l).countP_le

/-- **The first places**, with distinct keys: an element has one of them when few enough have a
    better key. -/
theorem mem_take_ranked_iff (hl : (l.map key).Nodup) {n : ℕ} {a : α} :
    a ∈ (ranked key l).take n ↔ a ∈ l ∧ above key l (key a) < n := by
  have hsorted := pairwise_ranked key l
  have hnodup : ((ranked key l).map key).Nodup := ((ranked_perm key l).map key).nodup_iff.2 hl
  rw [← (ranked_perm key l).mem_iff, ← above_perm (ranked_perm key l), List.mem_iff_getElem?]
  constructor
  · rintro ⟨i, hi⟩
    rw [List.getElem?_take] at hi
    split_ifs at hi with hin
    exact ⟨List.mem_of_getElem? hi, (above_eq_of_pairwise hsorted hnodup hi).trans_lt hin⟩
  · rintro ⟨hmem, hlt⟩
    obtain ⟨i, hi⟩ := List.mem_iff_getElem?.1 hmem
    refine ⟨i, ?_⟩
    rw [List.getElem?_take, if_pos ((above_eq_of_pairwise hsorted hnodup hi) ▸ hlt)]
    exact hi

/-- Who has none of the first places stands behind all who have one. -/
theorem mem_take_ranked_or {n : ℕ} {a : α} (ha : a ∈ l) :
    a ∈ (ranked key l).take n ∨
      ((ranked key l).take n).length = n ∧ ∀ b ∈ (ranked key l).take n, key a ≤ key b := by
  have hsplit : a ∈ (ranked key l).take n ++ (ranked key l).drop n := by
    rw [List.take_append_drop]
    exact (ranked_perm key l).mem_iff.2 ha
  rcases List.mem_append.1 hsplit with h | h
  · exact .inl h
  · have hsorted := pairwise_ranked key l
    rw [← List.take_append_drop n (ranked key l), List.pairwise_append] at hsorted
    have hlength := List.length_pos_of_mem h
    rw [List.length_drop] at hlength
    exact .inr ⟨by rw [List.length_take]; omega, fun b hb => hsorted.2.2 b hb a h⟩

/-- The first element of a list stands first among those of its key. -/
theorem getElem?_orderedInsert (a : α) (h : l.Pairwise fun a b => key b ≤ key a) :
    (l.orderedInsert (fun a b => key b ≤ key a) a)[above key l (key a)]? = some a := by
  induction l with
  | nil => rfl
  | cons b l ih =>
    rw [List.pairwise_cons] at h
    rw [List.orderedInsert]
    split_ifs with hle
    · have hnone : above key (b :: l) (key a) = 0 := by
        refine List.countP_eq_zero.2 fun x hx => ?_
        rcases List.mem_cons.1 hx with rfl | hx
        · simpa using hle
        · simpa using (h.1 x hx).trans hle
      rw [hnone]
      rfl
    · have hsucc : above key (b :: l) (key a) = above key l (key a) + 1 := by
        unfold above
        rw [List.countP_cons, if_pos (by simpa using hle)]
      rw [hsucc, List.getElem?_cons_succ]
      exact ih h.2

theorem getElem?_ranked_cons (a : α) (l : List α) :
    (ranked key (a :: l))[above key l (key a)]? = some a := by
  rw [← above_perm (ranked_perm key l) (key a)]
  exact getElem?_orderedInsert a (pairwise_ranked key l)

/-- **Labels of places that are not tied for** do not depend on the order. -/
theorem Untied.take_eq {label : α → β} {n : ℕ} (hl : Untied key label n l) (h : l.Perm l') :
    ((ranked key l').take n).map label = ((ranked key l).take n).map label := by
  refine List.ext_getElem? fun i => ?_
  simp only [List.getElem?_map, List.getElem?_take]
  split_ifs with hi
  · have hkeys : ((ranked key l').map key)[i]? = ((ranked key l).map key)[i]? := by
      rw [map_key_ranked h]
    rw [List.getElem?_map, List.getElem?_map] at hkeys
    cases ha : (ranked key l)[i]? with
    | none => simpa [ha] using hkeys
    | some a =>
      obtain ⟨b, hb, hkey⟩ : ∃ b, (ranked key l')[i]? = some b ∧ key b = key a := by
        simpa [ha] using hkeys
      have hmem : a ∈ l := (ranked_perm key l).mem_iff.1 (List.mem_of_getElem? ha)
      have hmem' : b ∈ l := h.mem_iff.2 ((ranked_perm key l').mem_iff.1 (List.mem_of_getElem? hb))
      have habove : above key l (key a) ≤ i := by
        rw [← above_perm (ranked_perm key l) (key a)]
        exact above_le_of_pairwise (pairwise_ranked key l) ha
      rw [hb]
      exact congrArg some (hl a hmem b hmem' hkey.symm (by omega)).symm
  · rfl

/-- The order that puts an element first. -/
theorem take_ranked_cons {label : α → β} {n : ℕ} {a : α} (hn : above key l (key a) < n)
    (h : l.Perm (a :: l')) :
    (((ranked key (a :: l')).take n).map label)[above key l (key a)]? = some (label a) := by
  have habove : above key l (key a) = above key l' (key a) := by
    rw [above_perm h]
    unfold above
    rw [List.countP_cons, if_neg (by simp), Nat.add_zero]
  rw [List.getElem?_map, List.getElem?_take, if_pos hn, habove, getElem?_ranked_cons]
  rfl

/-- **The head of a ranking is a function of the elements** exactly when no two labels tie
    for one of its places. The candidates are chosen from a list that comes in any order. -/
theorem untied_iff (choose : γ → Option α) (label : α → β) (n : ℕ) (l : List γ) :
    Untied key label n (l.filterMap choose) ↔
      ∀ l', l.Perm l' → ((ranked key (l'.filterMap choose)).take n).map label =
        ((ranked key (l.filterMap choose)).take n).map label := by
  constructor
  · intro h l' hl'
    exact h.take_eq (hl'.filterMap choose)
  · intro h a ha b hb hkey hn
    have hfirst : ∀ x ∈ l.filterMap choose, key x = key a →
        (((ranked key (l.filterMap choose)).take n).map label)[above key
          (l.filterMap choose) (key a)]? = some (label x) := by
      intro x hx hkx
      obtain ⟨c, hc, hcx⟩ := List.mem_filterMap.1 hx
      obtain ⟨l', hl'⟩ : ∃ l', l.Perm (c :: l') := by
        obtain ⟨s, t, rfl⟩ := List.append_of_mem hc
        exact ⟨s ++ t, List.perm_middle⟩
      have hperm := hl'.filterMap choose
      rw [List.filterMap_cons_some hcx] at hperm
      rw [← h _ hl', List.filterMap_cons_some hcx, ← hkx]
      exact take_ranked_cons (hkx ▸ hn) hperm
    exact Option.some.inj ((hfirst a ha rfl).symm.trans (hfirst b hb hkey.symm))

end Cognis.Ranking
