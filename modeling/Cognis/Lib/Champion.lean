/-
  The champion of a list: its best element under a key, found by a loop that keeps
  the element it has at a tie.

  * `Decided.foldl_eq`: when no two elements tie for the best key, the champion
    depends on the elements only, not on their order or number;
  * `foldl_cons_eq`: otherwise it is the one of them that comes first;
  * `keep` is a loop that has no element at the start, and `foldl_keep_sortOn` says what it
    finds in the order of a second key;
  * `note` is a loop that also notes an element, the first that reaches a bound or the last
    that beat the best, and `noted_best_iff` says when it is a best one.
-/
import Cognis.Lib.Table
import Mathlib.Order.Lattice
import Mathlib.Tactic.Common

namespace Cognis.Champion

variable {α β : Type*} [LinearOrder β] (key : α → β)

/-- The element of the larger key, the first at a tie. -/
def pick (a b : α) : α := if key b ≤ key a then a else b

/-- No two elements of the list tie for the best key, when that is above the key of `a`. -/
def Decided (a : α) (l : List α) : Prop :=
  ∀ x ∈ l, ∀ y ∈ l, key a < key x → (∀ z ∈ l, key z ≤ key x) → key y = key x → y = x

instance [DecidableEq α] (a : α) (l : List α) : Decidable (Decided key a l) := by
  unfold Decided
  infer_instance

theorem le_key_pick (a b : α) : key a ≤ key (pick key a b) ∧ key b ≤ key (pick key a b) := by
  unfold pick
  split_ifs with h
  · exact ⟨le_rfl, h⟩
  · exact ⟨(not_le.1 h).le, le_rfl⟩

/-- The champion is the first element, or a strictly better one of the list. -/
theorem foldl_pick_spec (a : α) (l : List α) :
    (l.foldl (pick key) a = a ∨
      l.foldl (pick key) a ∈ l ∧ key a < key (l.foldl (pick key) a)) ∧
    key a ≤ key (l.foldl (pick key) a) ∧ ∀ x ∈ l, key x ≤ key (l.foldl (pick key) a) := by
  induction l generalizing a with
  | nil => exact ⟨.inl rfl, le_rfl, by simp⟩
  | cons b l ih =>
    obtain ⟨hmem, hle, hall⟩ := ih (pick key a b)
    obtain ⟨ha, hb⟩ := le_key_pick key a b
    rw [List.foldl_cons]
    refine ⟨?_, ha.trans hle, List.forall_mem_cons.2 ⟨hb.trans hle, hall⟩⟩
    rcases hmem with heq | ⟨hmem, hlt⟩
    · rw [heq]
      unfold pick
      split_ifs with h
      · exact .inl rfl
      · exact .inr ⟨List.mem_cons_self .., not_le.1 h⟩
    · exact .inr ⟨List.mem_cons_of_mem _ hmem, ha.trans_lt hlt⟩

variable {key} {a : α} {l l' : List α}

/-- **The champion of a decided list is a function of its elements.** -/
theorem Decided.foldl_eq (h : Decided key a l) (hl : ∀ x, x ∈ l' ↔ x ∈ l) :
    l'.foldl (pick key) a = l.foldl (pick key) a := by
  obtain ⟨hmem, hle, hall⟩ := foldl_pick_spec key a l
  obtain ⟨hmem', hle', hall'⟩ := foldl_pick_spec key a l'
  rcases hmem with heq | ⟨hmem, hlt⟩
  · rcases hmem' with heq' | ⟨hmem', hlt'⟩
    · rw [heq, heq']
    · -- nothing in the list beats `a`
      have := hall _ ((hl _).1 hmem')
      rw [heq] at this
      exact absurd hlt' this.not_gt
  · rcases hmem' with heq' | ⟨hmem', -⟩
    · have := hall' _ ((hl _).2 hmem)
      rw [heq'] at this
      exact absurd hlt this.not_gt
    · exact h _ hmem _ ((hl _).1 hmem') hlt hall
        (le_antisymm (hall _ ((hl _).1 hmem')) (hall' _ ((hl _).2 hmem)))

/-- A best element in front is the champion. -/
theorem foldl_cons_eq {x : α} (hlt : key a < key x) (hmax : ∀ z ∈ l, key z ≤ key x) :
    (x :: l).foldl (pick key) a = x := by
  have hpick : pick key a x = x := if_neg (not_le.2 hlt)
  rw [List.foldl_cons, hpick]
  rcases (foldl_pick_spec key x l).1 with heq | ⟨hmem, hbest⟩
  · exact heq
  · exact absurd hbest (hmax _ hmem).not_gt

/-! ## A noted element -/

variable (key) (bound : β)

/-- The best key so far, and the element noted: it beat the best, or it was the first to
    reach the bound. -/
def note (s : β × Option α) (a : α) : β × Option α :=
  if s.1 < key a ∨ bound ≤ key a ∧ s.2 = none then (max s.1 (key a), some a) else s

variable {b : β}

/-- A noted element is only replaced by a better one. -/
theorem foldl_note_some (y : α) (l : List α) : ∃ z,
    (l.foldl (note key bound) (b, some y)).2 = some z ∧
      (z = y ∧ (∀ x ∈ l, key x ≤ b) ∨ z ∈ l ∧ b < key z ∧ ∀ x ∈ l, key x ≤ key z) := by
  induction l generalizing b y with
  | nil => exact ⟨y, rfl, .inl ⟨rfl, by simp⟩⟩
  | cons a l ih =>
    rw [List.foldl_cons, note]
    by_cases hlt : b < key a
    · rw [if_pos (.inl hlt), max_eq_right hlt.le]
      obtain ⟨z, hz, ⟨rfl, hle⟩ | ⟨hmem, hlt', hle⟩⟩ := ih a (b := key a)
      · exact ⟨_, hz, .inr ⟨List.mem_cons_self, hlt, List.forall_mem_cons.2 ⟨le_rfl, hle⟩⟩⟩
      · exact ⟨z, hz, .inr ⟨List.mem_cons_of_mem _ hmem, hlt.trans hlt',
          List.forall_mem_cons.2 ⟨hlt'.le, hle⟩⟩⟩
    · rw [if_neg (by simpa using hlt)]
      obtain ⟨z, hz, ⟨rfl, hle⟩ | ⟨hmem, hlt', hle⟩⟩ := ih (b := b) y
      · exact ⟨_, hz, .inl ⟨rfl, List.forall_mem_cons.2 ⟨not_lt.1 hlt, hle⟩⟩⟩
      · exact ⟨z, hz, .inr ⟨List.mem_cons_of_mem _ hmem, hlt',
          List.forall_mem_cons.2 ⟨(not_lt.1 hlt).trans hlt'.le, hle⟩⟩⟩

variable {key}

/-- When something beats the best at the start, a best element is noted. -/
theorem foldl_note_of_lt (h : ∃ x ∈ l, b < key x) : ∃ z,
    (l.foldl (note key bound) (b, none)).2 = some z ∧ ∀ x ∈ l, key x ≤ key z := by
  induction l generalizing b with
  | nil => simp at h
  | cons a l ih =>
    rw [List.foldl_cons, note]
    by_cases hnote : b < key a ∨ bound ≤ key a
    · rw [if_pos (by simpa using hnote)]
      obtain ⟨z, hz, hbest⟩ := foldl_note_some key bound (b := max b (key a)) a l
      refine ⟨z, hz, ?_⟩
      rcases hbest with ⟨rfl, hle⟩ | ⟨-, hlt, hle⟩
      · -- nothing after `a` beats it, so `a` itself beats the best at the start
        have hlt : b < key z := by
          obtain ⟨x, hx, hlt⟩ := h
          rcases List.mem_cons.1 hx with rfl | hx
          · exact hlt
          · by_contra hge
            have := hle x hx
            rw [max_eq_left (not_lt.1 hge)] at this
            exact absurd hlt this.not_gt
        refine List.forall_mem_cons.2 ⟨le_rfl, fun x hx => ?_⟩
        simpa [max_eq_right hlt.le] using hle x hx
      · exact List.forall_mem_cons.2 ⟨(le_max_right _ _).trans hlt.le, hle⟩
    · rw [if_neg (by simpa using hnote)]
      rw [not_or] at hnote
      obtain ⟨x, hx, hlt⟩ := h
      have hx : x ∈ l := by
        rcases List.mem_cons.1 hx with rfl | hx
        · exact absurd hlt hnote.1
        · exact hx
      obtain ⟨z, hz, hle⟩ := ih ⟨x, hx, hlt⟩
      exact ⟨z, hz, List.forall_mem_cons.2 ⟨(not_lt.1 hnote.1).trans (hlt.le.trans (hle x hx)), hle⟩⟩

variable {bound}

/-- Otherwise the first element that reaches the bound is noted. -/
theorem foldl_note_of_le (h : ∀ x ∈ l, key x ≤ b) :
    (l.foldl (note key bound) (b, none)).2 = l.find? fun x => bound ≤ key x := by
  induction l with
  | nil => rfl
  | cons a l ih =>
    rw [List.forall_mem_cons] at h
    rw [List.foldl_cons, note]
    by_cases hbound : bound ≤ key a
    · rw [if_pos (.inr ⟨hbound, rfl⟩), List.find?_cons_of_pos (by simpa using hbound)]
      obtain ⟨z, hz, ⟨rfl, -⟩ | ⟨hmem, hlt, -⟩⟩ :=
        foldl_note_some key bound (b := max b (key a)) a l
      · exact hz
      · exact absurd ((h.2 z hmem).trans (le_max_left _ _)) hlt.not_ge
    · rw [if_neg (by simpa [hbound] using h.1), List.find?_cons_of_neg (by simpa using hbound)]
      exact ih h.2

/-- **The noted element is a best one** exactly when something beats the best at the start,
    or the first element that reaches the bound is a best one. -/
theorem noted_best_iff :
    (∀ z, (l.foldl (note key bound) (b, none)).2 = some z → ∀ x ∈ l, key x ≤ key z) ↔
      (∃ x ∈ l, b < key x) ∨
        ∀ z, l.find? (fun x => bound ≤ key x) = some z → ∀ x ∈ l, key x ≤ key z := by
  by_cases h : ∃ x ∈ l, b < key x
  · refine iff_of_true (fun z hz => ?_) (.inl h)
    obtain ⟨y, hy, hle⟩ := foldl_note_of_lt bound h
    rw [hy] at hz
    exact Option.some.inj hz ▸ hle
  · rw [or_iff_right h]
    push Not at h
    rw [foldl_note_of_le h]

/-! ## The first of the best -/

variable (key) (floor : β)

/-- Keep the first element of the best key above the floor, with its key. -/
def keep (best : Option (β × α)) (a : α) : Option (β × α) :=
  match best with
  | none => if floor < key a then some (key a, a) else none
  | some (bestKey, _) => if bestKey < key a then some (key a, a) else best

/-- What the loop has after a list: nothing above the floor, or the first of the best. -/
theorem foldl_keep_spec (l : List α) :
    (l.foldl (keep key floor) none = none ∧ ∀ x ∈ l, key x ≤ floor) ∨
      ∃ done a rest, l = done ++ a :: rest ∧ l.foldl (keep key floor) none = some (key a, a) ∧
        floor < key a ∧ (∀ x ∈ done, key x < key a) ∧ ∀ x ∈ rest, key x ≤ key a := by
  induction l using List.reverseRecOn with
  | nil => exact .inl ⟨rfl, by simp⟩
  | append_singleton l b ih =>
    rw [List.foldl_concat]
    rcases ih with ⟨hnone, hle⟩ | ⟨done, a, rest, rfl, hsome, hfloor, hdone, hrest⟩
    · rw [hnone, keep]
      split_ifs with hb
      · exact .inr ⟨l, b, [], rfl, rfl, hb, fun x hx => (hle x hx).trans_lt hb, by simp⟩
      · refine .inl ⟨rfl, fun x hx => ?_⟩
        rcases List.mem_append.1 hx with hx | hx
        · exact hle x hx
        · exact List.mem_singleton.1 hx ▸ not_lt.1 hb
    · rw [hsome, keep]
      split_ifs with hb
      · refine .inr ⟨done ++ a :: rest, b, [], rfl, rfl, hfloor.trans hb, fun x hx => ?_, by simp⟩
        rcases List.mem_append.1 hx with hx | hx
        · exact (hdone x hx).trans hb
        · rcases List.mem_cons.1 hx with rfl | hx
          · exact hb
          · exact (hrest x hx).trans_lt hb
      · refine .inr ⟨done, a, rest ++ [b], by simp, rfl, hfloor, hdone, fun x hx => ?_⟩
        rcases List.mem_append.1 hx with hx | hx
        · exact hrest x hx
        · exact List.mem_singleton.1 hx ▸ not_lt.1 hb

variable {κ : Type*} [LinearOrder κ] (id : α → κ)

/-- The element of the best key above the floor, and of the least id among these. -/
structure Best (l : List α) (a : α) : Prop where
  mem : a ∈ l
  pos : floor < key a
  best : ∀ x ∈ l, key x < key a ∨ key x = key a ∧ id a ≤ id x

variable {key floor id}

theorem Best.eq {b : α} (hl : Table.Keyed id l) (ha : Best key floor id l a)
    (hb : Best key floor id l b) : a = b := by
  rcases ha.best b hb.mem with hlt | ⟨-, hle⟩
  · rcases hb.best a ha.mem with hlt' | ⟨heq, -⟩
    · exact absurd hlt hlt'.not_gt
    · exact absurd heq hlt.ne'
  · rcases hb.best a ha.mem with hlt' | ⟨-, hle'⟩
    · rcases ha.best b hb.mem with hlt | ⟨heq, -⟩
      · exact absurd hlt hlt'.not_gt
      · exact absurd heq hlt'.ne'
    · exact hl.eq ha.mem hb.mem (le_antisymm hle hle')

/-- **In the order of the ids**, the loop finds the best element. -/
theorem foldl_keep_sortOn (hl : Table.Keyed id l) :
    (((Table.sortOn id l).foldl (keep key floor) none).map Prod.snd = some a ↔
      Best key floor id l a) ∧
    (((Table.sortOn id l).foldl (keep key floor) none).map Prod.snd = none ↔
      ∀ x ∈ l, key x ≤ floor) := by
  rcases foldl_keep_spec key floor (Table.sortOn id l) with
    ⟨hnone, hle⟩ | ⟨done, b, rest, hsplit, hsome, hfloor, hdone, hrest⟩
  · have hle : ∀ x ∈ l, key x ≤ floor := fun x hx => hle x (Table.mem_sortOn.2 hx)
    rw [hnone]
    refine ⟨iff_of_false (by rintro ⟨⟩) fun hbest => ?_, iff_of_true rfl hle⟩
    exact absurd hbest.pos (hle a hbest.mem).not_gt
  · have hmem : b ∈ l := by
      have hb : b ∈ Table.sortOn id l := hsplit ▸ by simp
      exact Table.mem_sortOn.1 hb
    have hmemSorted : ∀ x, x ∈ Table.sortOn id l ↔ x ∈ l := fun x => Table.mem_sortOn
    have hbest : Best key floor id l b := by
      refine ⟨hmem, hfloor, fun x hx => ?_⟩
      have hsorted : (Table.sortOn id l).Pairwise (fun a b => id a ≤ id b) := Table.sorted_sortOn
      have hx := (hmemSorted x).2 hx
      rw [hsplit] at hx hsorted
      rcases List.mem_append.1 hx with hx | hx
      · exact .inl (hdone x hx)
      · rcases List.mem_cons.1 hx with rfl | hx
        · exact .inr ⟨rfl, le_rfl⟩
        · rcases (hrest x hx).lt_or_eq with hlt | heq
          · exact .inl hlt
          · rw [List.pairwise_append, List.pairwise_cons] at hsorted
            exact .inr ⟨heq, hsorted.2.1.1 x hx⟩
    rw [hsome]
    constructor
    · rw [Option.map_some, Option.some.injEq]
      exact ⟨fun h => h ▸ hbest, fun h => hbest.eq hl h⟩
    · refine iff_of_false (by rintro ⟨⟩) fun hle => ?_
      exact absurd hfloor (hle b hmem).not_gt

end Cognis.Champion
