/-
  The places of the distinct items of a list of scored entries: an item may occur several
  times, the best of its scores counts, and the smaller item stands first at a tie.

  * `place` counts the items that stand before an item, without an order of the list;
  * `place_distinct`: in a list sorted by score the items take their places in the order
    of their first entries;
  * `place_congr`: places depend on the comparisons of the scores only.
-/
import Cognis.Lib.Ranking
import Mathlib.Data.Finset.Max
import Mathlib.Data.Prod.Lex
import Mathlib.Order.WithBot

namespace Cognis.Places

open OrderDual (toDual)

/-! ## Distinct items -/

section Distinct

variable {ι : Type*} [DecidableEq ι]

/-- Add an item that is not there yet. -/
def addNew (seen : List ι) (i : ι) : List ι := if i ∈ seen then seen else seen ++ [i]

/-- The items of a list in the order of their first occurrences. -/
def distinct (l : List ι) : List ι := l.foldl addNew []

theorem mem_addNew {seen : List ι} {i j : ι} : j ∈ addNew seen i ↔ j ∈ seen ∨ j = i := by
  unfold addNew
  split_ifs with h
  · exact ⟨.inl, fun hj => hj.elim id (· ▸ h)⟩
  · simp

theorem nodup_addNew {seen : List ι} (h : seen.Nodup) (i : ι) : (addNew seen i).Nodup := by
  unfold addNew
  split_ifs with hi
  · exact h
  · refine List.Nodup.append h (List.nodup_singleton i) ?_
    simpa using hi

theorem distinct_concat (l : List ι) (i : ι) : distinct (l ++ [i]) = addNew (distinct l) i := by
  simp [distinct]

@[simp] theorem mem_distinct {l : List ι} {i : ι} : i ∈ distinct l ↔ i ∈ l := by
  induction l using List.reverseRecOn with
  | nil => simp [distinct]
  | append_singleton l j ih => simp [distinct_concat, mem_addNew, ih]

theorem nodup_distinct (l : List ι) : (distinct l).Nodup := by
  induction l using List.reverseRecOn with
  | nil => exact List.nodup_nil
  | append_singleton l j ih => exact distinct_concat l j ▸ nodup_addNew ih j

end Distinct

/-! ## Places -/

variable {ι σ : Type*} [LinearOrder ι] [LinearOrder σ]

/-- The items of the entries. -/
def items (l : List (ι × σ)) : Finset ι := (l.map Prod.fst).toFinset

/-- The best score of an item. -/
def best (l : List (ι × σ)) (i : ι) : WithBot σ :=
  ((l.filter (·.1 = i)).map Prod.snd).toFinset.max

/-- Best score first, then the smaller item. -/
def standing (l : List (ι × σ)) (i : ι) : WithBot σ ×ₗ ιᵒᵈ := toLex (best l i, toDual i)

/-- The number of the items that stand before an item. -/
def place (l : List (ι × σ)) (i : ι) : ℕ :=
  ((items l).filter fun j => standing l i < standing l j).card

/-- The order of the entries. -/
def entryKey (e : ι × σ) : σ ×ₗ ιᵒᵈ := toLex (e.2, toDual e.1)

variable {l l' : List (ι × σ)} {i : ι} {x : σ}

omit [LinearOrder σ] in
theorem mem_items : i ∈ items l ↔ ∃ e ∈ l, e.1 = i := by simp [items]

theorem standing_injective (l : List (ι × σ)) : Function.Injective (standing l) := by
  intro i j h
  exact congrArg (fun k : WithBot σ ×ₗ ιᵒᵈ => OrderDual.ofDual (ofLex k).2) h

omit [LinearOrder ι] [LinearOrder σ] in
theorem entryKey_injective : Function.Injective (entryKey : ι × σ → σ ×ₗ ιᵒᵈ) := by
  intro a b h
  obtain ⟨hscore, hitem⟩ := Prod.mk.inj (toLex.injective h)
  exact Prod.ext (toDual.injective hitem) hscore

theorem le_best (h : (i, x) ∈ l) : (x : WithBot σ) ≤ best l i := by
  refine Finset.le_max (List.mem_toFinset.2 (List.mem_map.2 ⟨(i, x), ?_, rfl⟩))
  simpa using h

theorem best_le {m : WithBot σ} (h : ∀ y, (i, y) ∈ l → (y : WithBot σ) ≤ m) : best l i ≤ m := by
  refine Finset.max_le fun y hy => ?_
  obtain ⟨⟨j, y⟩, he, rfl⟩ := List.mem_map.1 (List.mem_toFinset.1 hy)
  have he' := List.mem_filter.1 he
  obtain rfl : j = i := by simpa using he'.2
  exact h y he'.1

theorem exists_best (h : i ∈ items l) : ∃ y, (i, y) ∈ l ∧ best l i = y := by
  obtain ⟨⟨j, x⟩, he, rfl⟩ := mem_items.1 h
  have hmem : x ∈ ((l.filter (·.1 = j)).map Prod.snd).toFinset :=
    List.mem_toFinset.2 (List.mem_map.2 ⟨(j, x), by simpa using he, rfl⟩)
  obtain ⟨y, hy⟩ := Finset.max_of_mem hmem
  obtain ⟨⟨k, y⟩, he', rfl⟩ := List.mem_map.1 (List.mem_toFinset.1 (Finset.mem_of_max hy))
  have hfilter := List.mem_filter.1 he'
  obtain rfl : k = j := by simpa using hfilter.2
  exact ⟨y, hfilter.1, hy⟩

/-- In sorted entries, the items stand in the order of their first entries. -/
theorem pairwise_distinct {p q : List (ι × σ)}
    (h : (p ++ q).Pairwise fun a b => entryKey b ≤ entryKey a) :
    (distinct (p.map Prod.fst)).Pairwise fun i j => standing (p ++ q) j ≤ standing (p ++ q) i := by
  induction p using List.reverseRecOn generalizing q with
  | nil => exact List.Pairwise.nil
  | append_singleton p e ih =>
    have hsplit : p ++ [e] ++ q = p ++ e :: q := by simp
    rw [hsplit] at h ⊢
    rw [List.map_append, List.map_singleton, distinct_concat, addNew]
    split_ifs with hseen
    · exact ih h
    refine List.pairwise_append.2 ⟨ih h, List.pairwise_singleton _ _, ?_⟩
    intro i hi j hj
    obtain rfl := List.mem_singleton.1 hj
    rw [mem_distinct] at hi hseen
    obtain ⟨⟨i, y⟩, hmem, rfl⟩ := List.mem_map.1 hi
    have hsorted := List.pairwise_append.1 h
    -- no entry of the new item is better than this one
    have hbest : best (p ++ e :: q) e.1 ≤ e.2 := by
      refine best_le fun z hz => ?_
      rcases List.mem_append.1 hz with hz | hz
      · exact absurd (List.mem_map_of_mem (f := Prod.fst) hz) hseen
      rcases List.mem_cons.1 hz with hz | hz
      · exact WithBot.coe_le_coe.2 (le_of_eq (congrArg Prod.snd hz))
      have hle := (List.pairwise_cons.1 hsorted.2.1).1 _ hz
      rcases Prod.Lex.toLex_le_toLex.1 hle with hlt | ⟨heq, -⟩
      · exact WithBot.coe_le_coe.2 hlt.le
      · exact WithBot.coe_le_coe.2 heq.le
    have hold : (y : WithBot σ) ≤ best (p ++ e :: q) i := le_best (List.mem_append_left _ hmem)
    refine Prod.Lex.toLex_le_toLex.2 ?_
    rcases Prod.Lex.toLex_le_toLex.1 (hsorted.2.2 _ hmem e List.mem_cons_self) with hlt | ⟨heq, hle⟩
    · exact .inl ((hbest.trans_lt (WithBot.coe_lt_coe.2 hlt)).trans_le hold)
    · have hbest' := hbest.trans ((WithBot.coe_le_coe.2 (le_of_eq heq)).trans hold)
      rcases hbest'.lt_or_eq with hlt | heq'
      · exact .inl hlt
      · exact .inr ⟨heq', hle⟩

/-- **The places of sorted entries** are those of the first entries of the items. -/
theorem place_distinct (h : l.Pairwise fun a b => entryKey b ≤ entryKey a) {n : ℕ}
    (hi : (distinct (l.map Prod.fst))[n]? = some i) : place l i = n := by
  have hsorted := pairwise_distinct (p := l) (q := []) (by simpa using h)
  rw [List.append_nil] at hsorted
  have hnodup := (nodup_distinct (l.map Prod.fst)).map (standing_injective l)
  have hfilter : ((items l).filter fun j => standing l i < standing l j) =
      ((distinct (l.map Prod.fst)).filter fun j => standing l i < standing l j).toFinset := by
    ext j
    simp [items]
  rw [← Ranking.above_eq_of_pairwise hsorted hnodup hi, Ranking.above, place, hfilter,
    List.toFinset_card_of_nodup ((nodup_distinct _).filter _), List.countP_eq_length_filter]

/-- Entries with the same items, and scores that compare in the same way, have the same
    places. -/
theorem place_congr {τ : Type*} [LinearOrder τ] {m : List (ι × τ)} (hitems : items m = items l)
    (hcmp : ∀ i ∈ items l, ∀ j ∈ items l, standing m i < standing m j ↔
      standing l i < standing l j) (hi : i ∈ items l) : place m i = place l i := by
  rw [place, place, hitems]
  exact congrArg Finset.card (Finset.filter_congr fun j hj => hcmp i hi j hj)

omit [LinearOrder σ] in
theorem items_perm (h : l.Perm l') : items l = items l' :=
  List.toFinset_eq_of_perm _ _ (h.map _)

theorem best_perm (h : l.Perm l') (i : ι) : best l i = best l' i :=
  congrArg Finset.max (List.toFinset_eq_of_perm _ _ ((h.filter _).map _))

/-- The places do not depend on the order of the entries. -/
theorem place_perm (h : l.Perm l') (i : ι) : place l i = place l' i := by
  have hstanding : standing l = standing l' := by
    funext j
    rw [standing, standing, best_perm h]
  rw [place, place, items_perm h, hstanding]

/-- A strictly increasing transformation of the scores. -/
theorem place_map {τ : Type*} [LinearOrder τ] {f : σ → τ}
    (hf : StrictMonoOn f {x | ∃ e ∈ l, e.2 = x}) (hi : i ∈ items l) :
    place (l.map fun e => (e.1, f e.2)) i = place l i := by
  have hitems : items (l.map fun e => (e.1, f e.2)) = items l := by
    unfold items
    rw [List.map_map]
    rfl
  have hbest {j : ι} (hj : j ∈ items l) :
      ∃ y, (j, y) ∈ l ∧ best l j = y ∧ best (l.map fun e => (e.1, f e.2)) j = f y := by
    obtain ⟨y, hy, heq⟩ := exists_best hj
    refine ⟨y, hy, heq, le_antisymm ?_ (le_best (List.mem_map_of_mem hy))⟩
    refine best_le fun z hz => ?_
    obtain ⟨⟨k, w⟩, hw, hpair⟩ := List.mem_map.1 hz
    obtain ⟨rfl, rfl⟩ := Prod.mk.inj hpair
    have hle : w ≤ y := WithBot.coe_le_coe.1 (heq ▸ le_best hw)
    exact WithBot.coe_le_coe.2 (hf.monotoneOn ⟨_, hw, rfl⟩ ⟨_, hy, rfl⟩ hle)
  refine place_congr hitems (fun i hi j hj => ?_) hi
  obtain ⟨y, hy, hyl, hym⟩ := hbest hi
  obtain ⟨z, hz, hzl, hzm⟩ := hbest hj
  rw [standing, standing, standing, standing, Prod.Lex.toLex_lt_toLex, Prod.Lex.toLex_lt_toLex,
    hyl, hym, hzl, hzm]
  have hmem : y ∈ {x | ∃ e ∈ l, e.2 = x} := ⟨_, hy, rfl⟩
  have hmem' : z ∈ {x | ∃ e ∈ l, e.2 = x} := ⟨_, hz, rfl⟩
  simp only [WithBot.coe_lt_coe, WithBot.coe_inj, hf.lt_iff_lt hmem hmem',
    hf.injOn.eq_iff hmem hmem']

end Cognis.Places
