/-
  Some `n` rows of smallest distance, where rows may have no distance and ties are broken
  arbitrarily.

  * `take_nearest`: the first rows of a sorted list are such rows;
  * `swap_nearest`: a row at the cut may give its place to the row after it;
  * `Nearest.perm_filter`: where every row has a distance, and exactly `n` of them are within
    some distance, there are no other such rows.
-/
import Cognis.Lib.Table

namespace Cognis

open Table

variable {ρ δ κ : Type*} [LinearOrder δ] [LinearOrder κ]

/-- Some `n` of the rows, or all if there are fewer: no other row is nearer than one of them. -/
structure Nearest (distance : ρ → Option δ) (rows : List ρ) (n : ℕ) (found : List ρ) : Prop where
  nodup : found.Nodup
  mem : ∀ r ∈ found, r ∈ rows
  length : found.length = min n rows.length
  nearest : ∀ r ∈ found, ∀ s ∈ rows, s ∉ found →
    ∀ d e, distance r = some d → distance s = some e → d ≤ e

variable {distance : ρ → Option δ} {rows found : List ρ} {n : ℕ}

/-- All rows, if there are no more than asked for. -/
theorem Nearest.perm (h : Nearest distance rows n found) (hn : rows.length ≤ n) : found.Perm rows := by
  have hlength := h.length
  rw [min_eq_right hn] at hlength
  exact (List.subperm_of_subset h.nodup h.mem).perm_of_length_le hlength.ge

/-- The order of a key goes by the distances. -/
def ByDistance (distance : ρ → Option δ) (key : ρ → κ) (rows : List ρ) : Prop :=
  ∀ r ∈ rows, ∀ s ∈ rows, key r ≤ key s → ∀ d e, distance r = some d → distance s = some e → d ≤ e

theorem take_nearest {key : ρ → κ} (hrows : rows.Nodup) (hkey : ByDistance distance key rows) (n : ℕ) :
    Nearest distance rows n ((sortOn key rows).take n) where
  nodup := (sortOn_perm.nodup_iff.2 hrows).sublist (List.take_sublist n _)
  mem r hr := mem_sortOn.1 (List.mem_of_mem_take hr)
  length := by rw [List.length_take, sortOn_perm.length_eq]
  nearest := by
    intro r hr s hs hnot
    have hsorted : (sortOn key rows).Pairwise (fun a b => key a ≤ key b) := sorted_sortOn
    have hdrop : s ∈ (sortOn key rows).drop n := by
      have hmem : s ∈ (sortOn key rows).take n ++ (sortOn key rows).drop n := by
        rw [List.take_append_drop]
        exact mem_sortOn.2 hs
      exact (List.mem_append.1 hmem).resolve_left hnot
    rw [← List.take_append_drop n (sortOn key rows), List.pairwise_append] at hsorted
    exact hkey r (mem_sortOn.1 (List.mem_of_mem_take hr)) s hs (hsorted.2.2 r hr s hdrop)

/-- The row `r` of the first ones gives its place to the row `s`. -/
theorem swap_nearest {key : ρ → κ} (front back before after : List ρ) (r s : ρ)
    (hrows : rows.Nodup) (hkey : ByDistance distance key rows)
    (hsplit : sortOn key rows = (front ++ r :: back) ++ (before ++ s :: after))
    (hback : back = [] ∨ distance r = none) (hbefore : before = [] ∨ distance s = none)
    (htie : ∀ d e, distance r = some d → distance s = some e → e ≤ d) :
    Nearest distance rows (front ++ r :: back).length ((front ++ back) ++ [s]) := by
  have hperm : (sortOn key rows).Perm rows := sortOn_perm
  have hnodup : (sortOn key rows).Nodup := hperm.nodup_iff.2 hrows
  have hsorted : (sortOn key rows).Pairwise (fun a b => key a ≤ key b) := sorted_sortOn
  have hmem : ∀ x, x ∈ rows ↔ x ∈ front ++ back ∨ x = r ∨ x = s ∨ x ∈ before ++ after := by
    intro x
    rw [← hperm.mem_iff, hsplit]
    simp only [List.mem_append, List.mem_cons]
    tauto
  have hle : ∀ x ∈ front ++ r :: back, ∀ y ∈ before ++ s :: after,
      ∀ d e, distance x = some d → distance y = some e → d ≤ e := by
    intro x hx y hy
    rw [hsplit, List.pairwise_append] at hsorted
    refine hkey x ?_ y ?_ (hsorted.2.2 x hx y hy)
    · rw [← hperm.mem_iff, hsplit]
      exact List.mem_append_left _ hx
    · rw [← hperm.mem_iff, hsplit]
      exact List.mem_append_right _ hy
  refine ⟨?_, ?_, ?_, ?_⟩
  · have hsub : ((front ++ back) ++ [s]).Sublist (sortOn key rows) := by
      rw [hsplit]
      refine List.Sublist.append (List.Sublist.append_left (List.sublist_cons_self r back) front) ?_
      exact List.singleton_sublist.2 (by simp)
    exact hnodup.sublist hsub
  · intro x hx
    rw [hmem]
    rcases List.mem_append.1 hx with hx | hx
    · exact .inl hx
    · exact .inr (.inr (.inl (List.mem_singleton.1 hx)))
  · rw [← hperm.length_eq, hsplit]
    simp only [List.length_append, List.length_cons, List.length_nil]
    omega
  · intro x hx y hy hnot d e hd he
    rw [List.mem_append, List.mem_singleton, not_or] at hnot
    have hy := (hmem y).1 hy
    rcases List.mem_append.1 hx with hx | hx
    · have hxfirst : x ∈ front ++ r :: back := by
        rcases List.mem_append.1 hx with hx | hx
        · exact List.mem_append_left _ hx
        · exact List.mem_append_right _ (List.mem_cons_of_mem _ hx)
      rcases hy with hy | rfl | rfl | hy
      · exact absurd hy hnot.1
      · -- `r` itself stays out
        rcases hback with rfl | hnone
        · rw [hsplit, List.append_assoc, List.pairwise_append] at hsorted
          rw [List.append_nil] at hx
          refine hkey x ((hmem x).2 (.inl (by rwa [List.append_nil]))) y ((hmem y).2 (.inr (.inl rfl)))
            (hsorted.2.2 x hx y (by simp)) d e hd he
        · rw [hnone] at he
          cases he
      · exact absurd rfl hnot.2
      · refine hle x hxfirst y ?_ d e hd he
        rcases List.mem_append.1 hy with hy | hy
        · exact List.mem_append_left _ hy
        · exact List.mem_append_right _ (List.mem_cons_of_mem _ hy)
    · obtain rfl := List.mem_singleton.1 hx
      rcases hy with hy | rfl | rfl | hy
      · exact absurd hy hnot.1
      · exact htie e d he hd
      · exact absurd rfl hnot.2
      · rcases hbefore with rfl | hnone
        · rw [hsplit, List.pairwise_append] at hsorted
          have hafter := List.pairwise_cons.1 hsorted.2.1
          rw [List.nil_append] at hy
          exact hkey x ((hmem x).2 (.inr (.inr (.inl rfl)))) y
            ((hmem y).2 (.inr (.inr (.inr (by simpa using hy))))) (hafter.1 y hy) d e hd he
        · rw [hnone] at hd
          cases hd

/-- Where exactly `n` rows are within a distance, these are the ones. -/
theorem Nearest.perm_filter {far : ρ → δ} (h : Nearest distance rows n found) (hrows : rows.Nodup)
    (hdistance : ∀ r ∈ rows, distance r = some (far r)) {t : δ}
    (ht : (rows.filter fun r => far r ≤ t).length = n) :
    found.Perm (rows.filter fun r => far r ≤ t) := by
  have hfilter : (rows.filter fun r => far r ≤ t).Nodup := hrows.filter _
  have hlength : found.length = n := by
    rw [h.length, min_eq_left]
    exact ht ▸ List.length_filter_le _ _
  have hsub : found ⊆ rows.filter fun r => far r ≤ t := by
    intro r hr
    rw [List.mem_filter, decide_eq_true_eq]
    refine ⟨h.mem r hr, ?_⟩
    by_contra hfar
    -- another row within the distance has been left out
    have hout : ∃ s ∈ rows.filter fun r => far r ≤ t, s ∉ found := by
      by_contra hall
      push Not at hall
      have hcons : (r :: rows.filter fun r => far r ≤ t).Nodup := by
        refine List.nodup_cons.2 ⟨fun hmem => hfar ?_, hfilter⟩
        exact of_decide_eq_true (List.mem_filter.1 hmem).2
      have hle := (List.subperm_of_subset hcons (List.cons_subset.2 ⟨hr, hall⟩)).length_le
      rw [List.length_cons, ht, hlength] at hle
      exact Nat.not_succ_le_self n hle
    obtain ⟨s, hs, hnot⟩ := hout
    obtain ⟨hsrows, hnear⟩ := List.mem_filter.1 hs
    have hle := h.nearest r hr s hsrows hnot (far r) (far s) (hdistance r (h.mem r hr))
      (hdistance s hsrows)
    exact hfar (hle.trans (of_decide_eq_true hnear))
  exact (List.subperm_of_subset h.nodup hsub).perm_of_length_le (by rw [ht, hlength])

end Cognis
