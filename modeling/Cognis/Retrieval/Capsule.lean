/-
  The capsule of `cognis-retrieval` (`capsule.rs`) as a union, with exact scores.

  * `newHits` are the hits of symbols that are not there yet, each symbol once;
    `appendNew_eq`: the loops append them, up to the budget;
  * `capsuleUnion` is the capsule without a budget;
  * `composeCapsuleWithEdgesWith_id`: the capsule is its head.
-/
import Cognis.Retrieval.Ranks

namespace Cognis

/-! ## The composition, with a rounding -/

section With

variable (round : ℚ → ℚ)

/-- `compose_capsule`, with a rounding of the fusion. -/
def composeCapsuleWith (directLayers : List (List Hit)) (csarHits : List Hit) (k : ℕ)
    (rrfK : ℚ) : List Hit :=
  if k = 0 then [] else appendNew k (rrfFuseWith round directLayers k rrfK) csarHits

/-- `compose_capsule_with_edges`, with a rounding of the fusion. -/
def composeCapsuleWithEdgesWith (directLayers : List (List Hit))
    (csarHits edgeContext : List Hit) (k : ℕ) (rrfK : ℚ) (flag : Bool) : List Hit :=
  let composed := composeCapsuleWith round directLayers csarHits k rrfK
  if flag then appendNew k composed edgeContext else composed

end With

/-- **The code rounds to `f64`.** -/
theorem composeCapsuleWithEdges_eq (directLayers : List (List Hit))
    (csarHits edgeContext : List Hit) (k : ℕ) (rrfK : ℚ) (flag : Bool) :
    composeCapsuleWithEdges directLayers csarHits edgeContext k rrfK flag =
      composeCapsuleWithEdgesWith Binary64.round directLayers csarHits edgeContext k rrfK flag := by
  unfold composeCapsuleWithEdges composeCapsuleWithEdgesWith composeCapsule composeCapsuleWith
  rw [rrfFuse_eq]

/-! ## The union -/

/-- The first hits of the symbols that are not among the given ones. -/
def newHits (seen : List String) : List Hit → List Hit
  | [] => []
  | hit :: hits =>
    if hit.symbolId ∈ seen then newHits seen hits
    else hit :: newHits (seen ++ [hit.symbolId]) hits

/-- Hits, and then the new ones of another list. -/
def withNew (hits more : List Hit) : List Hit := hits ++ newHits (hits.map Hit.symbolId) more

/-- The complete ranking of the direct layers. -/
def directRanking (directLayers : List (List Hit)) (rrfK : ℚ) : List Hit :=
  (fusedRanking directLayers.flatten rrfK).zipIdx.map fusedHit

/-- The capsule without a budget. -/
def capsuleUnion (directLayers : List (List Hit)) (csarHits edgeContext : List Hit) (rrfK : ℚ)
    (flag : Bool) : List Hit :=
  let core := withNew (directRanking directLayers rrfK) csarHits
  if flag then withNew core edgeContext else core

/-- Each symbol once. -/
def Distinct (hits : List Hit) : Prop := (hits.map Hit.symbolId).Nodup

theorem distinct_withNew {hits : List Hit} (h : Distinct hits) (more : List Hit) :
    Distinct (withNew hits more) := by
  induction more generalizing hits with
  | nil => simpa [withNew, newHits] using h
  | cons hit more ih =>
    unfold withNew newHits
    split_ifs with hin
    · exact ih h
    · have hnext : Distinct (hits ++ [hit]) := by
        unfold Distinct
        rw [List.map_append]
        refine List.Nodup.append h (List.nodup_singleton _) ?_
        simpa using hin
      have hunion := ih hnext
      unfold withNew at hunion
      rw [List.map_append, List.append_assoc] at hunion
      exact hunion

/-- The loops append the new hits, up to the budget. -/
theorem appendNew_eq {k : ℕ} {composed : List Hit} (h : composed.length ≤ k) (hits : List Hit) :
    appendNew k composed hits = (withNew composed hits).take k := by
  induction hits generalizing composed with
  | nil =>
    unfold appendNew withNew newHits
    rw [List.append_nil, List.take_of_length_le h]
  | cons hit hits ih =>
    unfold appendNew withNew newHits
    by_cases hfull : k ≤ composed.length
    · rw [if_pos hfull, List.take_left' (h.antisymm hfull)]
    rw [if_neg hfull]
    split_ifs with hin
    · exact ih h
    · rw [ih (by rw [List.length_append, List.length_singleton]; omega), withNew, List.map_append,
        List.append_assoc]
      rfl

/-- The new hits of a list that is cut are the same, as far as the budget goes. -/
theorem take_withNew (hits more : List Hit) (k : ℕ) :
    (withNew (hits.take k) more).take k = (withNew hits more).take k := by
  by_cases hk : hits.length ≤ k
  · rw [List.take_of_length_le hk]
  · have hlen : (hits.take k).length = k := by
      rw [List.length_take]
      omega
    unfold withNew
    rw [List.take_left' hlen, List.take_append_of_le_length (by omega)]

theorem take_zipIdx {α : Type} (l : List α) (k : ℕ) : (l.take k).zipIdx = l.zipIdx.take k := by
  refine List.ext_getElem? fun i => ?_
  rw [List.getElem?_zipIdx, List.getElem?_take, List.getElem?_take, List.getElem?_zipIdx]
  split_ifs <;> rfl

theorem distinct_directRanking (directLayers : List (List Hit)) (rrfK : ℚ) :
    Distinct (directRanking directLayers rrfK) := by
  have hids : (directRanking directLayers rrfK).map Hit.symbolId =
      (fusedRanking directLayers.flatten rrfK).map Prod.fst := by
    unfold directRanking
    rw [List.map_map]
    have hmap := congrArg (List.map Prod.fst)
      (List.zipIdx_map_fst 0 (fusedRanking directLayers.flatten rrfK))
    rw [List.map_map] at hmap
    exact hmap
  unfold Distinct
  rw [hids, fusedRanking, ((Ranking.ranked_perm _ _).map Prod.fst).nodup_iff, List.map_map]
  have hid : (Prod.fst ∘ fun symbolId =>
      (symbolId, reciprocalRanks directLayers.flatten rrfK symbolId)) = id := rfl
  rw [hid, List.map_id]
  exact Finset.sort_nodup _ _

theorem distinct_capsuleUnion (directLayers : List (List Hit)) (csarHits edgeContext : List Hit)
    (rrfK : ℚ) (flag : Bool) :
    Distinct (capsuleUnion directLayers csarHits edgeContext rrfK flag) := by
  have hcore := distinct_withNew (distinct_directRanking directLayers rrfK) csarHits
  unfold capsuleUnion
  dsimp only
  split_ifs
  · exact distinct_withNew hcore edgeContext
  · exact hcore

/-- The budget cuts the capsule. -/
theorem composeCapsuleWithEdgesWith_eq (directLayers : List (List Hit))
    (csarHits edgeContext : List Hit) (k : ℕ) {rrfK : ℚ} (flag : Bool) (h : 0 < rrfK) :
    composeCapsuleWithEdgesWith id directLayers csarHits edgeContext k rrfK flag =
      (capsuleUnion directLayers csarHits edgeContext rrfK flag).take k := by
  have hdirect : rrfFuseWith id directLayers k rrfK = (directRanking directLayers rrfK).take k := by
    rw [rrfFuseWith_eq directLayers k h, take_zipIdx, List.map_take]
    rfl
  have hcore : composeCapsuleWith id directLayers csarHits k rrfK =
      (withNew (directRanking directLayers rrfK) csarHits).take k := by
    unfold composeCapsuleWith
    by_cases hk : k = 0
    · rw [if_pos hk, hk, List.take_zero]
    · rw [if_neg hk, hdirect, appendNew_eq (List.length_take_le _ _), take_withNew]
  unfold composeCapsuleWithEdgesWith capsuleUnion
  dsimp only
  rw [hcore]
  split_ifs
  · rw [appendNew_eq (List.length_take_le _ _), take_withNew]
  · rfl

/-- **The capsule is an additive union**: the complete ranking of the direct layers, then
    the new hits of the diffusion and, with the flag, those of the edges, cut to the budget.
    No symbol repeats, a larger budget only appends, and so does the flag. -/
theorem composeCapsuleWithEdgesWith_id (directLayers : List (List Hit))
    (csarHits edgeContext : List Hit) (k : ℕ) (rrfK : ℚ) (flag : Bool) (h : 0 < rrfK) :
    composeCapsuleWithEdgesWith id directLayers csarHits edgeContext k rrfK flag =
        (capsuleUnion directLayers csarHits edgeContext rrfK flag).take k ∧
      Distinct (composeCapsuleWithEdgesWith id directLayers csarHits edgeContext k rrfK flag) ∧
      composeCapsuleWithEdgesWith id directLayers csarHits edgeContext k rrfK flag <+:
        composeCapsuleWithEdgesWith id directLayers csarHits edgeContext (k + 1) rrfK flag ∧
      composeCapsuleWithEdgesWith id directLayers csarHits edgeContext k rrfK false <+:
        composeCapsuleWithEdgesWith id directLayers csarHits edgeContext k rrfK true := by
  rw [composeCapsuleWithEdgesWith_eq _ _ _ _ flag h, composeCapsuleWithEdgesWith_eq _ _ _ _ flag h,
    composeCapsuleWithEdgesWith_eq _ _ _ _ false h, composeCapsuleWithEdgesWith_eq _ _ _ _ true h]
  refine ⟨rfl, ?_, ?_, ?_⟩
  · exact (distinct_capsuleUnion _ _ _ _ _).sublist ((List.take_sublist _ _).map _)
  · exact List.take_prefix_take_left (Nat.le_succ k)
  · have hflag : capsuleUnion directLayers csarHits edgeContext rrfK false <+:
        capsuleUnion directLayers csarHits edgeContext rrfK true := List.prefix_append _ _
    exact hflag.take k

open RanksExample in
/-- `b` and `c` come from the diffusion and the edges, `a` from neither a second time. -/
theorem composeCapsuleWithEdgesWith_id_layers :
    composeCapsuleWithEdgesWith id [[hit "a" 1 "lexical"]] [hit "a" 2 "csar", hit "b" 1 "csar"]
        [hit "b" 1 "edge", hit "c" 1 "edge"] 2 60 true =
      (capsuleUnion [[hit "a" 1 "lexical"]] [hit "a" 2 "csar", hit "b" 1 "csar"]
        [hit "b" 1 "edge", hit "c" 1 "edge"] 60 true).take 2 :=
  (composeCapsuleWithEdgesWith_id _ _ _ 2 60 true (by norm_num)).1

end Cognis
