/-
  The law of the rank fusion of `cognis-retrieval` (`fusion.rs`), with exact scores.

  * `rrfFuseWith` is the fusion with a rounding of its arithmetic; `rrfFuse_eq`: the code
    rounds to `f64`, and `id` is exact arithmetic;
  * `fusedRanking` is the ranking by the sums of the reciprocal ranks, without an order of
    the hits;
  * `rrfFuseWith_id`: the fusion returns its first entries.
-/
import Cognis.Lib.Places
import Cognis.Retrieval.Fusion
import Mathlib.Algebra.BigOperators.Group.Finset.Basic
import Mathlib.Data.Finset.Sort
import Mathlib.Data.String.Basic

namespace Cognis

open Places

/-! ## The fusion, with a rounding -/

section With

variable (round : ℚ → ℚ)

/-- `addScore`, with a rounding of the sum. -/
def addScoreWith (symbolId : String) (contribution : ℚ) : List (String × ℚ) → List (String × ℚ)
  | [] => [(symbolId, contribution)]
  | (sid, score) :: fused =>
    if sid = symbolId then (sid, round (score + contribution)) :: fused
    else (sid, score) :: addScoreWith symbolId contribution fused

/-- `LayerPass.step`, with a rounding of the contribution. -/
def LayerPass.stepWith (rrfK : ℚ) (p : LayerPass) (hit : Hit) : LayerPass :=
  if hit.symbolId ∈ p.seen then p
  else
    let rank := p.rank + 1
    ⟨rank, p.seen ++ [hit.symbolId],
      addScoreWith round hit.symbolId (round (1 / round (rrfK + rank))) p.fused⟩

/-- `fuseLayer`, with a rounding. -/
def fuseLayerWith (rrfK : ℚ) (fused : List (String × ℚ)) (hits : List Hit) :
    List (String × ℚ) :=
  let ranked := hits.mergeSort fun a b => better (a.score, a.symbolId) (b.score, b.symbolId)
  (ranked.foldl (LayerPass.stepWith round rrfK) ⟨0, [], fused⟩).fused

/-- The fused entries, best first. -/
def fusedEntries (hits : List Hit) (rrfK : ℚ) : List (String × ℚ) :=
  let fused := ((groupByLayer hits).map Prod.snd).foldl (fuseLayerWith round rrfK) []
  fused.mergeSort fun a b => better (a.2, a.1) (b.2, b.1)

/-- `rrf_fuse`, with a rounding. -/
def rrfFuseWith (layers : List (List Hit)) (k : ℕ) (rrfK : ℚ) : List Hit :=
  if k = 0 ∨ rrfK ≤ 0 then []
  else (((fusedEntries round layers.flatten rrfK).take k).zipIdx).map fusedHit

end With

theorem addScore_eq (symbolId : String) (contribution : ℚ) (fused : List (String × ℚ)) :
    addScore symbolId contribution fused =
      addScoreWith Binary64.round symbolId contribution fused := by
  induction fused with
  | nil => rfl
  | cons entry fused ih =>
    obtain ⟨sid, score⟩ := entry
    rw [addScore, addScoreWith, ih]
    rfl

/-- **The code rounds to `f64`.** -/
theorem rrfFuse_eq (layers : List (List Hit)) (k : ℕ) (rrfK : ℚ) :
    rrfFuse layers k rrfK = rrfFuseWith Binary64.round layers k rrfK := by
  have hstep : LayerPass.step = LayerPass.stepWith Binary64.round := by
    funext rrfK p hit
    rw [LayerPass.step, LayerPass.stepWith]
    dsimp only
    rw [addScore_eq]
    rfl
  have hlayer : fuseLayer = fuseLayerWith Binary64.round := by
    funext rrfK fused hits
    rw [fuseLayer, fuseLayerWith, hstep]
  rw [rrfFuse, rrfFuseWith, fusedEntries, hlayer]

/-! ## The ranking -/

/-- The scored symbols of a layer. -/
def entriesOf (hits : List Hit) (layer : String) : List (String × ℚ) :=
  (hits.filter (·.layer = layer)).map fun hit => (hit.symbolId, hit.score)

/-- The layers that contain a symbol. -/
def layersOf (hits : List Hit) (symbolId : String) : Finset String :=
  (hits.map Hit.layer).toFinset.filter fun layer => symbolId ∈ items (entriesOf hits layer)

/-- The sum of `1 / (rrf_k + rank)` over the layers that contain a symbol. -/
def reciprocalRanks (hits : List Hit) (rrfK : ℚ) (symbolId : String) : ℚ :=
  ∑ layer ∈ layersOf hits symbolId,
    1 / (rrfK + (place (entriesOf hits layer) symbolId + 1 : ℕ))

/-- Each symbol once, with the sum of its reciprocal ranks, best first and then by the id. -/
def fusedRanking (hits : List Hit) (rrfK : ℚ) : List (String × ℚ) :=
  Ranking.ranked entryKey (((hits.map Hit.symbolId).toFinset.sort (· ≤ ·)).map fun symbolId =>
    (symbolId, reciprocalRanks hits rrfK symbolId))

/-! ## The groups -/

theorem addToLayer_map (hit : Hit) (groups : String → List Hit) {layers : List String}
    (h : layers.Nodup) (hnone : hit.layer ∉ layers → groups hit.layer = []) :
    addToLayer hit (layers.map fun layer => (layer, groups layer)) =
      (addNew layers hit.layer).map fun layer =>
        (layer, if layer = hit.layer then groups layer ++ [hit] else groups layer) := by
  induction layers with
  | nil => simp [addToLayer, addNew, hnone]
  | cons layer layers ih =>
    obtain ⟨hlayer, hlayers⟩ := List.nodup_cons.1 h
    rw [List.map_cons, addToLayer]
    by_cases heq : layer = hit.layer
    · subst heq
      have hrest : ∀ other ∈ layers, ¬ other = hit.layer := by
        rintro other hother rfl
        exact hlayer hother
      rw [if_pos rfl, addNew, if_pos List.mem_cons_self, List.map_cons, if_pos rfl]
      refine congrArg _ (List.map_congr_left fun other hother => ?_)
      rw [if_neg (hrest other hother)]
    · have hmem : hit.layer ∈ layer :: layers ↔ hit.layer ∈ layers := by
        simp [Ne.symm heq]
      rw [if_neg heq, ih hlayers fun hnew => hnone (hmem.not.2 hnew)]
      unfold addNew
      by_cases hin : hit.layer ∈ layers
      · rw [if_pos hin, if_pos (hmem.2 hin), List.map_cons, if_neg heq]
      · rw [if_neg hin, if_neg (hmem.not.2 hin), List.cons_append, List.map_cons, if_neg heq]

/-- The groups stand in the order of their first hits, each with the hits of its layer. -/
theorem groupByLayer_eq (hits : List Hit) :
    groupByLayer hits = (distinct (hits.map Hit.layer)).map fun layer =>
      (layer, hits.filter (·.layer = layer)) := by
  induction hits using List.reverseRecOn with
  | nil => rfl
  | append_singleton hits hit ih =>
    have hfold : groupByLayer (hits ++ [hit]) = addToLayer hit (groupByLayer hits) := by
      simp [groupByLayer]
    rw [hfold, ih, addToLayer_map hit _ (nodup_distinct _), List.map_append, List.map_singleton,
      distinct_concat]
    · refine List.map_congr_left fun layer _ => ?_
      rw [List.filter_append]
      split_ifs with heq
      · simp [heq]
      · simp [Ne.symm heq]
    · intro hnew
      rw [mem_distinct] at hnew
      refine List.filter_eq_nil_iff.2 fun other hother => ?_
      have hne : other.layer ≠ hit.layer := fun heq => hnew (heq ▸ List.mem_map_of_mem hother)
      simpa using hne

/-! ## One layer -/

/-- The score of a symbol among the fused ones. -/
def scoreOf (symbolId : String) : List (String × ℚ) → ℚ
  | [] => 0
  | (sid, score) :: fused => if sid = symbolId then score else scoreOf symbolId fused

theorem map_fst_addScoreWith (symbolId : String) (x : ℚ) (fused : List (String × ℚ)) :
    (addScoreWith id symbolId x fused).map Prod.fst = addNew (fused.map Prod.fst) symbolId := by
  induction fused with
  | nil => rfl
  | cons entry fused ih =>
    obtain ⟨sid, score⟩ := entry
    rw [addScoreWith]
    by_cases heq : sid = symbolId
    · subst heq
      rw [if_pos rfl, addNew, if_pos (by simp)]
      rfl
    · rw [if_neg heq, List.map_cons, ih]
      unfold addNew
      split_ifs with hin hin' hin'
      · rfl
      · exact absurd (List.mem_cons_of_mem _ hin) hin'
      · exact absurd ((List.mem_cons.1 hin').resolve_left (Ne.symm heq)) hin
      · rfl

theorem scoreOf_addScoreWith (symbolId : String) (x : ℚ) (fused : List (String × ℚ))
    (t : String) : scoreOf t (addScoreWith id symbolId x fused) =
      scoreOf t fused + if t = symbolId then x else 0 := by
  induction fused with
  | nil =>
    rw [addScoreWith, scoreOf, scoreOf, zero_add]
    by_cases ht : symbolId = t
    · rw [if_pos ht, if_pos ht.symm]
    · rw [if_neg ht, if_neg (Ne.symm ht)]
      rfl
  | cons entry fused ih =>
    obtain ⟨sid, score⟩ := entry
    rw [addScoreWith]
    by_cases heq : sid = symbolId
    · subst heq
      rw [if_pos rfl, scoreOf, scoreOf]
      by_cases ht : sid = t
      · rw [if_pos ht, if_pos ht, if_pos ht.symm]
        rfl
      · rw [if_neg ht, if_neg ht, if_neg (Ne.symm ht), add_zero]
    · rw [if_neg heq, scoreOf, scoreOf]
      by_cases ht : sid = t
      · rw [if_pos ht, if_pos ht, if_neg (ht ▸ heq), add_zero]
      · rw [if_neg ht, if_neg ht, ih]

theorem scoreOf_of_notMem {t : String} {fused : List (String × ℚ)}
    (h : t ∉ fused.map Prod.fst) : scoreOf t fused = 0 := by
  induction fused with
  | nil => rfl
  | cons entry fused ih =>
    obtain ⟨sid, score⟩ := entry
    rw [List.map_cons, List.mem_cons, not_or] at h
    rw [scoreOf, if_neg (Ne.symm h.1), ih h.2]

/-- The variables of the pass over one layer, after the hits of a prefix. -/
structure PassOf (rrfK : ℚ) (fused : List (String × ℚ)) (ids : List String) (p : LayerPass) :
    Prop where
  seen : p.seen = distinct ids
  rank : p.rank = (distinct ids).length
  nodup : (p.fused.map Prod.fst).Nodup
  keys : ∀ t, t ∈ p.fused.map Prod.fst ↔ t ∈ fused.map Prod.fst ∨ t ∈ ids
  score : ∀ t, scoreOf t p.fused = scoreOf t fused +
    if t ∈ ids then 1 / (rrfK + ((distinct ids).idxOf t + 1 : ℕ)) else 0

theorem PassOf.step {rrfK : ℚ} {fused : List (String × ℚ)} {ids : List String} {p : LayerPass}
    (h : PassOf rrfK fused ids p) (hit : Hit) :
    PassOf rrfK fused (ids ++ [hit.symbolId]) (p.stepWith id rrfK hit) := by
  rw [LayerPass.stepWith, h.seen]
  by_cases hin : hit.symbolId ∈ ids
  · have hsame : distinct (ids ++ [hit.symbolId]) = distinct ids := by
      rw [distinct_concat, addNew, if_pos (mem_distinct.2 hin)]
    have hmem (t : String) : t ∈ ids ++ [hit.symbolId] ↔ t ∈ ids := by
      rw [List.mem_append, List.mem_singleton]
      exact ⟨fun ht => ht.elim id (· ▸ hin), .inl⟩
    rw [if_pos (mem_distinct.2 hin)]
    refine ⟨hsame ▸ h.seen, hsame ▸ h.rank, h.nodup, fun t => ?_, fun t => ?_⟩
    · rw [h.keys t, hmem]
    · simp only [h.score t, hmem, hsame]
  · have hnew : hit.symbolId ∉ distinct ids := fun hmem => hin (mem_distinct.1 hmem)
    have hnext : distinct (ids ++ [hit.symbolId]) = distinct ids ++ [hit.symbolId] := by
      rw [distinct_concat, addNew, if_neg hnew]
    rw [if_neg hnew]
    refine ⟨hnext.symm, ?_, ?_, fun t => ?_, fun t => ?_⟩
    · simp [hnext, h.rank]
    · dsimp only
      rw [map_fst_addScoreWith]
      exact nodup_addNew h.nodup _
    · dsimp only
      rw [map_fst_addScoreWith, mem_addNew, h.keys t, List.mem_append, List.mem_singleton, or_assoc]
    · dsimp only
      rw [scoreOf_addScoreWith, h.score t, hnext, h.rank]
      by_cases ht : t = hit.symbolId
      · subst ht
        rw [if_neg hin, if_pos rfl, if_pos (by simp), List.idxOf_append_of_notMem hnew]
        simp
      · by_cases ht' : t ∈ ids
        · rw [if_pos ht', if_neg ht, if_pos (by simp [ht']),
            List.idxOf_append_of_mem (mem_distinct.2 ht'), add_zero]
        · rw [if_neg ht', if_neg ht, if_neg (by simp [ht, ht']), add_zero]

theorem PassOf.foldl (rrfK : ℚ) {fused : List (String × ℚ)}
    (h : (fused.map Prod.fst).Nodup) (hits : List Hit) :
    PassOf rrfK fused (hits.map Hit.symbolId)
      (hits.foldl (LayerPass.stepWith id rrfK) ⟨0, [], fused⟩) := by
  induction hits using List.reverseRecOn with
  | nil => exact ⟨rfl, rfl, h, fun t => by simp, fun t => by simp⟩
  | append_singleton hits hit ih =>
    rw [List.foldl_append, List.map_append]
    exact ih.step hit

theorem better_iff {a b : String × ℚ} :
    better (a.2, a.1) (b.2, b.1) = true ↔ entryKey b ≤ entryKey a := by
  rw [better, Bool.or_eq_true, Bool.and_eq_true, decide_eq_true_iff, decide_eq_true_iff,
    decide_eq_true_iff, entryKey, entryKey, Prod.Lex.toLex_le_toLex]
  exact or_congr Iff.rfl (and_congr eq_comm Iff.rfl)

/-- The sorts of the fusion put the better entry first. -/
theorem pairwise_mergeSort_better {α : Type} (entry : α → String × ℚ) (l : List α) :
    (l.mergeSort fun a b => better ((entry a).2, (entry a).1) ((entry b).2, (entry b).1)).Pairwise
      fun a b => entryKey (entry b) ≤ entryKey (entry a) := by
  refine (List.pairwise_mergeSort ?_ ?_ l).imp fun hab => better_iff.1 hab
  · intro a b c hab hbc
    exact better_iff.2 ((better_iff.1 hbc).trans (better_iff.1 hab))
  · intro a b
    rw [Bool.or_eq_true, better_iff, better_iff]
    exact le_total _ _

/-- The entries of a list of hits. -/
def entries (hits : List Hit) : List (String × ℚ) :=
  hits.map fun hit => (hit.symbolId, hit.score)

/-- The fused scores after one more layer. -/
theorem fuseLayerWith_spec (rrfK : ℚ) {fused : List (String × ℚ)} (hits : List Hit)
    (h : (fused.map Prod.fst).Nodup) :
    ((fuseLayerWith id rrfK fused hits).map Prod.fst).Nodup ∧
    (∀ t, t ∈ (fuseLayerWith id rrfK fused hits).map Prod.fst ↔
      t ∈ fused.map Prod.fst ∨ t ∈ items (entries hits)) ∧
    ∀ t, scoreOf t (fuseLayerWith id rrfK fused hits) = scoreOf t fused +
      if t ∈ items (entries hits) then 1 / (rrfK + (place (entries hits) t + 1 : ℕ)) else 0 := by
  unfold fuseLayerWith
  dsimp only
  have hsorted := pairwise_mergeSort_better (fun hit : Hit => (hit.symbolId, hit.score)) hits
  have hperm := List.mergeSort_perm hits fun a b =>
    better (a.score, a.symbolId) (b.score, b.symbolId)
  generalize hits.mergeSort (fun a b => better (a.score, a.symbolId) (b.score, b.symbolId)) =
    ranked at hsorted hperm
  have hpass := PassOf.foldl rrfK h ranked
  have hentries : (entries ranked).Perm (entries hits) := hperm.map _
  have hids : ranked.map Hit.symbolId = (entries ranked).map Prod.fst := by
    simp [entries]
  have hmem (t : String) : t ∈ ranked.map Hit.symbolId ↔ t ∈ items (entries hits) := by
    rw [hids, ← items_perm hentries, items, List.mem_toFinset]
  refine ⟨hpass.nodup, fun t => ?_, fun t => ?_⟩
  · rw [hpass.keys t, hmem]
  · rw [hpass.score t]
    by_cases ht : t ∈ items (entries hits)
    · have hin := mem_distinct.2 ((hmem t).2 ht)
      have hplace := place_distinct (l := entries ranked) (List.pairwise_map.2 hsorted)
        (hids ▸ List.getElem?_idxOf hin)
      rw [if_pos ((hmem t).2 ht), if_pos ht, ← place_perm hentries, hplace,
        hids]
    · rw [if_neg (mt (hmem t).1 ht), if_neg ht]

/-! ## All layers -/

/-- The fused scores of a list of layers. -/
theorem foldl_fuseLayerWith (rrfK : ℚ) (groups : List (List Hit)) :
    ((groups.foldl (fuseLayerWith id rrfK) []).map Prod.fst).Nodup ∧
    (∀ t, t ∈ (groups.foldl (fuseLayerWith id rrfK) []).map Prod.fst ↔
      ∃ hits ∈ groups, t ∈ items (entries hits)) ∧
    ∀ t, scoreOf t (groups.foldl (fuseLayerWith id rrfK) []) = (groups.map fun hits =>
      if t ∈ items (entries hits) then 1 / (rrfK + (place (entries hits) t + 1 : ℕ)) else 0).sum := by
  induction groups using List.reverseRecOn with
  | nil => exact ⟨List.nodup_nil, fun t => by simp, fun t => rfl⟩
  | append_singleton groups hits ih =>
    obtain ⟨hnodup, hkeys, hscore⟩ := ih
    obtain ⟨hnodup', hkeys', hscore'⟩ := fuseLayerWith_spec rrfK hits hnodup
    rw [List.foldl_append, List.foldl_cons, List.foldl_nil]
    refine ⟨hnodup', fun t => ?_, fun t => ?_⟩
    · rw [hkeys', hkeys]
      simp [or_and_right, exists_or]
    · rw [hscore', hscore, List.map_append, List.sum_append, List.map_singleton,
        List.sum_singleton]

theorem mem_items_entriesOf {hits : List Hit} {layer symbolId : String} :
    symbolId ∈ items (entriesOf hits layer) ↔
      ∃ hit ∈ hits, hit.layer = layer ∧ hit.symbolId = symbolId := by
  rw [mem_items]
  unfold entriesOf
  constructor
  · rintro ⟨e, he, rfl⟩
    obtain ⟨hit, hhit, rfl⟩ := List.mem_map.1 he
    have hfilter := List.mem_filter.1 hhit
    exact ⟨hit, hfilter.1, by simpa using hfilter.2, rfl⟩
  · rintro ⟨hit, hhit, hlayer, rfl⟩
    exact ⟨_, List.mem_map_of_mem (List.mem_filter.2 ⟨hhit, by simpa using hlayer⟩), rfl⟩

/-- The fused scores are the sums of the reciprocal ranks. -/
theorem fused_spec (hits : List Hit) (rrfK : ℚ) :
    let fused := ((groupByLayer hits).map Prod.snd).foldl (fuseLayerWith id rrfK) []
    (fused.map Prod.fst).Nodup ∧
    (∀ t, t ∈ fused.map Prod.fst ↔ t ∈ hits.map Hit.symbolId) ∧
    ∀ t, scoreOf t fused = reciprocalRanks hits rrfK t := by
  intro fused
  have hgroups : (groupByLayer hits).map Prod.snd =
      (distinct (hits.map Hit.layer)).map fun layer => hits.filter (·.layer = layer) := by
    rw [groupByLayer_eq, List.map_map]
    rfl
  obtain ⟨hnodup, hkeys, hscore⟩ :=
    foldl_fuseLayerWith rrfK ((groupByLayer hits).map Prod.snd)
  refine ⟨hnodup, fun t => ?_, fun t => ?_⟩
  · rw [hkeys, hgroups]
    constructor
    · rintro ⟨group, hgroup, ht⟩
      obtain ⟨layer, -, rfl⟩ := List.mem_map.1 hgroup
      obtain ⟨hit, hhit, -, rfl⟩ := mem_items_entriesOf.1 ht
      exact List.mem_map_of_mem hhit
    · intro ht
      obtain ⟨hit, hhit, rfl⟩ := List.mem_map.1 ht
      exact ⟨_, List.mem_map_of_mem (mem_distinct.2 (List.mem_map_of_mem hhit)),
        mem_items_entriesOf.2 ⟨hit, hhit, rfl, rfl⟩⟩
  · rw [hscore, hgroups, List.map_map, reciprocalRanks, layersOf, Finset.sum_filter,
      ← List.sum_toFinset _ (nodup_distinct _)]
    refine Finset.sum_congr ?_ fun layer _ => rfl
    ext layer
    simp

theorem eq_map_scoreOf {fused : List (String × ℚ)} (h : (fused.map Prod.fst).Nodup) :
    fused = (fused.map Prod.fst).map fun t => (t, scoreOf t fused) := by
  induction fused with
  | nil => rfl
  | cons entry fused ih =>
    obtain ⟨sid, score⟩ := entry
    obtain ⟨hsid, hnodup⟩ := List.nodup_cons.1 h
    have hrest : (fused.map Prod.fst).map (fun t => (t, scoreOf t ((sid, score) :: fused))) =
        (fused.map Prod.fst).map fun t => (t, scoreOf t fused) := by
      refine List.map_congr_left fun t ht => ?_
      rw [scoreOf, if_neg]
      rintro rfl
      exact hsid ht
    rw [List.map_cons, List.map_cons, hrest, ← ih hnodup, scoreOf, if_pos rfl]

/-- **The fused entries are the ranking by the reciprocal ranks.** -/
theorem fusedEntries_id (hits : List Hit) (rrfK : ℚ) :
    fusedEntries id hits rrfK = fusedRanking hits rrfK := by
  obtain ⟨hnodup, hkeys, hscore⟩ := fused_spec hits rrfK
  unfold fusedEntries fusedRanking
  dsimp only
  generalize ((groupByLayer hits).map Prod.snd).foldl (fuseLayerWith id rrfK) [] = fused
    at hnodup hkeys hscore
  have hids : (fused.map Prod.fst).Perm ((hits.map Hit.symbolId).toFinset.sort (· ≤ ·)) := by
    refine (List.perm_ext_iff_of_nodup hnodup (Finset.sort_nodup _ _)).2 fun t => ?_
    rw [hkeys t, Finset.mem_sort, List.mem_toFinset]
  have hentries : fused.Perm (((hits.map Hit.symbolId).toFinset.sort (· ≤ ·)).map fun t =>
      (t, reciprocalRanks hits rrfK t)) := by
    have hmap := hids.map fun t => (t, reciprocalRanks hits rrfK t)
    rw [eq_map_scoreOf hnodup]
    simpa only [hscore] using hmap
  have hperm := (List.mergeSort_perm fused fun a b => better (a.2, a.1) (b.2, b.1)).trans
    (hentries.trans (Ranking.ranked_perm entryKey _).symm)
  refine hperm.eq_of_pairwise ?_ (pairwise_mergeSort_better id fused)
    (Ranking.pairwise_ranked entryKey _)
  intro a b _ _ hab hba
  exact entryKey_injective (le_antisymm hba hab)

/-! ## Invariance -/

theorem entriesOf_perm {hits hits' : List Hit} (h : hits.Perm hits') (layer : String) :
    (entriesOf hits layer).Perm (entriesOf hits' layer) := (h.filter _).map _

/-- The ranking does not depend on the order of the hits. -/
theorem fusedRanking_perm {hits hits' : List Hit} (h : hits.Perm hits') (rrfK : ℚ) :
    fusedRanking hits rrfK = fusedRanking hits' rrfK := by
  have hlayers (t : String) : layersOf hits t = layersOf hits' t := by
    unfold layersOf
    rw [List.toFinset_eq_of_perm _ _ (h.map Hit.layer)]
    refine Finset.filter_congr fun layer _ => ?_
    rw [items_perm (entriesOf_perm h layer)]
  have hranks (t : String) : reciprocalRanks hits rrfK t = reciprocalRanks hits' rrfK t := by
    unfold reciprocalRanks
    rw [hlayers]
    refine Finset.sum_congr rfl fun layer _ => ?_
    rw [place_perm (entriesOf_perm h layer)]
  unfold fusedRanking
  rw [List.toFinset_eq_of_perm _ _ (h.map Hit.symbolId)]
  simp only [hranks]

/-- A transformation of the scores of one layer. -/
def rescore (layer : String) (f : ℚ → ℚ) (hit : Hit) : Hit :=
  if hit.layer = layer then { hit with score := f hit.score } else hit

@[simp] theorem rescore_layer (layer : String) (f : ℚ → ℚ) (hit : Hit) :
    (rescore layer f hit).layer = hit.layer := by
  unfold rescore
  split_ifs <;> rfl

@[simp] theorem rescore_symbolId (layer : String) (f : ℚ → ℚ) (hit : Hit) :
    (rescore layer f hit).symbolId = hit.symbolId := by
  unfold rescore
  split_ifs <;> rfl

/-- The scores of a layer. -/
def layerScores (hits : List Hit) (layer : String) : Set ℚ :=
  {x | ∃ hit ∈ hits, hit.layer = layer ∧ hit.score = x}

theorem entriesOf_rescore (hits : List Hit) (name : String) (f : ℚ → ℚ) (layer : String) :
    entriesOf (hits.map (rescore name f)) layer =
      if layer = name then (entriesOf hits layer).map fun e => (e.1, f e.2)
      else entriesOf hits layer := by
  unfold entriesOf
  have hfilter : (hits.map (rescore name f)).filter (·.layer = layer) =
      (hits.filter (·.layer = layer)).map (rescore name f) := by
    rw [List.filter_map]
    refine congrArg _ (List.filter_congr fun hit _ => ?_)
    simp
  rw [hfilter, List.map_map]
  split_ifs with heq
  · rw [List.map_map]
    refine List.map_congr_left fun hit hhit => ?_
    have hlayer : hit.layer = layer := by simpa using (List.mem_filter.1 hhit).2
    simp [rescore, hlayer, heq]
  · refine List.map_congr_left fun hit hhit => ?_
    have hlayer : hit.layer = layer := by simpa using (List.mem_filter.1 hhit).2
    simp [rescore, hlayer, heq]

/-- The ranking depends on the comparisons of the scores of a layer only. -/
theorem fusedRanking_rescore {hits : List Hit} {name : String} {f : ℚ → ℚ}
    (hf : StrictMonoOn f (layerScores hits name)) (rrfK : ℚ) :
    fusedRanking (hits.map (rescore name f)) rrfK = fusedRanking hits rrfK := by
  have hitems (layer : String) :
      items (entriesOf (hits.map (rescore name f)) layer) = items (entriesOf hits layer) := by
    rw [entriesOf_rescore]
    split_ifs
    · unfold items
      rw [List.map_map]
      rfl
    · rfl
  have hplace {layer t : String} (ht : t ∈ items (entriesOf hits layer)) :
      place (entriesOf (hits.map (rescore name f)) layer) t = place (entriesOf hits layer) t := by
    rw [entriesOf_rescore]
    split_ifs with heq
    · refine place_map (hf.mono ?_) ht
      rintro x ⟨e, he, rfl⟩
      obtain ⟨hit, hhit, rfl⟩ := List.mem_map.1 he
      have hfilter := List.mem_filter.1 hhit
      exact ⟨hit, hfilter.1, by simpa [heq] using hfilter.2, rfl⟩
    · rfl
  have hmap : (hits.map (rescore name f)).map Hit.layer = hits.map Hit.layer := by
    simp
  have hids : (hits.map (rescore name f)).map Hit.symbolId = hits.map Hit.symbolId := by
    simp
  have hlayers (t : String) : layersOf (hits.map (rescore name f)) t = layersOf hits t := by
    unfold layersOf
    rw [hmap]
    refine Finset.filter_congr fun layer _ => ?_
    rw [hitems]
  have hranks (t : String) : reciprocalRanks (hits.map (rescore name f)) rrfK t =
      reciprocalRanks hits rrfK t := by
    unfold reciprocalRanks
    rw [hlayers]
    refine Finset.sum_congr rfl fun layer hlayer => ?_
    rw [hplace (Finset.mem_filter.1 hlayer).2]
  unfold fusedRanking
  rw [hids]
  simp only [hranks]

/-- The result is the head of the ranking. -/
theorem rrfFuseWith_eq (layers : List (List Hit)) (k : ℕ) {rrfK : ℚ} (h : 0 < rrfK) :
    rrfFuseWith id layers k rrfK =
      (((fusedRanking layers.flatten rrfK).take k).zipIdx).map fusedHit := by
  unfold rrfFuseWith
  rw [fusedEntries_id]
  split_ifs with hk
  · rcases hk with rfl | hk
    · rfl
    · exact absurd hk h.not_ge
  · rfl

/-- **The law of the rank fusion.** The result is the head of the ranking by the sums of the
    reciprocal ranks; it does not change with the order of the hits, with their partition, or
    with a strictly increasing transformation of the scores of one layer. -/
theorem rrfFuseWith_id (layers : List (List Hit)) (k : ℕ) (rrfK : ℚ) (h : 0 < rrfK) :
    rrfFuseWith id layers k rrfK =
        (((fusedRanking layers.flatten rrfK).take k).zipIdx).map fusedHit ∧
      (∀ layers' : List (List Hit), layers'.flatten.Perm layers.flatten →
        rrfFuseWith id layers' k rrfK = rrfFuseWith id layers k rrfK) ∧
      ∀ (name : String) (f : ℚ → ℚ), StrictMonoOn f (layerScores layers.flatten name) →
        rrfFuseWith id (layers.map (List.map (rescore name f))) k rrfK =
          rrfFuseWith id layers k rrfK := by
  refine ⟨rrfFuseWith_eq layers k h, fun layers' hperm => ?_, fun name f hf => ?_⟩
  · rw [rrfFuseWith_eq _ k h, rrfFuseWith_eq _ k h, fusedRanking_perm hperm]
  · rw [rrfFuseWith_eq _ k h, rrfFuseWith_eq _ k h, ← List.map_flatten, fusedRanking_rescore hf]

namespace RanksExample

def hit (symbolId : String) (score : ℚ) (layer : String) : Hit where
  symbolId := symbolId
  score := score
  layer := layer
  reason := ""

/-- `b` is in both layers, twice in the first one. -/
def layers : List (List Hit) :=
  [[hit "a" 3 "lexical", hit "b" 3 "lexical", hit "b" 5 "lexical"], [hit "b" (1 / 2) "semantic"]]

end RanksExample

open RanksExample in
/-- The hits in the opposite order and in one list, and the scores of a layer doubled. -/
theorem rrfFuseWith_id_layers :
    rrfFuseWith id layers 1 60 =
        (((fusedRanking layers.flatten 60).take 1).zipIdx).map fusedHit ∧
      rrfFuseWith id [layers.flatten.reverse] 1 60 = rrfFuseWith id layers 1 60 ∧
      rrfFuseWith id (layers.map (List.map (rescore "lexical" (2 * ·)))) 1 60 =
        rrfFuseWith id layers 1 60 := by
  obtain ⟨hlaw, hperm, hscale⟩ := rrfFuseWith_id layers 1 60 (by norm_num)
  refine ⟨hlaw, hperm _ ?_, hscale "lexical" _ ?_⟩
  · rw [List.flatten_singleton]
    exact List.reverse_perm _
  · intro x _ y _ hxy
    simpa using hxy

end Cognis
