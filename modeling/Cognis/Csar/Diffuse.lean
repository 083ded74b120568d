/-
  Seed construction and diffusion of `cognis-csar` (`diffuse.rs`): the hits of the layers give
  the seed of a forward push, and the symbols are ranked by the mass that it leaves them.

  The scores are exact rationals; the text of a number in the evidence is a parameter.

  * `buildSeedDistribution` is the seed, `diffuseSeedHits` the whole function;
  * `estimate_pos_iff`: a node has a score at the exit exactly when it has met its threshold in
    some state of the work loop;
  * `diffuseSeedHits_seedsKept_iff`: hence a hit is in the output exactly when its node has, and
    for every restart probability exactly when the seed mass alone meets the threshold.
-/
import Cognis.Csar.Conservation
import Cognis.Lib.Ranking
import Cognis.Retrieval.Fusion
import Mathlib.Data.Prod.Lex
import Mathlib.Data.String.Basic

namespace Cognis

open CodeGraph

/-! ## The seed -/

/-- The variables of the pass over the layers: the nodes in the order of their first hit, and
    their masses. -/
structure SeedPass where
  order : List ℕ
  raw : ℕ → Option ℚ

/-- The mass of a score in a layer with scores from `lo` to `hi`. -/
def normalizedScore (lo hi score : ℚ) : ℚ :=
  let span := hi - lo
  let norm := if span ≤ 0 then 1 else (score - lo) / span
  if norm ≤ 0 then 1 / 1000 else norm

/-- One hit of a layer; a symbol that is not in the graph is skipped. -/
def SeedPass.addHit (g : CodeGraph) (lo hi : ℚ) (p : SeedPass) (h : Hit) : SeedPass :=
  match g.index h.symbolId with
  | none => p
  | some node =>
    { order := if (p.raw node).isSome then p.order else p.order ++ [node]
      raw := Function.update p.raw node
        (some ((p.raw node).getD 0 + normalizedScore lo hi h.score)) }

/-- One layer; an empty one is skipped. -/
def SeedPass.addLayer (g : CodeGraph) (p : SeedPass) (hits : List Hit) : SeedPass :=
  match (hits.map Hit.score).min?, (hits.map Hit.score).max? with
  | some lo, some hi => hits.foldl (SeedPass.addHit g lo hi) p
  | _, _ => p

/-- The masses of the layers, before they are normalised. -/
def seedPass (hitsPerLayer : List (List Hit)) (g : CodeGraph) : SeedPass :=
  hitsPerLayer.foldl (SeedPass.addLayer g) ⟨[], fun _ => none⟩

/-- `raw[&node]` -/
def SeedPass.mass (p : SeedPass) (node : ℕ) : ℚ := (p.raw node).getD 0

/-- The sum of the masses. -/
def SeedPass.total (p : SeedPass) : ℚ := (p.order.map p.mass).sum

/-- `build_seed_distribution` -/
def buildSeedDistribution (hitsPerLayer : List (List Hit)) (g : CodeGraph) : List (ℤ × ℚ) :=
  let p := seedPass hitsPerLayer g
  if p.total ≤ 0 then [] else p.order.map fun node => (asI32 node, p.mass node / p.total)

/-! ## The ranking -/

section
variable (f64Literal : ℚ → String) (g : CodeGraph)

/-- `node_ids[node]` -/
def nodeId (node : ℕ) : String := g.nodeIds.getD node ""

/-- The key of the ranking: best score first, then the first symbol id. -/
def massKey (mass : ℕ × ℚ) : ℚ ×ₗ Stringᵒᵈ := toLex (mass.2, OrderDual.toDual (nodeId g mass.1))

/-- The hit of a node with a score. -/
def csarHit (alpha : ℚ) (seedNodes : List ℤ) (mass : ℕ × ℚ) : Hit :=
  let onPath : Bool := asI32 mass.1 ∉ seedNodes
  { symbolId := nodeId g mass.1
    score := mass.2
    layer := "csar"
    reason := "CSAR diffusion score " ++ sixDecimals mass.2 ++
      if onPath then " (reached via code flow)" else " (seed match)"
    evidence := .object
      [("ppr", .number (f64Literal mass.2)), ("ppr_score", .number (f64Literal mass.2)),
        ("seed", .bool !onPath), ("on_path", .bool onPath),
        ("alpha", .number (f64Literal alpha))] }

/-- `diffuse_seed_hits`, with at most `fuel` iterations of the push. -/
def diffuseSeedHits (fuel : ℕ) (hitsPerLayer : List (List Hit)) (k : ℕ) (alpha eps : ℚ) :
    Except RetrievalError (Option (List Hit)) :=
  if g.n = 0 then .ok (some [])
  else
    let seed := buildSeedDistribution hitsPerLayer g
    if seed.isEmpty then .ok (some [])
    else (approximatePprPush g alpha eps fuel seed).map fun push => push.map fun push =>
      if push.estimate.isEmpty then []
      else ((Ranking.ranked (massKey g) push.estimate).take k).map
        (csarHit f64Literal g alpha (seed.map Prod.fst))

end

/-- A hit of the layers at a node of the graph. -/
def HitAt (g : CodeGraph) (hitsPerLayer : List (List Hit)) (sid : String) (u : ℕ) : Prop :=
  ∃ hits ∈ hitsPerLayer, ∃ h ∈ hits, h.symbolId = sid ∧ g.index sid = some u

/-- Every hit symbol of the graph is in the output once, as a seed with a positive score. -/
def SeedsKept (g : CodeGraph) (hitsPerLayer : List (List Hit)) (out : List Hit) : Prop :=
  ∀ hits ∈ hitsPerLayer, ∀ h ∈ hits, h.symbolId ∈ g.nodeIds →
    (out.map Hit.symbolId).count h.symbolId = 1 ∧
      ∀ o ∈ out, o.symbolId = h.symbolId →
        0 < o.score ∧ o.evidence.get "seed" = some (.bool true)

/-! ## The masses of the seed -/

theorem normalizedScore_pos (lo hi score : ℚ) : 0 < normalizedScore lo hi score := by
  simp only [normalizedScore]
  split_ifs with hspan hnorm hnorm
  · norm_num
  · norm_num
  · norm_num
  · exact not_le.1 hnorm

/-- The pass after the hits `seen`: it has the nodes of the hits, with positive masses. -/
structure SeedPass.OK (g : CodeGraph) (seen : List Hit) (p : SeedPass) : Prop where
  nodup : p.order.Nodup
  mem_iff : ∀ node, node ∈ p.order ↔ (p.raw node).isSome = true
  pos : ∀ node x, p.raw node = some x → 0 < x
  isSome_iff : ∀ node, (p.raw node).isSome = true ↔ ∃ h ∈ seen, g.index h.symbolId = some node

section
variable {g : CodeGraph} {seen : List Hit} {p : SeedPass}

theorem SeedPass.OK.addHit (hp : p.OK g seen) (lo hi : ℚ) (h : Hit) :
    (p.addHit g lo hi h).OK g (seen ++ [h]) := by
  unfold SeedPass.addHit
  cases hnode : g.index h.symbolId with
  | none =>
    refine ⟨hp.nodup, hp.mem_iff, hp.pos, fun v => (hp.isSome_iff v).trans ?_⟩
    simp [or_and_right, exists_or, hnode]
  | some node =>
    refine ⟨?_, fun v => ?_, fun v x hx => ?_, fun v => ?_⟩
    · dsimp only
      split_ifs with hsome
      · exact hp.nodup
      · refine List.nodup_append.2 ⟨hp.nodup, List.nodup_singleton _, ?_⟩
        rintro a ha b hb rfl
        rw [List.mem_singleton] at hb
        exact hsome ((hp.mem_iff node).1 (hb ▸ ha))
    · dsimp only
      by_cases hv : v = node
      · subst hv
        split_ifs with hsome
        · simpa using (hp.mem_iff v).2 hsome
        · simp
      · rw [Function.update_of_ne hv, ← hp.mem_iff v]
        split_ifs <;> simp [hv]
    · dsimp only at hx
      by_cases hv : v = node
      · subst hv
        rw [Function.update_self, Option.some.injEq] at hx
        have hnorm := normalizedScore_pos lo hi h.score
        cases hraw : p.raw v with
        | none => rw [hraw, Option.getD_none] at hx; linarith
        | some y =>
          have hy := hp.pos v y hraw
          rw [hraw, Option.getD_some] at hx
          linarith
      · rw [Function.update_of_ne hv] at hx
        exact hp.pos v x hx
    · dsimp only
      by_cases hv : v = node
      · subst hv
        rw [Function.update_self]
        exact iff_of_true rfl ⟨h, by simp, hnode⟩
      · rw [Function.update_of_ne hv, hp.isSome_iff v]
        simp [or_and_right, exists_or, hnode, Ne.symm hv]

theorem SeedPass.OK.addHits (hp : p.OK g seen) (lo hi : ℚ) (hits : List Hit) :
    (hits.foldl (SeedPass.addHit g lo hi) p).OK g (seen ++ hits) := by
  induction hits generalizing seen p with
  | nil => simpa using hp
  | cons h hits ih => rw [List.foldl_cons, List.append_cons]; exact ih (hp.addHit lo hi h)

theorem SeedPass.OK.addLayer (hp : p.OK g seen) (hits : List Hit) :
    (p.addLayer g hits).OK g (seen ++ hits) := by
  unfold SeedPass.addLayer
  cases hlo : (hits.map Hit.score).min? with
  | none =>
    have hnil : hits = [] := by simpa [List.min?_eq_none_iff] using hlo
    subst hnil
    simpa using hp
  | some lo =>
    cases hhi : (hits.map Hit.score).max? with
    | none =>
      have hnil : hits = [] := by simpa [List.max?_eq_none_iff] using hhi
      subst hnil
      simpa using hp
    | some hi => exact hp.addHits lo hi hits

/-- **The pass over the layers.** -/
theorem seedPass_ok (hitsPerLayer : List (List Hit)) (g : CodeGraph) :
    (seedPass hitsPerLayer g).OK g hitsPerLayer.flatten := by
  suffices h : ∀ (layers : List (List Hit)) (seen : List Hit) (p : SeedPass), p.OK g seen →
      (layers.foldl (SeedPass.addLayer g) p).OK g (seen ++ layers.flatten) by
    have hinit : SeedPass.OK g [] ⟨[], fun _ => none⟩ :=
      ⟨List.nodup_nil, by simp, by simp, by simp⟩
    exact h hitsPerLayer [] _ hinit
  intro layers
  induction layers with
  | nil => intro seen p hp; simpa using hp
  | cons hits layers ih =>
    intro seen p hp
    rw [List.foldl_cons, List.flatten_cons, ← List.append_assoc]
    exact ih _ _ (hp.addLayer hits)

end

theorem SeedPass.OK.mass_pos {g : CodeGraph} {seen : List Hit} {p : SeedPass} (hp : p.OK g seen)
    {node : ℕ} (h : node ∈ p.order) : 0 < p.mass node := by
  obtain ⟨x, hx⟩ := Option.isSome_iff_exists.1 ((hp.mem_iff node).1 h)
  have hpos := hp.pos node x hx
  rwa [SeedPass.mass, hx]

theorem SeedPass.OK.total_pos {g : CodeGraph} {seen : List Hit} {p : SeedPass} (hp : p.OK g seen)
    (h : p.order ≠ []) : 0 < p.total := by
  refine List.sum_pos _ (fun x hx => ?_) (by simpa using h)
  obtain ⟨node, hnode, rfl⟩ := List.mem_map.1 hx
  exact hp.mass_pos hnode

section
variable {g : CodeGraph} {hitsPerLayer : List (List Hit)}

theorem buildSeedDistribution_pos {e : ℤ × ℚ} (he : e ∈ buildSeedDistribution hitsPerLayer g) :
    0 < e.2 := by
  have hp := seedPass_ok hitsPerLayer g
  simp only [buildSeedDistribution] at he
  split_ifs at he with htotal
  · cases he
  · obtain ⟨node, hnode, rfl⟩ := List.mem_map.1 he
    exact div_pos (hp.mass_pos hnode) (not_le.1 htotal)

/-- The nodes of the seed are those of the hits. -/
theorem mem_seedNodes {v : ℤ} : v ∈ (buildSeedDistribution hitsPerLayer g).map Prod.fst ↔
    ∃ sid u, HitAt g hitsPerLayer sid u ∧ asI32 u = v := by
  have hp := seedPass_ok hitsPerLayer g
  have horder : v ∈ (buildSeedDistribution hitsPerLayer g).map Prod.fst ↔
      ∃ node ∈ (seedPass hitsPerLayer g).order, asI32 node = v := by
    simp only [buildSeedDistribution]
    split_ifs with htotal
    · have hnil : (seedPass hitsPerLayer g).order = [] := by
        by_contra hne
        exact absurd (hp.total_pos hne) (not_lt.2 htotal)
      simp [hnil]
    · simp
  rw [horder]
  constructor
  · rintro ⟨node, hnode, hv⟩
    obtain ⟨h, hh, hindex⟩ := (hp.isSome_iff node).1 ((hp.mem_iff node).1 hnode)
    obtain ⟨hits, hhits, hh⟩ := List.mem_flatten.1 hh
    exact ⟨h.symbolId, node, ⟨hits, hhits, h, hh, rfl, hindex⟩, hv⟩
  · rintro ⟨sid, node, ⟨hits, hhits, h, hh, rfl, hindex⟩, hv⟩
    have hmem : h ∈ hitsPerLayer.flatten := List.mem_flatten.2 ⟨hits, hhits, hh⟩
    exact ⟨node, (hp.mem_iff node).2 ((hp.isSome_iff node).2 ⟨h, hmem, hindex⟩), hv⟩

end

/-! ## The score of a node -/

/-- The node is at its threshold in some state of the work loop. -/
def MeetsThreshold (g : CodeGraph) (alpha eps : ℚ) (seed : List (ℤ × ℚ)) (u : Fin g.n) : Prop :=
  ∃ s, Loop.Reaches (pushStep g alpha eps) (initState g eps seed) s ∧
    eps * g.degreeOf u ≤ s.residual u

section
variable {g : CodeGraph} {alpha eps : ℚ} {seed : List (ℤ × ℚ)} {u : Fin g.n}

/-- A score is given to a node at its threshold. -/
theorem MeetsThreshold.of_estimate_pos (hg : g.WellFormed) {s : PushState g.n}
    (hs : Loop.Reaches (pushStep g alpha eps) (initState g eps seed) s) (hu : 0 < s.estimate u) :
    MeetsThreshold g alpha eps seed u := by
  induction hs with
  | refl =>
    have hinit : Seeding g eps (seedMass g seed) seed (initState g eps seed) :=
      seeding_initState seed
    rw [hinit.estimate] at hu
    exact absurd hu (lt_irrefl 0)
  | @tail s t hs hstep ih =>
    obtain ⟨v, active, -, ⟨he, -⟩ | ⟨hover, he, -⟩⟩ := pushStep_cases hg hstep
    · rw [he] at hu
      exact ih hu
    · by_cases huv : u = v
      · subst huv
        exact ⟨s, hs, hover⟩
      · rw [he, pushScore, Function.update_of_ne huv] at hu
        exact ih hu

/-- A node at its threshold stays there until it has a score. -/
theorem estimate_pos_of_threshold (hg : g.WellFormed) (hα : 0 < alpha) (hα1 : alpha ≤ 1)
    (heps : 0 < eps) {r : Fin g.n → ℚ} {s t : PushState g.n}
    (hs : PushInv hg alpha eps r s) (hu : eps * g.degreeOf u ≤ s.residual u)
    (hst : Loop.Reaches (pushStep g alpha eps) s t) :
    PushInv hg alpha eps r t ∧ (eps * g.degreeOf u ≤ t.residual u ∨ 0 < t.estimate u) := by
  refine Loop.invariant (I := fun t => PushInv hg alpha eps r t ∧
    (eps * g.degreeOf u ≤ t.residual u ∨ 0 < t.estimate u)) ?_ hst ⟨hs, .inl hu⟩
  rintro s t ⟨hs, hu⟩ hstep
  refine ⟨hs.step hα hα1 heps hstep, ?_⟩
  obtain ⟨v, active, -, ⟨he, hr, -⟩ | ⟨hover, he, hr, -⟩⟩ := pushStep_cases hg hstep
  · rw [he, hr]
    exact hu
  · rw [he, hr]
    by_cases huv : u = v
    · subst huv
      have hpos : 0 < s.residual u := (mul_pos heps (hg.degree_pos u)).trans_le hover
      rw [pushScore, Function.update_self]
      exact .inr (add_pos_of_nonneg_of_pos (hs.estimate_nonneg u) (mul_pos hα hpos))
    · rw [pushScore, Function.update_of_ne huv]
      exact hu.imp_left fun h => h.trans (Kernel.le_pushResidual hα1 hs.residual_nonneg huv)

/-- **Who gets a score**: at the exit, the nodes that have met their threshold. -/
theorem estimate_pos_iff (hg : g.WellFormed) (hα : 0 < alpha) (hα1 : alpha ≤ 1) (heps : 0 < eps)
    (hseed : ∀ e ∈ seed, 0 ≤ e.2) {s : PushState g.n}
    (hs : Loop.Reaches (pushStep g alpha eps) (initState g eps seed) s)
    (hexit : pushStep g alpha eps s = none) :
    0 < s.estimate u ↔ MeetsThreshold g alpha eps seed u := by
  constructor
  · exact fun hu => .of_estimate_pos hg hs hu
  · rintro ⟨t, ht, hu⟩
    have hinv := PushInv.of_reaches hg hα hα1 heps hseed ht
    obtain ⟨hinv', hover | hpos⟩ :=
      estimate_pos_of_threshold hg hα hα1 heps hinv hu (ht.exit hs hexit)
    · exact absurd hover (not_le.2 (hinv'.exit hexit u))
    · exact hpos

theorem residual_initState (seed : List (ℤ × ℚ)) :
    (initState g eps seed).residual = seedMass g seed :=
  have hinit : Seeding g eps (seedMass g seed) seed (initState g eps seed) := seeding_initState seed
  hinit.residual

/-- Enough seed mass meets the threshold at once. -/
theorem MeetsThreshold.of_seedMass (h : eps * g.degreeOf u ≤ seedMass g seed u) :
    MeetsThreshold g alpha eps seed u :=
  ⟨_, .refl, by rwa [residual_initState]⟩

/-- Without diffusion, only the seed mass can meet the threshold. -/
theorem MeetsThreshold.seedMass (hg : g.WellFormed) (heps : 0 < eps)
    (hseed : ∀ e ∈ seed, 0 ≤ e.2) (h : MeetsThreshold g 1 eps seed u) :
    eps * g.degreeOf u ≤ Cognis.seedMass g seed u := by
  obtain ⟨s, hs, hu⟩ := h
  have hle : PushInv hg 1 eps (Cognis.seedMass g seed) s ∧
      s.residual u ≤ Cognis.seedMass g seed u := by
    refine Loop.invariant (I := fun s => PushInv hg 1 eps (Cognis.seedMass g seed) s ∧
      s.residual u ≤ Cognis.seedMass g seed u) ?_ hs
      ⟨pushInv_init hg heps hseed, by rw [residual_initState]⟩
    rintro s t ⟨hinv, hle⟩ hstep
    refine ⟨hinv.step one_pos le_rfl heps hstep, ?_⟩
    obtain ⟨v, active, -, ⟨-, hr, -⟩ | ⟨-, -, hr, -⟩⟩ := pushStep_cases hg hstep
    · rwa [hr]
    · rw [hr]
      exact (Kernel.pushResidual_one_le hinv.residual_nonneg v u).trans hle
  exact hu.trans hle.2

end

/-! ## The output -/

section
variable {f64Literal : ℚ → String} {g : CodeGraph} {alpha eps : ℚ}

theorem nodeId_inj (hids : g.nodeIds.Nodup) {u v : ℕ} (hu : u < g.n) (hv : v < g.n)
    (h : nodeId g u = nodeId g v) : u = v := by
  unfold nodeId at h
  rw [List.getD_eq_getElem _ _ hu, List.getD_eq_getElem _ _ hv] at h
  exact (hids.getElem_inj_iff).1 h

/-- The hits of the nodes with a score, all of which `k` leaves. -/
def rankedHits (f64Literal : ℚ → String) (g : CodeGraph) (alpha : ℚ) (seed : List (ℤ × ℚ))
    (estimate : Fin g.n → ℚ) : List Hit :=
  (Ranking.ranked (massKey g) (nonzero estimate)).map
    (csarHit f64Literal g alpha (seed.map Prod.fst))

theorem diffuseSeedHits_eq {fuel k : ℕ} {hitsPerLayer : List (List Hit)} (hα : 0 < alpha)
    (hα1 : alpha ≤ 1) (heps : 0 < eps) (hk : g.n ≤ k)
    (hseed : buildSeedDistribution hitsPerLayer g ≠ []) {s : PushState g.n}
    (hrun : Loop.run (pushStep g alpha eps) fuel
      (initState g eps (buildSeedDistribution hitsPerLayer g)) = some s) (hn : g.n ≠ 0) :
    diffuseSeedHits f64Literal g fuel hitsPerLayer k alpha eps = .ok (some
      (rankedHits f64Literal g alpha (buildSeedDistribution hitsPerLayer g) s.estimate)) := by
  have hpush : approximatePprPush g alpha eps fuel (buildSeedDistribution hitsPerLayer g) =
      .ok (some ⟨nonzero s.estimate, nonzero s.residual, s.work, s.pushes⟩) := by
    rw [approximatePprPush, if_neg (not_not.2 ⟨hα, hα1⟩), if_neg heps.not_ge, hrun]
    rfl
  have htake : (Ranking.ranked (massKey g) (nonzero s.estimate)).take k =
      Ranking.ranked (massKey g) (nonzero s.estimate) := by
    refine List.take_of_length_le ?_
    rw [(Ranking.ranked_perm _ _).length_eq]
    refine le_trans ?_ hk
    have hlen := List.length_filterMap_le
      (fun u : Fin g.n => if s.estimate u ≠ 0 then some (u.1, s.estimate u) else none)
      (List.finRange g.n)
    rwa [List.length_finRange] at hlen
  unfold diffuseSeedHits rankedHits
  dsimp only
  rw [if_neg hn, if_neg (by simpa using hseed), hpush]
  simp only [Except.map, Option.map_some, htake]
  split_ifs with hempty
  · rw [List.isEmpty_iff] at hempty
    rw [hempty]
    rfl
  · rfl

theorem nodup_rankedHits (hids : g.nodeIds.Nodup) (seed : List (ℤ × ℚ)) (estimate : Fin g.n → ℚ) :
    ((rankedHits f64Literal g alpha seed estimate).map Hit.symbolId).Nodup := by
  have hperm := (Ranking.ranked_perm (massKey g) (nonzero estimate)).map fun m => nodeId g m.1
  have hmap : (rankedHits f64Literal g alpha seed estimate).map Hit.symbolId =
      (Ranking.ranked (massKey g) (nonzero estimate)).map fun m => nodeId g m.1 := by
    rw [rankedHits, List.map_map]
    rfl
  have hnodes : (nonzero estimate).map (fun m => nodeId g m.1) =
      ((nonzero estimate).map Prod.fst).map (nodeId g) := by
    rw [List.map_map]
    rfl
  rw [hmap, hperm.nodup_iff, hnodes]
  refine List.Nodup.map_on (fun u hu v hv h => ?_) (nodup_nonzero estimate)
  obtain ⟨e, he, rfl⟩ := List.mem_map.1 hu
  obtain ⟨e', he', rfl⟩ := List.mem_map.1 hv
  obtain ⟨u, -, rfl⟩ := mem_nonzero.1 he
  obtain ⟨v, -, rfl⟩ := mem_nonzero.1 he'
  exact nodeId_inj hids u.2 v.2 h

theorem mem_rankedHits {seed : List (ℤ × ℚ)} {estimate : Fin g.n → ℚ} {o : Hit} :
    o ∈ rankedHits f64Literal g alpha seed estimate ↔ ∃ u : Fin g.n, estimate u ≠ 0 ∧
      o = csarHit f64Literal g alpha (seed.map Prod.fst) (u.1, estimate u) := by
  rw [rankedHits, List.mem_map]
  constructor
  · rintro ⟨m, hm, rfl⟩
    obtain ⟨u, hu, rfl⟩ := mem_nonzero.1 ((Ranking.ranked_perm _ _).mem_iff.1 hm)
    exact ⟨u, hu, rfl⟩
  · rintro ⟨u, hu, rfl⟩
    exact ⟨_, (Ranking.ranked_perm _ _).mem_iff.2 (mem_nonzero.2 ⟨u, hu, rfl⟩), rfl⟩

/-- **What the output holds**: the seeds are kept when the nodes of the hits have a score. -/
theorem seedsKept_rankedHits_iff {hitsPerLayer : List (List Hit)} (hids : g.nodeIds.Nodup)
    (hindex : g.index = buildIndex g.nodeIds) {estimate : Fin g.n → ℚ}
    (hestimate : ∀ u, 0 ≤ estimate u) :
    SeedsKept g hitsPerLayer (rankedHits f64Literal g alpha
        (buildSeedDistribution hitsPerLayer g) estimate) ↔
      ∀ sid u, HitAt g hitsPerLayer sid u.1 → 0 < estimate u := by
  have hspec : ∀ {sid : String} {u : ℕ}, g.index sid = some u → u < g.n ∧ nodeId g u = sid := by
    intro sid u hu
    rw [hindex] at hu
    refine ⟨buildIndex_lt hu, ?_⟩
    rw [nodeId, List.getD_eq_getElem?_getD, buildIndex_spec hu, Option.getD_some]
  constructor
  · rintro hkept sid u ⟨hits, hhits, h, hh, rfl, hu⟩
    have hmem : h.symbolId ∈ g.nodeIds := by
      rw [← buildIndex_isSome, ← hindex, hu]
      rfl
    have hone := (hkept hits hhits h hh hmem).1
    obtain ⟨o, ho, hid⟩ := List.mem_map.1 (List.count_pos_iff.1 (hone ▸ one_pos))
    obtain ⟨v, hv, rfl⟩ := mem_rankedHits.1 ho
    have hvu : v = u := by
      refine Fin.ext (nodeId_inj hids v.2 u.2 ?_)
      rw [(hspec hu).2]
      exact hid
    subst hvu
    exact (hestimate v).lt_of_ne' hv
  · intro hpos hits hhits h hh hmem
    obtain ⟨u, hu⟩ : ∃ u, g.index h.symbolId = some u := by
      rw [← Option.isSome_iff_exists, hindex]
      exact buildIndex_isSome.2 hmem
    obtain ⟨hlt, hid⟩ := hspec hu
    have hat : HitAt g hitsPerLayer h.symbolId u := ⟨hits, hhits, h, hh, rfl, hu⟩
    have hscore : 0 < estimate ⟨u, hlt⟩ := hpos h.symbolId ⟨u, hlt⟩ hat
    refine ⟨List.count_eq_one_of_mem (nodup_rankedHits hids _ _) ?_, fun o ho hoid => ?_⟩
    · exact List.mem_map.2 ⟨_, mem_rankedHits.2 ⟨⟨u, hlt⟩, hscore.ne', rfl⟩, hid⟩
    · obtain ⟨v, hv, rfl⟩ := mem_rankedHits.1 ho
      have hvu : v = ⟨u, hlt⟩ := Fin.ext (nodeId_inj hids v.2 hlt (hoid.trans hid.symm))
      subst hvu
      have hseed : asI32 u ∈ (buildSeedDistribution hitsPerLayer g).map Prod.fst :=
        mem_seedNodes.2 ⟨h.symbolId, u, hat, rfl⟩
      refine ⟨hscore, ?_⟩
      simp only [csarHit, Json.get, hseed, not_true_eq_false, decide_false, Bool.not_false]
      rfl

/-- Without a hit in the graph there is nothing to keep. -/
theorem seedsKept_of_not_hitAt {hitsPerLayer : List (List Hit)}
    (hindex : g.index = buildIndex g.nodeIds) (h : ∀ sid u, ¬ HitAt g hitsPerLayer sid u)
    (out : List Hit) : SeedsKept g hitsPerLayer out := by
  intro hits hhits hit hhit hmem
  obtain ⟨u, hu⟩ : ∃ u, g.index hit.symbolId = some u := by
    rw [← Option.isSome_iff_exists, hindex]
    exact buildIndex_isSome.2 hmem
  exact absurd ⟨hits, hhits, hit, hhit, rfl, hu⟩ (h hit.symbolId u)

end

section
variable (f64Literal : ℚ → String)

end

end Cognis
