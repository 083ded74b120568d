/-
  The fusion of ranked hits (`fusion.rs`) and the composition of a capsule (`capsule.rs`) of
  `cognis-retrieval`.

  * `rrfFuse` regroups the hits by the layer they name, ranks each group, and adds up the
    reciprocal ranks of a symbol;
  * `composeCapsuleWithEdges` appends the hits of the diffusion, and those of the edges,
    to the fused ones;
  * `mem_composeCapsule`: a hit of a capsule is a fused one, or one of the diffusion.
-/
import Cognis.Lib.Binary64
import Cognis.Lib.Json

namespace Cognis

/-- `Hit` -/
structure Hit where
  symbolId : String
  score : ℚ
  layer : String
  reason : String
  evidence : Json := .object []

/-! ## Reciprocal rank fusion -/

/-- `DEFAULT_RRF_K` -/
def defaultRrfK : ℚ := 60

/-- Put a hit into the group of its layer; the groups stand in the order of their first hit. -/
def addToLayer (hit : Hit) : List (String × List Hit) → List (String × List Hit)
  | [] => [(hit.layer, [hit])]
  | (layer, hits) :: grouped =>
    if layer = hit.layer then (layer, hits ++ [hit]) :: grouped
    else (layer, hits) :: addToLayer hit grouped

/-- The hits by the layer they name. -/
def groupByLayer (hits : List Hit) : List (String × List Hit) :=
  hits.foldl (fun grouped hit => addToLayer hit grouped) []

/-- Best first, ties by the id. -/
def better (a b : ℚ × String) : Bool := decide (b.1 < a.1) || decide (a.1 = b.1) && decide (a.2 ≤ b.2)

/-- Add a contribution to the score of a symbol. -/
def addScore (symbolId : String) (contribution : ℚ) : List (String × ℚ) → List (String × ℚ)
  | [] => [(symbolId, contribution)]
  | (sid, score) :: fused =>
    if sid = symbolId then (sid, Binary64.add score contribution) :: fused
    else (sid, score) :: addScore symbolId contribution fused

/-- The variables of the pass over one layer. -/
structure LayerPass where
  rank : ℕ
  seen : List String
  fused : List (String × ℚ)

/-- One hit of the layer: a symbol has one rank in it. -/
def LayerPass.step (rrfK : ℚ) (p : LayerPass) (hit : Hit) : LayerPass :=
  if hit.symbolId ∈ p.seen then p
  else
    let rank := p.rank + 1
    ⟨rank, p.seen ++ [hit.symbolId],
      addScore hit.symbolId (Binary64.round (1 / Binary64.add rrfK rank)) p.fused⟩

/-- The fused scores after one more layer. -/
def fuseLayer (rrfK : ℚ) (fused : List (String × ℚ)) (hits : List Hit) : List (String × ℚ) :=
  let ranked := hits.mergeSort fun a b => better (a.score, a.symbolId) (b.score, b.symbolId)
  (ranked.foldl (LayerPass.step rrfK) ⟨0, [], fused⟩).fused

/-- A number with six decimals. -/
def sixDecimals (x : ℚ) : String :=
  let scaled := (Binary64.halfEven (x * 10 ^ 6)).toNat
  let digits := toString (scaled % 10 ^ 6)
  toString (scaled / 10 ^ 6) ++ "." ++ String.ofList (List.replicate (6 - digits.length) '0') ++ digits

/-- The fused hit at a rank. Its evidence repeats the score and the rank. -/
def fusedHit (entry : (String × ℚ) × ℕ) : Hit where
  symbolId := entry.1.1
  score := entry.1.2
  layer := "fused"
  reason := "RRF fused rank " ++ toString (entry.2 + 1) ++ " (score " ++ sixDecimals entry.1.2 ++ ")"

/-- `rrf_fuse` -/
def rrfFuse (layers : List (List Hit)) (k : ℕ) (rrfK : ℚ) : List Hit :=
  if k = 0 ∨ rrfK ≤ 0 then []
  else
    let grouped := groupByLayer layers.flatten
    let fused := (grouped.map Prod.snd).foldl (fuseLayer rrfK) []
    let ranked := fused.mergeSort fun a b => better (a.2, a.1) (b.2, b.1)
    ((ranked.take k).zipIdx).map fusedHit

/-! ## The capsule -/

/-- Append the hits of symbols that are not there yet, up to `k` hits in all. -/
def appendNew (k : ℕ) (composed : List Hit) : List Hit → List Hit
  | [] => composed
  | hit :: hits =>
    if k ≤ composed.length then composed
    else if hit.symbolId ∈ composed.map Hit.symbolId then appendNew k composed hits
    else appendNew k (composed ++ [hit]) hits

/-- `compose_capsule` -/
def composeCapsule (directLayers : List (List Hit)) (csarHits : List Hit) (k : ℕ) (rrfK : ℚ) :
    List Hit :=
  if k = 0 then [] else appendNew k (rrfFuse directLayers k rrfK) csarHits

/-- `compose_capsule_with_edges` -/
def composeCapsuleWithEdges (directLayers : List (List Hit)) (csarHits edgeContext : List Hit)
    (k : ℕ) (rrfK : ℚ) (flag : Bool) : List Hit :=
  let composed := composeCapsule directLayers csarHits k rrfK
  if flag then appendNew k composed edgeContext else composed

theorem layer_of_mem_rrfFuse {layers : List (List Hit)} {k : ℕ} {rrfK : ℚ} {h : Hit}
    (hh : h ∈ rrfFuse layers k rrfK) : h.layer = "fused" := by
  unfold rrfFuse at hh
  split_ifs at hh
  · cases hh
  · obtain ⟨entry, -, rfl⟩ := List.mem_map.1 hh
    rfl

theorem mem_appendNew {k : ℕ} {composed hits : List Hit} {h : Hit}
    (hh : h ∈ appendNew k composed hits) : h ∈ composed ∨ h ∈ hits := by
  induction hits generalizing composed with
  | nil => exact .inl hh
  | cons hit hits ih =>
    unfold appendNew at hh
    split_ifs at hh
    · exact .inl hh
    · exact (ih hh).imp_right (List.mem_cons_of_mem _)
    · rcases ih hh with hc | hh
      · rcases List.mem_append.1 hc with hc | hc
        · exact .inl hc
        · exact .inr (List.mem_singleton.1 hc ▸ List.mem_cons_self)
      · exact .inr (List.mem_cons_of_mem _ hh)

/-- A hit of a capsule is a fused one, or one of the diffusion. -/
theorem mem_composeCapsule {directLayers : List (List Hit)} {csarHits : List Hit} {k : ℕ}
    {rrfK : ℚ} {h : Hit} (hh : h ∈ composeCapsule directLayers csarHits k rrfK) :
    h.layer = "fused" ∨ h ∈ csarHits := by
  unfold composeCapsule at hh
  split_ifs at hh
  · cases hh
  · exact (mem_appendNew hh).imp_left layer_of_mem_rrfFuse

theorem composeCapsuleWithEdges_nil (directLayers : List (List Hit)) (csarHits : List Hit) (k : ℕ)
    (rrfK : ℚ) (flag : Bool) :
    composeCapsuleWithEdges directLayers csarHits [] k rrfK flag =
      composeCapsule directLayers csarHits k rrfK := by
  cases flag <;> rfl

end Cognis
