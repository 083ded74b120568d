/-
  The builder of the code graph over the rows of the store (`build_code_graph_on_connection`),
  against the one of `cognis-core`.

  The store adds the rows as it reads them, with its own filters; `from_weighted_triples` is
  given triples.

  * `buildCodeGraphOnConnection_eq`: the graph of the rows is the graph of their triples;
  * `buildCodeGraph_eq`: the graph of a database is the one of its rows;
  * `csr_and_store_iff`: the compressed form is right, in either builder, exactly when an `i32`
    counts the entries.
-/
import Cognis.Core.Csr
import Cognis.Store.Reads

namespace Cognis

open CodeGraph Table

/-! ## The rows -/

/-- A row of the query: `src_id`, `dst_id`, `kind`, `confidence` and the column
    `COALESCE(json_extract(meta, '$.dst_missing'), 0)`. -/
structure EdgeRow where
  srcId : String
  dstId : String
  kind : String
  confidence : Option ℚ
  dstMissing : Option ℕ

/-- The body of the loop over the rows. -/
def addEdgeRow (index : String → Option ℕ) (kindFilter : Option (List String)) (acc : List Row)
    (row : EdgeRow) : List Row :=
  -- edges into deleted symbols
  if row.dstMissing.getD 0 = 1 then acc
  else if kindFilter.any (row.kind ∉ ·) then acc
  else
    match index row.srcId, index row.dstId with
    | some u, some v =>
      if u = v then acc
      else
        let w := row.confidence.getD 1
        if w ≤ 0 then acc
        else (acc.modify u (addEntry (asI32 v) w)).modify v (addEntry (asI32 u) w)
    | _, _ => acc

/-- `build_code_graph_on_connection`, on the ids and the rows that the two queries return. -/
def buildCodeGraphOnConnection (nodeIds : List String) (kinds : Option (List String))
    (rows : List EdgeRow) : CodeGraph :=
  let acc := rows.foldl (addEdgeRow (buildIndex nodeIds) kinds) (List.replicate nodeIds.length [])
  acc.zipIdx.foldl pushRow
    { indptr := [0], indices := [], weights := [], degree := [], nodeIds
      index := buildIndex nodeIds }

/-- The weighted triple of a row that is not dropped. -/
def EdgeRow.triple (index : String → Option ℕ) (kindFilter : Option (List String))
    (row : EdgeRow) : Option (ℕ × ℕ × ℚ) :=
  if row.dstMissing.getD 0 = 1 ∨ kindFilter.any (row.kind ∉ ·) then none
  else
    match index row.srcId, index row.dstId with
    | some u, some v => some (u, v, row.confidence.getD 1)
    | _, _ => none

/-- The row of an edge: `json_extract` reads `true` as 1. -/
def Edge.row (edge : Edge) : EdgeRow where
  srcId := edge.srcId
  dstId := edge.dstId
  kind := edge.kind.toDbString
  confidence := some edge.confidence
  dstMissing :=
    match edge.get "dst_missing" with
    | some (.bool true) => some 1
    | some (.uint k) => some k.toNat
    | _ => some 0

/-! ## The two builders -/

/-- A row is added as its triple is. -/
theorem addEdgeRow_eq {nodeIds : List String} (kinds : Option (List String)) (acc : List Row)
    (row : EdgeRow) : addEdgeRow (buildIndex nodeIds) kinds acc row =
      match row.triple (buildIndex nodeIds) kinds with
      | some t => addTriple nodeIds.length true acc t
      | none => acc := by
  unfold addEdgeRow EdgeRow.triple
  by_cases hmissing : row.dstMissing.getD 0 = 1
  · rw [if_pos hmissing, if_pos (.inl hmissing)]
  · by_cases hkind : kinds.any (row.kind ∉ ·) = true
    · rw [if_neg hmissing, if_pos hkind, if_pos (.inr hkind)]
    · rw [if_neg hmissing, if_neg hkind, if_neg (not_or.2 ⟨hmissing, hkind⟩)]
      cases hu : buildIndex nodeIds row.srcId with
      | none => rfl
      | some u =>
        cases hv : buildIndex nodeIds row.dstId with
        | none => rfl
        | some v =>
          have hu := buildIndex_lt hu
          have hv := buildIndex_lt hv
          dsimp only [addTriple]
          by_cases hself : u = v
          · rw [if_pos hself, if_pos (.inr (.inr (.inl hself)))]
          · by_cases hweight : row.confidence.getD 1 ≤ 0
            · rw [if_neg hself, if_pos hweight, if_pos (.inr (.inr (.inr hweight)))]
            · rw [if_neg hself, if_neg hweight, if_neg, if_pos rfl]
              rintro (h | h | h | h)
              · omega
              · omega
              · exact hself h
              · exact hweight h

/-- **The builders agree**: the graph of the rows is that of their triples. -/
theorem buildCodeGraphOnConnection_eq (nodeIds : List String) (kinds : Option (List String))
    (rows : List EdgeRow) : buildCodeGraphOnConnection nodeIds kinds rows =
      fromWeightedTriples nodeIds (rows.filterMap (EdgeRow.triple (buildIndex nodeIds) kinds))
        true := by
  have hfold : ∀ acc : List Row, rows.foldl (addEdgeRow (buildIndex nodeIds) kinds) acc =
      (rows.filterMap (EdgeRow.triple (buildIndex nodeIds) kinds)).foldl
        (addTriple nodeIds.length true) acc := by
    induction rows with
    | nil => exact fun acc => rfl
    | cons row rows ih =>
      intro acc
      rw [List.foldl_cons, addEdgeRow_eq]
      cases htriple : row.triple (buildIndex nodeIds) kinds with
      | none => rw [List.filterMap_cons_none htriple, ih]
      | some t => rw [List.filterMap_cons_some htriple, List.foldl_cons, ih]
  rw [buildCodeGraphOnConnection, fromWeightedTriples, hfold]

/-- The column of an edge whose destination is gone. -/
theorem row_dstMissing (edge : Edge) : edge.row.dstMissing.getD 0 = 1 ↔
    edge.get "dst_missing" = some (.bool true) ∨ edge.get "dst_missing" = some (.uint 1) := by
  unfold Edge.row
  dsimp only
  split
  next h => simp [h]
  next k h =>
    have hone : k.toNat = 1 ↔ k = 1 := UInt64.toNat_inj (b := 1)
    simp [h, hone]
  next htrue huint =>
    refine iff_of_false (by decide) ?_
    rintro (h | h)
    · exact htrue h
    · exact huint 1 h

/-- The graph of a database is built from its rows. -/
theorem buildCodeGraph_eq (db : Database) : db.buildCodeGraph =
    buildCodeGraphOnConnection ((sortOn Symbol.id db.symbols).map Symbol.id) none
      (db.edges.map Edge.row) := by
  rw [buildCodeGraphOnConnection_eq, Database.buildCodeGraph, List.filterMap_map]
  congr 1
  refine List.filterMap_congr fun edge _ => ?_
  have hrow := row_dstMissing edge
  unfold Database.graphTriple
  simp only [Function.comp_def, EdgeRow.triple, Option.any_none, Bool.false_eq_true, or_false]
  split
  next h => rw [if_pos (hrow.2 (.inl h))]
  next h => rw [if_pos (hrow.2 (.inr h))]
  next htrue hone =>
    rw [if_neg fun h => (hrow.1 h).elim htrue hone]
    rfl

/-- **The compressed form**, and the graph of the store for the same rows: right exactly when an
    `i32` counts the entries. -/
theorem csr_and_store_iff (nodeIds : List String) (triples : List (ℕ × ℕ × ℚ)) (symmetrize : Bool)
    (hn : nodeIds.length < 2 ^ 31) :
    (Csr triples symmetrize (fromWeightedTriples nodeIds triples symmetrize) ∧
      ∀ (kinds : Option (List String)) (rows : List EdgeRow),
        buildCodeGraphOnConnection nodeIds kinds rows =
          fromWeightedTriples nodeIds (rows.filterMap (EdgeRow.triple (buildIndex nodeIds) kinds))
            true) ↔
      entryCount nodeIds.length triples symmetrize < 2 ^ 31 := by
  rw [← csr_iff_entryCount_lt hn]
  exact ⟨fun h => h.1, fun h => ⟨h, buildCodeGraphOnConnection_eq nodeIds⟩⟩

/-- An edge and an isolated node. -/
theorem csr_and_store_edge :
    ["a", "b", "c"].length < 2 ^ 31 ∧
      (Csr [(0, 1, 1)] true (fromWeightedTriples ["a", "b", "c"] [(0, 1, 1)] true) ∧
        ∀ (kinds : Option (List String)) (rows : List EdgeRow),
          buildCodeGraphOnConnection ["a", "b", "c"] kinds rows =
            fromWeightedTriples ["a", "b", "c"]
              (rows.filterMap (EdgeRow.triple (buildIndex ["a", "b", "c"]) kinds)) true) :=
  ⟨by decide, (csr_and_store_iff ["a", "b", "c"] [(0, 1, 1)] true (by decide)).2 (by decide +kernel)⟩

/-- The compressed form for every list of triples. -/
def AlwaysCsr : Prop :=
  ∀ (nodeIds : List String) (triples : List (ℕ × ℕ × ℚ)) (symmetrize : Bool), nodeIds.Nodup →
    nodeIds.length < 2 ^ 31 → Csr triples symmetrize (fromWeightedTriples nodeIds triples symmetrize)

/-- `2 ^ 16` nodes, each with an edge to all others. -/
theorem not_alwaysCsr : ¬ AlwaysCsr := by
  intro h
  have hlen : (unaryIds (2 ^ 16)).length = 2 ^ 16 := by simp [unaryIds]
  have hcsr := h (unaryIds (2 ^ 16)) (complete (2 ^ 16)) false (nodup_unaryIds _) (by rw [hlen]; decide)
  rw [csr_iff_entryCount_lt (by rw [hlen]; decide), hlen] at hcsr
  have hmany := le_entryCount_complete (2 ^ 16)
  omega

end Cognis
