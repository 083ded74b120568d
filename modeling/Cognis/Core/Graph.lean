/-
  The resident code graph of `cognis-core` (`graph.rs`): a weighted graph in
  compressed rows, built from weighted triples.

  Weights are exact rationals, positions are `i32` (`asI32`).

  * `Represents` relates the compressed arrays to the list of rows;
  * `wellFormed_fromWeightedTriples`: in a graph whose entries are counted by an
    `i32`, every entry is a node with a positive weight and every degree is the
    positive sum of its row.
-/
import Cognis.Lib.Diffusion
import Mathlib.Algebra.Order.BigOperators.Group.List
import Mathlib.Algebra.Order.Ring.Rat
import Mathlib.Data.List.GetD

namespace Cognis

/-! ## The graph -/

/-- `CodeGraph`: row `u` spans `indptr[u]..indptr[u + 1]` of `indices` and `weights`. -/
structure CodeGraph where
  indptr : List ℤ
  indices : List ℤ
  weights : List ℚ
  degree : List ℚ
  nodeIds : List String
  index : String → Option ℕ

/-- The cast `x as i32` of a `usize`. -/
def asI32 (x : ℕ) : ℤ :=
  let r : ℕ := x % 2 ^ 32
  if r < 2 ^ 31 then r else (r : ℤ) - 2 ^ 32

namespace CodeGraph

/-- `CodeGraph::n` -/
def n (g : CodeGraph) : ℕ := g.nodeIds.length

/-- `CodeGraph::nnz` -/
def nnz (g : CodeGraph) : ℕ := g.indices.length

/-- `CodeGraph::neighbors` -/
def neighbors (g : CodeGraph) (u : ℕ) : List ℤ × List ℚ :=
  if g.n ≤ u then ([], []) else
    let start := (g.indptr.getD u 0).toNat
    let stop := (g.indptr.getD (u + 1) 0).toNat
    ((g.indices.drop start).take (stop - start), (g.weights.drop start).take (stop - start))

/-- A row under construction: a `BTreeMap<i32, f64>`, by ascending key. -/
abbrev Row := List (ℤ × ℚ)

/-- `*entry(v).or_insert(0.0) += w` -/
def addEntry (v : ℤ) (w : ℚ) : Row → Row
  | [] => [(v, 0 + w)]
  | (k, x) :: row =>
    if v < k then (v, 0 + w) :: (k, x) :: row
    else if v = k then (k, x + w) :: row
    else (k, x) :: addEntry v w row

/-- One triple: self-loops, nodes out of range and weights `≤ 0` are skipped. -/
def addTriple (n : ℕ) (symmetrize : Bool) (acc : List Row) (t : ℕ × ℕ × ℚ) : List Row :=
  let (u, v, w) := t
  if n ≤ u ∨ n ≤ v ∨ u = v ∨ w ≤ 0 then acc else
    let acc := acc.modify u (addEntry (asI32 v) w)
    if symmetrize then acc.modify v (addEntry (asI32 u) w) else acc

/-- One row of the compressed form; an isolated node gets a unit self-loop. -/
def pushRow (g : CodeGraph) (row : Row × ℕ) : CodeGraph :=
  let (neighbors, u) := row
  let g := if neighbors.isEmpty then
      { g with
        indices := g.indices ++ [asI32 u]
        weights := g.weights ++ [1]
        degree := g.degree ++ [1] }
    else
      { g with
        indices := g.indices ++ neighbors.map Prod.fst
        weights := g.weights ++ neighbors.map Prod.snd
        degree := g.degree ++ [(neighbors.map Prod.snd).sum] }
  { g with indptr := g.indptr ++ [asI32 g.indices.length] }

/-- The position of each id; the last one wins. -/
def buildIndex (nodeIds : List String) : String → Option ℕ :=
  nodeIds.zipIdx.foldl (fun index (id, i) => Function.update index id (some i)) fun _ => none

/-- `CodeGraph::from_weighted_triples` -/
def fromWeightedTriples (nodeIds : List String) (triples : List (ℕ × ℕ × ℚ))
    (symmetrize : Bool) : CodeGraph :=
  let n := nodeIds.length
  let acc := triples.foldl (addTriple n symmetrize) (List.replicate n [])
  acc.zipIdx.foldl pushRow
    { indptr := [0], indices := [], weights := [], degree := [], nodeIds
      index := buildIndex nodeIds }

/-! ## Nodes and weights -/

/-- The node an `i32` index stands for, if it is in range. -/
def node? (g : CodeGraph) (v : ℤ) : Option (Fin g.n) :=
  if h : 0 ≤ v ∧ v.toNat < g.n then some ⟨v.toNat, h.2⟩ else none

/-- The entries of row `u`. -/
def entries (g : CodeGraph) (u : ℕ) : List (ℤ × ℚ) := (g.neighbors u).1.zip (g.neighbors u).2

/-- `degree[u]` -/
def degreeOf (g : CodeGraph) (u : Fin g.n) : ℚ := g.degree.getD u 0

/-- The weight from `u` to `v`. -/
def weight (g : CodeGraph) (u v : Fin g.n) : ℚ :=
  ((g.entries u).map fun e => if g.node? e.1 = some v then e.2 else 0).sum

/-- Entries are nodes with positive weights, and degrees are positive row sums. -/
structure WellFormed (g : CodeGraph) : Prop where
  valid : ∀ u : Fin g.n, ∀ e ∈ g.entries u, ∃ v, g.node? e.1 = some v
  pos : ∀ u : Fin g.n, ∀ e ∈ g.entries u, 0 < e.2
  degree_eq : ∀ u : Fin g.n, g.degreeOf u = ((g.entries u).map Prod.snd).sum
  degree_pos : ∀ u : Fin g.n, 0 < g.degreeOf u

theorem sum_ite_node? (g : CodeGraph) {l : List (ℤ × ℚ)}
    (h : ∀ e ∈ l, ∃ v, g.node? e.1 = some v) :
    ∑ v, (l.map fun e => if g.node? e.1 = some v then e.2 else 0).sum = (l.map Prod.snd).sum := by
  induction l with
  | nil => simp
  | cons e l ih =>
    obtain ⟨u, hu⟩ := h e (by simp)
    simp only [List.map_cons, List.sum_cons, Finset.sum_add_distrib]
    rw [ih fun x hx => h x (List.mem_cons_of_mem e hx), hu]
    simp

theorem WellFormed.sum_weight {g : CodeGraph} (hg : g.WellFormed) (u : Fin g.n) :
    ∑ v, g.weight u v = g.degreeOf u := by
  rw [hg.degree_eq]; exact g.sum_ite_node? (hg.valid u)

theorem WellFormed.weight_nonneg {g : CodeGraph} (hg : g.WellFormed) (u v : Fin g.n) :
    0 ≤ g.weight u v := by
  refine List.sum_nonneg fun x hx => ?_
  obtain ⟨e, he, rfl⟩ := List.mem_map.1 hx
  split_ifs
  · exact (hg.pos u e he).le
  · exact le_rfl

/-- The transition matrix `P = A D⁻¹`. -/
def WellFormed.kernel {g : CodeGraph} (hg : g.WellFormed) : Kernel (Fin g.n) ℚ where
  prob u v := g.weight u v / g.degreeOf u
  nonneg u v := div_nonneg (hg.weight_nonneg u v) (hg.degree_pos u).le
  sum_eq_one u := by
    rw [← Finset.sum_div, hg.sum_weight, div_self (hg.degree_pos u).ne']

/-! ## Positions -/

theorem foldl_update_eq_some {l : List (String × ℕ)} {f : String → Option ℕ} {id : String} {u : ℕ}
    (h : l.foldl (fun index (id, i) => Function.update index id (some i)) f id = some u) :
    f id = some u ∨ (id, u) ∈ l := by
  induction l generalizing f with
  | nil => exact .inl h
  | cons a l ih =>
    obtain ⟨key, i⟩ := a
    rcases ih h with hf | hl
    · dsimp only at hf
      by_cases hk : id = key
      · subst hk
        simp only [Function.update_self, Option.some.injEq] at hf
        exact .inr (hf ▸ List.mem_cons_self)
      · rw [Function.update_of_ne hk] at hf
        exact .inl hf
    · exact .inr (List.mem_cons_of_mem _ hl)

theorem foldl_update_isSome {l : List (String × ℕ)} {f : String → Option ℕ} {id : String}
    (h : (f id).isSome = true ∨ id ∈ l.map Prod.fst) :
    (l.foldl (fun index (id, i) => Function.update index id (some i)) f id).isSome = true := by
  induction l generalizing f with
  | nil => simpa using h
  | cons a l ih =>
    obtain ⟨key, i⟩ := a
    refine ih ?_
    by_cases hk : id = key
    · subst hk
      simp
    · simpa [Function.update_of_ne hk, hk] using h

/-- A position holds its id. -/
theorem buildIndex_spec {nodeIds : List String} {id : String} {u : ℕ}
    (h : buildIndex nodeIds id = some u) : nodeIds[u]? = some id := by
  rcases foldl_update_eq_some h with h | h
  · cases h
  · exact List.mk_mem_zipIdx_iff_getElem?.1 h

theorem buildIndex_lt {nodeIds : List String} {id : String} {u : ℕ}
    (h : buildIndex nodeIds id = some u) : u < nodeIds.length :=
  (List.getElem?_eq_some_iff.1 (buildIndex_spec h)).1

theorem buildIndex_isSome {nodeIds : List String} {id : String} :
    (buildIndex nodeIds id).isSome = true ↔ id ∈ nodeIds := by
  constructor
  · intro h
    obtain ⟨u, hu⟩ := Option.isSome_iff_exists.1 h
    exact List.mem_of_getElem? (buildIndex_spec hu)
  · intro h
    exact foldl_update_isSome (.inr (by simpa using h))

/-- Two ids at one position are equal. -/
theorem buildIndex_inj {nodeIds : List String} {id id' : String} {u : ℕ}
    (h : buildIndex nodeIds id = some u) (h' : buildIndex nodeIds id' = some u) : id = id' :=
  Option.some.inj ((buildIndex_spec h).symm.trans (buildIndex_spec h'))

/-! ## The compressed rows -/

/-- The entries stored for a row. -/
def storedRow (row : Row × ℕ) : Row := if row.1.isEmpty then [(asI32 row.2, 1)] else row.1

/-- The arrays of `g` hold the rows `rs`. -/
structure Represents (g : CodeGraph) (rs : List Row) : Prop where
  indices : g.indices = rs.flatten.map Prod.fst
  weights : g.weights = rs.flatten.map Prod.snd
  degree : g.degree = rs.map fun row => (row.map Prod.snd).sum
  indptr : g.indptr = (List.range (rs.length + 1)).map fun k => asI32 (rs.take k).flatten.length

theorem pushRow_eq (g : CodeGraph) (row : Row × ℕ) : pushRow g row =
    { g with
      indices := g.indices ++ (storedRow row).map Prod.fst
      weights := g.weights ++ (storedRow row).map Prod.snd
      degree := g.degree ++ [((storedRow row).map Prod.snd).sum]
      indptr := g.indptr ++ [asI32 (g.indices ++ (storedRow row).map Prod.fst).length] } := by
  obtain ⟨neighbors, u⟩ := row
  cases neighbors <;> simp [pushRow, storedRow]

theorem Represents.pushRow {g : CodeGraph} {rs : List Row} (h : g.Represents rs)
    (row : Row × ℕ) : (g.pushRow row).Represents (rs ++ [storedRow row]) := by
  rw [pushRow_eq]
  refine ⟨?_, ?_, ?_, ?_⟩
  · simp [h.indices]
  · simp [h.weights]
  · simp [h.degree]
  · rw [show (rs ++ [storedRow row]).length + 1 = (rs.length + 1) + 1 by simp, List.range_succ,
      List.map_append]
    simp only [h.indptr]
    congr 1
    · refine List.map_congr_left fun k hk => ?_
      rw [List.take_append_of_le_length (by have := List.mem_range.1 hk; omega)]
    · simp [h.indices, List.length_flatten, Function.comp_def]

theorem represents_foldl (rows : List (Row × ℕ)) {g : CodeGraph} {rs : List Row}
    (h : g.Represents rs) : (rows.foldl CodeGraph.pushRow g).Represents (rs ++ rows.map storedRow) := by
  induction rows generalizing g rs with
  | nil => simpa using h
  | cons row rows ih => simpa using ih (h.pushRow row)

theorem nodeIds_foldl (rows : List (Row × ℕ)) (g : CodeGraph) :
    (rows.foldl CodeGraph.pushRow g).nodeIds = g.nodeIds := by
  induction rows generalizing g with
  | nil => rfl
  | cons row rows ih => rw [List.foldl_cons, ih, pushRow_eq]

theorem index_foldl (rows : List (Row × ℕ)) (g : CodeGraph) :
    (rows.foldl CodeGraph.pushRow g).index = g.index := by
  induction rows generalizing g with
  | nil => rfl
  | cons row rows ih => rw [List.foldl_cons, ih, pushRow_eq]

theorem asI32_of_lt {x : ℕ} (h : x < 2 ^ 31) : asI32 x = x := by
  simp only [asI32]
  rw [Nat.mod_eq_of_lt (by omega), if_pos h]

theorem length_flatten_take_le (rs : List Row) (k : ℕ) :
    (rs.take k).flatten.length ≤ rs.flatten.length := by
  conv_rhs => rw [← List.take_append_drop k rs, List.flatten_append, List.length_append]
  omega

/-- In a graph whose size fits an `i32`, the slices of `neighbors` are the rows. -/
theorem Represents.entries {g : CodeGraph} {rs : List Row} (h : g.Represents rs)
    (hlen : rs.length = g.n) (hfit : g.nnz < 2 ^ 31) {u : ℕ} (hu : u < g.n) :
    g.entries u = rs.getD u [] := by
  have hnnz : rs.flatten.length = g.nnz := by rw [nnz, h.indices, List.length_map]
  have hptr : ∀ k ≤ g.n, (g.indptr.getD k 0).toNat = (rs.take k).flatten.length := by
    intro k hk
    have := length_flatten_take_le rs k
    rw [h.indptr, List.getD_eq_getElem _ _ (by simp; omega)]
    simp only [List.getElem_map, List.getElem_range]
    rw [asI32_of_lt (by omega), Int.toNat_natCast]
  have hu' : u < rs.length := by omega
  have hdrop : rs.flatten.drop (rs.take u).flatten.length = (rs.drop u).flatten := by
    conv_lhs => rw [← List.take_append_drop u rs, List.flatten_append]
    rw [List.take_append_drop, List.drop_left]
  have htake : ((rs.drop u).flatten).take
      ((rs.take (u + 1)).flatten.length - (rs.take u).flatten.length) = rs[u] := by
    rw [List.take_succ_eq_append_getElem hu', List.flatten_append, List.length_append,
      Nat.add_sub_cancel_left, List.drop_eq_getElem_cons hu', List.flatten_cons,
      List.flatten_cons, List.flatten_nil, List.append_nil, List.take_left]
  rw [CodeGraph.entries, neighbors, if_neg (by omega)]
  simp only [hptr u (by omega), hptr (u + 1) (by omega), h.indices, h.weights,
    ← List.map_drop, ← List.map_take, hdrop, htake]
  rw [List.getD_eq_getElem _ _ hu', List.zip_map']
  exact List.map_id' _

/-! ## The rows of a built graph -/

/-- The entries of a row built for `n` nodes. -/
def RowOK (n : ℕ) (row : Row) : Prop := ∀ e ∈ row, (∃ v < n, e.1 = asI32 v) ∧ 0 < e.2

theorem rowOK_addEntry {n v : ℕ} {w : ℚ} {row : Row} (h : RowOK n row) (hv : v < n) (hw : 0 < w) :
    RowOK n (addEntry (asI32 v) w row) := by
  induction row with
  | nil =>
    intro e he
    rw [addEntry, List.mem_singleton] at he
    subst he
    exact ⟨⟨v, hv, rfl⟩, by simpa using hw⟩
  | cons a row ih =>
    obtain ⟨k, x⟩ := a
    have ha := h (k, x) (by simp)
    have hrow : RowOK n row := fun e he => h e (List.mem_cons_of_mem _ he)
    intro e he
    simp only [addEntry] at he
    split_ifs at he with h1 h2
    · rcases List.mem_cons.1 he with rfl | he
      · exact ⟨⟨v, hv, rfl⟩, by simpa using hw⟩
      · exact h e he
    · rcases List.mem_cons.1 he with rfl | he
      · exact ⟨ha.1, add_pos ha.2 hw⟩
      · exact hrow e he
    · rcases List.mem_cons.1 he with rfl | he
      · exact ha
      · exact ih hrow e he

theorem rowOK_modify {n u v : ℕ} {w : ℚ} {acc : List Row} (h : ∀ row ∈ acc, RowOK n row)
    (hv : v < n) (hw : 0 < w) : ∀ row ∈ acc.modify u (addEntry (asI32 v) w), RowOK n row := by
  intro row hrow
  obtain ⟨i, hi, rfl⟩ := List.mem_iff_getElem.1 hrow
  rw [List.getElem_modify]
  split_ifs
  · exact rowOK_addEntry (h _ (List.getElem_mem _)) hv hw
  · exact h _ (List.getElem_mem _)

theorem rowOK_addTriple {n : ℕ} {symmetrize : Bool} {acc : List Row} (t : ℕ × ℕ × ℚ)
    (h : ∀ row ∈ acc, RowOK n row) : ∀ row ∈ addTriple n symmetrize acc t, RowOK n row := by
  obtain ⟨u, v, w⟩ := t
  simp only [addTriple]
  split_ifs with hskip hsym
  · exact h
  · simp only [not_or, not_le] at hskip
    exact rowOK_modify (rowOK_modify h hskip.2.1 hskip.2.2.2) hskip.1 hskip.2.2.2
  · simp only [not_or, not_le] at hskip
    exact rowOK_modify h hskip.2.1 hskip.2.2.2

theorem length_addTriple {n : ℕ} {symmetrize : Bool} (acc : List Row) (t : ℕ × ℕ × ℚ) :
    (addTriple n symmetrize acc t).length = acc.length := by
  obtain ⟨u, v, w⟩ := t
  simp only [addTriple]
  split_ifs <;> simp

/-- The rows before compression. -/
def buildRows (n : ℕ) (triples : List (ℕ × ℕ × ℚ)) (symmetrize : Bool) : List Row :=
  triples.foldl (addTriple n symmetrize) (List.replicate n [])

theorem length_buildRows (n : ℕ) (triples : List (ℕ × ℕ × ℚ)) (symmetrize : Bool) :
    (buildRows n triples symmetrize).length = n := by
  suffices h : ∀ acc : List Row, (triples.foldl (addTriple n symmetrize) acc).length = acc.length by
    rw [buildRows, h, List.length_replicate]
  induction triples with
  | nil => exact fun _ => rfl
  | cons t ts ih => intro acc; rw [List.foldl_cons, ih, length_addTriple]

theorem rowOK_buildRows (n : ℕ) (triples : List (ℕ × ℕ × ℚ)) (symmetrize : Bool) :
    ∀ row ∈ buildRows n triples symmetrize, RowOK n row := by
  suffices h : ∀ acc : List Row, (∀ row ∈ acc, RowOK n row) →
      ∀ row ∈ triples.foldl (addTriple n symmetrize) acc, RowOK n row by
    refine h _ fun row hrow => ?_
    rw [List.eq_of_mem_replicate hrow]
    simp [RowOK]
  induction triples with
  | nil => exact fun _ h => h
  | cons t ts ih => exact fun acc h => ih _ (rowOK_addTriple t h)

section
variable (nodeIds : List String) (triples : List (ℕ × ℕ × ℚ)) (symmetrize : Bool)

/-- The rows that `fromWeightedTriples` compresses. -/
def storedRows : List Row :=
  (buildRows nodeIds.length triples symmetrize).zipIdx.map storedRow

theorem n_fromWeightedTriples :
    (fromWeightedTriples nodeIds triples symmetrize).n = nodeIds.length := by
  rw [n, fromWeightedTriples, nodeIds_foldl]

@[simp]
theorem nodeIds_fromWeightedTriples :
    (fromWeightedTriples nodeIds triples symmetrize).nodeIds = nodeIds := by
  rw [fromWeightedTriples, nodeIds_foldl]

@[simp]
theorem index_fromWeightedTriples :
    (fromWeightedTriples nodeIds triples symmetrize).index = buildIndex nodeIds := by
  rw [fromWeightedTriples, index_foldl]

theorem represents_fromWeightedTriples :
    (fromWeightedTriples nodeIds triples symmetrize).Represents
      (storedRows nodeIds triples symmetrize) := by
  have h0 : Represents { indptr := [0], indices := [], weights := [], degree := [], nodeIds
                         index := buildIndex nodeIds } [] := ⟨rfl, rfl, rfl, rfl⟩
  have h := represents_foldl (buildRows nodeIds.length triples symmetrize).zipIdx h0
  rw [List.nil_append] at h
  exact h

theorem length_storedRows : (storedRows nodeIds triples symmetrize).length = nodeIds.length := by
  simp [storedRows, length_buildRows]

theorem storedRow_ok {row : Row} (hrow : row ∈ storedRows nodeIds triples symmetrize) :
    row ≠ [] ∧ RowOK nodeIds.length row := by
  obtain ⟨⟨r, u⟩, hr, rfl⟩ := List.mem_map.1 hrow
  obtain ⟨hu, hr⟩ := List.mk_mem_zipIdx_iff_getElem?.1 hr |> List.getElem?_eq_some_iff.1
  rw [length_buildRows] at hu
  cases hemp : r with
  | nil =>
    refine ⟨by simp [storedRow], fun e he => ?_⟩
    simp only [storedRow, List.isEmpty_nil, if_true, List.mem_singleton] at he
    subst he
    exact ⟨⟨u, hu, rfl⟩, one_pos⟩
  | cons e es =>
    refine ⟨by simp [storedRow], ?_⟩
    have hmem : r ∈ buildRows nodeIds.length triples symmetrize := hr ▸ List.getElem_mem _
    rw [← hemp]
    simpa [storedRow, hemp] using hemp ▸ rowOK_buildRows _ _ _ r hmem

theorem length_le_flatten {rs : List Row} (h : ∀ row ∈ rs, row ≠ []) :
    rs.length ≤ rs.flatten.length := by
  induction rs with
  | nil => simp
  | cons row rs ih =>
    have := List.length_pos_iff.2 (h row (by simp))
    have := ih fun r hr => h r (List.mem_cons_of_mem row hr)
    simp only [List.length_cons, List.flatten_cons, List.length_append]
    omega

/-- Every row has an entry. -/
theorem n_le_nnz : nodeIds.length ≤ (fromWeightedTriples nodeIds triples symmetrize).nnz := by
  have hrow := length_le_flatten fun row hrow => (storedRow_ok nodeIds triples symmetrize hrow).1
  rw [length_storedRows] at hrow
  rwa [nnz, (represents_fromWeightedTriples nodeIds triples symmetrize).indices, List.length_map]

/-- **A built graph is well-formed**, when an `i32` counts its entries. -/
theorem wellFormed_fromWeightedTriples
    (hfit : (fromWeightedTriples nodeIds triples symmetrize).nnz < 2 ^ 31) :
    (fromWeightedTriples nodeIds triples symmetrize).WellFormed := by
  have hrep := represents_fromWeightedTriples nodeIds triples symmetrize
  have hn := n_fromWeightedTriples nodeIds triples symmetrize
  have hlen := length_storedRows nodeIds triples symmetrize
  have hok : ∀ row ∈ storedRows nodeIds triples symmetrize, row ≠ [] ∧ RowOK nodeIds.length row :=
    fun _ hrow => storedRow_ok nodeIds triples symmetrize hrow
  generalize fromWeightedTriples nodeIds triples symmetrize = g at *
  generalize storedRows nodeIds triples symmetrize = rs at *
  have hsmall : g.n < 2 ^ 31 := by
    have h1 := length_le_flatten fun row hrow => (hok row hrow).1
    have h2 : g.nnz = rs.flatten.length := by rw [nnz, hrep.indices, List.length_map]
    omega
  have hentries : ∀ u : Fin g.n, g.entries u ∈ rs := by
    intro u
    rw [hrep.entries (by omega) hfit u.2, List.getD_eq_getElem _ _ (by have := u.2; omega)]
    exact List.getElem_mem _
  have hdegree : ∀ u : Fin g.n, g.degreeOf u = ((g.entries u).map Prod.snd).sum := by
    intro u
    have := u.2
    rw [degreeOf, hrep.entries (by omega) hfit u.2, hrep.degree,
      List.getD_eq_getElem _ _ (by simp; omega), List.getD_eq_getElem _ _ (by omega),
      List.getElem_map]
  have hpos : ∀ u : Fin g.n, ∀ e ∈ g.entries u, 0 < e.2 :=
    fun u e he => ((hok _ (hentries u)).2 e he).2
  refine ⟨fun u e he => ?_, hpos, hdegree, fun u => ?_⟩
  · obtain ⟨v, hv, hev⟩ := ((hok _ (hentries u)).2 e he).1
    rw [← hn] at hv
    refine ⟨⟨v, hv⟩, ?_⟩
    rw [hev, asI32_of_lt (by omega), node?, dif_pos ⟨by omega, by simpa using hv⟩]
    simp
  · rw [hdegree]
    refine List.sum_pos _ (fun x hx => ?_) ?_
    · obtain ⟨e, he, rfl⟩ := List.mem_map.1 hx
      exact hpos u e he
    · simpa using (hok _ (hentries u)).1

end

/-! ## The neighbours of a built graph -/

theorem exists_mem_addEntry {k v : ℤ} {w : ℚ} {row : Row} :
    (∃ x, (k, x) ∈ addEntry v w row) ↔ k = v ∨ ∃ x, (k, x) ∈ row := by
  induction row with
  | nil => simp [addEntry]
  | cons a row ih =>
    obtain ⟨j, y⟩ := a
    simp only [addEntry]
    split_ifs with h1 h2
    · simp [exists_or]
    · subst h2
      simp [exists_or]
    · simp only [List.mem_cons, exists_or, ih, Prod.mk.injEq]
      exact or_left_comm

/-- The triple puts an entry for `k` in the row of `u`. -/
def Adds (n u : ℕ) (k : ℤ) (t : ℕ × ℕ × ℚ) : Prop :=
  t.1 = u ∧ u < n ∧ t.2.1 < n ∧ u ≠ t.2.1 ∧ 0 < t.2.2 ∧ asI32 t.2.1 = k

theorem exists_mem_addTriple {n u : ℕ} {k : ℤ} {acc : List Row} (hlen : acc.length = n)
    (t : ℕ × ℕ × ℚ) :
    (∃ x, (k, x) ∈ (addTriple n false acc t).getD u []) ↔
      (∃ x, (k, x) ∈ acc.getD u []) ∨ Adds n u k t := by
  obtain ⟨i, v, w⟩ := t
  simp only [addTriple, Adds, Bool.false_eq_true, ↓reduceIte]
  split_ifs with hskip
  · refine (or_iff_left ?_).symm
    rintro ⟨rfl, hu, hv, hne, hw, -⟩
    rcases hskip with h | h | h | h
    · omega
    · omega
    · exact hne h
    · exact absurd hw (not_lt.2 h)
  · push Not at hskip
    obtain ⟨hi, hv, hne, hw⟩ := hskip
    by_cases hiu : i = u
    · subst hiu
      rw [List.getD_eq_getElem _ _ (by simpa [hlen] using hi), List.getElem_modify_eq,
        exists_mem_addEntry, List.getD_eq_getElem _ _ (by omega)]
      simp only [true_and]
      tauto
    · have hget : (acc.modify i (addEntry (asI32 v) w)).getD u [] = acc.getD u [] := by
        simp [List.getD_eq_getElem?_getD, hiu]
      rw [hget]
      simp [hiu]

theorem exists_mem_buildRows {n u : ℕ} {k : ℤ} (triples : List (ℕ × ℕ × ℚ)) :
    (∃ x, (k, x) ∈ (buildRows n triples false).getD u []) ↔ ∃ t ∈ triples, Adds n u k t := by
  suffices h : ∀ acc : List Row, acc.length = n →
      ((∃ x, (k, x) ∈ (triples.foldl (addTriple n false) acc).getD u []) ↔
        (∃ x, (k, x) ∈ acc.getD u []) ∨ ∃ t ∈ triples, Adds n u k t) by
    rw [buildRows, h _ List.length_replicate]
    simp [List.getD_eq_getElem?_getD, List.getElem?_replicate]
    intro x
    split_ifs <;> simp
  induction triples with
  | nil => simp
  | cons t ts ih =>
    intro acc hlen
    rw [List.foldl_cons, ih _ ((length_addTriple acc t).trans hlen), exists_mem_addTriple hlen,
      List.exists_mem_cons_iff, or_assoc]

/-- **The neighbours of a node** are the ends of the triples that leave it; a node without
    any has itself. -/
theorem exists_mem_entries {nodeIds : List String} {triples : List (ℕ × ℕ × ℚ)}
    (hfit : (fromWeightedTriples nodeIds triples false).nnz < 2 ^ 31) {u : ℕ}
    (hu : u < nodeIds.length) {k : ℤ} (hk : k ≠ u) :
    (∃ x, (k, x) ∈ (fromWeightedTriples nodeIds triples false).entries u) ↔
      ∃ t ∈ triples, Adds nodeIds.length u k t := by
  have hrep := represents_fromWeightedTriples nodeIds triples false
  have hn := n_fromWeightedTriples nodeIds triples false
  have hlen := length_storedRows nodeIds triples false
  have hsmall : u < 2 ^ 31 := by
    have := n_le_nnz nodeIds triples false
    omega
  have hu' : u < (buildRows nodeIds.length triples false).length := by rwa [length_buildRows]
  rw [hrep.entries (by omega) hfit (by omega), ← exists_mem_buildRows triples, storedRows,
    List.getD_eq_getElem _ _ (by simpa using hu'), List.getElem_map, List.getElem_zipIdx,
    List.getD_eq_getElem _ _ hu', Nat.zero_add, storedRow]
  split_ifs with hempty
  · rw [List.isEmpty_iff] at hempty
    dsimp only at hempty
    simp [hempty, asI32_of_lt hsmall, hk]
  · rfl

end CodeGraph

end Cognis
