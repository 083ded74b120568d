/-
  The compressed rows of a built graph (`CodeGraph::from_weighted_triples`), against the
  weighted triples that they are built from.

  * `keptWeight` is the weight that the kept triples give a pair of nodes, `entryCount` the
    number of entries that they call for;
  * `Csr` is what the arrays are to satisfy;
  * `csr_iff`: they do exactly when an `i32` counts the entries. The offsets are cast.
-/
import Cognis.Core.Graph
import Mathlib.Data.Finset.Sort

namespace Cognis

namespace CodeGraph

/-! ## The triples -/

/-- What a triple gives the pair `(u, v)`: nothing if it is skipped. -/
def given (n : ℕ) (symmetrize : Bool) (u v : ℕ) (t : ℕ × ℕ × ℚ) : ℚ :=
  if n ≤ t.1 ∨ n ≤ t.2.1 ∨ t.1 = t.2.1 ∨ t.2.2 ≤ 0 then 0
  else
    (if t.1 = u ∧ t.2.1 = v then t.2.2 else 0) +
      if symmetrize = true ∧ t.2.1 = u ∧ t.1 = v then t.2.2 else 0

/-- The sum of the weights of the kept triples from `u` to `v`, and from `v` to `u` when the
    graph is symmetrised. -/
def keptWeight (n : ℕ) (triples : List (ℕ × ℕ × ℚ)) (symmetrize : Bool) (u v : ℕ) : ℚ :=
  (triples.map (given n symmetrize u v)).sum

/-- The nodes that the triples give a weight from `u`. -/
def targets (n : ℕ) (triples : List (ℕ × ℕ × ℚ)) (symmetrize : Bool) (u : ℕ) : Finset ℕ :=
  (Finset.range n).filter fun v => 0 < keptWeight n triples symmetrize u v

/-- The number of entries: one for each target of a node, or its self-loop. -/
def entryCount (n : ℕ) (triples : List (ℕ × ℕ × ℚ)) (symmetrize : Bool) : ℕ :=
  ∑ u ∈ Finset.range n, max 1 (targets n triples symmetrize u).card

/-- What the arrays of a graph are to satisfy. -/
structure Csr (triples : List (ℕ × ℕ × ℚ)) (symmetrize : Bool) (g : CodeGraph) : Prop where
  offsets : g.indptr.length = g.n + 1
  start : g.indptr.head? = some 0
  mono : g.indptr.Pairwise (· ≤ ·)
  stop : g.indptr.getLast? = some (g.nnz : ℤ)
  ascending : ∀ u < g.n, (g.neighbors u).1.Pairwise (· < ·)
  weight_eq : ∀ u v : Fin g.n, u ≠ v → g.weight u v = keptWeight g.n triples symmetrize u v
  symmetric : symmetrize = true → ∀ u v : Fin g.n, g.weight u v = g.weight v u
  degree_eq : ∀ u : Fin g.n, g.degreeOf u = (g.neighbors u).2.sum
  degree_pos : ∀ u : Fin g.n, 0 < g.degreeOf u
  /-- a unit self-loop exactly on the nodes with no other weight -/
  selfLoop : ∀ u : Fin g.n,
    g.weight u u = if ∀ v : Fin g.n, u ≠ v → g.weight u v = 0 then 1 else 0

/-! ## A row -/

section
variable {v k : ℤ} {w : ℚ} {row : Row}

/-- The weight of a key in a row. -/
def rowWeight (row : Row) (k : ℤ) : ℚ := (row.map fun e => if e.1 = k then e.2 else 0).sum

theorem rowWeight_addEntry :
    rowWeight (addEntry v w row) k = rowWeight row k + if v = k then w else 0 := by
  induction row with
  | nil => simp [addEntry, rowWeight]
  | cons e row ih =>
    obtain ⟨key, x⟩ := e
    rw [addEntry]
    split_ifs with hlt heq hvk hvk hvk
    all_goals simp_all [rowWeight, add_assoc, add_comm, add_left_comm]

theorem mem_keys_addEntry :
    k ∈ (addEntry v w row).map Prod.fst ↔ k = v ∨ k ∈ row.map Prod.fst := by
  induction row with
  | nil => simp [addEntry]
  | cons e row ih =>
    obtain ⟨key, x⟩ := e
    rw [addEntry]
    split_ifs with hlt heq
    · simp
    · simp [heq]
    · rw [List.map_cons, List.mem_cons, ih, List.map_cons, List.mem_cons]
      tauto

theorem ascending_addEntry (h : (row.map Prod.fst).Pairwise (· < ·)) :
    ((addEntry v w row).map Prod.fst).Pairwise (· < ·) := by
  induction row with
  | nil => simp [addEntry]
  | cons e row ih =>
    obtain ⟨key, x⟩ := e
    rw [List.map_cons, List.pairwise_cons] at h
    rw [addEntry]
    split_ifs with hlt heq
    · rw [List.map_cons, List.pairwise_cons, List.map_cons, List.pairwise_cons]
      refine ⟨fun k hk => ?_, h⟩
      rcases List.mem_cons.1 hk with rfl | hk
      · exact hlt
      · exact hlt.trans (h.1 k hk)
    · exact List.pairwise_cons.2 h
    · rw [List.map_cons, List.pairwise_cons]
      refine ⟨fun k hk => ?_, ih h.2⟩
      rcases mem_keys_addEntry.1 hk with rfl | hk
      · omega
      · exact h.1 k hk

/-- Below `2 ^ 31`, a position is the node it stands for. -/
theorem asI32_inj {m n : ℕ} (hm : m < 2 ^ 31) (hn : n < 2 ^ 31) : asI32 m = asI32 n ↔ m = n := by
  rw [asI32_of_lt hm, asI32_of_lt hn, Int.natCast_inj]

theorem asI32_lt (x : ℕ) : asI32 x < 2 ^ 31 := by
  unfold asI32
  dsimp only
  split_ifs <;> omega

end

/-! ## The rows of the triples -/

theorem given_nonneg (n : ℕ) (symmetrize : Bool) (u v : ℕ) (t : ℕ × ℕ × ℚ) :
    0 ≤ given n symmetrize u v t := by
  unfold given
  split_ifs with hskip <;> first | exact le_rfl | skip
  all_goals
    have hpos : 0 < t.2.2 := not_le.1 fun h => hskip (.inr (.inr (.inr h)))
    linarith

theorem keptWeight_nonneg (n : ℕ) (triples : List (ℕ × ℕ × ℚ)) (symmetrize : Bool) (u v : ℕ) :
    0 ≤ keptWeight n triples symmetrize u v := by
  refine List.sum_nonneg fun x hx => ?_
  obtain ⟨t, -, rfl⟩ := List.mem_map.1 hx
  exact given_nonneg n symmetrize u v t

theorem keptWeight_concat (n : ℕ) (triples : List (ℕ × ℕ × ℚ)) (symmetrize : Bool) (u v : ℕ)
    (t : ℕ × ℕ × ℚ) : keptWeight n (triples ++ [t]) symmetrize u v =
      keptWeight n triples symmetrize u v + given n symmetrize u v t := by
  simp [keptWeight]

/-- A skipped triple gives a node no weight to itself. -/
theorem keptWeight_self (n : ℕ) (triples : List (ℕ × ℕ × ℚ)) (symmetrize : Bool) (u : ℕ) :
    keptWeight n triples symmetrize u u = 0 := by
  refine List.sum_eq_zero fun x hx => ?_
  obtain ⟨t, -, rfl⟩ := List.mem_map.1 hx
  unfold given
  split_ifs with hskip hsame hsym hsym
  · rfl
  · exact absurd (.inr (.inr (.inl (by omega)))) hskip
  · exact absurd (.inr (.inr (.inl (by omega)))) hskip
  · exact absurd (.inr (.inr (.inl (by omega)))) hskip
  · exact add_zero 0

theorem keptWeight_symm (n : ℕ) (triples : List (ℕ × ℕ × ℚ)) (u v : ℕ) :
    keptWeight n triples true u v = keptWeight n triples true v u := by
  unfold keptWeight
  congr 1
  refine List.map_congr_left fun t _ => ?_
  unfold given
  simp only [true_and, and_comm (a := t.2.1 = _), add_comm]

theorem getD_modify (acc : List Row) (u i : ℕ) (f : Row → Row) (hi : i < acc.length) :
    (acc.modify u f).getD i [] = if u = i then f (acc.getD i []) else acc.getD i [] := by
  rw [List.getD_eq_getElem?_getD, List.getElem?_modify, List.getD_eq_getElem?_getD,
    List.getElem?_eq_getElem hi]
  split_ifs <;> rfl

/-- The rows under construction, after the triples. -/
structure Accumulates (n : ℕ) (triples : List (ℕ × ℕ × ℚ)) (symmetrize : Bool) (acc : List Row) :
    Prop where
  length : acc.length = n
  ascending : ∀ u < n, ((acc.getD u []).map Prod.fst).Pairwise (· < ·)
  keys : ∀ u < n, ∀ k ∈ (acc.getD u []).map Prod.fst, ∃ v < n, k = asI32 v
  weight : ∀ u < n, ∀ v < n,
    rowWeight (acc.getD u []) (asI32 v) = keptWeight n triples symmetrize u v
  mem : ∀ u < n, ∀ v < n,
    asI32 v ∈ (acc.getD u []).map Prod.fst ↔ 0 < keptWeight n triples symmetrize u v

section
variable {n : ℕ} {triples : List (ℕ × ℕ × ℚ)} {symmetrize : Bool} {acc : List Row}

theorem accumulates_nil : Accumulates n [] symmetrize (List.replicate n []) := by
  have hrow : ∀ u < n, (List.replicate n ([] : Row)).getD u [] = [] := by
    intro u hu
    rw [List.getD_eq_getElem _ _ (by simpa using hu), List.getElem_replicate]
  refine ⟨List.length_replicate, ?_, ?_, ?_, ?_⟩
  · intro u hu
    rw [hrow u hu]
    exact List.Pairwise.nil
  · intro u hu k hk
    rw [hrow u hu] at hk
    cases hk
  · intro u hu v _
    rw [hrow u hu]
    rfl
  · intro u hu v _
    rw [hrow u hu]
    simp [keptWeight]

/-- One entry more: the row of `u` gets the weight `w` to `v`. -/
theorem getD_modify_addEntry (hn : n < 2 ^ 31) (hlen : acc.length = n) {u v i j : ℕ} (hv : v < n)
    (hi : i < n) (hj : j < n) {w : ℚ} :
    rowWeight ((acc.modify u (addEntry (asI32 v) w)).getD i []) (asI32 j) =
        rowWeight (acc.getD i []) (asI32 j) + (if u = i ∧ v = j then w else 0) ∧
      (asI32 j ∈ ((acc.modify u (addEntry (asI32 v) w)).getD i []).map Prod.fst ↔
        (u = i ∧ v = j) ∨ asI32 j ∈ (acc.getD i []).map Prod.fst) := by
  rw [getD_modify acc u i _ (by omega)]
  by_cases hui : u = i
  · rw [if_pos hui, rowWeight_addEntry, mem_keys_addEntry]
    simp only [hui, true_and, asI32_inj (show v < 2 ^ 31 by omega) (show j < 2 ^ 31 by omega),
      asI32_inj (show j < 2 ^ 31 by omega) (show v < 2 ^ 31 by omega), eq_comm (a := j)]
  · rw [if_neg hui]
    simp [hui]

theorem ascending_modify_addEntry {u i : ℕ} {v : ℤ} {w : ℚ} (hi : i < acc.length)
    (h : ((acc.getD i []).map Prod.fst).Pairwise (· < ·)) :
    (((acc.modify u (addEntry v w)).getD i []).map Prod.fst).Pairwise (· < ·) := by
  rw [getD_modify acc u i _ hi]
  split_ifs
  · exact ascending_addEntry h
  · exact h

theorem keys_modify_addEntry {u v i : ℕ} {w : ℚ} (hv : v < n) (hi : i < acc.length)
    (h : ∀ k ∈ (acc.getD i []).map Prod.fst, ∃ v < n, k = asI32 v) :
    ∀ k ∈ ((acc.modify u (addEntry (asI32 v) w)).getD i []).map Prod.fst, ∃ v < n, k = asI32 v := by
  intro k hk
  rw [getD_modify acc u i _ hi] at hk
  split_ifs at hk
  · rcases mem_keys_addEntry.1 hk with rfl | hk
    · exact ⟨v, hv, rfl⟩
    · exact h k hk
  · exact h k hk

/-- **One triple** more. -/
theorem Accumulates.addTriple (h : Accumulates n triples symmetrize acc) (hn : n < 2 ^ 31)
    (t : ℕ × ℕ × ℚ) :
    Accumulates n (triples ++ [t]) symmetrize (CodeGraph.addTriple n symmetrize acc t) := by
  obtain ⟨u, v, w⟩ := t
  have hkept : ∀ i j, keptWeight n (triples ++ [(u, v, w)]) symmetrize i j =
      keptWeight n triples symmetrize i j + given n symmetrize i j (u, v, w) :=
    fun i j => keptWeight_concat n triples symmetrize i j _
  by_cases hskip : n ≤ u ∨ n ≤ v ∨ u = v ∨ w ≤ 0
  · have hgiven : ∀ i j, given n symmetrize i j (u, v, w) = 0 := fun i j => if_pos hskip
    have hacc : CodeGraph.addTriple n symmetrize acc (u, v, w) = acc := if_pos hskip
    rw [hacc]
    refine ⟨h.length, h.ascending, h.keys, fun i hi j hj => ?_, fun i hi j hj => ?_⟩
    · rw [hkept, hgiven, add_zero]
      exact h.weight i hi j hj
    · rw [hkept, hgiven, add_zero]
      exact h.mem i hi j hj
  · have hgiven : ∀ i j, given n symmetrize i j (u, v, w) =
        (if u = i ∧ v = j then w else 0) + if symmetrize = true ∧ v = i ∧ u = j then w else 0 :=
      fun i j => if_neg hskip
    have hacc : CodeGraph.addTriple n symmetrize acc (u, v, w) =
        if symmetrize then
          (acc.modify u (addEntry (asI32 v) w)).modify v (addEntry (asI32 u) w)
        else acc.modify u (addEntry (asI32 v) w) := if_neg hskip
    simp only [not_or, not_le] at hskip
    obtain ⟨hu, hv, hne, hw⟩ := hskip
    have hlen := h.length
    have hlen' : (acc.modify u (addEntry (asI32 v) w)).length = n := by simp [hlen]
    have hpos : ∀ i j : ℕ, 0 < keptWeight n triples symmetrize i j + given n symmetrize i j (u, v, w) ↔
        0 < given n symmetrize i j (u, v, w) ∨ 0 < keptWeight n triples symmetrize i j := by
      intro i j
      have h₁ := keptWeight_nonneg n triples symmetrize i j
      have h₂ := given_nonneg n symmetrize i j (u, v, w)
      constructor
      · intro hsum
        by_contra hnot
        rw [not_or, not_lt, not_lt] at hnot
        linarith
      · rintro (hpos | hpos) <;> linarith
    rw [hacc]
    cases symmetrize with
    | false =>
      have hgiven : ∀ i j, given n false i j (u, v, w) = if u = i ∧ v = j then w else 0 := by
        intro i j
        rw [hgiven, if_neg (c := false = true ∧ _) (by simp), add_zero]
      rw [if_neg (by decide)]
      refine ⟨hlen', fun i hi => ?_, fun i hi => ?_, fun i hi j hj => ?_, fun i hi j hj => ?_⟩
      · exact ascending_modify_addEntry (by omega) (h.ascending i hi)
      · exact keys_modify_addEntry hv (by omega) (h.keys i hi)
      · rw [(getD_modify_addEntry hn hlen hv hi hj).1, h.weight i hi j hj, hkept, hgiven]
      · rw [(getD_modify_addEntry hn hlen hv hi hj).2, h.mem i hi j hj, hkept, hpos, hgiven]
        refine or_congr ?_ Iff.rfl
        split_ifs with hij
        · exact iff_of_true hij hw
        · exact iff_of_false hij (lt_irrefl _)
    | true =>
      have hgiven : ∀ i j, given n true i j (u, v, w) =
          (if u = i ∧ v = j then w else 0) + if v = i ∧ u = j then w else 0 := by
        intro i j
        rw [hgiven]
        simp
      rw [if_pos rfl]
      refine ⟨by simp [hlen], fun i hi => ?_, fun i hi => ?_, fun i hi j hj => ?_, fun i hi j hj => ?_⟩
      · exact ascending_modify_addEntry (by omega) (ascending_modify_addEntry (by omega) (h.ascending i hi))
      · exact keys_modify_addEntry hu (by omega) (keys_modify_addEntry hv (by omega) (h.keys i hi))
      · rw [(getD_modify_addEntry hn hlen' hu hi hj).1, (getD_modify_addEntry hn hlen hv hi hj).1,
          h.weight i hi j hj, hkept, hgiven, add_assoc]
      · rw [(getD_modify_addEntry hn hlen' hu hi hj).2, (getD_modify_addEntry hn hlen hv hi hj).2,
          h.mem i hi j hj, hkept, hpos, hgiven, ← or_assoc]
        refine or_congr ?_ Iff.rfl
        by_cases hvi : v = i ∧ u = j
        · refine iff_of_true (.inl hvi) ?_
          rw [if_pos hvi]
          split_ifs <;> linarith
        · rw [if_neg hvi, add_zero]
          split_ifs with hij
          · exact iff_of_true (.inr hij) hw
          · exact iff_of_false (by tauto) (lt_irrefl _)

/-- **The rows before compression.** -/
theorem accumulates_buildRows (hn : n < 2 ^ 31) (triples : List (ℕ × ℕ × ℚ)) (symmetrize : Bool) :
    Accumulates n triples symmetrize (buildRows n triples symmetrize) := by
  induction triples using List.reverseRecOn with
  | nil => exact accumulates_nil
  | append_singleton triples t ih =>
    have h := ih.addTriple hn t
    rw [buildRows, List.foldl_append]
    exact h

end

/-! ## The number of entries -/

section
variable {nodeIds : List String} {triples : List (ℕ × ℕ × ℚ)} {symmetrize : Bool}

theorem getD_storedRows {u : ℕ} (hu : u < nodeIds.length) :
    (storedRows nodeIds triples symmetrize).getD u [] =
      storedRow ((buildRows nodeIds.length triples symmetrize).getD u [], u) := by
  have hlen := length_buildRows nodeIds.length triples symmetrize
  rw [List.getD_eq_getElem _ _ (by rw [length_storedRows]; exact hu),
    List.getD_eq_getElem _ _ (by omega)]
  simp only [storedRows, List.getElem_map, List.getElem_zipIdx, Nat.zero_add]

/-- The keys of a row are its targets. -/
theorem length_row (hn : nodeIds.length < 2 ^ 31) {u : ℕ} (hu : u < nodeIds.length) :
    ((buildRows nodeIds.length triples symmetrize).getD u []).length =
      (targets nodeIds.length triples symmetrize u).card := by
  have hrows := accumulates_buildRows hn triples symmetrize
  have hnodup := (hrows.ascending u hu).imp fun h => h.ne
  rw [← List.length_map (f := Prod.fst), ← List.toFinset_card_of_nodup hnodup,
    ← Finset.card_image_of_injOn (s := targets nodeIds.length triples symmetrize u) (f := asI32)]
  · congr 1
    ext k
    rw [List.mem_toFinset, Finset.mem_image]
    constructor
    · intro hk
      obtain ⟨v, hv, rfl⟩ := hrows.keys u hu k hk
      exact ⟨v, Finset.mem_filter.2 ⟨Finset.mem_range.2 hv, (hrows.mem u hu v hv).1 hk⟩, rfl⟩
    · rintro ⟨v, hv, rfl⟩
      obtain ⟨hv, hpos⟩ := Finset.mem_filter.1 hv
      exact (hrows.mem u hu v (Finset.mem_range.1 hv)).2 hpos
  · intro v hv v' hv' heq
    have hv := Finset.mem_range.1 (Finset.mem_filter.1 hv).1
    have hv' := Finset.mem_range.1 (Finset.mem_filter.1 hv').1
    exact (asI32_inj (by omega) (by omega)).1 heq

theorem length_storedRow (row : Row) (u : ℕ) : (storedRow (row, u)).length = max 1 row.length := by
  cases row with
  | nil => rfl
  | cons e row =>
    show (e :: row).length = max 1 (e :: row).length
    rw [List.length_cons]
    omega

/-- **The entries are counted** by the triples. -/
theorem nnz_eq_entryCount (hn : nodeIds.length < 2 ^ 31) :
    (fromWeightedTriples nodeIds triples symmetrize).nnz =
      entryCount nodeIds.length triples symmetrize := by
  rw [nnz, (represents_fromWeightedTriples nodeIds triples symmetrize).indices, List.length_map,
    List.length_flatten]
  have hlen := length_storedRows nodeIds triples symmetrize
  have hlengths : (storedRows nodeIds triples symmetrize).map List.length =
      (List.range nodeIds.length).map fun u => max 1 (targets nodeIds.length triples symmetrize u).card := by
    refine List.ext_getElem (by simp [hlen]) fun u hu _ => ?_
    rw [List.length_map] at hu
    have hrow : (storedRows nodeIds triples symmetrize)[u] =
        (storedRows nodeIds triples symmetrize).getD u [] := (List.getD_eq_getElem _ _ hu).symm
    rw [List.getElem_map, List.getElem_map, List.getElem_range, hrow, getD_storedRows (by omega),
      length_storedRow, length_row hn (by omega)]
  rw [hlengths, entryCount, Finset.sum, Finset.range_val, Multiset.range, Multiset.map_coe,
    Multiset.sum_coe]

/-! ## The arrays -/

/-- The offset after the last row is the cast of the number of entries. -/
theorem getLast?_indptr : (fromWeightedTriples nodeIds triples symmetrize).indptr.getLast? =
    some (asI32 (fromWeightedTriples nodeIds triples symmetrize).nnz) := by
  have hrep := represents_fromWeightedTriples nodeIds triples symmetrize
  rw [nnz, hrep.indptr, List.range_succ, List.map_append, List.map_singleton, List.getLast?_concat,
    List.take_length, hrep.indices, List.length_map]

/-- Where an `i32` counts the entries, the slices of a node are its row. -/
theorem neighbors_fromWeightedTriples
    (hfit : (fromWeightedTriples nodeIds triples symmetrize).nnz < 2 ^ 31) {u : ℕ}
    (hu : u < nodeIds.length) :
    (fromWeightedTriples nodeIds triples symmetrize).neighbors u =
      ((storedRow ((buildRows nodeIds.length triples symmetrize).getD u [], u)).map Prod.fst,
        (storedRow ((buildRows nodeIds.length triples symmetrize).getD u [], u)).map Prod.snd) := by
  have hrep := represents_fromWeightedTriples nodeIds triples symmetrize
  have hn := n_fromWeightedTriples nodeIds triples symmetrize
  have hentries := hrep.entries (by rw [length_storedRows, hn]) hfit (by omega : u < _)
  rw [getD_storedRows hu, CodeGraph.entries] at hentries
  have hlengths : ((fromWeightedTriples nodeIds triples symmetrize).neighbors u).1.length =
      ((fromWeightedTriples nodeIds triples symmetrize).neighbors u).2.length := by
    rw [neighbors, if_neg (by omega)]
    simp only [List.length_take, List.length_drop, hrep.indices, hrep.weights, List.length_map]
  rw [← hentries, List.map_fst_zip hlengths.le, List.map_snd_zip hlengths.ge]

/-- The weight of a pair is the one of the key in the row. -/
theorem weight_fromWeightedTriples (hn : nodeIds.length < 2 ^ 31)
    (hfit : (fromWeightedTriples nodeIds triples symmetrize).nnz < 2 ^ 31)
    (u v : Fin (fromWeightedTriples nodeIds triples symmetrize).n) :
    (fromWeightedTriples nodeIds triples symmetrize).weight u v =
      rowWeight (storedRow ((buildRows nodeIds.length triples symmetrize).getD u [], (u : ℕ)))
        (asI32 v) := by
  have hrep := represents_fromWeightedTriples nodeIds triples symmetrize
  have hlen := n_fromWeightedTriples nodeIds triples symmetrize
  have hu := u.2
  have hv := v.2
  have hentries := hrep.entries (by rw [length_storedRows, hlen]) hfit u.2
  rw [getD_storedRows (by omega)] at hentries
  rw [weight, hentries, rowWeight]
  congr 1
  refine List.map_congr_left fun e he => ?_
  -- the key of the entry is the position of a node
  obtain ⟨w, hw, hkey⟩ : ∃ w < nodeIds.length, e.1 = asI32 w := by
    have hmem : storedRow ((buildRows nodeIds.length triples symmetrize).getD u [], (u : ℕ)) ∈
        storedRows nodeIds triples symmetrize := by
      rw [← getD_storedRows (by omega), List.getD_eq_getElem _ _ (by rw [length_storedRows]; omega)]
      exact List.getElem_mem _
    exact ((storedRow_ok nodeIds triples symmetrize hmem).2 e he).1
  have hnode : (fromWeightedTriples nodeIds triples symmetrize).node? e.1 = some v ↔ e.1 = asI32 v := by
    rw [hkey, asI32_inj (by omega) (by omega), asI32_of_lt (by omega), node?,
      dif_pos ⟨by omega, by simp; omega⟩, Option.some.injEq, Fin.ext_iff]
    simp
  simp only [hnode]

/-- A node without targets has its self-loop only, another one the weights of the triples. -/
theorem weight_eq (hn : nodeIds.length < 2 ^ 31)
    (hfit : (fromWeightedTriples nodeIds triples symmetrize).nnz < 2 ^ 31)
    (u v : Fin (fromWeightedTriples nodeIds triples symmetrize).n) :
    (fromWeightedTriples nodeIds triples symmetrize).weight u v =
      if targets nodeIds.length triples symmetrize u = ∅ then (if u = v then 1 else 0)
      else keptWeight nodeIds.length triples symmetrize u v := by
  have hlen := n_fromWeightedTriples nodeIds triples symmetrize
  have hu := u.2
  have hv := v.2
  have hrow : ((buildRows nodeIds.length triples symmetrize).getD u []).length =
      (targets nodeIds.length triples symmetrize u).card := length_row hn (by omega)
  rw [weight_fromWeightedTriples hn hfit]
  generalize hr : (buildRows nodeIds.length triples symmetrize).getD u [] = row at hrow ⊢
  cases row with
  | nil =>
    rw [if_pos (Finset.card_eq_zero.1 hrow.symm)]
    show rowWeight [(asI32 u, 1)] (asI32 v) = _
    simp only [rowWeight, List.map_cons, List.map_nil, List.sum_cons, List.sum_nil, add_zero,
      asI32_inj (show (u : ℕ) < 2 ^ 31 by omega) (show (v : ℕ) < 2 ^ 31 by omega), Fin.ext_iff]
  | cons e row =>
    have hne : targets nodeIds.length triples symmetrize u ≠ ∅ := by
      intro hempty
      rw [hempty, Finset.card_empty, List.length_cons] at hrow
      omega
    have hweight := (accumulates_buildRows hn triples symmetrize).weight u (by omega) v (by omega)
    rw [hr] at hweight
    rw [if_neg hne]
    exact hweight

theorem keptWeight_eq_zero {n : ℕ} {u v : ℕ} (hv : v < n) (h : targets n triples symmetrize u = ∅) :
    keptWeight n triples symmetrize u v = 0 := by
  by_contra hne
  have hpos := (keptWeight_nonneg n triples symmetrize u v).lt_of_ne' hne
  have hmem : v ∈ targets n triples symmetrize u := Finset.mem_filter.2 ⟨Finset.mem_range.2 hv, hpos⟩
  rw [h] at hmem
  exact absurd hmem (Finset.notMem_empty v)

/-- The offsets of a graph that an `i32` counts are the lengths of its first rows. -/
theorem pairwise_indptr (hfit : (fromWeightedTriples nodeIds triples symmetrize).nnz < 2 ^ 31) :
    (fromWeightedTriples nodeIds triples symmetrize).indptr.Pairwise (· ≤ ·) := by
  have hrep := represents_fromWeightedTriples nodeIds triples symmetrize
  have hnnz : (storedRows nodeIds triples symmetrize).flatten.length < 2 ^ 31 := by
    rwa [nnz, hrep.indices, List.length_map] at hfit
  rw [hrep.indptr, List.pairwise_map]
  refine List.pairwise_lt_range.imp fun {j k} hjk => ?_
  have hj := length_flatten_take_le (storedRows nodeIds triples symmetrize) j
  have hk := length_flatten_take_le (storedRows nodeIds triples symmetrize) k
  have htake := length_flatten_take_le ((storedRows nodeIds triples symmetrize).take k) j
  rw [List.take_take, min_eq_left hjk.le] at htake
  rw [asI32_of_lt (by omega), asI32_of_lt (by omega)]
  exact_mod_cast htake

theorem symmetric_targets {n u v : ℕ} (hu : u < n) (h : v ∈ targets n triples true u) :
    u ∈ targets n triples true v := by
  rw [targets, Finset.mem_filter, keptWeight_symm] at h
  exact Finset.mem_filter.2 ⟨Finset.mem_range.2 hu, h.2⟩

/-- **The arrays are as they are to be** where an `i32` counts the entries. -/
theorem csr_of_nnz_lt (hn : nodeIds.length < 2 ^ 31)
    (hfit : (fromWeightedTriples nodeIds triples symmetrize).nnz < 2 ^ 31) :
    Csr triples symmetrize (fromWeightedTriples nodeIds triples symmetrize) := by
  have hrep := represents_fromWeightedTriples nodeIds triples symmetrize
  have hlen := n_fromWeightedTriples nodeIds triples symmetrize
  have hrows := accumulates_buildRows hn triples symmetrize
  have hwell := wellFormed_fromWeightedTriples nodeIds triples symmetrize hfit
  have hweight : ∀ u v : Fin (fromWeightedTriples nodeIds triples symmetrize).n, u ≠ v →
      (fromWeightedTriples nodeIds triples symmetrize).weight u v =
        keptWeight nodeIds.length triples symmetrize u v := by
    intro u v huv
    rw [weight_eq hn hfit]
    split_ifs with hempty
    · exact (keptWeight_eq_zero (by omega) hempty).symm
    · rfl
  refine ⟨?_, ?_, pairwise_indptr hfit, ?_, ?_, ?_, ?_, ?_, hwell.degree_pos, ?_⟩
  · rw [hrep.indptr, List.length_map, List.length_range, length_storedRows, hlen]
  · rw [hrep.indptr, List.range_succ_eq_map]
    rfl
  · rw [getLast?_indptr, asI32_of_lt hfit]
  · intro u hu
    rw [neighbors_fromWeightedTriples hfit (by omega)]
    generalize hr : (buildRows nodeIds.length triples symmetrize).getD u [] = row
    have hasc := hrows.ascending u (by omega)
    rw [hr] at hasc
    cases row with
    | nil => exact List.pairwise_singleton _ _
    | cons e row => exact hasc
  · intro u v huv
    exact (hweight u v huv).trans
      (congrArg (fun n => keptWeight n triples symmetrize (u : ℕ) v) hlen.symm)
  · rintro rfl u v
    by_cases huv : u = v
    · rw [huv]
    · rw [hweight u v huv, hweight v u (Ne.symm huv), keptWeight_symm]
  · intro u
    rw [hwell.degree_eq u, CodeGraph.entries, neighbors_fromWeightedTriples hfit (by omega)]
    simp only [List.zip_map', List.map_map, Function.comp_def]
  · intro u
    rw [weight_eq hn hfit]
    by_cases hempty : targets nodeIds.length triples symmetrize u = ∅
    · rw [if_pos hempty, if_pos rfl, if_pos]
      intro v huv
      rw [hweight u v huv, keptWeight_eq_zero (by omega) hempty]
    · rw [if_neg hempty, keptWeight_self, if_neg]
      intro hall
      obtain ⟨v, hv⟩ := Finset.nonempty_iff_ne_empty.2 hempty
      obtain ⟨hv, hpos⟩ := Finset.mem_filter.1 hv
      have hv := Finset.mem_range.1 hv
      have hne : u ≠ ⟨v, by omega⟩ := by
        rintro rfl
        rw [keptWeight_self] at hpos
        exact lt_irrefl _ hpos
      have hzero := hall ⟨v, by omega⟩ hne
      rw [hweight _ _ hne] at hzero
      exact hpos.ne' hzero

/-- **The compressed form is right exactly when an `i32` counts the entries**: the offsets are
    cast to `i32`. -/
theorem csr_iff_entryCount_lt (hn : nodeIds.length < 2 ^ 31) :
    Csr triples symmetrize (fromWeightedTriples nodeIds triples symmetrize) ↔
      entryCount nodeIds.length triples symmetrize < 2 ^ 31 := by
  rw [← nnz_eq_entryCount hn]
  constructor
  · intro h
    have hstop := h.stop
    rw [getLast?_indptr, Option.some.injEq] at hstop
    have hlt := asI32_lt (fromWeightedTriples nodeIds triples symmetrize).nnz
    omega
  · exact csr_of_nnz_lt hn

end

/-! ## The order of the triples -/

/-- Two additions to a row commute. -/
theorem addEntry_comm (v v' : ℤ) (w w' : ℚ) (row : Row) :
    addEntry v w (addEntry v' w' row) = addEntry v' w' (addEntry v w row) := by
  induction row with
  | nil =>
    rcases lt_trichotomy v v' with h | rfl | h
    · simp [addEntry, h, h.not_gt, h.ne']
    · simp [addEntry, add_comm]
    · simp [addEntry, h, h.not_gt, h.ne']
  | cons e row ih =>
    obtain ⟨k, x⟩ := e
    rcases lt_trichotomy v k with h | h | h <;> rcases lt_trichotomy v' k with h' | h' | h'
    · rcases lt_trichotomy v v' with hv | rfl | hv
      · simp [addEntry, h, h', hv, hv.not_gt, hv.ne']
      · simp [addEntry, h, add_comm]
      · simp [addEntry, h, h', hv, hv.not_gt, hv.ne']
    · subst h'
      simp [addEntry, h, h.not_gt, h.ne']
    · simp [addEntry, h, h'.not_gt, h'.ne', (h.trans h').not_gt, (h.trans h').ne']
    · subst h
      simp [addEntry, h', h'.not_gt, h'.ne']
    · subst h h'
      simp [addEntry, add_right_comm]
    · subst h
      simp [addEntry, h'.not_gt, h'.ne']
    · simp [addEntry, h', h.not_gt, h.ne', (h'.trans h).not_gt, (h'.trans h).ne']
    · subst h'
      simp [addEntry, h.not_gt, h.ne']
    · simp [addEntry, h.not_gt, h.ne', h'.not_gt, h'.ne', ih]

theorem modify_addEntry_comm (acc : List Row) (u u' : ℕ) (v v' : ℤ) (w w' : ℚ) :
    (acc.modify u (addEntry v w)).modify u' (addEntry v' w') =
      (acc.modify u' (addEntry v' w')).modify u (addEntry v w) := by
  refine List.ext_getElem (by simp) fun i hi hi' => ?_
  simp only [List.getElem_modify]
  split_ifs
  · exact addEntry_comm ..
  all_goals rfl

theorem addTriple_comm (n : ℕ) (symmetrize : Bool) (acc : List Row) (t t' : ℕ × ℕ × ℚ) :
    addTriple n symmetrize (addTriple n symmetrize acc t) t' =
      addTriple n symmetrize (addTriple n symmetrize acc t') t := by
  obtain ⟨u, v, w⟩ := t
  obtain ⟨u', v', w'⟩ := t'
  unfold addTriple
  dsimp only
  by_cases h : n ≤ u ∨ n ≤ v ∨ u = v ∨ w ≤ 0
  · simp only [if_pos h]
  by_cases h' : n ≤ u' ∨ n ≤ v' ∨ u' = v' ∨ w' ≤ 0
  · simp only [if_pos h']
  simp only [if_neg h, if_neg h']
  cases symmetrize with
  | false => exact modify_addEntry_comm ..
  | true =>
    simp only [if_true]
    rw [modify_addEntry_comm _ v u', modify_addEntry_comm acc u u', modify_addEntry_comm _ v v',
      modify_addEntry_comm _ u v']

/-- **A graph does not depend on the order of its triples.** -/
theorem fromWeightedTriples_perm {triples triples' : List (ℕ × ℕ × ℚ)} (h : triples.Perm triples')
    (nodeIds : List String) (symmetrize : Bool) :
    fromWeightedTriples nodeIds triples symmetrize =
      fromWeightedTriples nodeIds triples' symmetrize := by
  have : RightCommutative (addTriple nodeIds.length symmetrize) :=
    ⟨fun acc t t' => addTriple_comm nodeIds.length symmetrize acc t t'⟩
  unfold fromWeightedTriples
  dsimp only
  rw [h.foldl_eq]

/-! ## A graph with too many entries -/

/-- The triples between any two of the first `n` nodes. -/
def complete (n : ℕ) : List (ℕ × ℕ × ℚ) :=
  (List.range n).flatMap fun u => (List.range n).map fun v => (u, v, 1)

/-- Distinct ids. -/
def unaryIds (n : ℕ) : List String := (List.range n).map fun k => .ofList (List.replicate k 'a')

theorem nodup_unaryIds (n : ℕ) : (unaryIds n).Nodup := by
  refine List.Nodup.map (fun j k h => ?_) List.nodup_range
  have hlen := congrArg List.length (String.ofList_inj.1 h)
  simpa using hlen

theorem targets_complete {n u : ℕ} (hu : u < n) :
    (Finset.range n).erase u ⊆ targets n (complete n) false u := by
  intro v hv
  obtain ⟨hne, hv⟩ := Finset.mem_erase.1 hv
  refine Finset.mem_filter.2 ⟨hv, ?_⟩
  have hv := Finset.mem_range.1 hv
  have hmem : given n false u v (u, v, 1) ∈ (complete n).map (given n false u v) := by
    refine List.mem_map_of_mem (List.mem_flatMap.2 ⟨u, List.mem_range.2 hu, ?_⟩)
    exact List.mem_map_of_mem (List.mem_range.2 hv)
  have hle := List.single_le_sum (fun x hx => by
    obtain ⟨t, -, rfl⟩ := List.mem_map.1 hx
    exact given_nonneg n false u v t) _ hmem
  have hone : given n false u v (u, v, 1) = 1 := by
    have hskip : ¬ (n ≤ u ∨ n ≤ v ∨ u = v ∨ (1 : ℚ) ≤ 0) := by
      rintro (h | h | h | h)
      · omega
      · omega
      · exact hne h.symm
      · exact absurd h (by decide)
    rw [given, if_neg hskip]
    simp
  rw [hone] at hle
  exact lt_of_lt_of_le one_pos hle

theorem le_entryCount_complete (n : ℕ) : n * (n - 1) ≤ entryCount n (complete n) false := by
  have hrow : ∀ u ∈ Finset.range n, n - 1 ≤ max 1 (targets n (complete n) false u).card := by
    intro u hu
    have hcard := Finset.card_le_card (targets_complete (Finset.mem_range.1 hu))
    rw [Finset.card_erase_of_mem hu, Finset.card_range] at hcard
    omega
  have hsum := Finset.card_nsmul_le_sum _ _ _ hrow
  rw [Finset.card_range, nsmul_eq_mul, Nat.cast_id] at hsum
  exact hsum

end CodeGraph

end Cognis
