/-
  The two searches of `symbol_vec` (`lib.rs` of `cognis-store`): the nearest rows as the
  `vec0` table finds them, and the linear scan of the plain table, over exact distances.

  `sqlite-vec` returns some nearest rows (`Nearest`), whichever it likes at a tie, and no
  distance for a row without a direction.

  * `ranksAlike_iff`: when the two searches return the same symbols in the same order,
    whatever rows `sqlite-vec` chooses.
-/
import Cognis.Lib.Nearest
import Mathlib.Analysis.Real.Sqrt
import Mathlib.Data.Prod.Lex
import Mathlib.Data.String.Basic

namespace Cognis

open Table

/-- A row of `symbol_vec`, by the values of its entries. -/
structure VecRow (R : Type) where
  symbolId : String
  embedding : List R

/-- `Hit` of the layer `semantic`; the reason is a text of the distance and the name. -/
structure SemanticHit (R : Type) where
  symbolId : String
  score : R
  distance : R
  qualifiedName : Option String

section

variable {R : Type} [Field R] [LinearOrder R]

/-- The sums of `cosine_distance`: the product of the vectors, and the squares of their norms. -/
def cosineSums (a b : List R) : R × R × R :=
  (a.zip b).foldl (fun sums xy =>
    (sums.1 + xy.1 * xy.2, sums.2.1 + xy.1 * xy.1, sums.2.2 + xy.2 * xy.2)) (0, 0, 0)

/-- One of the vectors has no direction. -/
def Directionless (a b : List R) : Prop := (cosineSums a b).2.1 = 0 ∨ (cosineSums a b).2.2 = 0

instance decidableDirectionless (a b : List R) : Decidable (Directionless a b) :=
  inferInstanceAs (Decidable (_ ∨ _))

variable (sqrt : R → R)

/-- `cosine_distance` -/
def cosineDistance (a b : List R) : R :=
  if Directionless a b then 1
  else 1 - (cosineSums a b).1 / (sqrt (cosineSums a b).2.1 * sqrt (cosineSums a b).2.2)

/-- The column `distance` of a match: `NULL` without a direction. -/
def matchDistance (a b : List R) : Option R :=
  if Directionless a b then none else some (cosineDistance sqrt a b)

variable (qualifiedName : String → Option String)

/-- `semantic_hit` -/
def semanticHit (symbolId : String) (distance : R) (qualifiedName : Option String) : SemanticHit R :=
  ⟨symbolId, max (1 - distance) 0, distance, qualifiedName⟩

/-- `blob_linear_scan`; the name is joined from `symbol`, where the id is unique. -/
def blobLinearScan (rows : List (VecRow R)) (q : List R) (k : ℕ) : List (SemanticHit R) :=
  let scored := rows.filterMap fun row =>
    if row.embedding = [] ∨ row.embedding.length ≠ q.length then none
    else some (cosineDistance sqrt q row.embedding, row.symbolId)
  ((sortOn (fun scored => toLex scored) scored).take k).map fun scored =>
    semanticHit scored.2 scored.1 (qualifiedName scored.2)

/-- `NULL` comes first in the order of SQL. -/
def nullsFirst (distance : Option R) : WithBot R := distance

/-- `vec0_knn`, given what the match returns. -/
def vec0Knn (matched : List (String × Option R)) : List (SemanticHit R) :=
  (sortOn (fun row => toLex (nullsFirst row.2, row.1)) matched).map fun row =>
    semanticHit row.1 (row.2.getD 1) (qualifiedName row.1)

/-- The greatest `k` of a match. -/
def matchCap : ℕ := 4096

/-- `vec_search` over a `vec0` table, given the rows that the match finds for
    `k.min(4096)`. -/
def vecSearchVec0 (found : List (VecRow R)) (q : List R) (k : ℕ) : List (SemanticHit R) :=
  if q = [] ∨ k = 0 then []
  else vec0Knn qualifiedName
    (found.map fun row => (row.symbolId, matchDistance sqrt q row.embedding))

/-- Both searches return the same symbols in the same order, whatever rows are found. -/
def RanksAlike (rows : List (VecRow R)) (q : List R) (k : ℕ) : Prop :=
  ∀ found, Nearest (fun row => matchDistance sqrt q row.embedding) rows (min k matchCap) found →
    (vecSearchVec0 sqrt qualifiedName found q k).map SemanticHit.symbolId =
      (blobLinearScan sqrt qualifiedName rows q k).map SemanticHit.symbolId

/-! ## When every row is returned, and when some are -/

/-- A row without a direction is before every row with one. -/
def DirectionlessFirst (rows : List (VecRow R)) (q : List R) : Prop :=
  ∀ z ∈ rows, ∀ row ∈ rows, Directionless q z.embedding → ¬ Directionless q row.embedding →
    1 < cosineDistance sqrt q row.embedding ∨
      cosineDistance sqrt q row.embedding = 1 ∧ z.symbolId < row.symbolId

/-- Exactly `k` rows are within some distance, and all have a direction. -/
def CutClear (rows : List (VecRow R)) (q : List R) (k : ℕ) : Prop :=
  (∀ row ∈ rows, ¬ Directionless q row.embedding) ∧
    ∃ t : R, (rows.filter fun row => cosineDistance sqrt q row.embedding ≤ t).length = k

/-! ## The orders of the rows -/

/-- The order of the scan. -/
def scanKey (q : List R) (row : VecRow R) : R ×ₗ String :=
  toLex (cosineDistance sqrt q row.embedding, row.symbolId)

/-- The order of the query. -/
def matchKey (q : List R) (row : VecRow R) : WithBot R ×ₗ String :=
  toLex (nullsFirst (matchDistance sqrt q row.embedding), row.symbolId)

theorem sortOn_map {α β κ : Type*} [LinearOrder κ] (key : β → κ) (f : α → β) (l : List α) :
    sortOn key (l.map f) = (sortOn (fun a => key (f a)) l).map f :=
  (List.map_insertionSort _ _ f l fun _ _ _ _ => Iff.rfl).symm

section

variable {sqrt qualifiedName} {rows : List (VecRow R)} {q : List R} {k : ℕ}

theorem map_symbolId_vecSearchVec0 (hq : q ≠ []) (hk : k ≠ 0) (found : List (VecRow R)) :
    (vecSearchVec0 sqrt qualifiedName found q k).map SemanticHit.symbolId =
      (sortOn (matchKey sqrt q) found).map VecRow.symbolId := by
  rw [vecSearchVec0, if_neg (by tauto), vec0Knn, sortOn_map, List.map_map, List.map_map]
  rfl

theorem map_symbolId_blobLinearScan (hq : q ≠ [])
    (hdim : ∀ row ∈ rows, row.embedding.length = q.length) :
    (blobLinearScan sqrt qualifiedName rows q k).map SemanticHit.symbolId =
      ((sortOn (scanKey sqrt q) rows).take k).map VecRow.symbolId := by
  have hscored : (rows.filterMap fun row =>
      if row.embedding = [] ∨ row.embedding.length ≠ q.length then none
      else some (cosineDistance sqrt q row.embedding, row.symbolId)) =
        rows.map fun row => (cosineDistance sqrt q row.embedding, row.symbolId) := by
    rw [← List.filterMap_eq_map]
    refine List.filterMap_congr fun row hrow => ?_
    have hlength := hdim row hrow
    have hne : row.embedding ≠ [] := by
      intro hnil
      rw [hnil] at hlength
      exact hq (List.length_eq_zero_iff.1 hlength.symm)
    rw [if_neg (by tauto)]
    rfl
  rw [blobLinearScan, hscored]
  simp only [sortOn_map, ← List.map_take, List.map_map]
  rfl

omit [Field R] [LinearOrder R] in
theorem keyed_of_symbolId {κ : Type*} {key : VecRow R → κ ×ₗ String}
    (hkey : ∀ row, (ofLex (key row)).2 = row.symbolId) (hrows : Keyed VecRow.symbolId rows) :
    Keyed key rows := by
  refine List.Nodup.of_map (fun k => (ofLex k).2) ?_
  rw [List.map_map]
  exact (List.map_congr_left fun row _ => hkey row) ▸ hrows

theorem keyed_scanKey (hrows : Keyed VecRow.symbolId rows) : Keyed (scanKey sqrt q) rows :=
  keyed_of_symbolId (fun _ => rfl) hrows

theorem keyed_matchKey (hrows : Keyed VecRow.symbolId rows) : Keyed (matchKey sqrt q) rows :=
  keyed_of_symbolId (fun _ => rfl) hrows

theorem matchDistance_of_not {row : VecRow R} (h : ¬ Directionless q row.embedding) :
    matchDistance sqrt q row.embedding = some (cosineDistance sqrt q row.embedding) := if_neg h

theorem matchDistance_eq_some {row : VecRow R} {d : R}
    (h : matchDistance sqrt q row.embedding = some d) :
    ¬ Directionless q row.embedding ∧ cosineDistance sqrt q row.embedding = d := by
  rw [matchDistance] at h
  split_ifs at h with hnone
  exact ⟨hnone, Option.some_inj.1 h⟩

theorem scanKey_le_iff {row other : VecRow R} : scanKey sqrt q row ≤ scanKey sqrt q other ↔
    cosineDistance sqrt q row.embedding < cosineDistance sqrt q other.embedding ∨
      cosineDistance sqrt q row.embedding = cosineDistance sqrt q other.embedding ∧
        row.symbolId ≤ other.symbolId := Prod.Lex.toLex_le_toLex

theorem matchKey_le_iff {row other : VecRow R} : matchKey sqrt q row ≤ matchKey sqrt q other ↔
    nullsFirst (matchDistance sqrt q row.embedding) < nullsFirst (matchDistance sqrt q other.embedding) ∨
      nullsFirst (matchDistance sqrt q row.embedding) = nullsFirst (matchDistance sqrt q other.embedding) ∧
        row.symbolId ≤ other.symbolId := Prod.Lex.toLex_le_toLex

/-- The scan goes by the distances of the match. -/
theorem byDistance_scanKey (rows : List (VecRow R)) (q : List R) :
    ByDistance (fun row => matchDistance sqrt q row.embedding) (scanKey sqrt q) rows := by
  intro r _ s _ hle d e hd he
  obtain ⟨-, rfl⟩ := matchDistance_eq_some hd
  obtain ⟨-, rfl⟩ := matchDistance_eq_some he
  rcases scanKey_le_iff.1 hle with hlt | ⟨heq, -⟩
  · exact hlt.le
  · exact heq.le

/-- The two orders of rows with a direction are one. -/
theorem matchKey_le_of_directions {row other : VecRow R} (hrow : ¬ Directionless q row.embedding)
    (hother : ¬ Directionless q other.embedding) (h : scanKey sqrt q row ≤ scanKey sqrt q other) :
    matchKey sqrt q row ≤ matchKey sqrt q other := by
  rw [matchKey_le_iff, matchDistance_of_not hrow, matchDistance_of_not hother]
  rcases scanKey_le_iff.1 h with hlt | ⟨heq, hid⟩
  · exact .inl (WithBot.coe_lt_coe.2 hlt)
  · exact .inr ⟨congrArg _ (congrArg some heq), hid⟩

/-- Rows without a direction come first in both orders. -/
theorem matchKey_le_of_first (hfirst : DirectionlessFirst sqrt rows q) {row other : VecRow R}
    (hrow : row ∈ rows) (hother : other ∈ rows) (h : scanKey sqrt q row ≤ scanKey sqrt q other) :
    matchKey sqrt q row ≤ matchKey sqrt q other := by
  by_cases hnone : Directionless q row.embedding
  · rw [matchKey_le_iff, matchDistance, if_pos hnone]
    by_cases hother' : Directionless q other.embedding
    · rw [matchDistance, if_pos hother']
      refine .inr ⟨rfl, ?_⟩
      rcases scanKey_le_iff.1 h with hlt | ⟨-, hid⟩
      · rw [cosineDistance, cosineDistance, if_pos hnone, if_pos hother'] at hlt
        exact absurd hlt (lt_irrefl _)
      · exact hid
    · rw [matchDistance_of_not hother']
      exact .inl (WithBot.bot_lt_coe _)
  · by_cases hother' : Directionless q other.embedding
    · -- the row without a direction is the first one
      have hone : cosineDistance sqrt q other.embedding = 1 := if_pos hother'
      rcases hfirst other hother row hrow hother' hnone with hlt | ⟨heq, hid⟩
      · rcases scanKey_le_iff.1 h with hlt' | ⟨heq', -⟩
        · exact absurd (hlt.trans hlt') (hone ▸ lt_irrefl _)
        · exact absurd (heq' ▸ hlt) (hone ▸ lt_irrefl _)
      · rcases scanKey_le_iff.1 h with hlt' | ⟨-, hid'⟩
        · exact absurd (heq ▸ hlt') (hone ▸ lt_irrefl _)
        · exact absurd hid (not_lt.2 hid')
    · exact matchKey_le_of_directions hnone hother' h

/-- If the orders agree on some rows, these are sorted in both. -/
theorem sortOn_matchKey (hrows : Keyed VecRow.symbolId rows) {found : List (VecRow R)}
    (hfound : found.Perm rows) (hkeys : ∀ row ∈ rows, ∀ other ∈ rows,
      scanKey sqrt q row ≤ scanKey sqrt q other → matchKey sqrt q row ≤ matchKey sqrt q other) :
    sortOn (matchKey sqrt q) found = sortOn (scanKey sqrt q) rows := by
  have hsorted : (sortOn (scanKey sqrt q) rows).Pairwise fun a b => matchKey sqrt q a ≤ matchKey sqrt q b := by
    have hscan : (sortOn (scanKey sqrt q) rows).Pairwise fun a b => scanKey sqrt q a ≤ scanKey sqrt q b :=
      sorted_sortOn
    refine List.Pairwise.imp_of_mem ?_ hscan
    intro a b ha hb hle
    exact hkeys a (mem_sortOn.1 ha) b (mem_sortOn.1 hb) hle
  refine ((sortOn_perm.trans hfound).trans sortOn_perm.symm).eq_of_pairwise ?_ sorted_sortOn hsorted
  intro a b ha hb hab hba
  exact (keyed_matchKey hrows).eq (hfound.mem_iff.1 (mem_sortOn.1 ha)) (mem_sortOn.1 hb)
    (le_antisymm hab hba)

/-! ## The searches agree -/

omit [Field R] [LinearOrder R] in
/-- Rows are known by their ids. -/
theorem eq_of_map_symbolId (hrows : Keyed VecRow.symbolId rows) {found other : List (VecRow R)}
    (hfound : ∀ row ∈ found, row ∈ rows) (hother : ∀ row ∈ other, row ∈ rows)
    (h : found.map VecRow.symbolId = other.map VecRow.symbolId) : found = other := by
  induction found generalizing other with
  | nil => exact (List.map_eq_nil_iff.1 h.symm).symm
  | cons row found ih =>
    cases other with
    | nil => cases h
    | cons row' other =>
      rw [List.forall_mem_cons] at hfound hother
      obtain ⟨hid, hrest⟩ := List.cons.inj h
      rw [hrows.eq hfound.1 hother.1 hid, ih hfound.2 hother.2 hrest]

/-- The searches return the same rows in the same order. -/
theorem ranksAlike_iff_rows (hq : q ≠ []) (hk : k ≠ 0) (hrows : Keyed VecRow.symbolId rows)
    (hdim : ∀ row ∈ rows, row.embedding.length = q.length) :
    RanksAlike sqrt qualifiedName rows q k ↔
      ∀ found, Nearest (fun row => matchDistance sqrt q row.embedding) rows (min k matchCap) found →
        sortOn (matchKey sqrt q) found = (sortOn (scanKey sqrt q) rows).take k := by
  refine forall_congr' fun found => ⟨fun h hfound => ?_, fun h hfound => ?_⟩
  · have hids := h hfound
    rw [map_symbolId_vecSearchVec0 hq hk, map_symbolId_blobLinearScan hq hdim] at hids
    refine eq_of_map_symbolId hrows ?_ ?_ hids
    · exact fun row hrow => hfound.mem row (mem_sortOn.1 hrow)
    · exact fun row hrow => mem_sortOn.1 (List.mem_of_mem_take hrow)
  · rw [map_symbolId_vecSearchVec0 hq hk, map_symbolId_blobLinearScan hq hdim, h hfound]

/-- The first rows of the scan are nearest rows. -/
theorem scan_nearest (hrows : Keyed VecRow.symbolId rows) (n : ℕ) :
    Nearest (fun row => matchDistance sqrt q row.embedding) rows n
      ((sortOn (scanKey sqrt q) rows).take n) :=
  take_nearest hrows.nodup (byDistance_scanKey rows q) n

/-- As many rows come back as the scan has. -/
theorem length_le_of_agree (hrows : Keyed VecRow.symbolId rows)
    (h : ∀ found, Nearest (fun row => matchDistance sqrt q row.embedding) rows (min k matchCap) found →
      sortOn (matchKey sqrt q) found = (sortOn (scanKey sqrt q) rows).take k) :
    min (min k matchCap) rows.length = min k rows.length := by
  have hlength := congrArg List.length (h _ (scan_nearest hrows (min k matchCap)))
  rwa [sortOn_perm.length_eq, List.length_take, List.length_take, sortOn_perm.length_eq] at hlength

/-- Every row is returned. -/
theorem agree_every (hrows : Keyed VecRow.symbolId rows) (hlength : rows.length ≤ k) :
    (∀ found, Nearest (fun row => matchDistance sqrt q row.embedding) rows (min k matchCap) found →
      sortOn (matchKey sqrt q) found = (sortOn (scanKey sqrt q) rows).take k) ↔
      rows.length ≤ matchCap ∧ DirectionlessFirst sqrt rows q := by
  have hall : (sortOn (scanKey sqrt q) rows).take k = sortOn (scanKey sqrt q) rows :=
    List.take_of_length_le (sortOn_perm.length_eq.trans_le hlength)
  constructor
  · intro h
    have hcap := length_le_of_agree hrows h
    refine ⟨by omega, fun z hz row hrow hnone hsome => ?_⟩
    have hsame : sortOn (matchKey sqrt q) rows = sortOn (scanKey sqrt q) rows := by
      rw [← hall]
      refine h rows ⟨hrows.nodup, fun _ h => h, by omega, fun r _ s hs hnot => absurd hs hnot⟩
    -- in the one list, both orders hold
    have hmatch : (sortOn (scanKey sqrt q) rows).Pairwise
        fun a b => matchKey sqrt q a ≤ matchKey sqrt q b := hsame ▸ sorted_sortOn
    have hscan : (sortOn (scanKey sqrt q) rows).Pairwise
        fun a b => scanKey sqrt q a ≤ scanKey sqrt q b := sorted_sortOn
    have hsymm : Std.Symm fun a b : VecRow R =>
        (scanKey sqrt q a ≤ scanKey sqrt q b ∧ matchKey sqrt q a ≤ matchKey sqrt q b) ∨
          (scanKey sqrt q b ≤ scanKey sqrt q a ∧ matchKey sqrt q b ≤ matchKey sqrt q a) :=
      ⟨fun _ _ h => h.symm⟩
    have hboth : (sortOn (scanKey sqrt q) rows).Pairwise fun a b : VecRow R =>
        (scanKey sqrt q a ≤ scanKey sqrt q b ∧ matchKey sqrt q a ≤ matchKey sqrt q b) ∨
          (scanKey sqrt q b ≤ scanKey sqrt q a ∧ matchKey sqrt q b ≤ matchKey sqrt q a) :=
      (hscan.and hmatch).imp .inl
    have hpair := hboth.forall_of_forall (fun _ _ => .inl ⟨le_rfl, le_rfl⟩) (mem_sortOn.2 hz)
      (mem_sortOn.2 hrow)
    have hfirst : ¬ matchKey sqrt q row ≤ matchKey sqrt q z := by
      rw [matchKey_le_iff, matchDistance_of_not hsome, matchDistance, if_pos hnone, not_or]
      refine ⟨not_lt_bot, fun h => ?_⟩
      exact WithBot.coe_ne_bot h.1
    rcases hpair with ⟨hle, -⟩ | ⟨-, hle⟩
    · have hone : cosineDistance sqrt q z.embedding = 1 := if_pos hnone
      rw [scanKey_le_iff, hone] at hle
      refine hle.imp id fun h => ⟨h.1.symm, lt_of_le_of_ne h.2 fun hid => ?_⟩
      exact hsome (hrows.eq hz hrow hid ▸ hnone)
    · exact absurd hle hfirst
  · rintro ⟨hcap, hfirst⟩ found hfound
    have hmin : rows.length ≤ min k matchCap := le_min hlength hcap
    rw [hall]
    exact sortOn_matchKey hrows (hfound.perm hmin) fun row hrow other hother =>
      matchKey_le_of_first hfirst hrow hother

/-- Some rows are left out. -/
theorem agree_some (hrows : Keyed VecRow.symbolId rows) (hk : k ≠ 0) (hlength : k < rows.length) :
    (∀ found, Nearest (fun row => matchDistance sqrt q row.embedding) rows (min k matchCap) found →
      sortOn (matchKey sqrt q) found = (sortOn (scanKey sqrt q) rows).take k) ↔
      k ≤ matchCap ∧ CutClear sqrt rows q k := by
  have hscan : (sortOn (scanKey sqrt q) rows).Pairwise
      fun a b => scanKey sqrt q a ≤ scanKey sqrt q b := sorted_sortOn
  have hscanLength : (sortOn (scanKey sqrt q) rows).length = rows.length := sortOn_perm.length_eq
  have hscanNodup : (sortOn (scanKey sqrt q) rows).Nodup := sortOn_perm.nodup_iff.2 hrows.nodup
  constructor
  · intro h
    have hcap : k ≤ matchCap := by
      have hcap := length_le_of_agree hrows h
      omega
    rw [min_eq_left hcap] at h
    -- the rows are split at the cut, and no row beyond it can be found
    obtain ⟨front, last, hfirst⟩ : ∃ front last, (sortOn (scanKey sqrt q) rows).take k = front ++ [last] :=
      (List.eq_nil_or_concat' _).resolve_left (List.ne_nil_of_length_pos (by
        rw [List.length_take]
        omega))
    obtain ⟨next, after, hrest⟩ : ∃ next after, (sortOn (scanKey sqrt q) rows).drop k = next :: after :=
      List.exists_cons_of_ne_nil (List.ne_nil_of_length_pos (by
        rw [List.length_drop]
        omega))
    have hsplit : sortOn (scanKey sqrt q) rows = (front ++ [last]) ++ next :: after := by
      rw [← hfirst, ← hrest, List.take_append_drop]
    have hfirstLength : (front ++ [last]).length = k := by
      rw [← hfirst, List.length_take]
      omega
    have hout : ∀ row ∈ next :: after, ∀ found, row ∈ found →
        ¬ Nearest (fun row => matchDistance sqrt q row.embedding) rows k found := by
      intro row hrow found hmem hfound
      have hin : row ∈ front ++ [last] := by
        rw [← hfirst, ← h found hfound]
        exact mem_sortOn.2 hmem
      rw [hsplit] at hscanNodup
      exact (List.nodup_append.1 hscanNodup).2.2 row hin row hrow rfl
    have hdirections : ∀ row ∈ (front ++ [last]) ++ next :: after, ¬ Directionless q row.embedding := by
      intro row hrow hnone
      have hnull : matchDistance sqrt q row.embedding = none := if_pos hnone
      rcases List.mem_append.1 hrow with hrow | hrow
      · obtain ⟨before, back, hmid⟩ := List.append_of_mem hrow
        refine hout next List.mem_cons_self ((before ++ back) ++ [next]) (by simp) ?_
        have hswap := swap_nearest before back [] after row next hrows.nodup
          (byDistance_scanKey rows q) (by rw [hsplit, hmid]; rfl) (.inr hnull) (.inl rfl)
          (fun d e hd => by rw [hnull] at hd; cases hd)
        rwa [← hmid, hfirstLength] at hswap
      · obtain ⟨before, back, hmid⟩ := List.append_of_mem hrow
        refine hout row hrow ((front ++ []) ++ [row]) (by simp) ?_
        have hswap := swap_nearest front [] before back last row hrows.nodup
          (byDistance_scanKey rows q) (by rw [hsplit, hmid]) (.inl rfl) (.inr hnull)
          (fun d e _ he => by rw [hnull] at he; cases he)
        rwa [hfirstLength] at hswap
    have hrows' : ∀ row ∈ rows, ¬ Directionless q row.embedding := by
      intro row hrow
      refine hdirections row ?_
      rw [← hsplit]
      exact mem_sortOn.2 hrow
    have hcut : cosineDistance sqrt q last.embedding < cosineDistance sqrt q next.embedding := by
      by_contra htie
      refine hout next List.mem_cons_self ((front ++ []) ++ [next]) (by simp) ?_
      have hswap := swap_nearest front [] [] after last next hrows.nodup
        (byDistance_scanKey rows q) hsplit (.inl rfl) (.inl rfl) (fun d e hd he => by
          obtain ⟨-, rfl⟩ := matchDistance_eq_some hd
          obtain ⟨-, rfl⟩ := matchDistance_eq_some he
          exact not_lt.1 htie)
      rwa [hfirstLength] at hswap
    refine ⟨hcap, hrows', cosineDistance sqrt q last.embedding, ?_⟩
    have hle : ∀ a b : VecRow R, scanKey sqrt q a ≤ scanKey sqrt q b →
        cosineDistance sqrt q a.embedding ≤ cosineDistance sqrt q b.embedding := by
      intro a b hab
      rcases scanKey_le_iff.1 hab with hlt | ⟨heq, -⟩
      · exact hlt.le
      · exact heq.le
    rw [hsplit, List.pairwise_append] at hscan
    have hfront := (List.pairwise_append.1 hscan.1).2.2
    have hafter := List.pairwise_cons.1 hscan.2.1
    have hscanPerm : (sortOn (scanKey sqrt q) rows).Perm rows := sortOn_perm
    rw [← (hscanPerm.filter _).length_eq, hsplit, List.filter_append, List.length_append,
      List.filter_eq_self.2, List.filter_eq_nil_iff.2]
    · exact hfirstLength
    · intro row hrow
      rw [decide_eq_true_eq, not_le]
      rcases List.mem_cons.1 hrow with rfl | hrow
      · exact hcut
      · exact hcut.trans_le (hle _ _ (hafter.1 row hrow))
    · intro row hrow
      rw [decide_eq_true_eq]
      rcases List.mem_append.1 hrow with hrow | hrow
      · exact hle _ _ (hfront row hrow last List.mem_cons_self)
      · rw [List.mem_singleton.1 hrow]
  · rintro ⟨hcap, hdirections, t, ht⟩ found hfound
    rw [min_eq_left hcap] at hfound
    have hdistance : ∀ row ∈ rows, matchDistance sqrt q row.embedding =
        some (cosineDistance sqrt q row.embedding) :=
      fun row hrow => matchDistance_of_not (hdirections row hrow)
    have hperm := (hfound.perm_filter hrows.nodup hdistance ht).trans
      ((scan_nearest hrows k).perm_filter hrows.nodup hdistance ht).symm
    have htakeKeyed : Keyed VecRow.symbolId ((sortOn (scanKey sqrt q) rows).take k) :=
      List.Nodup.sublist (List.Sublist.map _ (List.take_sublist k _))
        ((sortOn_perm.map VecRow.symbolId).nodup_iff.2 hrows)
    have hmem : ∀ row ∈ (sortOn (scanKey sqrt q) rows).take k, row ∈ rows :=
      fun row hrow => mem_sortOn.1 (List.mem_of_mem_take hrow)
    rw [sortOn_matchKey htakeKeyed hperm fun row hrow other hother =>
      matchKey_le_of_directions (hdirections row (hmem row hrow)) (hdirections other (hmem other hother))]
    -- the first rows of the scan are in its order
    have hsorted : ((sortOn (scanKey sqrt q) rows).take k).Pairwise
        fun a b => scanKey sqrt q a ≤ scanKey sqrt q b := hscan.sublist (List.take_sublist k _)
    refine sortOn_perm.eq_of_pairwise ?_ sorted_sortOn hsorted
    intro a b ha hb hab hba
    exact (keyed_scanKey hrows).eq (hmem a (mem_sortOn.1 ha)) (hmem b hb) (le_antisymm hab hba)

/-- **When the searches rank alike**: every row is returned, no more than the cap, and rows
    without a direction come first; or the cut is clear, and `k` is within the cap. -/
theorem ranksAlike_iff (hrows : Keyed VecRow.symbolId rows)
    (hdim : ∀ row ∈ rows, row.embedding.length = q.length) :
    RanksAlike sqrt qualifiedName rows q k ↔
      q = [] ∨ k = 0 ∨
        (rows.length ≤ k ∧ rows.length ≤ matchCap ∧ DirectionlessFirst sqrt rows q) ∨
        (k < rows.length ∧ k ≤ matchCap ∧ CutClear sqrt rows q k) := by
  rcases eq_or_ne q [] with rfl | hq
  · -- rows of no entries are skipped
    refine iff_of_true (fun found _ => ?_) (.inl rfl)
    have hscored : (rows.filterMap fun row =>
        if row.embedding = [] ∨ row.embedding.length ≠ ([] : List R).length then none
        else some (cosineDistance sqrt [] row.embedding, row.symbolId)) = [] := by
      rw [List.filterMap_eq_nil_iff]
      exact fun row hrow => if_pos (.inl (List.length_eq_zero_iff.1 (hdim row hrow)))
    have hempty : sortOn (fun scored : R × String => toLex scored) [] = [] := rfl
    rw [vecSearchVec0, if_pos (.inl rfl), blobLinearScan, hscored]
    simp only [hempty, List.take_nil, List.map_nil]
  rcases eq_or_ne k 0 with rfl | hk
  · refine iff_of_true (fun found _ => ?_) (.inr (.inl rfl))
    rw [vecSearchVec0, if_pos (.inr rfl)]
    rfl
  rw [ranksAlike_iff_rows hq hk hrows hdim, or_iff_right hq, or_iff_right hk]
  rcases Nat.lt_or_ge k rows.length with hlength | hlength
  · rw [agree_some hrows hk hlength]
    constructor
    · exact fun h => .inr ⟨hlength, h⟩
    · rintro (⟨hle, -⟩ | ⟨-, h⟩)
      · omega
      · exact h
  · rw [agree_every hrows hlength]
    constructor
    · exact fun h => .inl ⟨hlength, h⟩
    · rintro (⟨-, h⟩ | ⟨hlt, -⟩)
      · exact h
      · omega

end

/-- The rows `a` without a direction, and `b` along the query. -/
def zeroAndUnit : List (VecRow ℝ) := [⟨"a", [0]⟩, ⟨"b", [1]⟩]

theorem zeroAndUnit_keyed : Keyed VecRow.symbolId zeroAndUnit := by decide

theorem zeroAndUnit_dim : ∀ row ∈ zeroAndUnit, row.embedding.length = ([1] : List ℝ).length :=
  List.forall_mem_cons.2 ⟨rfl, List.forall_mem_singleton.2 rfl⟩

theorem ranksAlike_zeroAndUnit :
    RanksAlike Real.sqrt (fun _ => none) zeroAndUnit [1] 2 ↔
      ([1] : List ℝ) = [] ∨ 2 = 0 ∨
        (zeroAndUnit.length ≤ 2 ∧ zeroAndUnit.length ≤ matchCap ∧
          DirectionlessFirst Real.sqrt zeroAndUnit [1]) ∨
        (2 < zeroAndUnit.length ∧ 2 ≤ matchCap ∧ CutClear Real.sqrt zeroAndUnit [1] 2) :=
  ranksAlike_iff zeroAndUnit_keyed zeroAndUnit_dim

/-- The query lists `a` first, the scan `b`. -/
theorem not_alwaysRankAlike : ¬ ∀ (rows : List (VecRow ℝ)) (q : List ℝ) (k : ℕ),
    Keyed VecRow.symbolId rows → (∀ row ∈ rows, row.embedding.length = q.length) →
      RanksAlike Real.sqrt (fun _ => none) rows q k := by
  intro h
  have halike := h zeroAndUnit [1] 2 zeroAndUnit_keyed zeroAndUnit_dim
  rw [ranksAlike_iff_rows (List.cons_ne_nil _ _) two_ne_zero zeroAndUnit_keyed zeroAndUnit_dim] at halike
  have hzero : Directionless ([1] : List ℝ) [0] := .inr (by simp [cosineSums])
  have hunit : ¬ Directionless ([1] : List ℝ) [1] := by simp [Directionless, cosineSums]
  have hdistance : cosineDistance Real.sqrt [1] [1] = 0 := by
    rw [cosineDistance, if_neg hunit]
    simp [cosineSums]
  have hfirst := ((agree_every (k := 2) zeroAndUnit_keyed le_rfl).1 halike).2 ⟨"a", [0]⟩ (by simp [zeroAndUnit]) ⟨"b", [1]⟩ (by simp [zeroAndUnit]) hzero hunit
  rw [hdistance] at hfirst
  norm_num at hfirst

end

end Cognis
