/-
  The bounded reads of `cognis-store`: the ids of a query come in chunks, one statement
  each, and the rows are collected in a map by key.

  * `symbolsByValuesOnConnection`, `edgesIncidentOnConnection` are the functions with their loops;
  * `symbolsByValuesOnConnection_eq`, `edgesIncidentOnConnection_eq`: they read what one
    statement would.
-/
import Cognis.Store.Database
import Mathlib.Data.List.Dedup

namespace Cognis

open Table

/-- `SQLITE_IN_CHUNK` -/
def sqliteInChunk : ℕ := 900

/-- `chunks(n + 1)`: the pieces of that length, in order. -/
def chunksSucc {α : Type} (n : ℕ) : List α → List (List α)
  | [] => []
  | a :: l => (a :: l.take n) :: chunksSucc n (l.drop n)
  termination_by l => l.length
  decreasing_by
    rw [List.length_cons, List.length_drop]
    omega

theorem flatten_chunksSucc {α : Type} (n : ℕ) (l : List α) : (chunksSucc n l).flatten = l := by
  induction l using chunksSucc.induct n with
  | case1 => simp [chunksSucc]
  | case2 a l ih => rw [chunksSucc, List.flatten_cons, ih, List.cons_append, List.take_append_drop]

/-- A `BTreeSet` of strings, in order. -/
def uniqueStrings (values : List String) : List String := sortOn (fun value => value) values.dedup

@[simp] theorem mem_uniqueStrings {values : List String} {value : String} :
    value ∈ uniqueStrings values ↔ value ∈ values := by
  rw [uniqueStrings, mem_sortOn, List.mem_dedup]

namespace Database

variable (db : Database)

/-- The statement of one chunk: `WHERE column IN (..) ORDER BY id`. -/
def selectSymbols (column : Symbol → String) (chunk : List String) : List Symbol :=
  sortOn Symbol.id (db.symbols.filter (column · ∈ chunk))

/-- `symbols_by_values_on_connection` -/
def symbolsByValuesOnConnection (column : Symbol → String) (values : List String) : List Symbol :=
  if values = [] then []
  else
    let byId := (chunksSucc (sqliteInChunk - 1) (uniqueStrings values)).foldl
      (fun byId chunk => upsertAll Symbol.id byId (db.selectSymbols column chunk)) []
    sortOn Symbol.id byId

/-- The statement of one chunk: `WHERE column IN (..) ORDER BY src_id, dst_id, kind`. -/
def selectEdges (column : Edge → String) (chunk : List String) : List Edge :=
  sortOn Edge.key (db.edges.filter (column · ∈ chunk))

/-- `edges_by_endpoint` -/
def edgesByEndpoint (column : Edge → String) (ids : List String) (byKey : List Edge) : List Edge :=
  (chunksSucc (sqliteInChunk - 1) (uniqueStrings ids)).foldl
    (fun byKey chunk => upsertAll Edge.key byKey (db.selectEdges column chunk)) byKey

/-- `edges_incident_on_connection` -/
def edgesIncidentOnConnection (ids : List String) (direction : Direction) : List Edge :=
  if ids = [] then []
  else
    let byKey :=
      if direction.followsOutbound then db.edgesByEndpoint Edge.srcId ids [] else []
    let byKey :=
      if direction.followsInbound then db.edgesByEndpoint Edge.dstId ids byKey else byKey
    sortOn Edge.key byKey

end Database

/-! ## One statement for all chunks -/

section
variable {κ ρ : Type} [LinearOrder κ] {key : ρ → κ} {all : List ρ}

/-- The rows collected from all chunks. -/
theorem mem_foldl_chunks (hall : Keyed key all) (column : ρ → String) (chunks : List (List String))
    {t : List ρ} (ht : ∀ y ∈ t, y ∈ all) {x : ρ} :
    x ∈ chunks.foldl (fun t chunk =>
        upsertAll key t (sortOn key (all.filter (column · ∈ chunk)))) t ↔
      x ∈ t ∨ x ∈ all ∧ column x ∈ chunks.flatten := by
  induction chunks generalizing t with
  | nil => simp
  | cons chunk chunks ih =>
    have hrows : ∀ y ∈ sortOn key (all.filter (column · ∈ chunk)), y ∈ all :=
      fun y hy => (List.mem_filter.1 (mem_sortOn.1 hy)).1
    have hmem : ∀ y, y ∈ upsertAll key t (sortOn key (all.filter (column · ∈ chunk))) ↔
        y ∈ t ∨ y ∈ all ∧ column y ∈ chunk := by
      intro y
      rw [mem_upsertAll_of_keyed hall ht hrows, mem_sortOn, List.mem_filter, decide_eq_true_eq]
    have hall' : ∀ y ∈ upsertAll key t (sortOn key (all.filter (column · ∈ chunk))), y ∈ all := by
      intro y hy
      rcases (hmem y).1 hy with hy | hy
      · exact ht y hy
      · exact hy.1
    rw [List.foldl_cons, ih hall', hmem, List.flatten_cons, List.mem_append, and_or_left, or_assoc]

theorem keyed_foldl_chunks (column : ρ → String) (chunks : List (List String)) {t : List ρ}
    (ht : Keyed key t) :
    Keyed key (chunks.foldl (fun t chunk =>
      upsertAll key t (sortOn key (all.filter (column · ∈ chunk)))) t) := by
  induction chunks generalizing t with
  | nil => exact ht
  | cons chunk chunks ih => exact ih (keyed_upsertAll ht)

end

namespace Database

variable {db : Database}

/-- **The chunked read of the symbols** is the read of one statement. -/
theorem symbolsByValuesOnConnection_eq (h : Keyed Symbol.id db.symbols) (column : Symbol → String)
    (values : List String) :
    db.symbolsByValuesOnConnection column values = db.symbolsByValues column values := by
  unfold symbolsByValuesOnConnection symbolsByValues
  split_ifs with hempty
  · subst hempty
    simp [sortOn]
  · refine sortOn_eq (keyed_foldl_chunks column _ keyed_nil)
      ((keyed_foldl_chunks column _ keyed_nil).perm (h.filter _) fun x => ?_)
    rw [mem_foldl_chunks h column _ (by simp), flatten_chunksSucc]
    simp

theorem mem_edgesByEndpoint (h : Keyed Edge.key db.edges) {column : Edge → String}
    {ids : List String} {byKey : List Edge} (hkey : ∀ e ∈ byKey, e ∈ db.edges) {x : Edge} :
    x ∈ db.edgesByEndpoint column ids byKey ↔ x ∈ byKey ∨ x ∈ db.edges ∧ column x ∈ ids := by
  unfold edgesByEndpoint selectEdges
  rw [mem_foldl_chunks h column _ hkey, flatten_chunksSucc, mem_uniqueStrings]

theorem keyed_edgesByEndpoint {column : Edge → String} {ids : List String} {byKey : List Edge}
    (h : Keyed Edge.key byKey) : Keyed Edge.key (db.edgesByEndpoint column ids byKey) :=
  keyed_foldl_chunks column _ h

/-- **The chunked read of the edges** is the read of one statement. -/
theorem edgesIncidentOnConnection_eq (h : Keyed Edge.key db.edges) (ids : List String)
    (direction : Direction) :
    db.edgesIncidentOnConnection ids direction = db.edgesIncident ids direction := by
  unfold edgesIncidentOnConnection edgesIncident
  by_cases hempty : ids = []
  · rw [if_pos hempty]
    subst hempty
    simp [sortOn]
  · rw [if_neg hempty]
    have hout : ∀ x ∈ db.edgesByEndpoint Edge.srcId ids [], x ∈ db.edges := by
      intro x hx
      rcases (mem_edgesByEndpoint h (by simp)).1 hx with hx | hx
      · cases hx
      · exact hx.1
    have hkeyed : ∀ column, Keyed Edge.key (db.edgesByEndpoint column ids []) :=
      fun column => keyed_edgesByEndpoint keyed_nil
    cases direction with
    | outbound =>
      refine sortOn_eq (hkeyed _) ((hkeyed _).perm (h.filter _) fun x => ?_)
      refine (mem_edgesByEndpoint h (by simp)).trans ?_
      simp [Direction.followsOutbound, Direction.followsInbound]
    | inbound =>
      refine sortOn_eq (hkeyed _) ((hkeyed _).perm (h.filter _) fun x => ?_)
      refine (mem_edgesByEndpoint h (by simp)).trans ?_
      simp [Direction.followsOutbound, Direction.followsInbound]
    | both =>
      have hboth : Keyed Edge.key
          (db.edgesByEndpoint Edge.dstId ids (db.edgesByEndpoint Edge.srcId ids [])) :=
        keyed_edgesByEndpoint (hkeyed Edge.srcId)
      refine sortOn_eq hboth (hboth.perm (h.filter _) fun x => ?_)
      refine (mem_edgesByEndpoint h hout).trans ?_
      rw [mem_edgesByEndpoint h (by simp)]
      simp [Direction.followsOutbound, Direction.followsInbound, and_or_left]

end Database

end Cognis
