/-
  The reference scan of `cognis-mcp` (`reference_scan.rs`), against the bounded queries of the
  store and the engine.

  The scan reads every symbol or edge. The lookup of the store goes through exact rungs, and
  ranks a prefix of the symbols when none of them matches.

  * `hydrate_eq`, `dependencyTrace_eq`: the chunked reads and the trace over the incident edges
    give what the scan gives;
  * `resolveSymbol_eq_iff`: the lookup does exactly when a symbol that the scan finds by a
    substring has one of the places of the prefix.
-/
import Cognis.Lib.Champion
import Cognis.Lib.Ranking
import Cognis.Mcp.StoreEngine
import Cognis.Store.Bounded

namespace Cognis

open Table

/-! ## The scan -/

namespace Database

variable (db : Database)

/-- `list_symbols` -/
def listSymbols : List Symbol := sortOn Symbol.id db.symbols

/-- `list_edges` -/
def listEdges : List Edge := sortOn Edge.key db.edges

end Database

namespace ReferenceScan

variable (sql : Sqlite) (db : Database)

/-- `ReferenceScan::hydrate` -/
def hydrate (ids : List String) : List Symbol :=
  if ids = [] then [] else db.listSymbols.filter (·.id ∈ ids)

/-- The rank of a symbol for a needle. -/
def rank (needle : String) (s : Symbol) : ℕ :=
  let needleLower := sql.toLowercase needle
  if s.id = needle then 6
  else if s.qualifiedName = needle then 5
  else if s.name = needle then 4
  else if sql.toLowercase s.name = needleLower then 3
  else if hasSubstring (sql.toLowercase s.name) needleLower ∨
    hasSubstring (sql.toLowercase s.qualifiedName) needleLower then 2
  else if hasSubstring (sql.toLowercase s.id) needleLower then 1
  else 0

/-- `ReferenceScan::lookup` -/
def lookup (nameOrId : String) (kind : Option String) : Option Symbol :=
  let needle := String.ofList (Text.trim nameOrId.toList)
  if needle = "" then none
  else
    let symbols := db.listSymbols.filter fun s => kind.all (s.kind.toDbString = ·)
    (symbols.foldl (Champion.keep (rank sql needle) 0) none).map Prod.snd

/-- The end of an edge that a hop goes on to, for the text of a direction. -/
def neighbor (direction node : String) (edge : Edge) : Option String :=
  if direction = "out" ∧ edge.srcId = node then some edge.dstId
  else if direction = "in" ∧ edge.dstId = node then some edge.srcId
  else if direction = "both" ∧ edge.srcId = node then some edge.dstId
  else if direction = "both" ∧ edge.dstId = node then some edge.srcId
  else none

/-- One edge, from a node of the frontier. -/
def follow (direction : String) (hop : ℕ) (node : String) (t : StoreEngine.Trace) (edge : Edge) :
    StoreEngine.Trace :=
  if edge.dstMissing then t
  else
    match neighbor direction node edge with
    | none => t
    | some id =>
      if id ∈ t.visited then t
      else
        { visited := t.visited ++ [id]
          next := t.next ++ [id]
          hits := t.hits ++ [⟨id, Binary64.round (1 / hop), "structural", "dependency",
            .object [("depth", .number (toString hop))]⟩] }

/-- The hops that are left, from the `hop`-th on. -/
def hops (direction : String) (edges : List Edge) :
    ℕ → ℕ → List String → StoreEngine.Trace → List Hit
  | 0, _, _, t => t.hits
  | left + 1, hop, frontier, t =>
    let t := frontier.foldl (fun t node => edges.foldl (follow direction hop node) t)
      { t with next := [] }
    if t.next = [] then t.hits else hops direction edges left (hop + 1) t.next t

/-- `ReferenceScan::dependency_trace` -/
def dependencyTrace (symbolId direction : String) (depth : ℕ) : List Hit :=
  hops direction db.listEdges depth 1 [symbolId] { visited := [symbolId] }

end ReferenceScan

/-! ## Hydration and traces -/

section
variable {db : Database}

theorem hydrate_eq (h : Keyed Symbol.id db.symbols) (ids : List String) :
    db.symbolsByValuesOnConnection Symbol.id ids = ReferenceScan.hydrate db ids := by
  rw [Database.symbolsByValuesOnConnection_eq h]
  unfold ReferenceScan.hydrate Database.symbolsByValues Database.listSymbols
  split_ifs with hempty
  · subst hempty
    simp [sortOn]
  · exact (sortOn_filter h _).symm

theorem edgesIncident_eq (h : Keyed Edge.key db.edges) (ids : List String) (direction : Direction) :
    db.edgesIncident ids direction = db.listEdges.filter fun edge =>
      (direction.followsOutbound && decide (edge.srcId ∈ ids)) ||
        (direction.followsInbound && decide (edge.dstId ∈ ids)) :=
  (sortOn_filter h _).symm

/-- The ends of the directions that have a name. -/
theorem neighbor_eq {direction : String} {d : Direction}
    (h : StoreEngine.parseDirection direction = some d) (node : String) (edge : Edge) :
    ReferenceScan.neighbor direction node edge = StoreEngine.neighbor d node edge := by
  unfold StoreEngine.parseDirection at h
  unfold ReferenceScan.neighbor StoreEngine.neighbor
  split_ifs at h with hout hin hboth
  · cases h
    simp [hout]
  · cases h
    simp [hin]
  · cases h
    simp [hboth]

/-- Another text names no direction. -/
theorem neighbor_eq_none {direction : String} (h : StoreEngine.parseDirection direction = none)
    (node : String) (edge : Edge) : ReferenceScan.neighbor direction node edge = none := by
  unfold StoreEngine.parseDirection at h
  unfold ReferenceScan.neighbor
  split_ifs at h with hout hin hboth
  simp [hout, hin, hboth]

/-- An edge that goes on from a node is incident to it. -/
theorem incident_of_neighbor {d : Direction} {node id : String} {edge : Edge}
    (h : StoreEngine.neighbor d node edge = some id) :
    d.followsOutbound = true ∧ edge.srcId = node ∨ d.followsInbound = true ∧ edge.dstId = node := by
  unfold StoreEngine.neighbor at h
  cases d with
  | outbound =>
    dsimp only at h
    split_ifs at h with hsrc
    exact .inl ⟨rfl, hsrc⟩
  | inbound =>
    dsimp only at h
    split_ifs at h with hdst
    exact .inr ⟨rfl, hdst⟩
  | both =>
    dsimp only at h
    split_ifs at h with hsrc hdst
    · exact .inl ⟨rfl, hsrc⟩
    · exact .inr ⟨rfl, hdst⟩

theorem follow_eq {direction : String} {d : Direction}
    (h : StoreEngine.parseDirection direction = some d) (hop : ℕ) (node : String)
    (t : StoreEngine.Trace) (edge : Edge) :
    ReferenceScan.follow direction hop node t edge = t.follow d hop node edge := by
  have hends := neighbor_eq h node edge
  unfold ReferenceScan.follow StoreEngine.Trace.follow
  cases hid : StoreEngine.neighbor d node edge with
  | none => simp only [hends, hid]
  | some id => simp only [hends, hid]

/-- One hop over all edges is one hop over those incident to the frontier. -/
theorem foldl_follow_eq (hedges : Keyed Edge.key db.edges) {direction : String} {d : Direction}
    (h : StoreEngine.parseDirection direction = some d) (hop : ℕ) (frontier : List String)
    (t : StoreEngine.Trace) :
    frontier.foldl (fun t node => db.listEdges.foldl (ReferenceScan.follow direction hop node) t) t =
      frontier.foldl (fun t node => (db.edgesIncident frontier d).foldl
        (StoreEngine.Trace.follow d hop node) t) t := by
  refine List.foldl_ext _ _ _ fun t node hnode => ?_
  rw [edgesIncident_eq hedges, List.foldl_filter]
  refine List.foldl_ext _ _ _ fun t edge _ => ?_
  rw [follow_eq h]
  split_ifs with hincident
  · rfl
  · -- the edge does not touch the frontier
    unfold StoreEngine.Trace.follow
    cases hneighbor : StoreEngine.neighbor d node edge with
    | none => split_ifs <;> rfl
    | some id =>
      refine absurd ?_ hincident
      rcases incident_of_neighbor hneighbor with ⟨hd, rfl⟩ | ⟨hd, rfl⟩
      · simp [hd, hnode]
      · simp [hd, hnode]

theorem traceHops_eq (hedges : Keyed Edge.key db.edges) {direction : String} {d : Direction}
    (h : StoreEngine.parseDirection direction = some d) {o : Occasion}
    (ho : ∀ n, o.sqlError n = none) (left hop : ℕ) (frontier : List String)
    (t : StoreEngine.Trace) :
    StoreEngine.traceHops db o d left hop frontier t =
      .ok (ReferenceScan.hops direction db.listEdges left hop frontier t) := by
  induction left generalizing hop frontier t with
  | zero => rfl
  | succ left ih =>
    have hread : StoreEngine.read o (db.edgesIncident frontier d) hop =
        .ok (db.edgesIncident frontier d) := by
      unfold StoreEngine.read
      rw [ho]
    unfold StoreEngine.traceHops ReferenceScan.hops
    rw [hread, foldl_follow_eq hedges h]
    change (if _ then _ else _) = _
    dsimp only
    split_ifs with hnext
    · rfl
    · exact ih _ _ _

/-- **The trace over the incident edges** is the one over all edges. -/
theorem dependencyTrace_eq (hedges : Keyed Edge.key db.edges) {o : Occasion}
    (ho : ∀ n, o.sqlError n = none) (symbolId direction : String) (depth : ℕ) :
    StoreEngine.dependencyTrace db o symbolId direction depth =
      .ok (ReferenceScan.dependencyTrace db symbolId direction depth) := by
  unfold StoreEngine.dependencyTrace ReferenceScan.dependencyTrace
  cases hd : StoreEngine.parseDirection direction with
  | some d => exact traceHops_eq hedges hd ho _ _ _ _
  | none =>
    -- nothing is followed in the first hop
    cases depth with
    | zero => rfl
    | succ depth =>
      have hskip : ∀ t : StoreEngine.Trace, db.listEdges.foldl
          (ReferenceScan.follow direction 1 symbolId) t = t := by
        intro t
        refine (List.foldl_ext _ (fun t _ => t) _ fun t edge _ => ?_).trans ?_
        · unfold ReferenceScan.follow
          rw [neighbor_eq_none hd]
          split_ifs <;> rfl
        · exact List.foldl_fixed _
      unfold ReferenceScan.hops
      rw [List.foldl_cons, List.foldl_nil, hskip]
      rfl

end

/-! ## The lookup -/

namespace Database

/-- The number of symbols of the kind that come before a symbol in the index on `lower(name)`. -/
def placeInPrefix (sql : Sqlite) (db : Database) (kind : Option String) (r : Symbol) : ℕ :=
  (db.symbolsOfKind kind).countP fun s =>
    toLex (sql.lower s.name, s.id) < toLex (sql.lower r.name, r.id)

end Database

section
variable {sql : Sqlite} {db : Database} {needle : String} {kind : Option String}

theorem keyed_symbolsOfKind (h : Keyed Symbol.id db.symbols) :
    Keyed Symbol.id (db.symbolsOfKind kind) := h.filter _

/-- The scan finds the symbol of the best rank, and of the least id among these. -/
theorem lookup_iff (h : Keyed Symbol.id db.symbols)
    (hneedle : String.ofList (Text.trim needle.toList) ≠ "") (r : Symbol) :
    (ReferenceScan.lookup sql db needle kind = some r ↔
      Champion.Best (ReferenceScan.rank sql (String.ofList (Text.trim needle.toList))) 0 Symbol.id
        (db.symbolsOfKind kind) r) ∧
    (ReferenceScan.lookup sql db needle kind = none ↔ ∀ x ∈ db.symbolsOfKind kind,
      ReferenceScan.rank sql (String.ofList (Text.trim needle.toList)) x ≤ 0) := by
  unfold ReferenceScan.lookup Database.listSymbols
  dsimp only
  rw [if_neg hneedle, sortOn_filter h]
  exact Champion.foldl_keep_sortOn (keyed_symbolsOfKind h)

theorem resolveExact_eq_some (h : Keyed Symbol.id db.symbols) {column : Symbol → String}
    {value : String} {a : Symbol} : db.resolveExact column value kind = some a ↔
      (a ∈ db.symbolsOfKind kind ∧ column a = value) ∧
        ∀ y ∈ db.symbolsOfKind kind, column y = value → a.id ≤ y.id := by
  unfold Database.resolveExact
  rw [head?_sortOn ((keyed_symbolsOfKind h).filter _)]
  simp

theorem resolveExact_eq_none {column : Symbol → String} {value : String} :
    db.resolveExact column value kind = none ↔
      ∀ y ∈ db.symbolsOfKind kind, column y ≠ value := by
  unfold Database.resolveExact
  rw [List.head?_eq_none_iff, ← List.length_eq_zero_iff, sortOn_perm.length_eq,
    List.length_eq_zero_iff, List.filter_eq_nil_iff]
  simp

/-- An exact rung, when no better one matches: it finds the best symbol. -/
theorem lookup_of_rung (h : Keyed Symbol.id db.symbols)
    (hneedle : String.ofList (Text.trim needle.toList) ≠ "") {column : Symbol → String}
    {value : String} {k : ℕ} (hk : 2 < k) {a : Symbol}
    (hrank : ∀ x ∈ db.symbolsOfKind kind,
      ReferenceScan.rank sql (String.ofList (Text.trim needle.toList)) x ≤ k ∧
      (ReferenceScan.rank sql (String.ofList (Text.trim needle.toList)) x = k ↔ column x = value))
    (ha : db.resolveExact column value kind = some a) :
    ReferenceScan.lookup sql db needle kind = some a ∧
      2 < ReferenceScan.rank sql (String.ofList (Text.trim needle.toList)) a := by
  obtain ⟨⟨hmem, hcolumn⟩, hleast⟩ := (resolveExact_eq_some h).1 ha
  have heq := (hrank a hmem).2.2 hcolumn
  refine ⟨(lookup_iff h hneedle a).1.2 ⟨hmem, by omega, fun x hx => ?_⟩, by omega⟩
  rcases (hrank x hx).1.lt_or_eq with hlt | hxk
  · exact .inl (by omega)
  · exact .inr ⟨by omega, hleast x hx ((hrank x hx).2.1 hxk)⟩

/-- The candidates are the symbols with one of the first places. -/
theorem mem_candidates (h : Keyed Symbol.id db.symbols) {r : Symbol} :
    r ∈ ((db.symbolsOfKind kind).mergeSort fun a b =>
        decide (toLex (sql.lower a.name, a.id) ≤ toLex (sql.lower b.name, b.id))).take
          Database.lookupCandidateCap ↔
      r ∈ db.symbolsOfKind kind ∧ db.placeInPrefix sql kind r < Database.lookupCandidateCap := by
  let key : Symbol → (String ×ₗ String)ᵒᵈ := fun s => OrderDual.toDual (toLex (sql.lower s.name, s.id))
  have hid : ∀ a b : Symbol, key a = key b → a.id = b.id := fun a b hab =>
    congrArg (fun k => (ofLex (OrderDual.ofDual k)).2) hab
  have hkeys : ((db.symbolsOfKind kind).map key).Nodup := by
    refine List.Nodup.map_on (fun a ha b hb hab => ?_) (keyed_symbolsOfKind h).nodup
    exact (keyed_symbolsOfKind h).eq ha hb (hid a b hab)
  have hsort : ((db.symbolsOfKind kind).mergeSort fun a b => decide (key b ≤ key a)) =
      Ranking.ranked key (db.symbolsOfKind kind) := by
    have hranked : (Ranking.ranked key (db.symbolsOfKind kind)).Pairwise fun a b =>
        decide (key b ≤ key a) = true := by
      simpa using Ranking.pairwise_ranked key (db.symbolsOfKind kind)
    refine ((List.mergeSort_perm _ _).trans (Ranking.ranked_perm key _).symm).eq_of_pairwise ?_
      (List.pairwise_mergeSort ?_ ?_ _) hranked
    · intro a b ha hb hab hba
      rw [decide_eq_true_eq] at hab hba
      have hle : key a = key b := le_antisymm hba hab
      have ha := (List.mergeSort_perm _ _).mem_iff.1 ha
      have hb := (Ranking.ranked_perm key _).mem_iff.1 hb
      exact (keyed_symbolsOfKind h).eq ha hb (hid a b hle)
    · intro a b c hab hbc
      rw [decide_eq_true_eq] at hab hbc ⊢
      exact hbc.trans hab
    · intro a b
      simpa using le_total _ _
  change r ∈ ((db.symbolsOfKind kind).mergeSort fun a b => decide (key b ≤ key a)).take _ ↔ _
  rw [hsort, Ranking.mem_take_ranked_iff hkeys]
  rfl

theorem bestCandidate_iff {l : List Symbol} (h : Keyed Symbol.id l) (r : Symbol) :
    (Database.bestCandidate sql needle (sortOn Symbol.id l) = some r ↔
      Champion.Best (Database.candidateRank sql needle) 0 Symbol.id l r) ∧
    (Database.bestCandidate sql needle (sortOn Symbol.id l) = none ↔
      ∀ x ∈ l, Database.candidateRank sql needle x ≤ 0) := by
  have hkeep : ∀ l, Database.bestCandidate sql needle l =
      (l.foldl (Champion.keep (Database.candidateRank sql needle) 0) none).map Prod.snd := by
    intro l
    unfold Database.bestCandidate
    congr 2
    funext best s
    cases best <;> rfl
  rw [hkeep]
  exact Champion.foldl_keep_sortOn h

/-- The ranks of the exact rungs. -/
theorem rank_rungs (sql : Sqlite) (n : String) (s : Symbol) :
    (ReferenceScan.rank sql n s ≤ 6 ∧ (ReferenceScan.rank sql n s = 6 ↔ s.id = n)) ∧
    (s.id ≠ n → ReferenceScan.rank sql n s ≤ 5 ∧
      (ReferenceScan.rank sql n s = 5 ↔ s.qualifiedName = n)) ∧
    (s.id ≠ n → s.qualifiedName ≠ n → ReferenceScan.rank sql n s ≤ 4 ∧
      (ReferenceScan.rank sql n s = 4 ↔ s.name = n)) ∧
    (s.id ≠ n → s.qualifiedName ≠ n → s.name ≠ n → ReferenceScan.rank sql n s ≤ 3 ∧
      (ReferenceScan.rank sql n s = 3 ↔ sql.toLowercase s.name = sql.toLowercase n)) := by
  unfold ReferenceScan.rank
  dsimp only
  split_ifs <;> simp [*]

/-- A symbol that no rung matches has the rank of a candidate. -/
theorem candidateRank_eq {n : String} {s : Symbol} (hid : s.id ≠ n) (hqname : s.qualifiedName ≠ n)
    (hname : s.name ≠ n) : Database.candidateRank sql (sql.toLowercase n) s =
      ReferenceScan.rank sql n s := by
  unfold Database.candidateRank ReferenceScan.rank
  simp only [hid, hqname, hname, ↓reduceIte]

/-- When no rung matches, the candidates have the symbol of the scan if it has one of the places. -/
theorem bestCandidate_eq_lookup_iff (h : Keyed Symbol.id db.symbols)
    (hneedle : String.ofList (Text.trim needle.toList) ≠ "")
    (hrank : ∀ x ∈ db.symbolsOfKind kind,
      ReferenceScan.rank sql (String.ofList (Text.trim needle.toList)) x ≤ 2 ∧
      Database.candidateRank sql (sql.toLowercase (String.ofList (Text.trim needle.toList))) x =
        ReferenceScan.rank sql (String.ofList (Text.trim needle.toList)) x) :
    Database.bestCandidate sql (sql.toLowercase (String.ofList (Text.trim needle.toList)))
        (sortOn Symbol.id (((db.symbolsOfKind kind).mergeSort fun a b =>
          decide (toLex (sql.lower a.name, a.id) ≤ toLex (sql.lower b.name, b.id))).take
            Database.lookupCandidateCap)) = ReferenceScan.lookup sql db needle kind ↔
      ∀ r, ReferenceScan.lookup sql db needle kind = some r →
        ReferenceScan.rank sql (String.ofList (Text.trim needle.toList)) r ≤ 2 →
          db.placeInPrefix sql kind r < Database.lookupCandidateCap := by
  have hmem := fun r => @mem_candidates sql db kind h r
  have hkeyed : Keyed Symbol.id (((db.symbolsOfKind kind).mergeSort fun a b =>
      decide (toLex (sql.lower a.name, a.id) ≤ toLex (sql.lower b.name, b.id))).take
        Database.lookupCandidateCap) :=
    List.Nodup.sublist ((List.take_sublist _ _).map _)
      (((List.mergeSort_perm _ _).map Symbol.id).nodup_iff.2 (keyed_symbolsOfKind h))
  generalize ((db.symbolsOfKind kind).mergeSort fun a b =>
      decide (toLex (sql.lower a.name, a.id) ≤ toLex (sql.lower b.name, b.id))).take
        Database.lookupCandidateCap = candidates at hmem hkeyed ⊢
  cases hlookup : ReferenceScan.lookup sql db needle kind with
  | none =>
    have hnone := (lookup_iff h hneedle default).2.1 hlookup
    refine iff_of_true ((bestCandidate_iff hkeyed default).2.2 fun x hx => ?_) (by rintro r ⟨⟩)
    rw [(hrank x ((hmem x).1 hx).1).2]
    exact hnone x ((hmem x).1 hx).1
  | some r =>
    have hbest := (lookup_iff h hneedle r).1.1 hlookup
    have hcandidate : Champion.Best (Database.candidateRank sql
        (sql.toLowercase (String.ofList (Text.trim needle.toList)))) 0 Symbol.id candidates r ↔
        r ∈ candidates := by
      refine ⟨Champion.Best.mem, fun hr => ⟨hr, ?_, fun x hx => ?_⟩⟩
      · rw [(hrank r hbest.mem).2]
        exact hbest.pos
      · rw [(hrank r hbest.mem).2, (hrank x ((hmem x).1 hx).1).2]
        exact hbest.best x ((hmem x).1 hx).1
    rw [(bestCandidate_iff hkeyed r).1, hcandidate, hmem r]
    constructor
    · rintro ⟨-, hplace⟩ _ ⟨⟩ -
      exact hplace
    · exact fun hplace => ⟨hbest.mem, hplace r rfl (hrank r hbest.mem).1⟩

/-- **The lookup of the store** is the one of the scan exactly when a symbol that the scan finds by
    a substring has one of the places of the prefix. -/
theorem resolveSymbol_eq_iff (h : Keyed Symbol.id db.symbols)
    (hfold : ∀ s ∈ db.symbolsOfKind kind,
      sql.lower s.name = sql.toLowercase (String.ofList (Text.trim needle.toList)) ↔
        sql.toLowercase s.name = sql.toLowercase (String.ofList (Text.trim needle.toList))) :
    db.resolveSymbol sql needle kind = ReferenceScan.lookup sql db needle kind ↔
      ∀ r, ReferenceScan.lookup sql db needle kind = some r →
        ReferenceScan.rank sql (String.ofList (Text.trim needle.toList)) r ≤ 2 →
          db.placeInPrefix sql kind r < Database.lookupCandidateCap := by
  by_cases hneedle : String.ofList (Text.trim needle.toList) = ""
  · have hnone : ReferenceScan.lookup sql db needle kind = none := by
      unfold ReferenceScan.lookup
      exact if_pos hneedle
    refine iff_of_true ?_ fun r hr => ?_
    · rw [hnone]
      unfold Database.resolveSymbol
      exact if_pos hneedle
    · rw [hnone] at hr
      cases hr
  · have hresolve : db.resolveSymbol sql needle kind = _ := if_neg hneedle
    rw [hresolve]
    have hfound : ∀ {a : Symbol}, ReferenceScan.lookup sql db needle kind = some a ∧
        2 < ReferenceScan.rank sql (String.ofList (Text.trim needle.toList)) a →
        (some a = ReferenceScan.lookup sql db needle kind ↔
          ∀ r, ReferenceScan.lookup sql db needle kind = some r →
            ReferenceScan.rank sql (String.ofList (Text.trim needle.toList)) r ≤ 2 →
              db.placeInPrefix sql kind r < Database.lookupCandidateCap) := by
      rintro a ⟨hlookup, hrank⟩
      refine iff_of_true hlookup.symm fun r hr hle => ?_
      obtain rfl : a = r := Option.some.inj (hlookup.symm.trans hr)
      omega
    cases hid : db.resolveExact Symbol.id (String.ofList (Text.trim needle.toList)) kind with
    | some a =>
      exact hfound (lookup_of_rung h hneedle (k := 6) (by norm_num)
        (fun x _ => (rank_rungs sql _ x).1) hid)
    | none =>
      rw [resolveExact_eq_none] at hid
      cases hqname : db.resolveExact Symbol.qualifiedName
          (String.ofList (Text.trim needle.toList)) kind with
      | some a =>
        exact hfound (lookup_of_rung h hneedle (k := 5) (by norm_num)
          (fun x hx => (rank_rungs sql _ x).2.1 (hid x hx)) hqname)
      | none =>
        rw [resolveExact_eq_none] at hqname
        cases hname : db.resolveExact Symbol.name
            (String.ofList (Text.trim needle.toList)) kind with
        | some a =>
          exact hfound (lookup_of_rung h hneedle (k := 4) (by norm_num)
            (fun x hx => (rank_rungs sql _ x).2.2.1 (hid x hx) (hqname x hx)) hname)
        | none =>
          rw [resolveExact_eq_none] at hname
          have hrank : ∀ x ∈ db.symbolsOfKind kind, ReferenceScan.rank sql
              (String.ofList (Text.trim needle.toList)) x ≤ 3 ∧
              (ReferenceScan.rank sql (String.ofList (Text.trim needle.toList)) x = 3 ↔
                sql.lower x.name = sql.toLowercase (String.ofList (Text.trim needle.toList))) := by
            intro x hx
            rw [hfold x hx]
            exact (rank_rungs sql _ x).2.2.2 (hid x hx) (hqname x hx) (hname x hx)
          cases hlower : db.resolveExact (fun s => sql.lower s.name)
              (sql.toLowercase (String.ofList (Text.trim needle.toList))) kind with
          | some a => exact hfound (lookup_of_rung h hneedle (k := 3) (by norm_num) hrank hlower)
          | none =>
            rw [resolveExact_eq_none] at hlower
            refine bestCandidate_eq_lookup_iff h hneedle fun x hx => ⟨?_, ?_⟩
            · exact Nat.le_of_lt_succ
                ((hrank x hx).1.lt_of_ne (mt (hrank x hx).2.1 (hlower x hx)))
            · exact candidateRank_eq (hid x hx) (hqname x hx) (hname x hx)

end

/-! ## The queries -/

/-- **The bounded queries** on tables with their primary keys: hydration and traces are those of
    the scan, and so is the lookup, where the two case mappings agree on the names, exactly when
    a symbol that the scan finds by a substring has one of the places of the prefix. -/
theorem boundedQueries_eq_scan (sql : Sqlite) (db : Database)
    (hsymbols : Keyed Symbol.id db.symbols) (hedges : Keyed Edge.key db.edges) (o : Occasion)
    (ho : ∀ n, o.sqlError n = none) :
    (∀ ids, db.symbolsByValuesOnConnection Symbol.id ids = ReferenceScan.hydrate db ids) ∧
    (∀ ids direction,
      db.edgesIncidentOnConnection ids direction = db.edgesIncident ids direction) ∧
    (∀ symbolId direction depth, StoreEngine.dependencyTrace db o symbolId direction depth =
      .ok (ReferenceScan.dependencyTrace db symbolId direction depth)) ∧
    ∀ needle kind, (∀ s ∈ db.symbolsOfKind kind,
        sql.lower s.name = sql.toLowercase (String.ofList (Text.trim needle.toList)) ↔
          sql.toLowercase s.name = sql.toLowercase (String.ofList (Text.trim needle.toList))) →
      (db.resolveSymbol sql needle kind = ReferenceScan.lookup sql db needle kind ↔
        ∀ r, ReferenceScan.lookup sql db needle kind = some r →
          ReferenceScan.rank sql (String.ofList (Text.trim needle.toList)) r ≤ 2 →
            db.placeInPrefix sql kind r < Database.lookupCandidateCap) :=
  ⟨hydrate_eq hsymbols, Database.edgesIncidentOnConnection_eq hedges,
    dependencyTrace_eq hedges ho, fun _ _ hfold => resolveSymbol_eq_iff hsymbols hfold⟩

/-! ## A symbol behind the prefix -/

namespace ScanExample

/-- The case mappings on ASCII names. -/
def sql : Sqlite where
  ext := none
  ftsMatch _ _ _ := some []
  knn _ _ _ := []
  lower text := .ofList (text.toList.map Char.toLower)
  toLowercase text := .ofList (text.toList.map Char.toLower)

/-- A function of a name. -/
def symbol (id name : String) : Symbol where
  id := id
  kind := .function
  name := name
  qualifiedName := name
  language := "rust"
  module := "fixture"
  filePath := "src/lib.rs"
  lineStart := 1
  lineEnd := 1
  contentHash := "fixture"

/-- A caller and its callee. -/
def pair : Database where
  symbols := [symbol "b-id" "beta", symbol "a-id" "alpha"]
  edges := [{ srcId := "a-id", dstId := "b-id", kind := .calls }]

/-- 256 functions of one name, and one whose name comes after theirs. -/
def crowd : Database where
  symbols := (List.range 256).map (fun i => symbol (.ofList [Char.ofNat (1000 + i)]) "a") ++
    [symbol "z-id" "xz"]

/-- The first letters of the ids are distinct. -/
theorem keyed_crowd : Keyed Symbol.id crowd.symbols := by
  let letter (id : String) : ℕ := (id.toList.headD 'a').toNat
  have hletters : (crowd.symbols.map Symbol.id).map letter =
      (List.range 256).map (1000 + ·) ++ [122] := by decide +kernel
  refine List.Nodup.of_map letter ?_
  rw [hletters, List.nodup_append]
  refine ⟨List.nodup_range.map fun i j h => by simpa using h, List.nodup_singleton _, ?_⟩
  intro a ha b hb hab
  obtain ⟨i, -, rfl⟩ := List.mem_map.1 ha
  rw [List.mem_singleton] at hb
  omega

end ScanExample

open ScanExample in
theorem boundedQueries_eq_scan_pair :
    pair.symbolsByValuesOnConnection Symbol.id ["b-id", "a-id"] =
        ReferenceScan.hydrate pair ["b-id", "a-id"] ∧
      StoreEngine.dependencyTrace pair {} "a-id" "both" 2 =
        .ok (ReferenceScan.dependencyTrace pair "a-id" "both" 2) ∧
      pair.resolveSymbol sql "lph" none = ReferenceScan.lookup sql pair "lph" none := by
  have h := boundedQueries_eq_scan sql pair (by decide +kernel) (by decide +kernel) {} fun _ => rfl
  refine ⟨h.1 _, h.2.2.1 _ _ _, (h.2.2.2 "lph" none fun _ _ => Iff.rfl).2 fun r _ _ => ?_⟩
  exact lt_of_le_of_lt List.countP_le_length (by decide)

/-- The property for all tables. -/
def BoundedEqualsScan : Prop :=
  ∀ (sql : Sqlite) (db : Database), Keyed Symbol.id db.symbols → Keyed Edge.key db.edges →
    (∀ ids, db.symbolsByValuesOnConnection Symbol.id ids = ReferenceScan.hydrate db ids) ∧
    (∀ symbolId direction depth, StoreEngine.dependencyTrace db {} symbolId direction depth =
      .ok (ReferenceScan.dependencyTrace db symbolId direction depth)) ∧
    ∀ needle kind, db.resolveSymbol sql needle kind = ReferenceScan.lookup sql db needle kind

open ScanExample in
/-- The last symbol is found by a substring of its name, and 256 symbols come before it. -/
theorem not_boundedEqualsScan : ¬ BoundedEqualsScan := by
  intro h
  have heq := (h sql crowd keyed_crowd (by decide +kernel)).2.2 "z" none
  have hfound : ReferenceScan.lookup sql crowd "z" none = some (symbol "z-id" "xz") := by
    decide +kernel
  have hplace := (resolveSymbol_eq_iff keyed_crowd fun _ _ => Iff.rfl).1 heq _ hfound
    (by decide +kernel)
  exact absurd hplace (by decide +kernel)

end Cognis
