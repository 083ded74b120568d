/-
  `tarjan_scc` of `cognis-indexer` (`complexity.rs`): the strongly connected
  components of the call graph, callees first.

  * `strongconnect` is the recursive function, the call stack bounded by the
    number of nodes;
  * `strongconnect_spec`: it keeps the invariant `TarjanInv` and explores its
    node (`Explored`), by induction on the bound;
  * `tarjanScc_condensed`: the components returned are classes of mutually
    reachable nodes, every edge leads into the component of its source or into an
    earlier one, and every node lies in one of them;
  * `tarjanScc_components`: they are the classes of mutual reachability, callees
    first.
-/
import Cognis.Lib.Component
import Cognis.Lib.Loop
import Mathlib.Data.Finset.Card
import Mathlib.Order.Interval.Finset.Nat

namespace Cognis

open Relation

/-! ## The algorithm -/

/-- The `State` of `tarjan_scc`; the top of the stack is the head of the list. -/
structure TarjanState where
  index : ℕ
  indices : ℕ → Option ℕ
  lowlink : ℕ → ℕ
  onStack : ℕ → Bool
  stack : List ℕ
  sccs : List (List ℕ)

namespace TarjanState

def init : TarjanState := ⟨0, fun _ => none, fun _ => 0, fun _ => false, [], []⟩

/-- Give `u` the next index and push it. -/
def enter (st : TarjanState) (u : ℕ) : TarjanState where
  index := st.index + 1
  indices := Function.update st.indices u (some st.index)
  lowlink := Function.update st.lowlink u st.index
  onStack := Function.update st.onStack u true
  stack := u :: st.stack
  sccs := st.sccs

/-- `lowlink[u] = lowlink[u].min(i)` -/
def lower (st : TarjanState) (u i : ℕ) : TarjanState :=
  { st with lowlink := Function.update st.lowlink u (min (st.lowlink u) i) }

end TarjanState

/-- Pop up to and including `u`: what is popped, in that order, and what stays. -/
def popTo (u : ℕ) : List ℕ → List ℕ × List ℕ
  | [] => ([], [])
  | w :: stack =>
    if w = u then ([w], stack)
    else
      let (scc, rest) := popTo u stack
      (w :: scc, rest)

/-- The root of a component pops it. -/
def TarjanState.popScc (st : TarjanState) (u : ℕ) : TarjanState :=
  let (scc, rest) := popTo u st.stack
  { st with
    onStack := fun v => st.onStack v && !scc.contains v
    stack := rest
    sccs := st.sccs ++ [scc] }

/-- One edge of the loop of `strongconnect`, `call` being the recursive call. -/
def scanEdge {ε : Type} (call : ℕ → TarjanState → TarjanState) (u : ℕ) (st : TarjanState)
    (e : ℕ × ε) : TarjanState :=
  match st.indices e.1 with
  | none =>
    let st := call e.1 st
    st.lower u (st.lowlink e.1)
  | some i => if st.onStack e.1 then st.lower u i else st

section
variable {ε : Type} (adj : ℕ → List (ℕ × ε))

/-- `strongconnect`; `fuel` bounds the depth of the recursion. -/
def strongconnect : ℕ → ℕ → TarjanState → TarjanState
  | 0, _, st => st
  | fuel + 1, u, st =>
    let st := (adj u).foldl (scanEdge (strongconnect fuel) u) (st.enter u)
    if st.indices u = some (st.lowlink u) then st.popScc u else st

/-- One node of the loop of `tarjan_scc`. -/
def visitRoot (n : ℕ) (st : TarjanState) (u : ℕ) : TarjanState :=
  if st.indices u = none then strongconnect adj n u st else st

/-- `tarjan_scc` on the nodes below `n` -/
def tarjanScc (n : ℕ) : List (List ℕ) :=
  ((List.range n).foldl (visitRoot adj n) .init).sccs

end

/-! ## The invariant -/

/-- An edge of the graph. -/
def Arc {ε : Type} (adj : ℕ → List (ℕ × ε)) (u v : ℕ) : Prop := ∃ e ∈ adj u, e.1 = v

namespace TarjanState

/-- `u` has an index. -/
def Visited (st : TarjanState) (u : ℕ) : Prop := st.indices u ≠ none

/-- The index of a visited node. -/
def idx (st : TarjanState) (u : ℕ) : ℕ := (st.indices u).getD 0

theorem idx_eq {st : TarjanState} {u i : ℕ} (h : st.indices u = some i) : st.idx u = i := by
  rw [idx, h]; rfl

theorem idx_congr {st st' : TarjanState} {u : ℕ} (h : st'.indices u = st.indices u) :
    st'.idx u = st.idx u := by
  rw [idx, idx, h]

end TarjanState

section
variable {ε : Type} (adj : ℕ → List (ℕ × ε)) (n : ℕ)

/-- The state between two operations, `G` being the nodes whose call is active:
    the stack is in the order of the indices, an active node reaches what lies
    above it, every node on the stack reaches an active node below it, and only
    active nodes have unexplored edges. -/
structure TarjanInv (G : Set ℕ) (st : TarjanState) : Prop where
  lt : ∀ v, st.Visited v → v < n
  index_lt : ∀ v, st.Visited v → st.idx v < st.index
  onStack : ∀ v, st.onStack v = true ↔ v ∈ st.stack
  visited : ∀ v, st.Visited v ↔ v ∈ st.stack ∨ v ∈ st.sccs.flatten
  disjoint : ∀ v ∈ st.stack, v ∉ st.sccs.flatten
  sorted : st.stack.Pairwise fun a b => st.idx b < st.idx a
  active : ∀ x ∈ G, x ∈ st.stack
  done : ∀ v, st.Visited v → v ∉ G → ∀ w, Arc adj v w → st.Visited w
  down : ∀ x ∈ G, ∀ y ∈ st.stack, st.idx x ≤ st.idx y → ReflTransGen (Arc adj) x y
  up : ∀ y ∈ st.stack, ∃ x ∈ G, st.idx x ≤ st.idx y ∧ ReflTransGen (Arc adj) y x
  condensed : Condensed (Arc adj) st.sccs

end

section
variable {ε : Type} (adj : ℕ → List (ℕ × ε))

/-- What a call on `u` does to the nodes visited before, and what its low link says
    of the nodes it leaves on the stack. -/
structure Explored (st : TarjanState) (u : ℕ) (st' : TarjanState) : Prop where
  frame : ∀ v, st.Visited v → st'.indices v = st.indices v ∧ st'.lowlink v = st.lowlink v
  visited : st'.Visited u
  stack : ∃ new, st'.stack = new ++ st.stack ∧ (∀ y ∈ new, ¬ st.Visited y) ∧
    ∀ y ∈ new, ∀ w ∈ st.stack, Arc adj y w → st'.lowlink u ≤ st.idx w
  low : st.index ≤ st'.lowlink u ∨
    ∃ w ∈ st.stack, st'.lowlink u = st.idx w ∧ ReflTransGen (Arc adj) u w

/-- The same inside a call on `u` begun in `st₀`, after the edges to `done`. -/
structure Scanned (st₀ : TarjanState) (u : ℕ) (done : List ℕ) (st : TarjanState) : Prop where
  frame : ∀ v, st₀.Visited v → st.indices v = st₀.indices v ∧ st.lowlink v = st₀.lowlink v
  entered : st.indices u = some st₀.index
  stack : ∃ new, st.stack = new ++ u :: st₀.stack ∧ (∀ y ∈ new, ¬ st₀.Visited y) ∧
    ∀ y ∈ new, ∀ w ∈ st₀.stack, Arc adj y w → st.lowlink u ≤ st₀.idx w
  edges : ∀ w ∈ done, st.Visited w ∧ (w ∈ st₀.stack → st.lowlink u ≤ st₀.idx w)
  low : st.lowlink u = st₀.index ∨
    ∃ w ∈ st₀.stack, st.lowlink u = st₀.idx w ∧ ReflTransGen (Arc adj) u w

end

section
variable {ε : Type} {adj : ℕ → List (ℕ × ε)} {n : ℕ} {G : Set ℕ} {st st₀ : TarjanState} {u v : ℕ}

theorem TarjanInv.visited_of_mem (h : TarjanInv adj n G st) (hv : v ∈ st.stack) : st.Visited v :=
  (h.visited v).2 (.inl hv)

theorem TarjanInv.nodup (h : TarjanInv adj n G st) : st.stack.Nodup :=
  h.sorted.imp fun hlt heq => by rw [heq] at hlt; exact lt_irrefl _ hlt

theorem tarjanInv_init : TarjanInv adj n ∅ .init where
  lt v hv := absurd rfl hv
  index_lt v hv := absurd rfl hv
  onStack v := by simp [TarjanState.init]
  visited v := by simp [TarjanState.init, TarjanState.Visited]
  disjoint v hv := by cases hv
  sorted := .nil
  active x hx := by cases hx
  done v hv := absurd rfl hv
  down x hx := by cases hx
  up y hy := by cases hy
  condensed := .nil

/-- Entering a node that every active node reaches. -/
theorem TarjanInv.enter (h : TarjanInv adj n G st) (hun : u < n) (hu : ¬ st.Visited u)
    (hreach : ∀ x ∈ G, ReflTransGen (Arc adj) x u) : TarjanInv adj n (insert u G) (st.enter u) := by
  have hidx : ∀ v, st.Visited v → (st.enter u).idx v = st.idx v := by
    intro v hv
    have hne : v ≠ u := fun he => hu (he ▸ hv)
    exact TarjanState.idx_congr (Function.update_of_ne hne _ _)
  have hself : (st.enter u).idx u = st.index :=
    TarjanState.idx_eq (Function.update_self ..)
  have hvis : ∀ v, (st.enter u).Visited v ↔ v = u ∨ st.Visited v := by
    intro v
    by_cases hv : v = u
    · simp [TarjanState.Visited, TarjanState.enter, hv]
    · simp [TarjanState.Visited, TarjanState.enter, hv]
  have hmem : ∀ v ∈ st.stack, v ≠ u := fun v hv he => hu (he ▸ h.visited_of_mem hv)
  have hactive : ∀ x ∈ G, x ≠ u := fun x hx => hmem x (h.active x hx)
  constructor
  · intro v hv
    exact ((hvis v).1 hv).elim (fun he => he ▸ hun) (h.lt v)
  · intro v hv
    rcases (hvis v).1 hv with rfl | hv
    · rw [hself]; exact Nat.lt_succ_self _
    · rw [hidx v hv]; exact (h.index_lt v hv).trans (Nat.lt_succ_self _)
  · intro v
    by_cases hv : v = u
    · simp [TarjanState.enter, hv]
    · simp [TarjanState.enter, hv, h.onStack v]
  · intro v
    rw [hvis v, h.visited v]
    simp [TarjanState.enter, or_assoc]
  · intro v hv
    rcases List.mem_cons.1 hv with rfl | hv
    · exact fun hs => hu ((h.visited v).2 (.inr hs))
    · exact h.disjoint v hv
  · refine List.pairwise_cons.2 ⟨fun w hw => ?_, h.sorted.imp_of_mem fun ha hb hab => ?_⟩
    · rw [hself, hidx w (h.visited_of_mem hw)]
      exact h.index_lt w (h.visited_of_mem hw)
    · rw [hidx _ (h.visited_of_mem ha), hidx _ (h.visited_of_mem hb)]
      exact hab
  · rintro x (rfl | hx)
    · exact List.mem_cons_self ..
    · exact List.mem_cons_of_mem _ (h.active x hx)
  · intro v hv hvG w hvw
    have hne : v ≠ u := fun he => hvG (.inl he)
    have hvst := ((hvis v).1 hv).resolve_left hne
    exact (hvis w).2 (.inr (h.done v hvst (fun hG => hvG (.inr hG)) w hvw))
  · intro x hx y hy hxy
    rcases List.mem_cons.1 hy with rfl | hys
    · rcases hx with rfl | hx
      · exact .refl
      · exact hreach x hx
    · rw [hidx y (h.visited_of_mem hys)] at hxy
      rcases hx with rfl | hx
      · -- nothing on the old stack has a larger index
        rw [hself] at hxy
        exact absurd (h.index_lt y (h.visited_of_mem hys)) (not_lt.2 hxy)
      · rw [hidx x (h.visited_of_mem (h.active x hx))] at hxy
        exact h.down x hx y hys hxy
  · intro y hy
    rcases List.mem_cons.1 hy with rfl | hy
    · exact ⟨y, .inl rfl, le_rfl, .refl⟩
    · obtain ⟨x, hx, hle, hyx⟩ := h.up y hy
      refine ⟨x, .inr hx, ?_, hyx⟩
      rw [hidx y (h.visited_of_mem hy), hidx x (h.visited_of_mem (h.active x hx))]
      exact hle
  · exact h.condensed

theorem scanned_enter (hu : ¬ st.Visited u) : Scanned adj st u [] (st.enter u) where
  frame v hv := by
    have hne : v ≠ u := fun he => hu (he ▸ hv)
    exact ⟨Function.update_of_ne hne _ _, Function.update_of_ne hne _ _⟩
  entered := Function.update_self ..
  stack := ⟨[], rfl, by simp, by simp⟩
  edges w hw := by cases hw
  low := .inl (Function.update_self ..)

/-- The invariant does not mention the low links. -/
theorem TarjanInv.lower (h : TarjanInv adj n G st) (u i : ℕ) : TarjanInv adj n G (st.lower u i) :=
  ⟨h.lt, h.index_lt, h.onStack, h.visited, h.disjoint, h.sorted, h.active, h.done, h.down, h.up,
    h.condensed⟩

/-! ## One edge -/

/-- An active node reaches the node entered last. -/
theorem Scanned.reach_of_active {done : List ℕ} (h : Scanned adj st₀ u done st)
    (hinv₀ : TarjanInv adj n G st₀) (hinv : TarjanInv adj n (insert u G) st) {x : ℕ}
    (hx : x ∈ insert u G) : ReflTransGen (Arc adj) x u := by
  obtain ⟨new, hstack, -, -⟩ := h.stack
  refine hinv.down x hx u (by simp [hstack]) ?_
  rw [TarjanState.idx_eq h.entered]
  rcases hx with rfl | hx
  · exact (TarjanState.idx_eq h.entered).le
  · have hvis := hinv₀.visited_of_mem (hinv₀.active x hx)
    rw [TarjanState.idx_congr (h.frame x hvis).1]
    exact (hinv₀.index_lt x hvis).le

/-- The low link of `u` never exceeds its index. -/
theorem Scanned.lowlink_le {done : List ℕ} (h : Scanned adj st₀ u done st)
    (hinv₀ : TarjanInv adj n G st₀) : st.lowlink u ≤ st₀.index := by
  rcases h.low with hlow | ⟨w, hw, hlow, -⟩
  · exact hlow.le
  · rw [hlow]
    exact (hinv₀.index_lt w (hinv₀.visited_of_mem hw)).le

/-- A node on the stack with a smaller index than `u` lies below it. -/
theorem Scanned.mem_below {done : List ℕ} (h : Scanned adj st₀ u done st)
    (hinv : TarjanInv adj n (insert u G) st) {w : ℕ} (hw : w ∈ st.stack)
    (hlt : st.idx w < st₀.index) : w ∈ st₀.stack := by
  obtain ⟨new, hstack, -, -⟩ := h.stack
  have hsorted := hinv.sorted
  rw [hstack] at hw hsorted
  rcases List.mem_append.1 hw with hw | hw
  · have := (List.pairwise_append.1 hsorted).2.2 w hw u (List.mem_cons_self ..)
    rw [TarjanState.idx_eq h.entered] at this
    exact absurd this hlt.not_gt
  · rcases List.mem_cons.1 hw with rfl | hw
    · rw [TarjanState.idx_eq h.entered] at hlt
      exact absurd hlt (lt_irrefl _)
    · exact hw

theorem TarjanState.lower_lowlink (st : TarjanState) (u i : ℕ) :
    (st.lower u i).lowlink u = min (st.lowlink u) i :=
  Function.update_self ..

theorem TarjanState.lower_lowlink_of_ne (st : TarjanState) {u v : ℕ} (i : ℕ) (h : v ≠ u) :
    (st.lower u i).lowlink v = st.lowlink v :=
  Function.update_of_ne h _ _

/-- An edge to a node on the stack. -/
theorem Scanned.onStack {done : List ℕ} (h : Scanned adj st₀ u done st)
    (hu : ¬ st₀.Visited u) (hinv₀ : TarjanInv adj n G st₀) (hinv : TarjanInv adj n (insert u G) st)
    {i : ℕ} (hi : st.indices v = some i) (hv : v ∈ st.stack) (harc : Arc adj u v) :
    Scanned adj st₀ u (done ++ [v]) (st.lower u i) := by
  have hlow := st.lower_lowlink u i
  have hle : (st.lower u i).lowlink u ≤ st.lowlink u := hlow ▸ min_le_left ..
  obtain ⟨new, hstack, hnew, hbelow⟩ := h.stack
  have hvi : v ∈ st₀.stack → st₀.idx v = i := fun hv₀ => by
    rw [← TarjanState.idx_congr (h.frame v (hinv₀.visited_of_mem hv₀)).1, TarjanState.idx_eq hi]
  refine ⟨fun w hw => ⟨(h.frame w hw).1, ?_⟩, h.entered,
    ⟨new, hstack, hnew, fun y hy w hw hyw => hle.trans (hbelow y hy w hw hyw)⟩, ?_, ?_⟩
  · rw [TarjanState.lower_lowlink_of_ne _ _ (show w ≠ u from fun he => hu (he ▸ hw))]
    exact (h.frame w hw).2
  · intro w hw
    rcases List.mem_append.1 hw with hw | hw
    · exact ⟨(h.edges w hw).1, fun hw' => hle.trans ((h.edges w hw).2 hw')⟩
    · obtain rfl := List.mem_singleton.1 hw
      refine ⟨hinv.visited_of_mem hv, fun hw' => ?_⟩
      rw [hlow, hvi hw']
      exact min_le_right ..
  · rcases le_or_gt (st.lowlink u) i with hui | hiu
    · rw [hlow, min_eq_left hui]
      exact h.low
    · -- a smaller index belongs to a node below `u`
      rw [hlow, min_eq_right hiu.le]
      have hv₀ := h.mem_below hinv hv
        (by rw [TarjanState.idx_eq hi]; exact hiu.trans_le (h.lowlink_le hinv₀))
      exact .inr ⟨v, hv₀, (hvi hv₀).symm, .single harc⟩

/-- An edge to a node that has been explored by a call. -/
theorem Scanned.explored {done : List ℕ} {st' : TarjanState} (h : Scanned adj st₀ u done st)
    (hu : ¬ st₀.Visited u) (hinv₀ : TarjanInv adj n G st₀) (hinv : TarjanInv adj n (insert u G) st)
    (hv : ¬ st.Visited v) (hexp : Explored adj st v st') (harc : Arc adj u v) :
    Scanned adj st₀ u (done ++ [v]) (st'.lower u (st'.lowlink v)) := by
  have huvis : st.Visited u := by simp [TarjanState.Visited, h.entered]
  have hlow := st'.lower_lowlink u (st'.lowlink v)
  rw [(hexp.frame u huvis).2] at hlow
  have hvis : ∀ w, st₀.Visited w → st.Visited w := fun w hw => by
    rw [TarjanState.Visited, (h.frame w hw).1]; exact hw
  obtain ⟨new, hstack, hnew, hbelow⟩ := h.stack
  obtain ⟨new', hstack', hnew', hbelow'⟩ := hexp.stack
  have hidx : ∀ w ∈ st₀.stack, st.idx w = st₀.idx w := fun w hw =>
    TarjanState.idx_congr (h.frame w (hinv₀.visited_of_mem hw)).1
  refine ⟨fun w hw => ⟨?_, ?_⟩, ?_, ⟨new' ++ new, by simp [TarjanState.lower, hstack', hstack], ?_, ?_⟩,
    ?_, ?_⟩
  · exact (hexp.frame w (hvis w hw)).1.trans (h.frame w hw).1
  · rw [TarjanState.lower_lowlink_of_ne _ _ (show w ≠ u from fun he => hu (he ▸ hw))]
    exact (hexp.frame w (hvis w hw)).2.trans (h.frame w hw).2
  · exact (hexp.frame u huvis).1.trans h.entered
  · intro y hy
    rcases List.mem_append.1 hy with hy | hy
    · exact fun hy₀ => hnew' y hy (hvis y hy₀)
    · exact hnew y hy
  · intro y hy w hw hyw
    rw [hlow]
    rcases List.mem_append.1 hy with hy | hy
    · have := hbelow' y hy w (by simp [hstack, hw]) hyw
      rw [hidx w hw] at this
      exact (min_le_right ..).trans this
    · exact (min_le_left ..).trans (hbelow y hy w hw hyw)
  · intro w hw
    rw [hlow]
    rcases List.mem_append.1 hw with hw | hw
    · have hwvis : st'.Visited w := by
        rw [TarjanState.Visited, (hexp.frame w (h.edges w hw).1).1]; exact (h.edges w hw).1
      exact ⟨hwvis, fun hw₀ => (min_le_left ..).trans ((h.edges w hw).2 hw₀)⟩
    · obtain rfl := List.mem_singleton.1 hw
      exact ⟨hexp.visited, fun hw₀ => absurd (hvis w (hinv₀.visited_of_mem hw₀)) hv⟩
  · rcases le_or_gt (st.lowlink u) (st'.lowlink v) with huv | hvu
    · rw [hlow, min_eq_left huv]
      exact h.low
    · rw [hlow, min_eq_right hvu.le]
      have huidx := hinv.index_lt u huvis
      rw [TarjanState.idx_eq h.entered] at huidx
      have hule := h.lowlink_le hinv₀
      rcases hexp.low with hroot | ⟨w, hw, hwlow, hreach⟩
      · omega
      · have hw₀ := h.mem_below hinv hw (by omega)
        exact .inr ⟨w, hw₀, by rw [hwlow, hidx w hw₀], hreach.head harc⟩

/-- An edge to a node of a component already returned. -/
theorem Scanned.offStack {done : List ℕ} (h : Scanned adj st₀ u done st) (hv : st.Visited v) (hoff : v ∉ st.stack) :
    Scanned adj st₀ u (done ++ [v]) st := by
  refine ⟨h.frame, h.entered, h.stack, fun w hw => ?_, h.low⟩
  rcases List.mem_append.1 hw with hw | hw
  · exact h.edges w hw
  · obtain rfl := List.mem_singleton.1 hw
    obtain ⟨new, hstack, -, -⟩ := h.stack
    exact ⟨hv, fun hmem => absurd (by simp [hstack, hmem]) hoff⟩

/-! ## The end of a call -/

theorem popTo_append {new rest : List ℕ} (hu : u ∉ new) :
    popTo u (new ++ u :: rest) = (new ++ [u], rest) := by
  induction new with
  | nil => simp [popTo]
  | cons w new ih =>
    rw [List.mem_cons, not_or] at hu
    simp only [List.cons_append, popTo]
    rw [if_neg (Ne.symm hu.1), ih hu.2]

/-- The nodes from `u` up reach each other. -/
theorem TarjanInv.connected {new rest : List ℕ} (h : TarjanInv adj n (insert u G) st)
    (hstack : st.stack = new ++ u :: rest) (hactive : ∀ x ∈ G, x ∈ rest) :
    ∀ y ∈ new ++ [u], ReflTransGen (Arc adj) u y ∧ ReflTransGen (Arc adj) y u := by
  have hsorted := h.sorted
  rw [hstack] at hsorted
  have habove : ∀ y ∈ new ++ [u], st.idx u ≤ st.idx y := by
    intro y hy
    rcases List.mem_append.1 hy with hy | hy
    · exact ((List.pairwise_append.1 hsorted).2.2 y hy u (List.mem_cons_self ..)).le
    · rw [List.mem_singleton.1 hy]
  have hrest : ∀ x ∈ rest, st.idx x < st.idx u := fun x hx =>
    (List.pairwise_cons.1 (List.pairwise_append.1 hsorted).2.1).1 x hx
  intro y hy
  have hys : y ∈ st.stack := by
    rw [hstack]
    rcases List.mem_append.1 hy with hy | hy
    · exact List.mem_append_left _ hy
    · exact List.mem_append_right _ (List.mem_singleton.1 hy ▸ List.mem_cons_self ..)
  have hus : u ∈ st.stack := by simp [hstack]
  refine ⟨h.down u (.inl rfl) y hys (habove y hy), ?_⟩
  -- `y` reaches an active node, which is `u` or lies below it
  obtain ⟨x, hx, -, hyx⟩ := h.up y hys
  refine hyx.trans (h.down x hx u hus ?_)
  rcases hx with rfl | hx
  · exact le_rfl
  · exact (hrest x (hactive x hx)).le

section
variable (hinv : TarjanInv adj n (insert u G) st) (h : Scanned adj st₀ u ((adj u).map Prod.fst) st)
include hinv h

/-- After the last edge of `u`, only active nodes below it have unexplored edges. -/
theorem Scanned.done : ∀ v, st.Visited v → v ∉ G → ∀ w, Arc adj v w → st.Visited w := by
  intro v hv hvG w hvw
  by_cases hvu : v = u
  · subst hvu
    obtain ⟨e, he, rfl⟩ := hvw
    exact (h.edges e.1 (List.mem_map_of_mem he)).1
  · exact hinv.done v hv (fun hmem => hmem.elim hvu hvG) w hvw

variable (hu : ¬ st₀.Visited u) (hinv₀ : TarjanInv adj n G st₀)
include hu hinv₀

/-- The root of a component pops it. -/
theorem Scanned.popScc (hroot : st.lowlink u = st₀.index) :
    TarjanInv adj n G (st.popScc u) ∧ Explored adj st₀ u (st.popScc u) := by
  obtain ⟨new, hstack, hnew, hbelow⟩ := h.stack
  have hdone := Scanned.done hinv h
  have hnodup := hinv.nodup
  rw [hstack, List.nodup_middle, List.nodup_cons] at hnodup
  have hpop : popTo u st.stack = (new ++ [u], st₀.stack) := by
    rw [hstack]
    exact popTo_append fun hmem => hnodup.1 (List.mem_append_left _ hmem)
  have hstep : st.popScc u = { st with
      onStack := fun v => st.onStack v && !(new ++ [u]).contains v
      stack := st₀.stack
      sccs := st.sccs ++ [new ++ [u]] } := by
    rw [TarjanState.popScc, hpop]
  have hmem : ∀ v, v ∈ st.stack ↔ v ∈ new ++ [u] ∨ v ∈ st₀.stack := by
    intro v; rw [hstack]; simp [or_assoc]
  have hdisj : ∀ v ∈ new ++ [u], v ∉ st₀.stack := by
    intro v hv hv₀
    rcases List.mem_append.1 hv with hv | hv
    · exact hnew v hv (hinv₀.visited_of_mem hv₀)
    · exact hu (List.mem_singleton.1 hv ▸ hinv₀.visited_of_mem hv₀)
  have hsub : ∀ v ∈ st₀.stack, v ∈ st.stack := fun v hv => (hmem v).2 (.inr hv)
  have hconn := hinv.connected hstack hinv₀.active
  have hsorted := hinv.sorted
  rw [hstack] at hsorted
  have hlt : ∀ v ∈ st₀.stack, st.idx v < st.idx u := fun v hv =>
    (List.pairwise_cons.1 (List.pairwise_append.1 hsorted).2.1).1 v hv
  rw [hstep]
  refine ⟨⟨hinv.lt, hinv.index_lt, ?_, ?_, ?_, ?_, hinv₀.active, hdone, ?_, ?_, ?_⟩, h.frame, ?_,
    ⟨[], rfl, by simp, by simp⟩, .inl hroot.ge⟩
  · intro v
    simp only [Bool.and_eq_true, hinv.onStack v, hmem v, Bool.not_eq_true',
      List.contains_eq_mem, decide_eq_false_iff_not]
    exact ⟨fun hv => hv.1.resolve_left hv.2, fun hv => ⟨.inr hv, fun hc => hdisj v hc hv⟩⟩
  · intro v
    refine (hinv.visited v).trans ?_
    change _ ↔ v ∈ st₀.stack ∨ v ∈ (st.sccs ++ [new ++ [u]]).flatten
    rw [hmem v, List.flatten_append, List.flatten_singleton, List.mem_append (s := st.sccs.flatten)]
    tauto
  · intro v hv
    rw [List.flatten_append, List.flatten_singleton, List.mem_append, not_or]
    exact ⟨hinv.disjoint v (hsub v hv), fun hc => hdisj v hc hv⟩
  · exact (List.pairwise_cons.1 (List.pairwise_append.1 hsorted).2.1).2
  · exact fun x hx y hy => hinv.down x (.inr hx) y (hsub y hy)
  · intro y hy
    obtain ⟨x, rfl | hx, hle, hreach⟩ := hinv.up y (hsub y hy)
    · exact absurd (hlt y hy) (not_lt.2 hle)
    · exact ⟨x, hx, hle, hreach⟩
  · refine hinv.condensed.snoc ?_ ?_ ?_ ?_
    · refine hinv.nodup.sublist ?_
      rw [hstack]
      exact (List.singleton_sublist.2 (List.mem_cons_self ..)).append_left new
    · exact fun v hv => hinv.disjoint v ((hmem v).2 (.inl hv))
    · exact fun v hv w hw => (hconn v hv).2.trans (hconn w hw).1
    · intro y hy w hyw
      have hyvis := hinv.visited_of_mem ((hmem y).2 (.inl hy))
      have hyG : y ∉ G := fun hG => hdisj y hy (hinv₀.active y hG)
      rcases (hinv.visited w).1 (hdone y hyvis hyG w hyw) with hw | hw
      · rcases (hmem w).1 hw with hw | hw
        · exact .inl hw
        · -- an edge below `u` would have lowered its low link
          have hlt₀ := hinv₀.index_lt w (hinv₀.visited_of_mem hw)
          have hle : st.lowlink u ≤ st₀.idx w := by
            rcases List.mem_append.1 hy with hy | hy
            · exact hbelow y hy w hw hyw
            · obtain rfl := List.mem_singleton.1 hy
              obtain ⟨e, he, rfl⟩ := hyw
              exact (h.edges e.1 (List.mem_map_of_mem he)).2 hw
          omega
      · exact .inr hw
  · exact hinv.visited_of_mem ((hmem u).2 (.inl (by simp)))

/-- A node that is not a root stays on the stack. -/
theorem Scanned.keep (hroot : st.lowlink u ≠ st₀.index) :
    TarjanInv adj n G st ∧ Explored adj st₀ u st := by
  obtain ⟨new, hstack, hnew, hbelow⟩ := h.stack
  obtain ⟨w, hw, hlow, huw⟩ := h.low.resolve_left hroot
  have hsub : ∀ v ∈ st₀.stack, v ∈ st.stack := fun v hv => by simp [hstack, hv]
  have huvis : st.Visited u := by simp [TarjanState.Visited, h.entered]
  have hidxu := TarjanState.idx_eq h.entered
  have hwlt : st.idx w < st.idx u := by
    rw [hidxu, TarjanState.idx_congr (h.frame w (hinv₀.visited_of_mem hw)).1]
    exact hinv₀.index_lt w (hinv₀.visited_of_mem hw)
  refine ⟨⟨hinv.lt, hinv.index_lt, hinv.onStack, hinv.visited, hinv.disjoint, hinv.sorted,
    fun x hx => hinv.active x (.inr hx), Scanned.done hinv h,
    fun x hx => hinv.down x (.inr hx), ?_, hinv.condensed⟩, h.frame, huvis,
    ⟨new ++ [u], by simp [hstack], ?_, ?_⟩, .inr ⟨w, hw, hlow, huw⟩⟩
  · intro y hy
    obtain ⟨x, rfl | hx, hle, hyx⟩ := hinv.up y hy
    · -- `u` itself reaches an active node below it
      obtain ⟨x', hx', hle', hwx'⟩ := hinv.up w (hsub w hw)
      have hx'G : x' ∈ G := hx'.resolve_left fun he => by
        rw [he] at hle'; exact absurd hwlt (not_lt.2 hle')
      exact ⟨x', hx'G, hle'.trans (hwlt.le.trans hle), (hyx.trans huw).trans hwx'⟩
    · exact ⟨x, hx, hle, hyx⟩
  · intro y hy
    rcases List.mem_append.1 hy with hy | hy
    · exact hnew y hy
    · rw [List.mem_singleton.1 hy]; exact hu
  · intro y hy v hv hyv
    rcases List.mem_append.1 hy with hy | hy
    · exact hbelow y hy v hv hyv
    · obtain rfl := List.mem_singleton.1 hy
      obtain ⟨e, he, rfl⟩ := hyv
      exact (h.edges e.1 (List.mem_map_of_mem he)).2 hv

end

/-! ## The calls -/

/-- The nodes below `n` without an index. -/
def unvisited (n : ℕ) (st : TarjanState) : Finset ℕ :=
  (Finset.range n).filter fun v => st.indices v = none

theorem mem_unvisited : v ∈ unvisited n st ↔ v < n ∧ ¬ st.Visited v := by
  simp [unvisited, TarjanState.Visited]

theorem unvisited_subset {st' : TarjanState} (h : ∀ v, st.Visited v → st'.Visited v) :
    unvisited n st' ⊆ unvisited n st := by
  intro v hv
  rw [mem_unvisited] at hv ⊢
  exact ⟨hv.1, fun hs => hv.2 (h v hs)⟩

theorem Scanned.visited {done : List ℕ} (h : Scanned adj st₀ u done st) (hv : st₀.Visited v) :
    st.Visited v := by
  rw [TarjanState.Visited, (h.frame v hv).1]
  exact hv

/-- **Specification of `strongconnect`**: from an unvisited node that every active
    node reaches, with fuel for the unvisited nodes. -/
theorem strongconnect_spec (hadj : ∀ u v, Arc adj u v → v < n) :
    ∀ fuel (G : Set ℕ) (u : ℕ) (st₀ : TarjanState), TarjanInv adj n G st₀ → u < n →
      ¬ st₀.Visited u → (∀ x ∈ G, ReflTransGen (Arc adj) x u) → (unvisited n st₀).card ≤ fuel →
      TarjanInv adj n G (strongconnect adj fuel u st₀) ∧
        Explored adj st₀ u (strongconnect adj fuel u st₀) := by
  intro fuel
  induction fuel with
  | zero =>
    intro G u st₀ _ hun hu _ hfuel
    have hmem : u ∈ unvisited n st₀ := mem_unvisited.2 ⟨hun, hu⟩
    exact absurd (Finset.card_pos.2 ⟨u, hmem⟩) (by omega)
  | succ fuel ih =>
    intro G u st₀ hinv₀ hun hu hreach hfuel
    -- the loop over the edges of `u`, after the edges in `done`
    obtain ⟨hinv, h⟩ := Loop.foldl_invariant (l := adj u) (s := st₀.enter u)
      (f := scanEdge (strongconnect adj fuel) u)
      (I := fun done st => TarjanInv adj n (insert u G) st ∧
        Scanned adj st₀ u (done.map Prod.fst) st)
      ⟨hinv₀.enter hun hu hreach, scanned_enter hu⟩ fun done e rest st hes ⟨hinv, h⟩ => by
        have harc : Arc adj u e.1 := ⟨e, by simp [hes], rfl⟩
        rw [List.map_append, List.map_singleton]
        unfold scanEdge
        cases hi : st.indices e.1 with
        | none =>
          have hv : ¬ st.Visited e.1 := fun hv => hv hi
          have hlt : (unvisited n st).card < (unvisited n st₀).card := by
            refine Finset.card_lt_card (Finset.ssubset_iff_of_subset
              (unvisited_subset fun v hv => h.visited hv) |>.2
              ⟨u, mem_unvisited.2 ⟨hun, hu⟩, fun hmem => (mem_unvisited.1 hmem).2 ?_⟩)
            simp [TarjanState.Visited, h.entered]
          obtain ⟨hinv', hexp⟩ := ih (insert u G) e.1 st hinv (hadj _ _ harc) hv
            (fun x hx => (h.reach_of_active hinv₀ hinv hx).tail harc) (by omega)
          exact ⟨hinv'.lower u _, h.explored hu hinv₀ hinv hv hexp harc⟩
        | some i =>
          by_cases hon : st.onStack e.1
          · simp only [hon, if_true]
            exact ⟨hinv.lower u i, h.onStack hu hinv₀ hinv hi ((hinv.onStack _).1 hon) harc⟩
          · simp only [hon]
            exact ⟨hinv, h.offStack (by simp [TarjanState.Visited, hi])
              fun hmem => hon ((hinv.onStack _).2 hmem)⟩
    rw [strongconnect]
    by_cases hroot : ((adj u).foldl (scanEdge (strongconnect adj fuel) u) (st₀.enter u)).lowlink u = st₀.index
    · rw [if_pos (by rw [h.entered, hroot])]
      exact h.popScc hinv hu hinv₀ hroot
    · rw [if_neg (by rw [h.entered]; exact fun he => hroot (Option.some.inj he).symm)]
      exact h.keep hinv hu hinv₀ hroot

/-- **`tarjan_scc` is correct**: the components returned hold every node once, they
    are strongly connected, and no edge leads into a later one. -/
theorem tarjanScc_condensed (hadj : ∀ u v, Arc adj u v → v < n) :
    Condensed (Arc adj) (tarjanScc adj n) ∧ ∀ v, v ∈ (tarjanScc adj n).flatten ↔ v < n := by
  obtain ⟨hinv, hvis⟩ := Loop.foldl_invariant (l := List.range n) (s := .init)
    (f := visitRoot adj n)
    (I := fun done st => TarjanInv adj n ∅ st ∧ ∀ v ∈ done, st.Visited v)
    ⟨tarjanInv_init, by simp⟩ fun done u rest st hus ⟨hinv, hdone⟩ => by
      have hun : u < n := List.mem_range.1 (by simp [hus])
      unfold visitRoot
      by_cases hu : st.indices u = none
      · rw [if_pos hu]
        have hcard : (unvisited n st).card ≤ n :=
          (Finset.card_filter_le _ _).trans (Finset.card_range n).le
        obtain ⟨hinv', hexp⟩ := strongconnect_spec hadj n ∅ u st hinv hun (absurd hu)
          (fun x hx => hx.elim) hcard
        refine ⟨hinv', fun v hv => ?_⟩
        rcases List.mem_append.1 hv with hv | hv
        · rw [TarjanState.Visited, (hexp.frame v (hdone v hv)).1]
          exact hdone v hv
        · rw [List.mem_singleton.1 hv]
          exact hexp.visited
      · rw [if_neg hu]
        refine ⟨hinv, fun v hv => ?_⟩
        rcases List.mem_append.1 hv with hv | hv
        · exact hdone v hv
        · rw [List.mem_singleton.1 hv]
          exact hu
  refine ⟨hinv.condensed, fun v => ⟨fun hv => hinv.lt v ((hinv.visited v).2 (.inr hv)), fun hv => ?_⟩⟩
  -- no call is active at the end, so that nothing is left on the stack
  rcases (hinv.visited v).1 (hvis v (List.mem_range.2 hv)) with hstack | hscc
  · obtain ⟨x, hx, -⟩ := hinv.up v hstack
    exact hx.elim
  · exact hscc

end

/-! ## The components -/

section
variable {ε : Type} {adj : ℕ → List (ℕ × ε)} {u : ℕ}

/-- A component is popped down to its root. -/
theorem popTo_of_suffix {stack rest : List ℕ} (h : u :: rest <:+ stack) :
    (popTo u stack).1 ≠ [] ∧ rest <:+ (popTo u stack).2 := by
  induction stack with
  | nil => exact absurd (List.suffix_nil.1 h) (List.cons_ne_nil _ _)
  | cons w stack ih =>
    rw [popTo]
    by_cases hw : w = u
    · rw [if_pos hw]
      refine ⟨List.cons_ne_nil _ _, ?_⟩
      rcases List.suffix_cons_iff.1 h with heq | hsuffix
      · exact (List.cons.inj heq).2 ▸ List.suffix_rfl
      · exact (List.suffix_cons u rest).trans hsuffix
    · rw [if_neg hw]
      rcases List.suffix_cons_iff.1 h with heq | hsuffix
      · exact absurd (List.cons.inj heq).1.symm hw
      · exact ⟨List.cons_ne_nil _ _, (ih hsuffix).2⟩

/-- A call leaves what was on the stack, and emits no empty component. -/
theorem strongconnect_nonempty (fuel u : ℕ) (st : TarjanState) (hst : ∀ c ∈ st.sccs, c ≠ []) :
    st.stack <:+ (strongconnect adj fuel u st).stack ∧
      ∀ c ∈ (strongconnect adj fuel u st).sccs, c ≠ [] := by
  induction fuel generalizing u st with
  | zero => exact ⟨List.suffix_rfl, hst⟩
  | succ fuel ih =>
    obtain ⟨hstack, hsccs⟩ := Loop.foldl_invariant (l := adj u) (s := st.enter u)
      (f := scanEdge (strongconnect adj fuel) u)
      (I := fun _ st' => u :: st.stack <:+ st'.stack ∧ ∀ c ∈ st'.sccs, c ≠ [])
      ⟨List.suffix_rfl, hst⟩ fun done e rest st' _ ⟨hstack, hsccs⟩ => by
        unfold scanEdge
        cases st'.indices e.1 with
        | none => exact ⟨hstack.trans (ih e.1 st' hsccs).1, (ih e.1 st' hsccs).2⟩
        | some i =>
          simp only
          split_ifs
          · exact ⟨hstack, hsccs⟩
          · exact ⟨hstack, hsccs⟩
    obtain ⟨hpop, hrest⟩ := popTo_of_suffix hstack
    rw [strongconnect]
    split_ifs
    · refine ⟨hrest, List.forall_mem_append.2 ⟨hsccs, List.forall_mem_singleton.2 hpop⟩⟩
    · exact ⟨(List.suffix_cons u st.stack).trans hstack, hsccs⟩

theorem tarjanScc_nonempty (n : ℕ) : ∀ c ∈ tarjanScc adj n, c ≠ [] := by
  refine Loop.foldl_invariant (l := List.range n) (s := .init) (f := visitRoot adj n)
    (I := fun _ st => ∀ c ∈ st.sccs, c ≠ []) (fun c hc => absurd hc List.not_mem_nil) ?_
  intro done u rest st _ hst
  unfold visitRoot
  split_ifs
  · exact (strongconnect_nonempty n u st hst).2
  · exact hst

/-- The edges of a node by the adjacency lists. -/
def edgesOf (adj : List (List (ℕ × ε))) (u : ℕ) : List (ℕ × ε) := adj.getD u []

/-- **The components** of a graph by its adjacency lists: `tarjan_scc` returns the classes of
    mutual reachability of its nodes, each after those that its edges lead into. -/
theorem tarjanScc_components (adj : List (List (ℕ × ε)))
    (hadj : ∀ edges ∈ adj, ∀ e ∈ edges, e.1 < adj.length) :
    Components (Arc (edgesOf adj)) {v | v < adj.length} (tarjanScc (edgesOf adj) adj.length) := by
  have harc : ∀ u v, Arc (edgesOf adj) u v → v < adj.length := by
    rintro u v ⟨e, he, rfl⟩
    rw [edgesOf, List.getD_eq_getElem?_getD] at he
    cases hu : adj[u]? with
    | none =>
      rw [hu] at he
      exact absurd he List.not_mem_nil
    | some edges =>
      rw [hu] at he
      exact hadj edges (List.mem_of_getElem? hu) e he
  obtain ⟨hcondensed, hcover⟩ := tarjanScc_condensed harc
  exact hcondensed.components (tarjanScc_nonempty adj.length) hcover

/-- Two nodes that call each other, and a third that calls one of them. -/
theorem tarjanScc_components_pair :
    Components (Arc (edgesOf [[(1, ())], [(0, ())], [(0, ())]])) {v | v < 3}
      (tarjanScc (edgesOf [[(1, ())], [(0, ())], [(0, ())]]) 3) :=
  tarjanScc_components [[(1, ())], [(0, ())], [(0, ())]] (by decide)

example : tarjanScc (edgesOf [[(1, ())], [(0, ())], [(0, ())]]) 3 = [[1, 0], [2]] := by decide

end

end Cognis
