/-
  Breadth-first search with a queue, a set of visited nodes and a limit on the hops. A node
  that is reached gets a label from the item that it is reached from; a node that is not
  kept is marked, and not followed.

  * `step` is one iteration of the loop, `Reach` the walks that the search explores;
  * `search_spec`: the search reaches each node within the limit once, by a walk with the
    fewest hops;
  * `exists_search`: it finishes.
-/
import Cognis.Lib.Loop
import Mathlib.Data.Finset.Card
import Mathlib.Data.List.Nodup
import Mathlib.Data.List.Perm.Basic

namespace Cognis.Breadth

/-- A node with the hops and the label of the walk to it. -/
structure Item (ν β : Type*) where
  node : ν
  hops : ℕ
  label : β

/-- The variables of the loop, and the items in the order in which they are reached. -/
structure State (ν β : Type*) where
  queue : List (Item ν β)
  visited : List ν
  reached : List (Item ν β)

variable {ν β : Type*} [DecidableEq ν] (next : ν → List ν) (keep : ν → Bool)
  (extend : Item ν β → ν → β) (limit : ℕ)

/-- One neighbour of the item. -/
def visit (item : Item ν β) (s : State ν β) (v : ν) : State ν β :=
  if v ∈ s.visited then s
  else if keep v then
    let new : Item ν β := ⟨v, item.hops + 1, extend item v⟩
    ⟨s.queue ++ [new], s.visited ++ [v], s.reached ++ [new]⟩
  else { s with visited := s.visited ++ [v] }

/-- The next item of the queue. -/
def step (s : State ν β) : Option (State ν β) :=
  match s.queue with
  | [] => none
  | item :: queue =>
    if limit ≤ item.hops then some { s with queue }
    else some ((next item.node).foldl (visit keep extend item) { s with queue })

/-- The search starts at a node. -/
def start (v : ν) (b : β) : State ν β := ⟨[⟨v, 0, b⟩], [v], []⟩

/-- The state at the end of the search. -/
def search (fuel : ℕ) (v : ν) (b : β) : Option (State ν β) :=
  Loop.run (step next keep extend limit) fuel (start v b)

/-- The walks from a node over kept nodes. -/
inductive Reach (v₀ : ν) (b₀ : β) : Item ν β → Prop
  | start : Reach v₀ b₀ ⟨v₀, 0, b₀⟩
  | next {item : Item ν β} {v : ν} (h : Reach v₀ b₀ item) (hv : v ∈ next item.node)
      (hkeep : keep v = true) : Reach v₀ b₀ ⟨v, item.hops + 1, extend item v⟩

/-- No walk to the node of the item has fewer hops. -/
def Shortest (v₀ : ν) (b₀ : β) (item : Item ν β) : Prop :=
  ∀ other, Reach next keep extend v₀ b₀ other → other.node = item.node → item.hops ≤ other.hops

section
variable {next keep extend limit}

/-! ## One iteration -/

variable (keep extend) in
/-- The neighbours of an item add the new ones, at the end of the queue. -/
theorem foldl_visit (item : Item ν β) (vs : List ν) (s : State ν β) :
    ∃ news : List (Item ν β),
      (vs.foldl (visit keep extend item) s).queue = s.queue ++ news ∧
      (vs.foldl (visit keep extend item) s).reached = s.reached ++ news ∧
      (∀ v, v ∈ (vs.foldl (visit keep extend item) s).visited ↔ v ∈ s.visited ∨ v ∈ vs) ∧
      (∀ new ∈ news, new.node ∈ vs ∧ new.node ∉ s.visited ∧ keep new.node = true ∧
        new = ⟨new.node, item.hops + 1, extend item new.node⟩) ∧
      (∀ v ∈ vs, v ∉ s.visited → keep v = true → v ∈ news.map Item.node) ∧
      (news.map Item.node).Nodup := by
  induction vs generalizing s with
  | nil => exact ⟨[], by simp⟩
  | cons v vs ih =>
    rw [List.foldl_cons]
    obtain ⟨news, hqueue, hreached, hvisited, hnews, hall, hnodup⟩ :=
      ih (visit keep extend item s v)
    by_cases hin : v ∈ s.visited
    · have hsame : visit keep extend item s v = s := if_pos hin
      rw [hsame] at hqueue hreached hvisited hnews hall ⊢
      refine ⟨news, hqueue, hreached, fun w => ?_, fun new hnew => ?_, fun w hw hnot => ?_, hnodup⟩
      · rw [hvisited, List.mem_cons]
        exact ⟨Or.imp_right .inr, fun h => h.elim .inl fun h => h.elim (fun h => .inl (h ▸ hin)) .inr⟩
      · obtain ⟨hmem, hrest⟩ := hnews new hnew
        exact ⟨List.mem_cons_of_mem _ hmem, hrest⟩
      · exact hall w ((List.mem_cons.1 hw).resolve_left fun h => hnot (h ▸ hin)) hnot
    · cases hkeep : keep v with
      | false =>
        have hmark : visit keep extend item s v = { s with visited := s.visited ++ [v] } := by
          rw [visit, if_neg hin, hkeep]
          rfl
        rw [hmark] at hqueue hreached hvisited hnews hall ⊢
        refine ⟨news, hqueue, hreached, fun w => ?_, fun new hnew => ?_, fun w hw hnot hkw => ?_,
          hnodup⟩
        · rw [hvisited, List.mem_append, List.mem_singleton, List.mem_cons, or_assoc]
        · obtain ⟨hmem, hnot, hrest⟩ := hnews new hnew
          exact ⟨List.mem_cons_of_mem _ hmem, fun h => hnot (List.mem_append_left _ h), hrest⟩
        · have hne : w ≠ v := by
            rintro rfl
            rw [hkeep] at hkw
            cases hkw
          exact hall w ((List.mem_cons.1 hw).resolve_left hne) (by simp [hnot, hne]) hkw
      | true =>
        have hpush : visit keep extend item s v =
            ⟨s.queue ++ [⟨v, item.hops + 1, extend item v⟩], s.visited ++ [v],
              s.reached ++ [⟨v, item.hops + 1, extend item v⟩]⟩ := by
          rw [visit, if_neg hin, hkeep]
          rfl
        rw [hpush] at hqueue hreached hvisited hnews hall ⊢
        refine ⟨⟨v, item.hops + 1, extend item v⟩ :: news, ?_, ?_, fun w => ?_, fun new hnew => ?_,
          fun w hw hnot hkw => ?_, ?_⟩
        · rw [hqueue, List.append_assoc, List.singleton_append]
        · rw [hreached, List.append_assoc, List.singleton_append]
        · rw [hvisited, List.mem_append, List.mem_singleton, List.mem_cons, or_assoc]
        · rcases List.mem_cons.1 hnew with rfl | hnew
          · exact ⟨List.mem_cons_self, hin, hkeep, rfl⟩
          · obtain ⟨hmem, hnot, hrest⟩ := hnews new hnew
            exact ⟨List.mem_cons_of_mem _ hmem, fun h => hnot (List.mem_append_left _ h), hrest⟩
        · rw [List.map_cons, List.mem_cons]
          by_cases hne : w = v
          · exact .inl hne
          · exact .inr (hall w ((List.mem_cons.1 hw).resolve_left hne) (by simp [hnot, hne]) hkw)
        · rw [List.map_cons, List.nodup_cons]
          refine ⟨fun hmem => ?_, hnodup⟩
          obtain ⟨new, hnew, hnode⟩ := List.mem_map.1 hmem
          exact (hnews new hnew).2.1 (hnode ▸ by simp)

/-! ## The invariant -/

variable {v₀ : ν} {b₀ : β}

variable (next keep extend limit v₀ b₀) in
/-- The invariant of the loop: the queue holds shortest walks in the order of their hops, and
    a visited node is in the queue, or its neighbours are visited. -/
structure Inv (s : State ν β) : Prop where
  start : v₀ ∈ s.visited
  queue : ∀ item ∈ s.queue, Reach next keep extend v₀ b₀ item ∧
    Shortest next keep extend v₀ b₀ item ∧ item.hops ≤ limit
  sorted : s.queue.Pairwise fun a b => a.hops ≤ b.hops
  close : ∀ a ∈ s.queue.head?, ∀ b ∈ s.queue, b.hops ≤ a.hops + 1
  reached : ∀ item ∈ s.reached, (Reach next keep extend v₀ b₀ item ∧
    Shortest next keep extend v₀ b₀ item ∧ item.hops ≤ limit) ∧
      item.node ≠ v₀ ∧ item.node ∈ s.visited
  nodup : (s.reached.map Item.node).Nodup
  complete : ∀ v ∈ s.visited, v ≠ v₀ → keep v = true → v ∈ s.reached.map Item.node
  expanded : ∀ item, Reach next keep extend v₀ b₀ item → item.node ∈ s.visited →
    (∃ q ∈ s.queue, q.node = item.node) ∨ limit ≤ item.hops ∨
      ∀ v ∈ next item.node, v ∈ s.visited

omit [DecidableEq ν] in
theorem Inv.init : Inv next keep extend limit v₀ b₀ (Breadth.start v₀ b₀) where
  start := List.mem_singleton_self v₀
  queue := by
    intro item hitem
    obtain rfl := List.mem_singleton.1 hitem
    exact ⟨.start, fun _ _ _ => Nat.zero_le _, Nat.zero_le _⟩
  sorted := List.pairwise_singleton _ _
  close := by
    intro a _ b hb
    obtain rfl := List.mem_singleton.1 hb
    exact Nat.zero_le _
  reached := by
    intro item hitem
    cases hitem
  nodup := List.nodup_nil
  complete := fun v hv hne => absurd (List.mem_singleton.1 hv) hne
  expanded := fun item _ hv =>
    .inl ⟨_, List.mem_singleton_self _, (List.mem_singleton.1 hv).symm⟩

/-- Nodes that are nearer than the queue are visited. -/
theorem Inv.visited {s : State ν β} (h : Inv next keep extend limit v₀ b₀ s) {n : ℕ}
    (hqueue : ∀ q ∈ s.queue, n ≤ q.hops) (hlimit : n ≤ limit) {item : Item ν β}
    (hitem : Reach next keep extend v₀ b₀ item) (hn : item.hops ≤ n) : item.node ∈ s.visited := by
  induction hitem with
  | start => exact h.start
  | @next item v hitem hv hkeep ih =>
    have hlt : item.hops < n := hn
    rcases h.expanded item hitem (ih (Nat.le_of_lt hlt)) with ⟨q, hq, hnode⟩ | hfar | hall
    · have hshort := (h.queue q hq).2.1 item hitem hnode.symm
      have hfirst := hqueue q hq
      omega
    · omega
    · exact hall v hv

/-- **Step lemma.** -/
theorem Inv.step {s t : State ν β} (h : Inv next keep extend limit v₀ b₀ s)
    (hst : Breadth.step next keep extend limit s = some t) :
    Inv next keep extend limit v₀ b₀ t := by
  unfold Breadth.step at hst
  cases hqueue : s.queue with
  | nil =>
    rw [hqueue] at hst
    cases hst
  | cons item queue =>
    rw [hqueue] at hst
    dsimp only at hst
    have hsorted := h.sorted
    rw [hqueue, List.pairwise_cons] at hsorted
    have hclose : ∀ b ∈ queue, b.hops ≤ item.hops + 1 := fun b hb =>
      h.close item (by rw [hqueue]; rfl) b (by rw [hqueue]; exact List.mem_cons_of_mem _ hb)
    have hmem : ∀ q ∈ queue, q ∈ s.queue := fun q hq => hqueue ▸ List.mem_cons_of_mem _ hq
    obtain ⟨hitem, hshort, hlimit⟩ := h.queue item (hqueue ▸ List.mem_cons_self)
    split_ifs at hst with hfar
    · obtain rfl := Option.some.inj hst
      refine ⟨h.start, fun q hq => h.queue q (hmem q hq), hsorted.2, fun a ha b hb => ?_, h.reached,
        h.nodup, h.complete, fun other hother hv => ?_⟩
      · have hle := hsorted.1 a (List.mem_of_mem_head? ha)
        have hb' := hclose b hb
        omega
      · rcases h.expanded other hother hv with ⟨q, hq, hnode⟩ | hrest
        · rcases List.mem_cons.1 (hqueue ▸ hq) with rfl | hq
          · exact .inr (.inl (Nat.le_trans hfar (hshort other hother hnode.symm)))
          · exact .inl ⟨q, hq, hnode⟩
        · exact .inr hrest
    · obtain rfl := Option.some.inj hst
      obtain ⟨news, hqueue', hreached, hvisited, hnews, hall, hnodup⟩ :=
        foldl_visit keep extend item (next item.node) { s with queue }
      have hnear : ∀ q ∈ s.queue, item.hops ≤ q.hops := by
        intro q hq
        rcases List.mem_cons.1 (hqueue ▸ hq) with rfl | hq
        · exact Nat.le_refl _
        · exact hsorted.1 q hq
      have hnew : ∀ new ∈ news, (Reach next keep extend v₀ b₀ new ∧
          Shortest next keep extend v₀ b₀ new ∧ new.hops ≤ limit) ∧ new.hops = item.hops + 1 := by
        intro new hnew
        obtain ⟨hv, hnot, hkeep, heq⟩ := hnews new hnew
        have hreach : Reach next keep extend v₀ b₀ new := by
          rw [heq]
          exact .next hitem hv hkeep
        have hhops : new.hops = item.hops + 1 := by rw [heq]
        refine ⟨⟨hreach, fun other hother hnode => ?_, by omega⟩, hhops⟩
        by_contra hlt
        exact hnot (hnode ▸ h.visited hnear hlimit hother (by omega))
      refine ⟨(hvisited _).2 (.inl h.start), ?_, ?_, ?_, ?_, ?_, ?_, ?_⟩
      · rw [hqueue']
        intro q hq
        rcases List.mem_append.1 hq with hq | hq
        · exact h.queue q (hmem q hq)
        · exact (hnew q hq).1
      · rw [hqueue']
        refine List.pairwise_append.2 ⟨hsorted.2, ?_, fun a ha b hb => ?_⟩
        · exact List.pairwise_of_forall_mem_list fun a ha b hb =>
            Nat.le_of_eq ((hnew a ha).2.trans (hnew b hb).2.symm)
        · rw [(hnew b hb).2]
          exact hclose a ha
      · rw [hqueue']
        have hbound : ∀ q ∈ queue ++ news, item.hops ≤ q.hops ∧ q.hops ≤ item.hops + 1 := by
          intro q hq
          rcases List.mem_append.1 hq with hq | hq
          · exact ⟨hsorted.1 q hq, hclose q hq⟩
          · have hhops := (hnew q hq).2
            omega
        intro a ha b hb
        have ha' := hbound a (List.mem_of_mem_head? ha)
        have hb' := hbound b hb
        omega
      · rw [hreached]
        intro q hq
        rcases List.mem_append.1 hq with hq | hq
        · obtain ⟨hspec, hne, hv⟩ := h.reached q hq
          exact ⟨hspec, hne, (hvisited _).2 (.inl hv)⟩
        · obtain ⟨hv, hnot, -⟩ := hnews q hq
          exact ⟨(hnew q hq).1, fun heq => hnot (heq ▸ h.start), (hvisited _).2 (.inr hv)⟩
      · rw [hreached, List.map_append]
        refine List.Nodup.append h.nodup hnodup fun v hv hv' => ?_
        obtain ⟨old, hold, rfl⟩ := List.mem_map.1 hv
        obtain ⟨new, hmem', heq⟩ := List.mem_map.1 hv'
        exact (hnews new hmem').2.1 (heq ▸ (h.reached old hold).2.2)
      · intro v hv hne hkeep
        rw [hreached, List.map_append, List.mem_append]
        by_cases hold : v ∈ s.visited
        · exact .inl (h.complete v hold hne hkeep)
        · exact .inr (hall v (((hvisited v).1 hv).resolve_left hold) hold hkeep)
      · intro other hother hv
        rw [hqueue']
        by_cases hold : other.node ∈ s.visited
        · rcases h.expanded other hother hold with ⟨q, hq, hnode⟩ | hrest | hrest
          · rcases List.mem_cons.1 (hqueue ▸ hq) with rfl | hq
            · exact .inr (.inr fun w hw => (hvisited w).2 (.inr (hnode ▸ hw)))
            · exact .inl ⟨q, List.mem_append_left _ hq, hnode⟩
          · exact .inr (.inl hrest)
          · exact .inr (.inr fun w hw => (hvisited w).2 (.inl (hrest w hw)))
        · have hkeep : keep other.node = true := by
            cases hother with
            | start => exact absurd h.start hold
            | next _ _ hkeep => exact hkeep
          obtain ⟨new, hmem', hnode⟩ :=
            List.mem_map.1 (hall _ (((hvisited _).1 hv).resolve_left hold) hold hkeep)
          exact .inl ⟨new, List.mem_append_right _ hmem', hnode⟩

/-- **What the search reaches**: each node within the limit, once, by a walk with the fewest
    hops. -/
theorem search_spec {fuel : ℕ} {t : State ν β}
    (h : search next keep extend limit fuel v₀ b₀ = some t) :
    (∀ item ∈ t.reached, (Reach next keep extend v₀ b₀ item ∧
      Shortest next keep extend v₀ b₀ item ∧ item.hops ≤ limit) ∧ item.node ≠ v₀) ∧
    (∀ item, Reach next keep extend v₀ b₀ item → item.hops ≤ limit → item.node ≠ v₀ →
      item.node ∈ t.reached.map Item.node) ∧
    (t.reached.map Item.node).Nodup := by
  obtain ⟨hreach, hexit⟩ := Loop.run_eq_some h
  have hinv : Inv next keep extend limit v₀ b₀ t :=
    Loop.invariant (fun _ _ hs hst => hs.step hst) hreach Inv.init
  have hempty : t.queue = [] := by
    unfold Breadth.step at hexit
    split at hexit
    · assumption
    · split_ifs at hexit
  refine ⟨fun item hitem => ?_, fun item hitem hlimit hne => ?_, hinv.nodup⟩
  · obtain ⟨hspec, hne, -⟩ := hinv.reached item hitem
    exact ⟨hspec, hne⟩
  · have hvisited := hinv.visited (n := limit) (by simp [hempty]) (Nat.le_refl _) hitem hlimit
    have hkeep : keep item.node = true := by
      cases hitem with
      | start => exact absurd rfl hne
      | next _ _ hkeep => exact hkeep
    exact hinv.complete _ hvisited hne hkeep

/-! ## Termination -/

/-- The items of the queue and the nodes that are left. -/
def measure (nodes : Finset ν) (s : State ν β) : ℕ :=
  s.queue.length + (nodes.filter (· ∉ s.visited)).card

theorem measure_step {nodes : Finset ν} (hnodes : ∀ v, keep v = true → v ∈ nodes) {s t : State ν β}
    (hst : step next keep extend limit s = some t) : measure nodes t < measure nodes s := by
  unfold step at hst
  cases hqueue : s.queue with
  | nil =>
    rw [hqueue] at hst
    cases hst
  | cons item queue =>
    rw [hqueue] at hst
    dsimp only at hst
    split_ifs at hst with hfar
    · obtain rfl := Option.some.inj hst
      simp [measure, hqueue]
    · obtain rfl := Option.some.inj hst
      obtain ⟨news, hqueue', -, hvisited, hnews, -, hnodup⟩ :=
        foldl_visit keep extend item (next item.node) { s with queue }
      -- each new item is a node that was left
      set t := (next item.node).foldl (visit keep extend item) { s with queue }
      have hnew : (news.map Item.node).toFinset ∪ nodes.filter (· ∉ t.visited) ⊆
          nodes.filter (· ∉ s.visited) := by
        intro v hv
        rw [Finset.mem_filter]
        rcases Finset.mem_union.1 hv with hv | hv
        · obtain ⟨new, hmem, rfl⟩ := List.mem_map.1 (List.mem_toFinset.1 hv)
          obtain ⟨-, hnot, hkeep, -⟩ := hnews new hmem
          exact ⟨hnodes _ hkeep, hnot⟩
        · obtain ⟨hv, hnot⟩ := Finset.mem_filter.1 hv
          exact ⟨hv, fun hold => hnot ((hvisited v).2 (.inl hold))⟩
      have hdisjoint : Disjoint (news.map Item.node).toFinset (nodes.filter (· ∉ t.visited)) := by
        rw [Finset.disjoint_left]
        intro v hv hv'
        obtain ⟨new, hmem, rfl⟩ := List.mem_map.1 (List.mem_toFinset.1 hv)
        exact (Finset.mem_filter.1 hv').2 ((hvisited _).2 (.inr (hnews new hmem).1))
      have hcard := Finset.card_le_card hnew
      rw [Finset.card_union_of_disjoint hdisjoint, List.toFinset_card_of_nodup hnodup,
        List.length_map] at hcard
      have hlength : t.queue.length = queue.length + news.length := by
        rw [hqueue', List.length_append]
      simp only [measure, hqueue, hlength, List.length_cons]
      omega

variable (next extend limit) in
/-- **The search finishes**, when the kept nodes are among the given ones. -/
theorem exists_search {nodes : Finset ν} (hnodes : ∀ v, keep v = true → v ∈ nodes) {fuel : ℕ}
    (hfuel : nodes.card + 1 ≤ fuel) (v₀ : ν) (b₀ : β) :
    ∃ t, search next keep extend limit fuel v₀ b₀ = some t := by
  refine Loop.terminates (I := fun _ => True) (fun _ _ _ _ => trivial)
    (fun _ _ _ hst => measure_step hnodes hst) trivial ?_
  have hcard : (nodes.filter (· ∉ (start v₀ b₀).visited)).card ≤ nodes.card :=
    Finset.card_filter_le _ _
  have hqueue : (start v₀ b₀).queue.length = 1 := rfl
  rw [measure, hqueue]
  omega

end

end Cognis.Breadth
