/-
  The watcher queue of `cognis-owner` (`queue.rs`): bounded, and the latest observation
  of a path wins.

  * `WatcherQueue.offer` and `WatcherQueue.take` are the two operations, `run` a
    sequence of them with the requests taken;
  * `offer_pending` and `run_pending`: an offered path stays pending until a request
    that covers it is taken;
  * `watcherQueue_sound`: no observation is lost, whatever the capacity.
-/
import Cognis.Core.Models
import Cognis.Lib.Table

namespace Cognis

open Table

/-- `ObservationKind` -/
inductive ObservationKind where
  | create | modify | delete
  deriving DecidableEq, Repr

/-- `Observation`: one change of a file. -/
structure Observation (π : Type*) where
  path : π
  kind : ObservationKind
  deriving DecidableEq, Repr

/-- `WatcherQueueInner`; instants are natural numbers. -/
structure WatcherQueue (π : Type*) where
  map : List (Observation π)
  cap : ℕ
  overflowed : Bool
  lastOfferAt : Option ℕ
  deriving DecidableEq, Repr

namespace WatcherQueue

variable {π : Type*}

/-- `WatcherQueue::new` -/
def new (cap : ℕ) : WatcherQueue π := ⟨[], cap, false, none⟩

/-- `depth` -/
def depth (q : WatcherQueue π) : ℕ := if q.overflowed then 1 else q.map.length

variable [LinearOrder π]

/-- `offer` at the time `now`. -/
def offer (q : WatcherQueue π) (now : ℕ) (observation : Observation π) : WatcherQueue π :=
  let q := { q with lastOfferAt := some now }
  if q.overflowed then q
  else if q.map.any (·.path = observation.path) then
    { q with map := upsert Observation.path q.map observation }
  -- a new path that does not fit collapses the queue
  else if q.cap = 0 ∨ q.cap ≤ q.map.length then { q with map := [], overflowed := true }
  else { q with map := upsert Observation.path q.map observation }

/-- `take`: the paths come in their order. -/
def take (q : WatcherQueue π) : WatcherQueue π × Option (PlanRequest π) :=
  if q.overflowed then
    ({ q with overflowed := false, map := [], lastOfferAt := none }, some .reconcile)
  else if q.map = [] then (q, none)
  else
    ({ q with map := [], lastOfferAt := none },
      some (.touched ((sortOn Observation.path q.map).map Observation.path)))

/-- An operation on the queue. -/
inductive Op (π : Type*) where
  | offer (now : ℕ) (observation : Observation π)
  | take

/-- A sequence of operations, with the requests that its takes return. -/
def run (q : WatcherQueue π) : List (Op π) → WatcherQueue π × List (PlanRequest π)
  | [] => (q, [])
  | .offer now observation :: ops => (q.offer now observation).run ops
  | .take :: ops =>
    let (q, request) := q.take
    let (q, requests) := q.run ops
    (q, request.toList ++ requests)

/-- A path waits in the queue: by its entry, or by the reconcile that the queue has
    collapsed to. -/
def Pending (q : WatcherQueue π) (path : π) : Prop :=
  q.overflowed = true ∨ ∃ observation ∈ q.map, observation.path = path

/-- What the queue never breaks. -/
structure Bounded (cap : ℕ) (q : WatcherQueue π) : Prop where
  cap_eq : q.cap = cap
  keyed : Keyed Observation.path q.map
  length_le : q.map.length ≤ cap

theorem bounded_new {π : Type*} (cap : ℕ) : Bounded cap (new cap : WatcherQueue π) :=
  ⟨rfl, keyed_nil, Nat.zero_le _⟩

end WatcherQueue

/-- A request makes the planner look at a path. -/
def PlanRequest.Covers {π : Type*} (path : π) : PlanRequest π → Prop
  | .touched paths => path ∈ paths
  | .reconcile | .full => True

namespace WatcherQueue

variable {π : Type*} [LinearOrder π] {q : WatcherQueue π} {cap now : ℕ} {path : π}
  {observation : Observation π}

/-! ## One operation -/

theorem bounded_offer (h : Bounded cap q) : Bounded cap (q.offer now observation) := by
  unfold offer
  dsimp only
  split_ifs with hover hmem hfull
  · exact ⟨h.cap_eq, h.keyed, h.length_le⟩
  · simp only [List.any_eq_true, decide_eq_true_eq] at hmem
    obtain ⟨old, hold, hpath⟩ := hmem
    exact ⟨h.cap_eq, keyed_upsert h.keyed,
      (length_upsert_of_mem hold hpath).trans h.length_le⟩
  · exact ⟨h.cap_eq, keyed_nil, Nat.zero_le _⟩
  · have hlen := @length_upsert_le _ _ _ Observation.path q.map observation
    have hcap := h.cap_eq
    push Not at hfull
    exact ⟨h.cap_eq, keyed_upsert h.keyed, by dsimp only; omega⟩

theorem bounded_take (h : Bounded cap q) : Bounded cap q.take.1 := by
  unfold take
  split_ifs
  · exact ⟨h.cap_eq, keyed_nil, Nat.zero_le _⟩
  · exact h
  · exact ⟨h.cap_eq, keyed_nil, Nat.zero_le _⟩

/-- The offered path waits. -/
theorem offer_pending_self : (q.offer now observation).Pending observation.path := by
  unfold offer
  dsimp only
  split_ifs with hover
  · exact .inl hover
  · exact .inr ⟨observation, mem_upsert_self, rfl⟩
  · exact .inl rfl
  · exact .inr ⟨observation, mem_upsert_self, rfl⟩

/-- Another offer does not displace a path that waits. -/
theorem offer_pending (h : q.Pending path) : (q.offer now observation).Pending path := by
  unfold offer
  dsimp only
  split_ifs with hover
  · exact .inl hover
  · obtain ⟨old, hold, rfl⟩ := h.resolve_left hover
    exact .inr (exists_mem_upsert hold)
  · exact .inl rfl
  · obtain ⟨old, hold, rfl⟩ := h.resolve_left hover
    exact .inr (exists_mem_upsert hold)

/-- A take covers every path that waits. -/
theorem take_covers (h : q.Pending path) :
    ∃ request, q.take.2 = some request ∧ request.Covers path := by
  unfold take
  split_ifs with hover hmap
  · exact ⟨.reconcile, rfl, trivial⟩
  · obtain ⟨old, hold, -⟩ := h.resolve_left hover
    rw [hmap] at hold
    cases hold
  · obtain ⟨old, hold, rfl⟩ := h.resolve_left hover
    exact ⟨_, rfl, List.mem_map.2 ⟨old, mem_sortOn.2 hold, rfl⟩⟩

/-- A take names a path once. -/
theorem take_nodup (h : Bounded cap q) {paths : List π}
    (ht : q.take.2 = some (.touched paths)) : paths.Nodup := by
  unfold take at ht
  split_ifs at ht
  · cases ht
  · cases ht
    exact h.keyed.sortOn

/-! ## Runs -/

theorem bounded_run (h : Bounded cap q) (ops : List (Op π)) : Bounded cap (q.run ops).1 := by
  induction ops generalizing q with
  | nil => exact h
  | cons op ops ih =>
    cases op with
    | offer now observation => exact ih (bounded_offer h)
    | take => exact ih (bounded_take h)

theorem run_nodup (h : Bounded cap q) (ops : List (Op π)) {paths : List π}
    (ht : .touched paths ∈ (q.run ops).2) : paths.Nodup := by
  induction ops generalizing q with
  | nil => cases ht
  | cons op ops ih =>
    cases op with
    | offer now observation => exact ih (bounded_offer h) ht
    | take =>
      rcases List.mem_append.1 ht with ht | ht
      · exact take_nodup h (Option.mem_toList.1 ht)
      · exact ih (bounded_take h) ht

/-- A path that waits is still waiting after a run, or a request of the run covers it. -/
theorem run_pending (h : q.Pending path) (ops : List (Op π)) :
    (q.run ops).1.Pending path ∨ ∃ request ∈ (q.run ops).2, request.Covers path := by
  induction ops generalizing q with
  | nil => exact .inl h
  | cons op ops ih =>
    cases op with
    | offer now observation => exact ih (offer_pending h)
    | take =>
      obtain ⟨request, hr, hc⟩ := take_covers h
      refine .inr ⟨request, ?_, hc⟩
      exact List.mem_append_left _ (Option.mem_toList.2 hr)

/-- **No observation is lost.** In every run from an empty queue, an offered path waits
    or is covered by a request taken after the offer; the requests name a path once, and
    the queue stays within its capacity. -/
theorem watcherQueue_sound (cap : ℕ) (ops : List (Op π)) :
    (∀ before now observation after, ops = before ++ .offer now observation :: after →
      let q := ((new cap).run before).1.offer now observation
      (q.run after).1.Pending observation.path ∨
        ∃ request ∈ (q.run after).2, request.Covers observation.path) ∧
    (∀ paths, .touched paths ∈ ((new cap).run ops).2 → paths.Nodup) ∧
    ((new cap).run ops).1.map.length ≤ cap := by
  refine ⟨?_, ?_, (bounded_run (bounded_new cap) ops).length_le⟩
  · rintro before now observation after -
    exact run_pending offer_pending_self after
  · intro paths ht
    exact run_nodup (bounded_new cap) ops ht

end WatcherQueue

end Cognis
