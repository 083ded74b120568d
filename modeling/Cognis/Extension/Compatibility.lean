/-
  The compatibility cache of the extension (`compatibilityCoordinator.ts`): for each canonical
  root a snapshot with a time to live, and at most one probe that counts.

  A probe starts in one call and goes on when the handshake ends, in whatever order the
  handshakes end. What it does then depends on the state it was started in, on the generation
  of that state, and on whether the state is still the one on record for its root.

  * `Coordinator.step` is one call or the end of one probe;
  * `Inv` is what every step preserves;
  * `latestWins`: in every run a probe is fulfilled exactly if it is the latest of its root and
    has not been invalidated since it started, and nothing else changes what is on record.
-/
import Cognis.Lib.Transition
import Mathlib.Data.List.AList
import Mathlib.Data.List.Induction
import Mathlib.Logic.Function.Basic

namespace Cognis.Extension

open Transition

/-! ## Snapshots -/

/-- `ContractCompatibility` -/
inductive ContractCompatibility where
  | ok | backendOlder | backendNewer | engineOutdated | engineNewer | capabilitiesMissing
  | unreadable
  deriving DecidableEq, Repr

/-- `HandshakeResult` -/
structure HandshakeResult where
  compatibility : ContractCompatibility
  backendContractVersion : Option ℕ := none
  expectedContractVersion : ℕ
  engineVersion : Option String := none
  expectedEngineVersion : Option String := none
  missingCommands : List String := []
  missingTools : List String := []
  usable : Bool
  deriving DecidableEq, Repr

/-- `CompatibilitySnapshot`, by its phase; times are milliseconds. -/
inductive CompatibilitySnapshot where
  | checking (generation : ℕ) (observedAt : ℤ)
  | confirmed (result : HandshakeResult) (generation : ℕ) (observedAt : ℤ)
  | unavailable (generation : ℕ) (observedAt : ℤ)
  deriving DecidableEq, Repr

namespace CompatibilitySnapshot

def generation : CompatibilitySnapshot → ℕ
  | checking generation _ | confirmed _ generation _ | unavailable generation _ => generation

def observedAt : CompatibilitySnapshot → ℤ
  | checking _ observedAt | confirmed _ _ observedAt | unavailable _ observedAt => observedAt

@[simp] theorem generation_confirmed (r : HandshakeResult) (g : ℕ) (t : ℤ) :
    (confirmed r g t).generation = g := rfl

@[simp] theorem generation_unavailable (g : ℕ) (t : ℤ) : (unavailable g t).generation = g := rfl

end CompatibilitySnapshot

/-! ## The coordinator -/

namespace Coordinator

/-- `InflightProbe`; its promise is named by the probe. -/
structure InflightProbe where
  generation : ℕ
  force : Bool
  promise : ℕ
  deriving DecidableEq, Repr

/-- `RootState` -/
structure RootState where
  generation : ℕ := 0
  invalidated : Bool := false
  snapshot : Option CompatibilitySnapshot := none
  inflight : Option InflightProbe := none
  deriving DecidableEq, Repr

/-- How the promise of a probe is settled; `rejected` is by `StaleCompatibilityProbeError`. -/
inductive Settled where
  | fulfilled (snapshot : CompatibilitySnapshot)
  | rejected
  deriving DecidableEq, Repr

/-- What the continuation of a probe holds, the arguments of the probe, and how it is settled,
    once it is. -/
structure Probe where
  key : String
  state : ℕ
  generation : ℕ
  lifecycleGeneration : ℕ
  repoRoot : String
  expectedEngineVersion : Option String
  settled : Option Settled := none
  deriving DecidableEq, Repr

end Coordinator

open Coordinator in
/-- `CompatibilityCoordinator`. The states are objects: `roots` and the probes refer to them by
    number, and `created` is the number of those there are. The probes are all there ever were,
    in the order of their starts. -/
structure Coordinator where
  roots : AList (fun _ : String => ℕ) := ∅
  lifecycleGeneration : ℕ := 0
  disposed : Bool := false
  states : ℕ → RootState := fun _ => {}
  created : ℕ := 0
  probes : List Probe := []

namespace Coordinator

/-- A call, or the end of a probe: with a result, or without one, also where it fails. A path is
    given with the canonical path it has at the time of the call. -/
inductive Event where
  | getOrProbe (repoRoot key : String) (expectedEngineVersion : Option String) (force : Bool)
      (now : ℤ)
  | evict (key : String)
  | dispose
  | finish (probe : ℕ) (result : Option HandshakeResult) (now : ℤ)
  deriving DecidableEq, Repr

/-- What `getOrProbe` returns, or that it throws. -/
inductive Reply where
  | resolved (snapshot : CompatibilitySnapshot)
  | promise (probe : ℕ)
  | throws
  deriving DecidableEq, Repr

/-- `peek` -/
def peek (c : Coordinator) (key : String) : Option CompatibilitySnapshot :=
  (c.roots.lookup key).bind fun r => (c.states r).snapshot

/-- `stateFor`, which creates it where there is none. -/
def stateFor (c : Coordinator) (key : String) : Coordinator × ℕ :=
  match c.roots.lookup key with
  | some existing => (c, existing)
  | none =>
    ({ c with
        roots := c.roots.insert key c.created
        states := Function.update c.states c.created {}
        created := c.created + 1 }, c.created)

/-- `isFresh` -/
def isFresh (ttlMs : ℕ) (now : ℤ) (snapshot : CompatibilitySnapshot) : Bool :=
  let age := now - snapshot.observedAt
  decide (0 ≤ age ∧ age < ttlMs)

/-- `startProbe` -/
def startProbe (c : Coordinator) (key repoRoot : String) (expectedEngineVersion : Option String)
    (state : ℕ) (force : Bool) : Coordinator :=
  let generation := (c.states state).generation + 1
  let inflight := { generation, force, promise := c.probes.length }
  { c with
    states := Function.update c.states state
      { c.states state with generation, inflight := some inflight }
    probes := c.probes ++ [{ key, state, generation, lifecycleGeneration := c.lifecycleGeneration,
                             repoRoot, expectedEngineVersion }] }

/-- `getOrProbe` -/
def getOrProbe (ttlMs : ℕ) (c : Coordinator) (repoRoot key : String)
    (expectedEngineVersion : Option String) (force : Bool) (now : ℤ) : Coordinator × Reply :=
  if c.disposed then (c, .throws)
  else
    let (c, r) := c.stateFor key
    let start := (c.startProbe key repoRoot expectedEngineVersion r force,
      Reply.promise c.probes.length)
    match (c.states r).snapshot.filter fun snapshot => !force && isFresh ttlMs now snapshot with
    | some snapshot => (c, .resolved snapshot)
    | none =>
      match (c.states r).inflight with
      | some inflight => if !force || inflight.force then (c, .promise inflight.promise) else start
      | none => start

/-- What `evict` and `dispose` do to a state. -/
def RootState.invalidate (st : RootState) : RootState :=
  { generation := st.generation + 1, invalidated := true, snapshot := none, inflight := none }

/-- `evict` -/
def evict (c : Coordinator) (key : String) : Coordinator :=
  match c.roots.lookup key with
  | none => c
  | some r =>
    { c with
      states := Function.update c.states r (c.states r).invalidate
      roots := c.roots.erase key }

/-- `dispose` -/
def dispose (c : Coordinator) : Coordinator :=
  if c.disposed then c
  else
    { c with
      disposed := true
      lifecycleGeneration := c.lifecycleGeneration + 1
      states := c.roots.entries.foldl
        (fun states e => Function.update states e.2 (states e.2).invalidate) c.states
      roots := ∅ }

/-- `canCommit` -/
def canCommit (c : Coordinator) (p : Probe) : Bool :=
  !c.disposed && p.lifecycleGeneration == c.lifecycleGeneration &&
    !(c.states p.state).invalidated && c.roots.lookup p.key == some p.state &&
    (c.states p.state).generation == p.generation

/-- The snapshot that `finishProbe` makes of a result. -/
def snapshotOf (previous : Option CompatibilitySnapshot) (generation : ℕ)
    (result : Option HandshakeResult) (now : ℤ) : CompatibilitySnapshot :=
  match result, previous with
  | some result, _ => .confirmed result generation now
  | none, some (.confirmed previous _ _) =>
    if previous.compatibility ≠ .ok then .confirmed previous generation now
    else .unavailable generation now
  | none, _ => .unavailable generation now

/-- The promise of probe `i` is settled. -/
def settle (c : Coordinator) (i : ℕ) (how : Settled) : Coordinator :=
  { c with probes := c.probes.modify i fun p => { p with settled := some how } }

/-- The state `r` with a snapshot, and without the flight of its generation. -/
def commit (c : Coordinator) (p : Probe) (snapshot : CompatibilitySnapshot) : Coordinator :=
  let st := c.states p.state
  let inflight := st.inflight.filter fun inflight => inflight.generation != p.generation
  { c with
    states := Function.update c.states p.state { st with snapshot := some snapshot, inflight } }

/-- `finishProbe`, where probe `i` is under way. -/
def finishProbe (c : Coordinator) (i : ℕ) (result : Option HandshakeResult) (now : ℤ) :
    Option Coordinator :=
  match c.probes[i]? with
  | none => none
  | some p =>
    if p.settled.isSome then none
    else if c.canCommit p then
      let snapshot := snapshotOf (c.states p.state).snapshot p.generation result now
      some ((c.commit p snapshot).settle i (.fulfilled snapshot))
    else some (c.settle i .rejected)

/-- One step. -/
def step (ttlMs : ℕ) (c : Coordinator) : Event → Option Coordinator
  | .getOrProbe repoRoot key expectedEngineVersion force now =>
    some (c.getOrProbe ttlMs repoRoot key expectedEngineVersion force now).1
  | .evict key => some (c.evict key)
  | .dispose => some c.dispose
  | .finish i result now => c.finishProbe i result now

/-! ## The invariant -/

variable {c d : Coordinator} {i j r : ℕ} {k : String} {p q : Probe}

/-- The state of the probe is the one on record for its root. -/
def Live (c : Coordinator) (p : Probe) : Prop := c.roots.lookup p.key = some p.state

/-- Probe `i` is the last that started for the root. -/
def Latest (c : Coordinator) (i : ℕ) (key : String) : Prop :=
  ∀ (j : ℕ) (q : Probe), c.probes[j]? = some q → q.key = key → j ≤ i

/-- What the states on record know of the probes. -/
structure Inv (c : Coordinator) : Prop where
  closed : c.disposed = true → c.roots = ∅
  root : ∀ (k : String) (r : ℕ), c.roots.lookup k = some r →
    r < c.created ∧ (c.states r).invalidated = false
  one : ∀ (k k' : String) (r : ℕ), c.roots.lookup k = some r → c.roots.lookup k' = some r → k = k'
  probe : ∀ (i : ℕ) (p : Probe), c.probes[i]? = some p →
    p.state < c.created ∧ (c.disposed = false → p.lifecycleGeneration = c.lifecycleGeneration)
  bound : ∀ (i : ℕ) (p : Probe), c.probes[i]? = some p → c.Live p →
    p.generation ≤ (c.states p.state).generation
  order : ∀ (i j : ℕ) (p q : Probe), i < j → c.probes[i]? = some p → c.probes[j]? = some q →
    q.key = p.key → c.Live p → q.state = p.state ∧ p.generation < q.generation
  last : ∀ (i : ℕ) (p : Probe), c.probes[i]? = some p → c.Live p → c.Latest i p.key →
    p.generation = (c.states p.state).generation
  shown : ∀ (k : String) (r : ℕ) (snapshot : CompatibilitySnapshot), c.roots.lookup k = some r →
    (c.states r).snapshot = some snapshot → ∃ (i : ℕ) (p : Probe), c.probes[i]? = some p ∧
      p.key = k ∧ p.state = r ∧ p.generation = snapshot.generation ∧ p.settled.isSome

theorem inv_new : Inv {} := by
  refine ⟨fun _ => rfl, ?_, ?_, ?_, ?_, ?_, ?_, ?_⟩
  · intro k r h
    cases h
  · intro k k' r h
    cases h
  · intro i p h
    cases h
  · intro i p h
    cases h
  · intro i j p q _ h
    cases h
  · intro i p h
    cases h
  · intro k r snapshot h
    cases h

/-- Nothing is on record after `dispose`. -/
theorem Inv.disposed_eq_false (h : Inv c) (hk : c.roots.lookup k = some r) :
    c.disposed = false := by
  by_contra hd
  rw [h.closed (by simpa using hd), AList.lookup_empty] at hk
  cases hk

/-- A probe commits exactly if its state is on record and it is the latest of its root. -/
theorem Inv.canCommit_iff (h : Inv c) (hp : c.probes[i]? = some p) :
    c.canCommit p = true ↔ c.Live p ∧ c.Latest i p.key := by
  simp only [canCommit, Bool.and_eq_true, Bool.not_eq_true', beq_iff_eq]
  constructor
  · rintro ⟨⟨-, hlive⟩, hgen⟩
    refine ⟨hlive, fun j q hq hkey => ?_⟩
    by_contra hij
    obtain ⟨hstate, hlt⟩ := h.order i j p q (by omega) hp hq hkey hlive
    have hqlive : c.Live q := by
      unfold Live
      rw [hkey, hstate]
      exact hlive
    have hle := h.bound j q hq hqlive
    rw [hstate, hgen] at hle
    omega
  · rintro ⟨hlive, hlatest⟩
    have hd := h.disposed_eq_false hlive
    exact ⟨⟨⟨⟨hd, (h.probe i p hp).2 hd⟩, (h.root _ _ hlive).2⟩, hlive⟩,
      (h.last i p hp hlive hlatest).symm⟩

/-! ### The operations -/

theorem getElem?_settle {how : Settled} :
    (c.settle i how).probes[j]? = some q ↔
      ∃ p, c.probes[j]? = some p ∧ q = if i = j then { p with settled := some how } else p := by
  simp only [settle, List.getElem?_modify, Functor.map, Option.map]
  cases c.probes[j]? <;> simp [eq_comm]

theorem key_settle {how : Settled} (h : (c.settle i how).probes[j]? = some q) :
    ∃ p, c.probes[j]? = some p ∧ q.key = p.key ∧ q.state = p.state ∧
      q.generation = p.generation ∧ q.lifecycleGeneration = p.lifecycleGeneration ∧
      (p.settled.isSome → q.settled.isSome) := by
  obtain ⟨p, hp, rfl⟩ := getElem?_settle.1 h
  refine ⟨p, hp, ?_⟩
  split <;> simp

theorem latest_settle {how : Settled} : (c.settle i how).Latest j k ↔ c.Latest j k := by
  constructor
  · intro h j' p hp hkey
    refine h j' (if i = j' then { p with settled := some how } else p)
      (getElem?_settle.2 ⟨p, hp, rfl⟩) ?_
    split <;> exact hkey
  · intro h j' q hq hkey
    obtain ⟨p, hp, hk, -⟩ := key_settle hq
    exact h j' p hp (hk ▸ hkey)

theorem Inv.settle (h : Inv c) (i : ℕ) (how : Settled) : Inv (c.settle i how) := by
  refine ⟨h.closed, h.root, h.one, ?_, ?_, ?_, ?_, ?_⟩
  · intro j q hq
    obtain ⟨p, hp, -, hstate, -, hlife, -⟩ := key_settle hq
    exact ⟨hstate ▸ (h.probe j p hp).1, hlife ▸ (h.probe j p hp).2⟩
  · intro j q hq hlive
    obtain ⟨p, hp, hkey, hstate, hgen, -⟩ := key_settle hq
    unfold Live at hlive
    rw [hkey, hstate] at hlive
    rw [hgen, hstate]
    exact h.bound j p hp hlive
  · intro j j' q q' hlt hq hq' hk hlive
    obtain ⟨p, hp, hkey, hstate, hgen, -⟩ := key_settle hq
    obtain ⟨p', hp', hkey', hstate', hgen', -⟩ := key_settle hq'
    unfold Live at hlive
    rw [hkey, hstate] at hlive
    rw [hstate, hgen, hstate', hgen']
    exact h.order j j' p p' hlt hp hp' (hkey' ▸ hkey ▸ hk) hlive
  · intro j q hq hlive hlatest
    obtain ⟨p, hp, hkey, hstate, hgen, -⟩ := key_settle hq
    unfold Live at hlive
    rw [hkey, hstate] at hlive
    rw [hgen, hstate]
    exact h.last j p hp hlive (hkey ▸ latest_settle.1 hlatest)
  · intro k r snapshot hr hsnap
    obtain ⟨j, p, hp, hkey, hstate, hgen, hset⟩ := h.shown k r snapshot hr hsnap
    refine ⟨j, _, getElem?_settle.2 ⟨p, hp, rfl⟩, ?_⟩
    split
    · exact ⟨hkey, hstate, hgen, rfl⟩
    · exact ⟨hkey, hstate, hgen, hset⟩

theorem Inv.commit {snapshot : CompatibilitySnapshot} (h : Inv c) (hp : c.probes[i]? = some p)
    (hset : p.settled.isSome) (hlive : c.Live p) (hgen : snapshot.generation = p.generation) :
    Inv (c.commit p snapshot) := by
  have hgens : ∀ r, ((c.commit p snapshot).states r).generation = (c.states r).generation := by
    intro r
    by_cases hr : r = p.state
    · simp [Coordinator.commit, hr]
    · simp [Coordinator.commit, hr]
  have hinv : ∀ r, ((c.commit p snapshot).states r).invalidated = (c.states r).invalidated := by
    intro r
    by_cases hr : r = p.state
    · simp [Coordinator.commit, hr]
    · simp [Coordinator.commit, hr]
  refine ⟨h.closed, fun k r hr => ?_, h.one, h.probe, ?_, h.order, ?_, ?_⟩
  · rw [hinv]
    exact h.root k r hr
  · intro j q hq hl
    rw [hgens]
    exact h.bound j q hq hl
  · intro j q hq hl hlatest
    rw [hgens]
    exact h.last j q hq hl hlatest
  · intro k r shown hr hshown
    by_cases hstate : r = p.state
    · subst hstate
      simp only [Coordinator.commit, Function.update_self] at hshown
      cases hshown
      exact ⟨i, p, hp, (h.one k p.key _ hr hlive).symm, rfl, hgen.symm, hset⟩
    · simp only [Coordinator.commit, Function.update_of_ne hstate] at hshown
      exact h.shown k r shown hr hshown

/-- `stateFor` gives the state on record, or puts a new one on record. -/
theorem stateFor_cases (c : Coordinator) (k : String) :
    (∃ r, c.roots.lookup k = some r ∧ c.stateFor k = (c, r)) ∨
    (c.roots.lookup k = none ∧ c.stateFor k =
      ({ c with
          roots := c.roots.insert k c.created
          states := Function.update c.states c.created {}
          created := c.created + 1 }, c.created)) := by
  unfold stateFor
  cases h : c.roots.lookup k with
  | some r => exact Or.inl ⟨r, rfl, rfl⟩
  | none => exact Or.inr ⟨rfl, rfl⟩

/-- A new state is on record for its root, and no probe has been started in it. -/
theorem Inv.create (h : Inv c) (hd : c.disposed = false) (k : String) :
    Inv { c with
      roots := c.roots.insert k c.created
      states := Function.update c.states c.created {}
      created := c.created + 1 } := by
  have hold : ∀ k' r, (c.roots.insert k c.created).lookup k' = some r → r ≠ c.created →
      c.roots.lookup k' = some r := by
    intro k' r hr hne
    by_cases hkey : k' = k
    · rw [hkey, AList.lookup_insert] at hr
      exact absurd (Option.some.inj hr).symm hne
    · rwa [AList.lookup_insert_ne hkey] at hr
  have hnew : ∀ k', (c.roots.insert k c.created).lookup k' = some c.created → k' = k := by
    intro k' hr
    by_contra hkey
    rw [AList.lookup_insert_ne hkey] at hr
    exact lt_irrefl _ (h.root k' _ hr).1
  have hlive : ∀ (i : ℕ) (p : Probe), c.probes[i]? = some p →
      (c.roots.insert k c.created).lookup p.key = some p.state →
        c.Live p ∧ p.state ≠ c.created := by
    intro i p hp hl
    have hne : p.state ≠ c.created := ne_of_lt (h.probe i p hp).1
    exact ⟨hold _ _ hl hne, hne⟩
  refine ⟨?_, ?_, ?_, ?_, ?_, ?_, ?_, ?_⟩
  · intro hd'
    rw [hd] at hd'
    cases hd'
  · intro k' r hr
    by_cases hne : r = c.created
    · subst hne
      exact ⟨Nat.lt_succ_self _, by simp⟩
    · have hr' := h.root k' r (hold k' r hr hne)
      exact ⟨Nat.lt_succ_of_lt hr'.1, by simpa [Function.update_of_ne hne] using hr'.2⟩
  · intro k₁ k₂ r h₁ h₂
    by_cases hne : r = c.created
    · subst hne
      rw [hnew k₁ h₁, hnew k₂ h₂]
    · exact h.one k₁ k₂ r (hold k₁ r h₁ hne) (hold k₂ r h₂ hne)
  · intro i p hp
    exact ⟨Nat.lt_succ_of_lt (h.probe i p hp).1, (h.probe i p hp).2⟩
  · intro i p hp hl
    obtain ⟨hl, hne⟩ := hlive i p hp hl
    simpa [Function.update_of_ne hne] using h.bound i p hp hl
  · intro i j p q hlt hp hq hkey hl
    exact h.order i j p q hlt hp hq hkey (hlive i p hp hl).1
  · intro i p hp hl hlatest
    obtain ⟨hl, hne⟩ := hlive i p hp hl
    simpa [Function.update_of_ne hne] using h.last i p hp hl hlatest
  · intro k' r snapshot hr hsnap
    by_cases hne : r = c.created
    · subst hne
      simp at hsnap
    · simp only [Function.update_of_ne hne] at hsnap
      exact h.shown k' r snapshot (hold k' r hr hne) hsnap

/-- A probe starts in the state on record for its root. -/
theorem Inv.startProbe (h : Inv c) (hk : c.roots.lookup k = some r) (repoRoot : String)
    (expectedEngineVersion : Option String) (force : Bool) :
    Inv (c.startProbe k repoRoot expectedEngineVersion r force) := by
  set d := c.startProbe k repoRoot expectedEngineVersion r force with hd
  have hget : ∀ (i : ℕ) (p : Probe), d.probes[i]? = some p → c.probes[i]? = some p ∨
      (i = c.probes.length ∧ p.key = k ∧ p.state = r ∧
        p.generation = (c.states r).generation + 1 ∧
        p.lifecycleGeneration = c.lifecycleGeneration) := by
    intro i p hp
    rw [hd, Coordinator.startProbe, List.getElem?_append] at hp
    split at hp
    · exact Or.inl hp
    · rename_i hi
      obtain ⟨hlt, rfl⟩ := List.getElem?_eq_some_iff.1 hp
      simp only [List.length_singleton] at hlt
      exact Or.inr ⟨by omega, by simp, by simp, by simp, by simp⟩
  have hin : ∀ (i : ℕ) (p : Probe), c.probes[i]? = some p → d.probes[i]? = some p := by
    intro i p hp
    rw [hd, Coordinator.startProbe, List.getElem?_append_left (List.getElem?_eq_some_iff.1 hp).1]
    exact hp
  have hgen : ∀ r', (d.states r').generation =
      if r' = r then (c.states r).generation + 1 else (c.states r').generation := by
    intro r'
    by_cases hr : r' = r
    · simp [hd, Coordinator.startProbe, hr]
    · simp [hd, Coordinator.startProbe, hr]
  have hsame : ∀ r', (d.states r').invalidated = (c.states r').invalidated ∧
      (d.states r').snapshot = (c.states r').snapshot := by
    intro r'
    by_cases hr : r' = r
    · simp [hd, Coordinator.startProbe, hr]
    · simp [hd, Coordinator.startProbe, hr]
  have hlt : ∀ (i : ℕ) (p : Probe), c.probes[i]? = some p → i < c.probes.length :=
    fun i p hp => (List.getElem?_eq_some_iff.1 hp).1
  -- an earlier probe of the root in a state on record was started in this one
  have hstate : ∀ p, c.Live p → p.key = k → p.state = r := by
    intro p hl hkey
    unfold Live at hl
    rw [hkey, hk] at hl
    exact (Option.some.inj hl).symm
  refine ⟨h.closed, fun k' r' hr' => ?_, h.one, ?_, ?_, ?_, ?_, ?_⟩
  · rw [(hsame r').1]
    exact h.root k' r' hr'
  · intro i p hp
    obtain hp | ⟨-, -, hs, -, hlife⟩ := hget i p hp
    · exact h.probe i p hp
    · exact ⟨hs ▸ (h.root k r hk).1, fun _ => hlife⟩
  · intro i p hp hl
    rw [hgen]
    obtain hp | ⟨-, -, hs, hg, -⟩ := hget i p hp
    · have hle := h.bound i p hp hl
      split
      · rename_i hr
        rw [hr] at hle
        omega
      · exact hle
    · rw [if_pos hs, hg]
  · intro i j p q hij hp hq hkey hl
    obtain hp | ⟨hi, -⟩ := hget i p hp
    · obtain hq | ⟨-, hqk, hqs, hqg, -⟩ := hget j q hq
      · exact h.order i j p q hij hp hq hkey hl
      · have hpr : p.state = r := hstate p hl (hkey ▸ hqk)
        have hle := h.bound i p hp hl
        rw [hpr] at hle
        exact ⟨hqs.trans hpr.symm, by omega⟩
    · obtain hq | ⟨hj, -⟩ := hget j q hq
      · have := hlt j q hq
        omega
      · omega
  · intro i p hp hl hlatest
    rw [hgen]
    obtain hp | ⟨-, -, hs, hg, -⟩ := hget i p hp
    · split
      · -- the new probe is later
        rename_i hr
        have hkey : p.key = k := h.one p.key k r (hr ▸ hl) hk
        have hle := hlatest c.probes.length _ (by simp [hd, Coordinator.startProbe]; rfl)
          hkey.symm
        have := hlt i p hp
        omega
      · exact h.last i p hp hl fun j q hq => hlatest j q (hin j q hq)
    · rw [if_pos hs, hg]
  · intro k' r' snapshot hr' hsnap
    rw [(hsame r').2] at hsnap
    obtain ⟨i, p, hp, hrest⟩ := h.shown k' r' snapshot hr' hsnap
    exact ⟨i, p, hin i p hp, hrest⟩

theorem Inv.evict (h : Inv c) (k : String) : Inv (c.evict k) := by
  unfold Coordinator.evict
  cases hk : c.roots.lookup k with
  | none => exact h
  | some r =>
    dsimp only
    have hold : ∀ k' r', (c.roots.erase k).lookup k' = some r' →
        c.roots.lookup k' = some r' ∧ r' ≠ r := by
      intro k' r' hr'
      have hne : k' ≠ k := by
        rintro rfl
        rw [AList.lookup_erase] at hr'
        cases hr'
      rw [AList.lookup_erase_ne hne] at hr'
      refine ⟨hr', ?_⟩
      rintro rfl
      exact hne (h.one k' k _ hr' hk)
    refine ⟨?_, ?_, ?_, h.probe, ?_, ?_, ?_, ?_⟩
    · intro hd
      rw [h.closed hd, AList.lookup_empty] at hk
      cases hk
    · intro k' r' hr'
      obtain ⟨hr', hne⟩ := hold k' r' hr'
      simpa [Function.update_of_ne hne] using h.root k' r' hr'
    · exact fun k₁ k₂ r' h₁ h₂ => h.one k₁ k₂ r' (hold k₁ r' h₁).1 (hold k₂ r' h₂).1
    · intro i p hp hl
      obtain ⟨hl, hne⟩ := hold _ _ hl
      simpa [Function.update_of_ne hne] using h.bound i p hp hl
    · exact fun i j p q hlt hp hq hkey hl => h.order i j p q hlt hp hq hkey (hold _ _ hl).1
    · intro i p hp hl hlatest
      obtain ⟨hl, hne⟩ := hold _ _ hl
      simpa [Function.update_of_ne hne] using h.last i p hp hl hlatest
    · intro k' r' snapshot hr' hsnap
      obtain ⟨hr', hne⟩ := hold k' r' hr'
      simp only [Function.update_of_ne hne] at hsnap
      exact h.shown k' r' snapshot hr' hsnap

theorem Inv.dispose (h : Inv c) : Inv c.dispose := by
  unfold Coordinator.dispose
  by_cases hd : c.disposed = true
  · rw [if_pos hd]
    exact h
  rw [if_neg hd]
  have hnone : ∀ (k : String) (r : ℕ), (∅ : AList fun _ : String => ℕ).lookup k ≠ some r := by
    intro k r hr
    rw [AList.lookup_empty] at hr
    cases hr
  refine ⟨fun _ => rfl, ?_, ?_, ?_, ?_, ?_, ?_, ?_⟩
  · exact fun k r hr => absurd hr (hnone k r)
  · exact fun k k' r hr => absurd hr (hnone k r)
  · exact fun i p hp => ⟨(h.probe i p hp).1, fun hd' => by simp at hd'⟩
  · exact fun i p _ hl => absurd hl (hnone _ _)
  · exact fun i j p q _ _ _ _ hl => absurd hl (hnone _ _)
  · exact fun i p _ hl => absurd hl (hnone _ _)
  · exact fun k r snapshot hr => absurd hr (hnone k r)

/-! ### Steps -/

variable {ttlMs : ℕ} {e : Event}

/-- What `getOrProbe` does to the coordinator: nothing after `dispose`; else it puts a state on
    record where there is none, and may start a probe in the state on record. -/
theorem getOrProbe_cases (ttlMs : ℕ) (c : Coordinator) (repoRoot k : String)
    (expectedEngineVersion : Option String) (force : Bool) (now : ℤ) :
    (c.disposed = true ∧
      (c.getOrProbe ttlMs repoRoot k expectedEngineVersion force now).1 = c) ∨
    (c.disposed = false ∧
      ((c.getOrProbe ttlMs repoRoot k expectedEngineVersion force now).1 = (c.stateFor k).1 ∨
        (c.getOrProbe ttlMs repoRoot k expectedEngineVersion force now).1 =
          (c.stateFor k).1.startProbe k repoRoot expectedEngineVersion (c.stateFor k).2 force)) := by
  unfold getOrProbe
  by_cases hd : c.disposed = true
  · rw [if_pos hd]
    exact Or.inl ⟨hd, rfl⟩
  · rw [if_neg hd]
    refine Or.inr ⟨by simpa using hd, ?_⟩
    dsimp only
    split
    · exact Or.inl rfl
    · split
      · split
        · exact Or.inl rfl
        · exact Or.inr rfl
      · exact Or.inr rfl

theorem Inv.stateFor (h : Inv c) (hd : c.disposed = false) (k : String) :
    Inv (c.stateFor k).1 ∧ (c.stateFor k).1.roots.lookup k = some (c.stateFor k).2 := by
  obtain ⟨r, hr, heq⟩ | ⟨hnone, heq⟩ := stateFor_cases c k
  · rw [heq]
    exact ⟨h, hr⟩
  · rw [heq]
    exact ⟨h.create hd k, AList.lookup_insert _⟩

/-- What the end of probe `i` does. -/
theorem finishProbe_cases {result : Option HandshakeResult} {now : ℤ}
    (h : c.finishProbe i result now = some d) :
    ∃ p, c.probes[i]? = some p ∧ p.settled = none ∧
      ((c.canCommit p = true ∧ ∃ snapshot,
          snapshot = snapshotOf (c.states p.state).snapshot p.generation result now ∧
          d = (c.settle i (.fulfilled snapshot)).commit p snapshot) ∨
        (c.canCommit p = false ∧ d = c.settle i .rejected)) := by
  unfold finishProbe at h
  cases hp : c.probes[i]? with
  | none =>
    rw [hp] at h
    cases h
  | some p =>
    rw [hp] at h
    dsimp only at h
    refine ⟨p, rfl, ?_⟩
    cases hset : p.settled with
    | some how => simp [hset] at h
    | none =>
      simp only [hset, Option.isSome_none, Bool.false_eq_true, if_false] at h
      refine ⟨rfl, ?_⟩
      by_cases hc : c.canCommit p = true
      · rw [if_pos hc] at h
        exact Or.inl ⟨hc, _, rfl, (Option.some.inj h).symm⟩
      · rw [if_neg hc] at h
        exact Or.inr ⟨by simpa using hc, (Option.some.inj h).symm⟩

@[simp] theorem generation_snapshotOf (previous : Option CompatibilitySnapshot) (g : ℕ)
    (result : Option HandshakeResult) (now : ℤ) :
    (snapshotOf previous g result now).generation = g := by
  unfold snapshotOf
  split
  · rfl
  · split <;> rfl
  · rfl

/-- **Step lemma.** -/
theorem Inv.step (h : Inv c) (hstep : step ttlMs c e = some d) : Inv d := by
  cases e with
  | getOrProbe repoRoot k version force now =>
    obtain rfl := Option.some.inj hstep
    obtain ⟨-, heq⟩ | ⟨hd, hcases⟩ := getOrProbe_cases ttlMs c repoRoot k version force now
    · rw [heq]
      exact h
    · obtain ⟨hinv, hlookup⟩ := h.stateFor hd k
      obtain heq | heq := hcases
      · rw [heq]
        exact hinv
      · rw [heq]
        exact hinv.startProbe hlookup repoRoot version force
  | evict k =>
    obtain rfl := Option.some.inj hstep
    exact h.evict k
  | dispose =>
    obtain rfl := Option.some.inj hstep
    exact h.dispose
  | finish i result now =>
    obtain ⟨p, hp, -, ⟨hc, snapshot, hsnap, rfl⟩ | ⟨-, rfl⟩⟩ := finishProbe_cases hstep
    · obtain ⟨hlive, -⟩ := (h.canCommit_iff hp).1 hc
      have hget : (c.settle i (.fulfilled snapshot)).probes[i]? =
          some { p with settled := some (.fulfilled snapshot) } :=
        getElem?_settle.2 ⟨p, hp, (if_pos rfl).symm⟩
      have hgen : snapshot.generation = p.generation := by rw [hsnap, generation_snapshotOf]
      have hinv := (h.settle i (.fulfilled snapshot)).commit hget rfl hlive hgen
      exact hinv
    · exact h.settle i .rejected

theorem inv_of_run {as : List Event} (h : exec (Coordinator.step ttlMs) {} as = some c) : Inv c :=
  exec_preserves (fun _ _ _ hs hst => Inv.step hs hst) h inv_new

/-! ### What is on record -/

/-- The event invalidates what there is for the root. -/
def Event.Invalidates (key : String) : Event → Prop
  | .evict evicted => evicted = key
  | .dispose => True
  | _ => False

theorem lookup_stateFor (c : Coordinator) {k' : String} (hr : c.roots.lookup k' = some r) :
    (c.stateFor k).1.roots.lookup k' = some r := by
  obtain ⟨r', -, heq⟩ | ⟨hnone, heq⟩ := stateFor_cases c k
  · rw [heq]
    exact hr
  · rw [heq]
    have hne : k' ≠ k := by
      rintro rfl
      rw [hnone] at hr
      cases hr
    exact (AList.lookup_insert_ne hne).trans hr

/-- A state stays on record until it is invalidated. -/
theorem lookup_step (hstep : step ttlMs c e = some d) (he : ¬ e.Invalidates k)
    (hr : c.roots.lookup k = some r) : d.roots.lookup k = some r := by
  cases e with
  | getOrProbe repoRoot k' version force now =>
    obtain rfl := Option.some.inj hstep
    obtain ⟨-, heq⟩ | ⟨-, heq | heq⟩ := getOrProbe_cases ttlMs c repoRoot k' version force now
    · rw [heq]
      exact hr
    · rw [heq]
      exact lookup_stateFor c hr
    · rw [heq]
      exact lookup_stateFor c hr
  | evict k' =>
    obtain rfl := Option.some.inj hstep
    have hne : k ≠ k' := fun h => he h.symm
    unfold evict
    cases c.roots.lookup k' with
    | none => exact hr
    | some r' => exact (AList.lookup_erase_ne hne).trans hr
  | dispose => exact absurd trivial he
  | finish i result now =>
    obtain ⟨p, -, -, ⟨-, snapshot, -, rfl⟩ | ⟨-, rfl⟩⟩ := finishProbe_cases hstep
    · exact hr
    · exact hr

/-- After an invalidation nothing is on record for the root. -/
theorem Inv.lookup_invalidated (h : Inv c) (hstep : Coordinator.step ttlMs c e = some d)
    (he : e.Invalidates k) : d.roots.lookup k = none := by
  cases e with
  | getOrProbe => exact absurd he id
  | evict k' =>
    obtain rfl : k' = k := he
    obtain rfl := Option.some.inj hstep
    unfold Coordinator.evict
    cases hr : c.roots.lookup k' with
    | none => exact hr
    | some r => exact AList.lookup_erase k' c.roots
  | dispose =>
    obtain rfl := Option.some.inj hstep
    unfold Coordinator.dispose
    by_cases hd : c.disposed = true
    · rw [if_pos hd, h.closed hd]
      exact AList.lookup_empty k
    · rw [if_neg hd]
      exact AList.lookup_empty k
  | finish => exact absurd he id

/-- What a step does to a probe is to settle it. -/
theorem probes_step (hstep : step ttlMs c e = some d) (hp : c.probes[i]? = some p) :
    ∃ q, d.probes[i]? = some q ∧ q.key = p.key ∧ q.state = p.state := by
  have hstart : ∀ (c' : Coordinator) (k version : _) (repoRoot : String) (r : ℕ) (force : Bool),
      c'.probes = c.probes → (c'.startProbe k repoRoot version r force).probes[i]? = some p := by
    intro c' k version repoRoot r force hsame
    rw [startProbe, hsame, List.getElem?_append_left (List.getElem?_eq_some_iff.1 hp).1]
    exact hp
  have hstate : ∀ k, (c.stateFor k).1.probes = c.probes := by
    intro k
    obtain ⟨r, -, heq⟩ | ⟨-, heq⟩ := stateFor_cases c k
    · rw [heq]
    · rw [heq]
  have hsettle : ∀ how, ∀ l, ∃ q, (c.settle l how).probes[i]? = some q ∧ q.key = p.key ∧
      q.state = p.state := by
    intro how l
    refine ⟨_, getElem?_settle.2 ⟨p, hp, rfl⟩, ?_⟩
    split
    · exact ⟨rfl, rfl⟩
    · exact ⟨rfl, rfl⟩
  cases e with
  | getOrProbe repoRoot k version force now =>
    obtain rfl := Option.some.inj hstep
    obtain ⟨-, heq⟩ | ⟨-, heq | heq⟩ := getOrProbe_cases ttlMs c repoRoot k version force now
    · rw [heq]
      exact ⟨p, hp, rfl, rfl⟩
    · rw [heq, hstate]
      exact ⟨p, hp, rfl, rfl⟩
    · rw [heq]
      exact ⟨p, hstart _ k version repoRoot _ force (hstate k), rfl, rfl⟩
  | evict k =>
    obtain rfl := Option.some.inj hstep
    refine ⟨p, ?_, rfl, rfl⟩
    unfold evict
    cases c.roots.lookup k <;> exact hp
  | dispose =>
    obtain rfl := Option.some.inj hstep
    refine ⟨p, ?_, rfl, rfl⟩
    unfold dispose
    split <;> exact hp
  | finish l result now =>
    obtain ⟨p', -, -, ⟨-, snapshot, -, rfl⟩ | ⟨-, rfl⟩⟩ := finishProbe_cases hstep
    · exact hsettle _ l
    · exact hsettle _ l

theorem lookup_of_stateFor {k' : String} (hr : (c.stateFor k).1.roots.lookup k' = some r) :
    c.roots.lookup k' = some r ∨ r = c.created := by
  obtain ⟨r', -, heq⟩ | ⟨-, heq⟩ := stateFor_cases c k
  · rw [heq] at hr
    exact Or.inl hr
  · rw [heq] at hr
    by_cases hne : k' = k
    · rw [hne, AList.lookup_insert] at hr
      exact Or.inr (Option.some.inj hr).symm
    · rw [AList.lookup_insert_ne hne] at hr
      exact Or.inl hr

/-- A step puts only a new state on record. -/
theorem lookup_of_step (hstep : step ttlMs c e = some d) (hr : d.roots.lookup k = some r) :
    c.roots.lookup k = some r ∨ r = c.created := by
  cases e with
  | getOrProbe repoRoot k' version force now =>
    obtain rfl := Option.some.inj hstep
    obtain ⟨-, heq⟩ | ⟨-, heq | heq⟩ := getOrProbe_cases ttlMs c repoRoot k' version force now
    · rw [heq] at hr
      exact Or.inl hr
    · rw [heq] at hr
      exact lookup_of_stateFor hr
    · rw [heq] at hr
      exact lookup_of_stateFor hr
  | evict k' =>
    obtain rfl := Option.some.inj hstep
    unfold evict at hr
    cases hk : c.roots.lookup k' with
    | none =>
      rw [hk] at hr
      exact Or.inl hr
    | some r' =>
      rw [hk] at hr
      by_cases hne : k = k'
      · rw [hne, AList.lookup_erase] at hr
        cases hr
      · rw [AList.lookup_erase_ne hne] at hr
        exact Or.inl hr
  | dispose =>
    obtain rfl := Option.some.inj hstep
    unfold dispose at hr
    split at hr
    · exact Or.inl hr
    · rw [AList.lookup_empty] at hr
      cases hr
  | finish i result now =>
    obtain ⟨p, -, -, ⟨-, snapshot, -, rfl⟩ | ⟨-, rfl⟩⟩ := finishProbe_cases hstep
    · exact Or.inl hr
    · exact Or.inl hr

/-- A probe that starts does so in the state on record. -/
theorem Inv.live_of_start (h : Inv c) (hstep : Coordinator.step ttlMs c e = some d)
    (hq : d.probes[i]? = some q) (hi : c.probes.length ≤ i) : d.Live q := by
  have hold : c.probes[i]? ≠ some q := by
    rw [List.getElem?_eq_none hi]
    exact nofun
  have hstate : ∀ k, (c.stateFor k).1.probes = c.probes := by
    intro k
    obtain ⟨r, -, heq⟩ | ⟨-, heq⟩ := stateFor_cases c k
    · rw [heq]
    · rw [heq]
  have hsettle : ∀ how l, (c.settle l how).probes[i]? ≠ some q := by
    intro how l hq
    obtain ⟨p, hp, -⟩ := getElem?_settle.1 hq
    rw [List.getElem?_eq_none hi] at hp
    cases hp
  cases e with
  | getOrProbe repoRoot k version force now =>
    obtain rfl := Option.some.inj hstep
    obtain ⟨-, heq⟩ | ⟨hd, heq | heq⟩ := getOrProbe_cases ttlMs c repoRoot k version force now
    · rw [heq] at hq
      exact absurd hq hold
    · rw [heq, hstate] at hq
      exact absurd hq hold
    · rw [heq] at hq ⊢
      have hlookup := (h.stateFor hd k).2
      rw [Coordinator.startProbe, hstate, List.getElem?_append_right hi] at hq
      have hkey : q.key = k ∧ q.state = (c.stateFor k).2 := by
        obtain ⟨-, rfl⟩ := List.getElem?_eq_some_iff.1 hq
        simp
      unfold Live
      rw [hkey.1, hkey.2]
      exact hlookup
  | evict k =>
    obtain rfl := Option.some.inj hstep
    refine absurd ?_ hold
    unfold Coordinator.evict at hq
    cases hk : c.roots.lookup k with
    | none =>
      rw [hk] at hq
      exact hq
    | some r =>
      rw [hk] at hq
      exact hq
  | dispose =>
    obtain rfl := Option.some.inj hstep
    refine absurd ?_ hold
    unfold Coordinator.dispose at hq
    split at hq <;> exact hq
  | finish l result now =>
    obtain ⟨p, -, -, ⟨-, snapshot, -, rfl⟩ | ⟨-, rfl⟩⟩ := finishProbe_cases hstep
    · exact absurd hq (hsettle _ l)
    · exact absurd hq (hsettle _ l)

/-! ## Runs -/

/-- In the run, no event after the start of probe `i` has invalidated the root. -/
def NotInvalidatedSince (ttlMs : ℕ) (as : List Event) (i : ℕ) (key : String) : Prop :=
  ∀ bs e cs c, as = bs ++ e :: cs → exec (step ttlMs) {} bs = some c → i < c.probes.length →
    ¬ e.Invalidates key

theorem length_step (hstep : step ttlMs c e = some d) : c.probes.length ≤ d.probes.length := by
  by_contra hlt
  obtain ⟨q, hq, -⟩ := probes_step hstep (List.getElem?_eq_getElem (Nat.lt_of_not_le hlt))
  have := (List.getElem?_eq_some_iff.1 hq).1
  omega

theorem length_run {as : List Event} (h : exec (step ttlMs) c as = some d) :
    c.probes.length ≤ d.probes.length :=
  exec_preserves (fun _ _ _ hs hst => le_trans hs (length_step hst)) h le_rfl

theorem notInvalidatedSince_append {as : List Event} (h : exec (step ttlMs) {} as = some c) :
    NotInvalidatedSince ttlMs (as ++ [e]) i k ↔
      NotInvalidatedSince ttlMs as i k ∧ (i < c.probes.length → ¬ e.Invalidates k) := by
  constructor
  · intro hall
    refine ⟨fun bs a cs s heq hs hi => ?_, fun hi => hall as e [] c rfl h hi⟩
    exact hall bs a (cs ++ [e]) s (by rw [heq]; simp) hs hi
  · rintro ⟨hbefore, hlast⟩ bs a cs s heq hs hi
    obtain rfl | ⟨cs', z, rfl⟩ := cs.eq_nil_or_concat'
    · obtain ⟨rfl, hae⟩ := List.append_inj' heq rfl
      cases hae
      cases h.symm.trans hs
      exact hlast hi
    · have heq' : as ++ [e] = (bs ++ a :: cs') ++ [z] := by rw [heq]; simp
      obtain ⟨rfl, -⟩ := List.append_inj' heq' rfl
      exact hbefore bs a cs' s rfl hs hi

/-- **Run lemma.** The state of a probe is on record exactly if the root has not been invalidated
    since the probe started. -/
theorem live_iff {as : List Event} (h : exec (step ttlMs) {} as = some c)
    (hp : c.probes[i]? = some p) : c.Live p ↔ NotInvalidatedSince ttlMs as i p.key := by
  induction as using List.reverseRecOn generalizing c p with
  | nil =>
    obtain rfl := Option.some.inj h
    cases hp
  | append_singleton as e ih =>
    rw [exec_append_eq] at h
    obtain ⟨b, hb, hstep⟩ := Option.bind_eq_some_iff.1 h
    have hstep : step ttlMs b e = some c := by
      cases hs : step ttlMs b e with
      | none => simp [exec, hs] at hstep
      | some c' => simpa [exec, hs] using hstep
    have hinv := inv_of_run hb
    rw [notInvalidatedSince_append hb]
    by_cases hi : i < b.probes.length
    · obtain ⟨p₀, hp₀⟩ : ∃ p₀, b.probes[i]? = some p₀ := ⟨_, List.getElem?_eq_getElem hi⟩
      obtain ⟨q, hq, hkey, hstate⟩ := probes_step hstep hp₀
      obtain rfl : q = p := Option.some.inj (hq.symm.trans hp)
      have hlive : c.Live q ↔ c.roots.lookup p₀.key = some p₀.state := by
        rw [Live, hkey, hstate]
      rw [hlive, hkey, ← ih hb hp₀]
      constructor
      · intro hl
        obtain hl' | hnew := lookup_of_step hstep hl
        · refine ⟨hl', fun _ he => ?_⟩
          rw [hinv.lookup_invalidated hstep he] at hl
          cases hl
        · have := (hinv.probe i p₀ hp₀).1
          omega
      · rintro ⟨hl, he⟩
        exact lookup_step hstep (he hi) hl
    · refine ⟨fun _ => ⟨fun bs a cs s heq hs hi' => ?_, fun hi' => absurd hi' hi⟩,
        fun _ => hinv.live_of_start hstep hp (by omega)⟩
      -- there were no more probes before
      have hlen : s.probes.length ≤ b.probes.length := by
        rw [heq, exec_append_eq, hs] at hb
        exact length_run hb
      omega

/-! ## The latest probe wins -/

/-- In the step, probe `i` of the root is fulfilled with the snapshot. -/
def Commits (c : Coordinator) (e : Event) (d : Coordinator) (i : ℕ) (key : String)
    (snapshot : CompatibilitySnapshot) : Prop :=
  (∃ result now, e = .finish i result now) ∧ (∃ p, c.probes[i]? = some p ∧ p.key = key) ∧
    ∃ q, d.probes[i]? = some q ∧ q.settled = some (.fulfilled snapshot)

/-- What a step does, after a run. -/
structure LatestWins (ttlMs : ℕ) (as : List Event) (c : Coordinator) (e : Event)
    (d : Coordinator) : Prop where
  /-- the end of a probe commits exactly if the probe is the latest of its root, and the root has
      not been invalidated since -/
  commits_iff : ∀ (i : ℕ) (p : Probe) (result : Option HandshakeResult) (now : ℤ),
    e = .finish i result now → c.probes[i]? = some p →
      ((∃ snapshot, Commits c e d i p.key snapshot) ↔
        c.Latest i p.key ∧ NotInvalidatedSince ttlMs as i p.key)
  /-- else its promise is rejected, and that is all -/
  rejects : ∀ (i : ℕ) (p : Probe) (result : Option HandshakeResult) (now : ℤ),
    e = .finish i result now → c.probes[i]? = some p →
      ¬ (c.Latest i p.key ∧ NotInvalidatedSince ttlMs as i p.key) → d = c.settle i .rejected
  shows : ∀ i k snapshot, Commits c e d i k snapshot → d.peek k = some snapshot
  kept : ∀ k, ¬ e.Invalidates k → (∀ i snapshot, ¬ Commits c e d i k snapshot) →
    d.peek k = c.peek k
  cleared : ∀ k, e.Invalidates k → d.peek k = none
  /-- after an earlier commit for the root in the run, with no `evict` of it since -/
  increasing : ∀ (bs : List Event) (a : Event) (cs : List Event) (c₁ d₁ : Coordinator) (i j : ℕ)
    (k : String) (earlier later : CompatibilitySnapshot), as = bs ++ a :: cs →
      exec (step ttlMs) {} bs = some c₁ → step ttlMs c₁ a = some d₁ →
      Commits c₁ a d₁ i k earlier → (∀ x ∈ cs, x ≠ .evict k) →
      Commits c e d j k later → earlier.generation < later.generation
  /-- a mismatch is kept, renewed by a probe without a result, or replaced by a new verdict -/
  mismatch : ∀ (k : String) (result : HandshakeResult) (g : ℕ) (t : ℤ),
    c.peek k = some (.confirmed result g t) → result.compatibility ≠ .ok → ¬ e.Invalidates k →
      d.peek k = c.peek k ∨ ∃ (i : ℕ) (verdict : Option HandshakeResult) (now : ℤ) (g' : ℕ),
        e = .finish i verdict now ∧ g < g' ∧
          d.peek k = some (.confirmed (verdict.getD result) g' now)

/-- The snapshot on record is older than an unsettled probe that may commit. -/
theorem Inv.generation_lt {old : CompatibilitySnapshot} (h : Inv c) (hp : c.probes[i]? = some p)
    (hset : p.settled = none) (hlive : c.Live p) (hlatest : c.Latest i p.key)
    (hold : c.peek p.key = some old) : old.generation < p.generation := by
  unfold peek at hold
  rw [hlive, Option.bind_some] at hold
  obtain ⟨j, q, hq, hkey, hstate, hgen, hsome⟩ := h.shown _ _ _ hlive hold
  have hne : j ≠ i := by
    rintro rfl
    obtain rfl : p = q := Option.some.inj (hp.symm.trans hq)
    simp [hset] at hsome
  have hlt : j < i := lt_of_le_of_ne (hlatest j q hq hkey) hne
  have hql : c.Live q := by
    unfold Live
    rw [hkey, hstate]
    exact hlive
  rw [← hgen]
  exact (h.order j i q p hlt hq hp hkey.symm hql).2

theorem Inv.peek_commit {snapshot : CompatibilitySnapshot} (h : Inv c) (hlive : c.Live p)
    (k : String) :
    (c.commit p snapshot).peek k = if k = p.key then some snapshot else c.peek k := by
  unfold peek
  by_cases hk : k = p.key
  · rw [if_pos hk, hk, Coordinator.commit]
    dsimp only
    rw [hlive, Option.bind_some, Function.update_self]
  · rw [if_neg hk, Coordinator.commit]
    dsimp only
    cases hr : c.roots.lookup k with
    | none => rfl
    | some r =>
      have hne : r ≠ p.state := by
        rintro rfl
        exact hk (h.one k p.key _ hr hlive)
      rw [Option.bind_some, Option.bind_some, Function.update_of_ne hne]

theorem Inv.peek_stateFor (h : Inv c) (k k' : String) :
    (c.stateFor k).1.peek k' = c.peek k' := by
  obtain ⟨r, -, heq⟩ | ⟨hnone, heq⟩ := stateFor_cases c k
  · rw [heq]
  rw [heq]
  unfold peek
  dsimp only
  by_cases hk : k' = k
  · rw [hk, AList.lookup_insert, hnone, Option.bind_some, Function.update_self, Option.bind_none]
  · rw [AList.lookup_insert_ne hk]
    cases hr : c.roots.lookup k' with
    | none => rfl
    | some r =>
      have hne : r ≠ c.created := ne_of_lt (h.root k' r hr).1
      rw [Option.bind_some, Option.bind_some, Function.update_of_ne hne]

theorem peek_startProbe (c : Coordinator) (k repoRoot : String) (version : Option String) (r : ℕ)
    (force : Bool) (k' : String) :
    (c.startProbe k repoRoot version r force).peek k' = c.peek k' := by
  unfold peek startProbe
  dsimp only
  cases c.roots.lookup k' with
  | none => rfl
  | some r' =>
    by_cases hr : r' = r
    · rw [hr, Option.bind_some, Option.bind_some, Function.update_self]
    · rw [Option.bind_some, Option.bind_some, Function.update_of_ne hr]

theorem Inv.peek_evict (h : Inv c) {k k' : String} (hk : k' ≠ k) :
    (c.evict k).peek k' = c.peek k' := by
  unfold Coordinator.evict
  cases hr : c.roots.lookup k with
  | none => rfl
  | some r =>
    unfold peek
    dsimp only
    rw [AList.lookup_erase_ne hk]
    cases hr' : c.roots.lookup k' with
    | none => rfl
    | some r' =>
      have hne : r' ≠ r := by
        rintro rfl
        exact hk (h.one k' k _ hr' hr)
      rw [Option.bind_some, Option.bind_some, Function.update_of_ne hne]

/-- The end of a probe, by what is on record. -/
theorem Inv.finish_cases (h : Inv c) (hp : c.probes[i]? = some p)
    {result : Option HandshakeResult} {now : ℤ}
    (hstep : Coordinator.step ttlMs c (.finish i result now) = some d) :
    (c.Live p ∧ c.Latest i p.key ∧ p.settled = none ∧ ∃ snapshot,
        snapshot = snapshotOf (c.peek p.key) p.generation result now ∧
        d = (c.settle i (.fulfilled snapshot)).commit p snapshot) ∨
      (¬ (c.Live p ∧ c.Latest i p.key) ∧ d = c.settle i .rejected) := by
  obtain ⟨p', hp', hset, hcases⟩ := finishProbe_cases hstep
  obtain rfl : p = p' := Option.some.inj (hp.symm.trans hp')
  obtain ⟨hc, snapshot, hsnap, hd⟩ | ⟨hc, hd⟩ := hcases
  · obtain ⟨hlive, hlatest⟩ := (h.canCommit_iff hp).1 hc
    refine Or.inl ⟨hlive, hlatest, hset, snapshot, ?_, hd⟩
    rw [hsnap, peek, hlive, Option.bind_some]
  · refine Or.inr ⟨fun hboth => ?_, hd⟩
    rw [(h.canCommit_iff hp).2 hboth] at hc
    cases hc

/-- A commit, by what is on record. -/
theorem Inv.commits_iff (h : Inv c) (hstep : Coordinator.step ttlMs c e = some d)
    {snapshot : CompatibilitySnapshot} :
    Commits c e d i k snapshot ↔ ∃ p result now, e = .finish i result now ∧
      c.probes[i]? = some p ∧ p.key = k ∧ p.settled = none ∧ c.Live p ∧ c.Latest i k ∧
      snapshot = snapshotOf (c.peek k) p.generation result now ∧
      d = (c.settle i (.fulfilled snapshot)).commit p snapshot := by
  constructor
  · rintro ⟨⟨result, now, rfl⟩, ⟨p, hp, rfl⟩, q, hq, hset⟩
    obtain ⟨hlive, hlatest, hnone, shown, hsnap, hd⟩ | ⟨-, hd⟩ := h.finish_cases hp hstep
    · have hget : d.probes[i]? = some { p with settled := some (.fulfilled shown) } := by
        rw [hd]
        exact getElem?_settle.2 ⟨p, hp, (if_pos rfl).symm⟩
      obtain rfl := Option.some.inj (hget.symm.trans hq)
      cases hset
      exact ⟨p, result, now, rfl, hp, rfl, hnone, hlive, hlatest, hsnap, hd⟩
    · rw [hd, getElem?_settle] at hq
      obtain ⟨p', -, rfl⟩ := hq
      rw [if_pos rfl] at hset
      cases hset
  · rintro ⟨p, result, now, rfl, hp, hkey, -, -, -, -, rfl⟩
    exact ⟨⟨result, now, rfl⟩, ⟨p, hp, hkey⟩, _, getElem?_settle.2 ⟨p, hp, (if_pos rfl).symm⟩, rfl⟩

/-- A commit shows its snapshot, which is newer than the one before. -/
theorem Inv.peek_of_commits (h : Inv c) (hstep : Coordinator.step ttlMs c e = some d)
    {snapshot : CompatibilitySnapshot} (hc : Commits c e d i k snapshot) :
    d.peek k = some snapshot ∧
      ∀ old, c.peek k = some old → old.generation < snapshot.generation := by
  obtain ⟨p, result, now, rfl, hp, rfl, hset, hlive, hlatest, hsnap, rfl⟩ :=
    (h.commits_iff hstep).1 hc
  constructor
  · rw [(h.settle i (.fulfilled snapshot)).peek_commit hlive, if_pos rfl]
  · intro old hold
    rw [hsnap, generation_snapshotOf]
    exact h.generation_lt hp hset hlive hlatest hold

/-- Only an invalidation and a commit change what is on record for a root. -/
theorem Inv.peek_step (h : Inv c) (hstep : Coordinator.step ttlMs c e = some d)
    (he : ¬ e.Invalidates k) (hno : ∀ i snapshot, ¬ Commits c e d i k snapshot) :
    d.peek k = c.peek k := by
  cases e with
  | getOrProbe repoRoot k' version force now =>
    obtain rfl := Option.some.inj hstep
    obtain ⟨-, heq⟩ | ⟨-, heq | heq⟩ := getOrProbe_cases ttlMs c repoRoot k' version force now
    · rw [heq]
    · rw [heq, h.peek_stateFor]
    · rw [heq, peek_startProbe, h.peek_stateFor]
  | evict k' =>
    obtain rfl := Option.some.inj hstep
    exact h.peek_evict fun hk => he hk.symm
  | dispose => exact absurd trivial he
  | finish i result now =>
    obtain ⟨p, hp, -⟩ := finishProbe_cases hstep
    obtain ⟨hlive, hlatest, hset, snapshot, hsnap, hd⟩ | ⟨-, hd⟩ := h.finish_cases hp hstep
    · have hk : k ≠ p.key := by
        rintro rfl
        exact hno i snapshot ((h.commits_iff hstep).2
          ⟨p, result, now, rfl, hp, rfl, hset, hlive, hlatest, hsnap, hd⟩)
      rw [hd, (h.settle i (.fulfilled snapshot)).peek_commit hlive, if_neg hk]
      rfl
    · rw [hd]
      rfl

/-- A snapshot stays on record until a newer one is, or the root is invalidated. -/
theorem Inv.peek_newer (h : Inv c) (hstep : Coordinator.step ttlMs c e = some d)
    (he : ¬ e.Invalidates k) {old : CompatibilitySnapshot} (hold : c.peek k = some old) :
    ∃ new, d.peek k = some new ∧ old.generation ≤ new.generation := by
  by_cases hc : ∃ i snapshot, Commits c e d i k snapshot
  · obtain ⟨i, snapshot, hc⟩ := hc
    obtain ⟨hpeek, hlt⟩ := h.peek_of_commits hstep hc
    exact ⟨snapshot, hpeek, le_of_lt (hlt old hold)⟩
  · have hno : ∀ i snapshot, ¬ Commits c e d i k snapshot :=
      fun i snapshot hi => hc ⟨i, snapshot, hi⟩
    exact ⟨old, (h.peek_step hstep he hno).trans hold, le_rfl⟩

/-- There is no way back from `dispose`. -/
theorem disposed_step (hstep : step ttlMs c e = some d) (h : c.disposed = true ∨ e = .dispose) :
    d.disposed = true := by
  cases e with
  | getOrProbe repoRoot k version force now =>
    obtain rfl := Option.some.inj hstep
    obtain hd | he := h
    · obtain ⟨-, heq⟩ | ⟨hd', -⟩ := getOrProbe_cases ttlMs c repoRoot k version force now
      · rw [heq, hd]
      · rw [hd] at hd'
        cases hd'
    · cases he
  | evict k =>
    obtain rfl := Option.some.inj hstep
    obtain hd | he := h
    · unfold evict
      split <;> exact hd
    · cases he
  | dispose =>
    obtain rfl := Option.some.inj hstep
    unfold dispose
    split
    · assumption
    · rfl
  | finish i result now =>
    obtain hd | he := h
    · obtain ⟨p, -, -, ⟨-, snapshot, -, rfl⟩ | ⟨-, rfl⟩⟩ := finishProbe_cases hstep
      · exact hd
      · exact hd
    · cases he

/-- A confirmed mismatch after the end of a probe of its root. -/
theorem snapshotOf_mismatch {result : HandshakeResult} (hbad : result.compatibility ≠ .ok)
    (g g' : ℕ) (t now : ℤ) (verdict : Option HandshakeResult) :
    snapshotOf (some (.confirmed result g t)) g' verdict now =
      .confirmed (verdict.getD result) g' now := by
  cases verdict with
  | some verdict => rfl
  | none => exact if_pos hbad

theorem latestWins {as : List Event} (hrun : exec (step ttlMs) {} as = some c)
    (hstep : step ttlMs c e = some d) : LatestWins ttlMs as c e d := by
  have h : Inv c := inv_of_run hrun
  have hcond : ∀ (i : ℕ) (p : Probe), c.probes[i]? = some p →
      (c.Latest i p.key ∧ NotInvalidatedSince ttlMs as i p.key ↔ c.Live p ∧ c.Latest i p.key) := by
    intro i p hp
    rw [live_iff hrun hp, and_comm]
  refine ⟨?_, ?_, ?_, ?_, ?_, ?_, ?_⟩
  · rintro i p result now rfl hp
    rw [hcond i p hp]
    constructor
    · rintro ⟨snapshot, hc⟩
      obtain ⟨p', -, -, -, hp', -, -, hlive, hlatest, -⟩ := (h.commits_iff hstep).1 hc
      obtain rfl : p = p' := Option.some.inj (hp.symm.trans hp')
      exact ⟨hlive, hlatest⟩
    · intro hboth
      obtain ⟨hlive, hlatest, hset, snapshot, hsnap, hd⟩ | ⟨hno, -⟩ := h.finish_cases hp hstep
      · exact ⟨snapshot, (h.commits_iff hstep).2
          ⟨p, result, now, rfl, hp, rfl, hset, hlive, hlatest, hsnap, hd⟩⟩
      · exact absurd hboth hno
  · rintro i p result now rfl hp hno
    rw [hcond i p hp] at hno
    obtain ⟨hlive, hlatest, -⟩ | ⟨-, hd⟩ := h.finish_cases hp hstep
    · exact absurd ⟨hlive, hlatest⟩ hno
    · exact hd
  · exact fun i k snapshot hc => (h.peek_of_commits hstep hc).1
  · exact fun k he hno => h.peek_step hstep he hno
  · intro k he
    rw [peek, h.lookup_invalidated hstep he]
    rfl
  · intro bs a cs c₁ d₁ i j k earlier later heq hbs ha hfirst hbetween hsecond
    have hinv₁ : Inv d₁ := (inv_of_run hbs).step ha
    have hcs : exec (step ttlMs) d₁ cs = some c := by
      rw [heq, exec_append_eq, hbs] at hrun
      simpa [exec, ha] using hrun
    -- the earlier snapshot is on record until a newer one is, or nothing is
    have hkept : c.disposed = true ∨
        (Inv c ∧ ∃ old, c.peek k = some old ∧ earlier.generation ≤ old.generation) := by
      refine exec_invariant (I := fun s => s.disposed = true ∨
          (Inv s ∧ ∃ old, s.peek k = some old ∧ earlier.generation ≤ old.generation)) ?_ hcs
        (always_of_forall hbetween d₁)
        (Or.inr ⟨hinv₁, earlier, ((inv_of_run hbs).peek_of_commits ha hfirst).1, le_rfl⟩)
      rintro s x t (hd | ⟨hs, old, hold, hle⟩) hx hst
      · exact Or.inl (disposed_step hst (Or.inl hd))
      by_cases hdispose : x = .dispose
      · exact Or.inl (disposed_step hst (Or.inr hdispose))
      · have hnot : ¬ x.Invalidates k := by
          cases x with
          | evict k' => exact fun hk => hx (congrArg Event.evict hk)
          | dispose => exact absurd rfl hdispose
          | getOrProbe => exact id
          | finish => exact id
        obtain ⟨new, hnew, hle'⟩ := hs.peek_newer hst hnot hold
        exact Or.inr ⟨hs.step hst, new, hnew, le_trans hle hle'⟩
    obtain hd | ⟨-, old, hold, hle⟩ := hkept
    · obtain ⟨p, -, -, -, -, -, -, hlive, -⟩ := (h.commits_iff hstep).1 hsecond
      rw [h.disposed_eq_false hlive] at hd
      cases hd
    · exact lt_of_le_of_lt hle ((h.peek_of_commits hstep hsecond).2 old hold)
  · intro k result g t hpeek hbad he
    by_cases hc : ∃ i snapshot, Commits c e d i k snapshot
    · obtain ⟨i, snapshot, hc⟩ := hc
      obtain ⟨hshown, hlt⟩ := h.peek_of_commits hstep hc
      obtain ⟨p, verdict, now, he', -, -, -, -, -, hsnap, -⟩ := (h.commits_iff hstep).1 hc
      rw [hpeek, snapshotOf_mismatch hbad] at hsnap
      refine Or.inr ⟨i, verdict, now, p.generation, he', ?_, by rw [hshown, hsnap]⟩
      have hlt := hlt _ hpeek
      rwa [hsnap] at hlt
    · exact Or.inl (h.peek_step hstep he fun i snapshot hi => hc ⟨i, snapshot, hi⟩)

/-- A forced probe supersedes a normal one and finds an outdated engine; then the normal one
    ends. -/
theorem latestWins_superseded :
    ∃ c d, exec (step 30000) {} [.getOrProbe "/repo" "/repo" none false 0,
        .getOrProbe "/repo" "/repo" none true 1,
        .finish 1 (some { compatibility := .engineOutdated, expectedContractVersion := 1,
                          usable := true }) 2] = some c ∧
      step 30000 c (.finish 0 none 3) = some d ∧
      LatestWins 30000 [.getOrProbe "/repo" "/repo" none false 0,
        .getOrProbe "/repo" "/repo" none true 1,
        .finish 1 (some { compatibility := .engineOutdated, expectedContractVersion := 1,
                          usable := true }) 2] c (.finish 0 none 3) d :=
  ⟨_, _, rfl, rfl, latestWins rfl rfl⟩

end Coordinator

end Cognis.Extension
