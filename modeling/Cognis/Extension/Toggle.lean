/-
  The toggle of the extension (`toggle.ts`): one binary control for each canonical workspace,
  with at most one run that counts.

  A `set` starts a run and goes on when the run ends, in whatever order the runs end. What it
  does then depends on the slot of the workspace at that time, which a later `set` or a
  `reopen` may have changed.

  * `Toggle.step` is one call or the end of one run;
  * `converged_of_run`: in every run of the system in which no run is rejected that has not
    been aborted, the control is settled whenever no run is under way;
  * `isTransitioning_of_rejected`: a run that is rejected without an abort leaves the control in
    transition, and the same `set` again does nothing.
-/
import Cognis.Lib.Transition
import Mathlib.Data.List.DropRight
import Mathlib.Logic.Function.Basic

namespace Cognis.Extension

/-! ## The workspace -/

/-- `toggleWorkspaceKey`; `canonical` gives the canonical path of a spelling that exists. -/
def toggleWorkspaceKey (canonical : List Char → Option (List Char))
    (toLowerCase : List Char → List Char) (spelling : List Char) : List Char :=
  let unc := ['\\', '\\', '?', '\\', 'U', 'N', 'C', '\\']
  let verbatim := ['\\', '\\', '?', '\\']
  let stripped :=
    if (spelling.take 8).map Char.toUpper = unc then ['\\', '\\'] ++ spelling.drop 8 else spelling
  let stripped := if verbatim.isPrefixOf stripped then stripped.drop 4 else stripped
  match canonical stripped with
  | some path => path
  | none =>
    toLowerCase ((stripped.map fun c => if c = '\\' then '/' else c).rdropWhile (· = '/'))

/-! ## The control -/

/-- `ToggleState` -/
inductive ToggleState where
  | on | off
  deriving DecidableEq, Repr

namespace Toggle

/-- `ToggleSlot`; a controller is named by the run it belongs to. -/
structure Slot where
  persisted : ToggleState
  inFlight : Option ToggleState := none
  controller : Option ℕ := none
  generation : ℕ := 0

/-- A call of `activate` or `deactivate`, for a `set` that waits for it. -/
structure Run (Key : Type) where
  key : Key
  value : ToggleState
  generation : ℕ
  aborted : Bool := false
  /-- whether it has completed or been rejected, once it has ended -/
  outcome : Option Bool := none

/-- The control, the storage and all runs so far. -/
structure State (Key : Type) where
  slots : Key → Option Slot
  /-- the entries of the stored map that are toggle states -/
  stored : Key → Option ToggleState
  runs : List (Run Key) := []

/-- What happens: a call, or the end of a run. -/
inductive Event (Spelling : Type) where
  | set (workspace : Spelling) (value : ToggleState)
  | reopen (workspace : Spelling)
  | finish (run : ℕ) (completes : Bool)

variable {Spelling Key : Type}

/-- `readPersisted` -/
def readPersisted (stored : Key → Option ToggleState) (k : Key) : ToggleState :=
  (stored k).getD .off

/-- `hydrateFromStorage` of a new control. -/
def State.init (stored : Key → Option ToggleState) : State Key where
  slots k := (stored k).map fun v => { persisted := v }
  stored := stored

/-- `slot`, which creates it where there is none. -/
def State.slot (s : State Key) (k : Key) : Slot :=
  (s.slots k).getD { persisted := readPersisted s.stored k }

/-- `controller?.abort()` -/
def abort (runs : List (Run Key)) (controller : Option ℕ) : List (Run Key) :=
  match controller with
  | none => runs
  | some i => runs.modify i fun r => { r with aborted := true }

section
variable [DecidableEq Key] (key : Spelling → Key)

/-- The state with a slot. -/
def State.put (s : State Key) (k : Key) (slot : Slot) : State Key :=
  { s with slots := Function.update s.slots k (some slot) }

/-- `set`, up to the wait for the run. -/
def State.set (s : State Key) (workspace : Spelling) (value : ToggleState) : State Key :=
  let k := key workspace
  let slot := s.slot k
  if slot.inFlight = none ∧ slot.persisted = value then s.put k slot
  else if slot.inFlight = some value then s.put k slot
  else
    let generation := slot.generation + 1
    { s.put k ⟨slot.persisted, some value, some s.runs.length, generation⟩ with
      runs := abort s.runs slot.controller ++ [{ key := k, value, generation }] }

/-- `reopen` -/
def State.reopen (s : State Key) (workspace : Spelling) : State Key :=
  let k := key workspace
  let slot := s.slot k
  { s.put k ⟨slot.persisted, none, none, slot.generation + 1⟩ with
    runs := abort s.runs slot.controller }

/-- The rest of `set`, with `writePersisted`, after its run has ended. An error is dropped or
    thrown, and the slot stays as it is. -/
def State.finish (s : State Key) (i : ℕ) (completes : Bool) : Option (State Key) :=
  match s.runs[i]? with
  | none => none
  | some r =>
    if r.outcome.isSome then none
    else
      let s := { s with runs := s.runs.modify i fun r => { r with outcome := some completes } }
      let slot := s.slot r.key
      if completes ∧ slot.generation = r.generation then
        some { s.put r.key ⟨r.value, none, none, slot.generation⟩ with
          stored := Function.update s.stored r.key (some r.value) }
      else some s

/-- One step. -/
def step (s : State Key) : Event Spelling → Option (State Key)
  | .set workspace value => some (s.set key workspace value)
  | .reopen workspace => some (s.reopen key workspace)
  | .finish i completes => s.finish i completes

end

/-- `displayed` -/
def displayed (key : Spelling → Key) (s : State Key) (workspace : Spelling) : ToggleState :=
  (s.slot (key workspace)).inFlight.getD (s.slot (key workspace)).persisted

/-- `persisted` -/
def persisted (key : Spelling → Key) (s : State Key) (workspace : Spelling) : ToggleState :=
  (s.slot (key workspace)).persisted

/-- `isTransitioning` -/
def isTransitioning (key : Spelling → Key) (s : State Key) (workspace : Spelling) : Bool :=
  (s.slot (key workspace)).inFlight.isSome

/-! ## The invariant -/

/-- The run is under way and has not been aborted. -/
def Run.Active (r : Run Key) : Prop := r.aborted = false ∧ r.outcome = none

/-- Run `i` belongs to workspace `k`, with the record `r`. -/
def State.HasRun (s : State Key) (k : Key) (i : ℕ) (r : Run Key) : Prop :=
  s.runs[i]? = some r ∧ r.key = k

/-- Run `i` is that of the last accepted `set` of its workspace. -/
def State.IsLast (s : State Key) (k : Key) (i : ℕ) : Prop := ∀ j r, s.HasRun k j r → j ≤ i

/-- The slot of a workspace keeps track of its one active run. -/
structure SlotInv (s : State Key) (k : Key) : Prop where
  mono : ∀ i j r r', s.HasRun k i r → s.HasRun k j r' → i < j → r.generation < r'.generation
  bound : ∀ i r, s.HasRun k i r → r.generation ≤ (s.slot k).generation
  aborted : ∀ i r, s.HasRun k i r → r.aborted = true → r.generation < (s.slot k).generation
  active : ∀ i r, s.HasRun k i r → r.Active →
    (s.slot k).controller = some i ∧ (s.slot k).inFlight = some r.value ∧
      r.generation = (s.slot k).generation
  controller : ∀ i, (s.slot k).controller = some i → ∃ r, s.HasRun k i r ∧ r.Active
  inFlight : (s.slot k).inFlight.isSome = (s.slot k).controller.isSome
  persisted : (s.slot k).persisted = readPersisted s.stored k
  asked : ∀ i r, s.HasRun k i r → s.IsLast k i → r.outcome = some true → r.aborted = false →
    (s.slot k).persisted = r.value

/-- Each workspace has its invariant. -/
def Inv (s : State Key) : Prop := ∀ k, SlotInv s k

theorem inv_init (stored : Key → Option ToggleState) : Inv (State.init stored) := by
  intro k
  have hslot : (State.init stored).slot k = { persisted := readPersisted stored k } := by
    cases h : stored k <;> simp [State.init, State.slot, readPersisted, h]
  have hrun : ∀ i r, ¬ (State.init stored).HasRun k i r := by
    intro i r h
    cases h.1
  refine ⟨?_, ?_, ?_, ?_, ?_, ?_, ?_, ?_⟩
  · exact fun i _ r _ h => absurd h (hrun i r)
  · exact fun i r h => absurd h (hrun i r)
  · exact fun i r h => absurd h (hrun i r)
  · exact fun i r h => absurd h (hrun i r)
  · intro i h
    rw [hslot] at h
    cases h
  · rw [hslot]
    rfl
  · rw [hslot]
    rfl
  · exact fun i r h => absurd h (hrun i r)

/-- A workspace whose slot, runs and stored value are as before keeps its invariant. -/
theorem SlotInv.frame {s t : State Key} {k : Key} (h : SlotInv s k) (hslot : t.slot k = s.slot k)
    (hruns : ∀ i r, t.HasRun k i r ↔ s.HasRun k i r) (hstored : t.stored k = s.stored k) :
    SlotInv t k := by
  have hlast : ∀ i, t.IsLast k i → s.IsLast k i := fun i h j r hr => h j r ((hruns j r).2 hr)
  refine ⟨fun i j r r' hr hr' => h.mono i j r r' ((hruns i r).1 hr) ((hruns j r').1 hr'),
    ?_, ?_, ?_, ?_, ?_, ?_, ?_⟩ <;> rw [hslot]
  · exact fun i r hr => h.bound i r ((hruns i r).1 hr)
  · exact fun i r hr => h.aborted i r ((hruns i r).1 hr)
  · exact fun i r hr => h.active i r ((hruns i r).1 hr)
  · intro i hi
    obtain ⟨r, hr, hactive⟩ := h.controller i hi
    exact ⟨r, (hruns i r).2 hr, hactive⟩
  · exact h.inFlight
  · rw [h.persisted, readPersisted, readPersisted, hstored]
  · exact fun i r hr hi => h.asked i r ((hruns i r).1 hr) (hlast i hi)

/-! ## Slots and runs of a step -/

theorem slot_of_slots {s : State Key} {k : Key} {slot : Slot} (h : s.slots k = some slot) :
    s.slot k = slot := by
  rw [State.slot, h]
  rfl

/-- A run after an abort: it was there before, and it is aborted if it had the controller. -/
theorem getElem?_abort {runs : List (Run Key)} {controller : Option ℕ} {i : ℕ} {r : Run Key} :
    (abort runs controller)[i]? = some r ↔
      ∃ r₀, runs[i]? = some r₀ ∧
        r = if controller = some i then { r₀ with aborted := true } else r₀ := by
  have habort : (abort runs controller)[i]? =
      runs[i]?.map fun r => if controller = some i then { r with aborted := true } else r := by
    cases controller with
    | none => simp [abort]
    | some j => simp [abort, List.getElem?_modify]
  rw [habort, Option.map_eq_some_iff]
  simp only [eq_comm]

theorem length_abort (runs : List (Run Key)) (controller : Option ℕ) :
    (abort runs controller).length = runs.length := by
  cases controller <;> simp [abort]

/-- The state after `controller?.abort()` of the slot of `k`. -/
def State.abortRun (s : State Key) (k : Key) : State Key :=
  { s with runs := abort s.runs (s.slot k).controller }

/-- The runs of other workspaces are not aborted with the slot of `k`. -/
theorem hasRun_abortRun_of_ne {s : State Key} {k k' : Key} (h : SlotInv s k) (hk : k' ≠ k) (i : ℕ)
    (r : Run Key) : (s.abortRun k).HasRun k' i r ↔ s.HasRun k' i r := by
  rw [State.HasRun, State.HasRun, State.abortRun, getElem?_abort]
  constructor
  · rintro ⟨⟨r₀, hr₀, hr⟩, hkey⟩
    by_cases hc : (s.slot k).controller = some i
    · obtain ⟨r₁, hr₁, -⟩ := h.controller i hc
      have heq : r₀ = r₁ := Option.some.inj (hr₀.symm.trans hr₁.1)
      rw [if_pos hc] at hr
      rw [hr, heq] at hkey
      exact absurd (hkey.symm.trans hr₁.2) hk
    · rw [if_neg hc] at hr
      exact ⟨hr ▸ hr₀, hkey⟩
  · rintro ⟨hr, hkey⟩
    refine ⟨⟨r, hr, ?_⟩, hkey⟩
    rw [if_neg]
    intro hc
    obtain ⟨r₁, hr₁, -⟩ := h.controller i hc
    have heq : r = r₁ := Option.some.inj (hr.symm.trans hr₁.1)
    exact hk (hkey.symm.trans (heq ▸ hr₁.2))

/-- After an abort the runs of `k` are all aborted or over. -/
theorem hasRun_abortRun {s : State Key} {k : Key} (h : SlotInv s k) {i : ℕ} {r : Run Key}
    (hr : (s.abortRun k).HasRun k i r) :
    ∃ r₀, s.HasRun k i r₀ ∧ r.value = r₀.value ∧ r.generation = r₀.generation ∧
      r.outcome = r₀.outcome ∧ (r.outcome ≠ none → r = r₀) ∧ ¬ r.Active := by
  obtain ⟨hr, hkey⟩ := hr
  rw [State.abortRun, getElem?_abort] at hr
  obtain ⟨r₀, hr₀, rfl⟩ := hr
  by_cases hc : (s.slot k).controller = some i
  · rw [if_pos hc] at hkey ⊢
    refine ⟨r₀, ⟨hr₀, hkey⟩, rfl, rfl, rfl, fun hout => ?_, by simp [Run.Active]⟩
    obtain ⟨r₁, hr₁, hactive⟩ := h.controller i hc
    cases hr₀.symm.trans hr₁.1
    exact absurd hactive.2 hout
  · rw [if_neg hc] at hkey ⊢
    refine ⟨r₀, ⟨hr₀, hkey⟩, rfl, rfl, rfl, fun _ => rfl, fun hactive => ?_⟩
    exact hc (h.active i r₀ ⟨hr₀, hkey⟩ hactive).1

theorem mono_abortRun {s : State Key} {k : Key} (h : SlotInv s k) {i j : ℕ} {r r' : Run Key}
    (hr : (s.abortRun k).HasRun k i r) (hr' : (s.abortRun k).HasRun k j r') (hij : i < j) :
    r.generation < r'.generation := by
  obtain ⟨r₀, hr₀, -, hgen, -⟩ := hasRun_abortRun h hr
  obtain ⟨r₁, hr₁, -, hgen', -⟩ := hasRun_abortRun h hr'
  rw [hgen, hgen']
  exact h.mono i j r₀ r₁ hr₀ hr₁ hij

/-- No run is lost. -/
theorem exists_hasRun_abortRun {s : State Key} {k : Key} {i : ℕ} {r : Run Key}
    (hr : s.HasRun k i r) : ∃ r', (s.abortRun k).HasRun k i r' := by
  refine ⟨_, getElem?_abort.2 ⟨r, hr.1, rfl⟩, ?_⟩
  split <;> exact hr.2

/-- The runs after an accepted `set`: those of the abort, and the new one. -/
theorem hasRun_append (s : State Key) (k₀ k : Key) (i : ℕ) (r new : Run Key) :
    ((abort s.runs (s.slot k₀).controller ++ [new])[i]? = some r ∧ r.key = k) ↔
      (s.abortRun k₀).HasRun k i r ∨ (i = s.runs.length ∧ r = new ∧ new.key = k) := by
  have hlen := length_abort s.runs (s.slot k₀).controller
  rw [State.HasRun, State.abortRun, List.getElem?_append]
  simp only [hlen]
  by_cases hi : i < s.runs.length
  · rw [if_pos hi]
    constructor
    · exact Or.inl
    · rintro (hr | ⟨rfl, -⟩)
      · exact hr
      · omega
  · rw [if_neg hi]
    constructor
    · rintro ⟨hr, hkey⟩
      obtain ⟨hlt, hget⟩ := List.getElem?_eq_some_iff.1 hr
      simp only [List.length_singleton, List.getElem_singleton] at hlt hget
      exact Or.inr ⟨by omega, hget.symm, hget ▸ hkey⟩
    · rintro (⟨hr, -⟩ | ⟨rfl, rfl, hkey⟩)
      · have := (List.getElem?_eq_some_iff.1 hr).1
        omega
      · exact ⟨by simp, hkey⟩

/-- The runs after the end of run `i`. -/
theorem hasRun_modify {s t : State Key} {i : ℕ} {completes : Bool}
    (h : t.runs = s.runs.modify i fun r => { r with outcome := some completes }) (k : Key) (j : ℕ)
    (r : Run Key) :
    t.HasRun k j r ↔
      ∃ r₀, s.HasRun k j r₀ ∧ r = if i = j then { r₀ with outcome := some completes } else r₀ := by
  rw [State.HasRun, h, List.getElem?_modify, Option.map_eq_map, Option.map_eq_some_iff]
  constructor
  · rintro ⟨⟨r₀, hr₀, rfl⟩, hkey⟩
    refine ⟨r₀, ⟨hr₀, ?_⟩, rfl⟩
    split at hkey <;> exact hkey
  · rintro ⟨r₀, ⟨hr₀, hkey⟩, rfl⟩
    refine ⟨⟨r₀, hr₀, rfl⟩, ?_⟩
    split <;> exact hkey

/-- The end of a run leaves the runs of other workspaces as they are. -/
theorem hasRun_modify_of_ne {s t : State Key} {i : ℕ} {completes : Bool} {r : Run Key}
    (h : t.runs = s.runs.modify i fun r => { r with outcome := some completes })
    (hr : s.runs[i]? = some r) {k : Key} (hk : k ≠ r.key) (j : ℕ) (r' : Run Key) :
    t.HasRun k j r' ↔ s.HasRun k j r' := by
  have hij : ∀ r₀, s.HasRun k j r₀ → ¬ i = j := by
    rintro r₀ ⟨hr₀, hkey⟩ rfl
    rw [hr] at hr₀
    cases hr₀
    exact hk hkey.symm
  rw [hasRun_modify h]
  constructor
  · rintro ⟨r₀, hr₀, rfl⟩
    rwa [if_neg (hij r₀ hr₀)]
  · exact fun hr' => ⟨r', hr', (if_neg (hij r' hr')).symm⟩

/-- The end of a run that has been aborted. -/
theorem inv_finish_aborted {s t : State Key} (h : Inv s) {i : ℕ} {completes : Bool} {r : Run Key}
    (hr : s.runs[i]? = some r) (habort : r.aborted = true) (hslots : t.slots = s.slots)
    (hstored : t.stored = s.stored)
    (hruns : t.runs = s.runs.modify i fun r => { r with outcome := some completes }) : Inv t := by
  intro k
  have hslot : t.slot k = s.slot k := by rw [State.slot, State.slot, hslots, hstored]
  have hk := h k
  have hrun := hasRun_modify hruns k
  -- the record of a run that has not been aborted is as before
  have hsame : ∀ j r', t.HasRun k j r' → r'.aborted = false → s.HasRun k j r' := by
    intro j r' hr' hfalse
    obtain ⟨r₀, hr₀, rfl⟩ := (hrun j r').1 hr'
    split at hfalse
    next hij =>
      subst hij
      cases hr.symm.trans hr₀.1
      exact absurd (habort.symm.trans hfalse) (by simp)
    next hij => rwa [if_neg hij]
  have hgen : ∀ j r', t.HasRun k j r' → ∃ r₀, s.HasRun k j r₀ ∧ r'.generation = r₀.generation ∧
      r'.aborted = r₀.aborted := by
    intro j r' hr'
    obtain ⟨r₀, hr₀, rfl⟩ := (hrun j r').1 hr'
    exact ⟨r₀, hr₀, by split <;> rfl, by split <;> rfl⟩
  refine ⟨?_, ?_, ?_, ?_, ?_, ?_, ?_, ?_⟩
  · intro j j' r₁ r₂ h₁ h₂ hlt
    obtain ⟨r₁', h₁, hg₁, -⟩ := hgen j r₁ h₁
    obtain ⟨r₂', h₂, hg₂, -⟩ := hgen j' r₂ h₂
    rw [hg₁, hg₂]
    exact hk.mono j j' r₁' r₂' h₁ h₂ hlt
  all_goals rw [hslot]
  · intro j r' hr'
    obtain ⟨r₀, hr₀, hg, -⟩ := hgen j r' hr'
    exact hg ▸ hk.bound j r₀ hr₀
  · intro j r' hr' ha
    obtain ⟨r₀, hr₀, hg, ha₀⟩ := hgen j r' hr'
    exact hg ▸ hk.aborted j r₀ hr₀ (ha₀ ▸ ha)
  · exact fun j r' hr' hactive => hk.active j r' (hsame j r' hr' hactive.1) hactive
  · intro j hj
    obtain ⟨r', hr', hactive⟩ := hk.controller j hj
    refine ⟨r', (hrun j r').2 ⟨r', hr', ?_⟩, hactive⟩
    rw [if_neg]
    rintro rfl
    cases hr.symm.trans hr'.1
    exact absurd (habort.symm.trans hactive.1) (by simp)
  · exact hk.inFlight
  · rw [hstored]
    exact hk.persisted
  · intro j r' hr' hlast hout ha
    refine hk.asked j r' (hsame j r' hr' ha) (fun j' r₀ hr₀ => ?_) hout ha
    exact hlast j' _ ((hrun j' _).2 ⟨r₀, hr₀, rfl⟩)

/-- The run of the last accepted `set` has not been aborted if it has completed. -/
def LastKept (s : State Key) : Prop :=
  ∀ k i r, s.HasRun k i r → s.IsLast k i → r.outcome = some true → r.aborted = false

theorem lastKept_init (stored : Key → Option ToggleState) : LastKept (State.init stored) := by
  intro k i r hr
  cases hr.1

/-! ## Convergence -/

/-- A run that is rejected has been aborted before. -/
def NoFailure (s : State Key) : Event Spelling → Prop
  | .finish i false => ∀ r ∈ s.runs[i]?, r.aborted = true
  | _ => True

instance NoFailure.decidable (s : State Key) : ∀ e : Event Spelling, Decidable (NoFailure s e)
  | .set _ _ => .isTrue trivial
  | .reopen _ => .isTrue trivial
  | .finish _ true => .isTrue trivial
  | .finish i false => inferInstanceAs (Decidable (∀ r ∈ s.runs[i]?, r.aborted = true))

/-- A run that completes has not been dropped by a `reopen`: it has not been aborted, or a later
    `set` has aborted it. -/
def NotDropped (s : State Key) : Event Spelling → Prop
  | .finish i true => ∀ r ∈ s.runs[i]?, r.aborted = true → ∃ j r', s.HasRun r.key j r' ∧ i < j
  | _ => True

section
variable {key : Spelling → Key}

/-- What the control promises about its state. -/
structure Converged (key : Spelling → Key) (s : State Key) : Prop where
  /-- at most one run that has not been aborted is under way -/
  single : ∀ k i j r r', s.HasRun k i r → s.HasRun k j r' → r.Active → r'.Active → i = j
  /-- where none is, all values agree -/
  quiet : ∀ workspace, (∀ i r, s.HasRun (key workspace) i r → ¬ r.Active) →
    isTransitioning key s workspace = false ∧
      displayed key s workspace = persisted key s workspace ∧
      persisted key s workspace = readPersisted s.stored (key workspace)
  /-- and they are what was asked for last, if that has completed without an abort -/
  asked : ∀ workspace i r, s.HasRun (key workspace) i r → s.IsLast (key workspace) i →
    r.outcome = some true → r.aborted = false → persisted key s workspace = r.value

theorem Inv.converged {s : State Key} (h : Inv s) : Converged key s where
  single k i j r r' hr hr' ha ha' := by
    have hi := ((h k).active i r hr ha).1
    have hj := ((h k).active j r' hr' ha').1
    exact Option.some.inj (hi.symm.trans hj)
  quiet workspace hquiet := by
    have hk := h (key workspace)
    have hnone : (s.slot (key workspace)).controller = none := by
      by_contra hsome
      obtain ⟨i, hi⟩ := Option.ne_none_iff_exists'.1 hsome
      obtain ⟨r, hr, ha⟩ := hk.controller i hi
      exact hquiet i r hr ha
    have hin := hk.inFlight
    rw [hnone, Option.isSome_none, Option.isSome_eq_false_iff, Option.isNone_iff_eq_none] at hin
    refine ⟨?_, ?_, hk.persisted⟩
    · rw [isTransitioning, hin]
      rfl
    · rw [displayed, hin]
      rfl
  asked workspace i r hr hlast hout ha := (h (key workspace)).asked i r hr hlast hout ha

end

/-! ## Steps -/

section
variable [DecidableEq Key]

@[simp]
theorem slot_put_self (s : State Key) (k : Key) (slot : Slot) : (s.put k slot).slot k = slot :=
  slot_of_slots (by simp [State.put])

theorem slot_put_of_ne (s : State Key) {k k' : Key} (h : k' ≠ k) (slot : Slot) :
    (s.put k slot).slot k' = s.slot k' := by
  simp [State.slot, State.put, h]

/-- Storing the slot that is there changes nothing. -/
theorem slot_put_slot (s : State Key) (k k' : Key) : (s.put k (s.slot k)).slot k' = s.slot k' := by
  by_cases h : k' = k
  · subst h
    simp
  · exact slot_put_of_ne s h _

variable {key : Spelling → Key}

theorem inv_put_slot {s : State Key} (h : Inv s) (k : Key) : Inv (s.put k (s.slot k)) := fun k' =>
  (h k').frame (slot_put_slot s k k') (fun _ _ => Iff.rfl) rfl

theorem inv_reopen {s : State Key} (h : Inv s) (workspace : Spelling) :
    Inv (s.reopen key workspace) := by
  intro k
  by_cases hne : k = key workspace
  · subst hne
    have hk := h (key workspace)
    have hslot : (s.reopen key workspace).slot (key workspace) =
        ⟨(s.slot (key workspace)).persisted, none, none, (s.slot (key workspace)).generation + 1⟩ :=
      slot_put_self s _ _
    have hgen : ∀ i r, (s.abortRun (key workspace)).HasRun (key workspace) i r →
        r.generation ≤ (s.slot (key workspace)).generation := by
      intro i r hr
      obtain ⟨r₀, hr₀, -, hgen, -⟩ := hasRun_abortRun hk hr
      exact hgen ▸ hk.bound i r₀ hr₀
    have hmono : ∀ i j r r', (s.abortRun (key workspace)).HasRun (key workspace) i r →
        (s.abortRun (key workspace)).HasRun (key workspace) j r' → i < j →
        r.generation < r'.generation := fun _ _ _ _ => mono_abortRun hk
    refine ⟨hmono, ?_, ?_, ?_, ?_, ?_, ?_, ?_⟩ <;> rw [hslot]
    · exact fun i r hr => Nat.le_succ_of_le (hgen i r hr)
    · exact fun i r hr _ => Nat.lt_succ_of_le (hgen i r hr)
    · intro i r hr hactive
      obtain ⟨-, -, -, -, -, -, hover⟩ := hasRun_abortRun hk hr
      exact absurd hactive hover
    · intro i hi
      cases hi
    · rfl
    · exact hk.persisted
    · intro i r hr hlast hout habort
      obtain ⟨r₀, hr₀, -, -, -, hsame, -⟩ := hasRun_abortRun hk hr
      cases hsame (by simp [hout])
      refine hk.asked i r hr₀ (fun j r' hr' => ?_) hout habort
      obtain ⟨r'', hr''⟩ := exists_hasRun_abortRun hr'
      exact hlast j r'' hr''
  · exact (h k).frame (slot_put_of_ne s hne _) (hasRun_abortRun_of_ne (h _) hne) rfl

/-- The accepted `set`: the active run of the workspace is aborted, and the new one takes its
    place. -/
theorem inv_start {s t : State Key} (h : Inv s) (k₀ : Key) {new : Run Key} {slot : Slot}
    (hruns : t.runs = abort s.runs (s.slot k₀).controller ++ [new])
    (hslot : slot = ⟨(s.slot k₀).persisted, some new.value, some s.runs.length, new.generation⟩)
    (hslots : t.slots = (s.put k₀ slot).slots) (hstored : t.stored = s.stored)
    (hkey : new.key = k₀) (hnew : new.Active) (hgen : new.generation = (s.slot k₀).generation + 1) :
    Inv t := by
  intro k
  have hrun : ∀ i r, t.HasRun k i r ↔
      (s.abortRun k₀).HasRun k i r ∨ (i = s.runs.length ∧ r = new ∧ new.key = k) := by
    intro i r
    rw [State.HasRun, hruns]
    exact hasRun_append s k₀ k i r new
  have hput : t.slot k = (s.put k₀ slot).slot k := by
    rw [State.slot, State.slot, hslots, hstored]
    rfl
  by_cases hne : k = k₀
  · subst hne
    have hk := h k
    have hold : ∀ i r, (s.abortRun k).HasRun k i r → i < s.runs.length ∧ r.generation ≤
        (s.slot k).generation := by
      intro i r hr
      obtain ⟨r₀, hr₀, -, hgen, -⟩ := hasRun_abortRun hk hr
      exact ⟨(List.getElem?_eq_some_iff.1 hr₀.1).1, hgen ▸ hk.bound i r₀ hr₀⟩
    have hnewRun : t.HasRun k s.runs.length new := (hrun _ _).2 (Or.inr ⟨rfl, rfl, hkey⟩)
    rw [slot_put_self, hslot] at hput
    have hmono : ∀ i j r r', t.HasRun k i r → t.HasRun k j r' → i < j →
        r.generation < r'.generation := by
      intro i j r r' hr hr' hij
      obtain hr' | ⟨rfl, rfl, -⟩ := (hrun j r').1 hr' <;> obtain hr | ⟨rfl, rfl, -⟩ := (hrun i r).1 hr
      · exact mono_abortRun hk hr hr' hij
      · have := (hold j r' hr').1
        omega
      · have := (hold i r hr).2
        omega
      · omega
    refine ⟨hmono, ?_, ?_, ?_, ?_, ?_, ?_, ?_⟩ <;> rw [hput]
    · intro i r hr
      obtain hr | ⟨-, rfl, -⟩ := (hrun i r).1 hr
      · show r.generation ≤ new.generation
        have := (hold i r hr).2
        omega
      · exact le_refl _
    · intro i r hr habort
      obtain hr | ⟨-, rfl, -⟩ := (hrun i r).1 hr
      · show r.generation < new.generation
        have := (hold i r hr).2
        omega
      · exact absurd (hnew.1.symm.trans habort) (by simp)
    · intro i r hr hactive
      obtain hr | ⟨rfl, rfl, -⟩ := (hrun i r).1 hr
      · obtain ⟨-, -, -, -, -, -, hover⟩ := hasRun_abortRun hk hr
        exact absurd hactive hover
      · exact ⟨rfl, rfl, rfl⟩
    · intro i hi
      cases hi
      exact ⟨new, hnewRun, hnew⟩
    · rfl
    · show (s.slot k).persisted = readPersisted t.stored k
      rw [hstored]
      exact hk.persisted
    · intro i r hr hlast hout _
      obtain hr | ⟨-, rfl, -⟩ := (hrun i r).1 hr
      · have := hlast s.runs.length new hnewRun
        have := (hold i r hr).1
        omega
      · exact absurd (hnew.2.symm.trans hout) (by simp)
  · refine (h k).frame (hput.trans (slot_put_of_ne s hne _)) (fun i r => ?_) (by rw [hstored])
    rw [← hasRun_abortRun_of_ne (h k₀) hne]
    constructor
    · intro hr
      obtain hr | ⟨-, -, hk⟩ := (hrun i r).1 hr
      · exact hr
      · exact absurd (hk.symm.trans hkey) hne
    · exact fun hr => (hrun i r).2 (Or.inl hr)

theorem inv_set {s : State Key} (h : Inv s) (workspace : Spelling) (value : ToggleState) :
    Inv (s.set key workspace value) := by
  rw [State.set]
  simp only
  split
  · exact inv_put_slot h _
  split
  · exact inv_put_slot h _
  exact inv_start h _ rfl rfl rfl rfl rfl ⟨rfl, rfl⟩ rfl

/-- The completion of the run that counts. -/
theorem inv_finish_active {s t : State Key} (h : Inv s) {i : ℕ} {r : Run Key}
    (hr : s.runs[i]? = some r) (hactive : r.Active)
    (hslots : t.slots =
      (s.put r.key ⟨r.value, none, none, (s.slot r.key).generation⟩).slots)
    (hstored : t.stored = Function.update s.stored r.key (some r.value))
    (hruns : t.runs = s.runs.modify i fun r => { r with outcome := some true }) : Inv t := by
  intro k
  by_cases hne : k = r.key
  · subst hne
    have hk := h r.key
    obtain ⟨hcontroller, -, hrgen⟩ := hk.active i r ⟨hr, rfl⟩ hactive
    have hrun := hasRun_modify hruns r.key
    have hslot : t.slot r.key = ⟨r.value, none, none, (s.slot r.key).generation⟩ :=
      slot_of_slots (by simp [hslots, State.put])
    have hgen : ∀ j r', t.HasRun r.key j r' → ∃ r₀, s.HasRun r.key j r₀ ∧
        r'.generation = r₀.generation ∧ r'.aborted = r₀.aborted := by
      intro j r' hr'
      obtain ⟨r₀, hr₀, rfl⟩ := (hrun j r').1 hr'
      exact ⟨r₀, hr₀, by split <;> rfl, by split <;> rfl⟩
    have hmono : ∀ j j' r₁ r₂, t.HasRun r.key j r₁ → t.HasRun r.key j' r₂ → j < j' →
        r₁.generation < r₂.generation := by
      intro j j' r₁ r₂ h₁ h₂ hlt
      obtain ⟨r₁', h₁, hg₁, -⟩ := hgen j r₁ h₁
      obtain ⟨r₂', h₂, hg₂, -⟩ := hgen j' r₂ h₂
      rw [hg₁, hg₂]
      exact hk.mono j j' r₁' r₂' h₁ h₂ hlt
    refine ⟨hmono, ?_, ?_, ?_, ?_, ?_, ?_, ?_⟩ <;> rw [hslot]
    · intro j r' hr'
      obtain ⟨r₀, hr₀, hg, -⟩ := hgen j r' hr'
      exact hg ▸ hk.bound j r₀ hr₀
    · intro j r' hr' ha
      obtain ⟨r₀, hr₀, hg, ha₀⟩ := hgen j r' hr'
      exact hg ▸ hk.aborted j r₀ hr₀ (ha₀ ▸ ha)
    · intro j r' hr' ha
      obtain ⟨r₀, hr₀, rfl⟩ := (hrun j r').1 hr'
      split at ha
      next => cases ha.2
      next hij =>
        have := (hk.active j r₀ hr₀ ha).1
        rw [hcontroller] at this
        exact absurd (Option.some.inj this) hij
    · intro j hj
      cases hj
    · rfl
    · simp [readPersisted, hstored]
    · intro j r' hr' hlast _ _
      have hlast := hlast i _ ((hrun i _).2 ⟨r, ⟨hr, rfl⟩, rfl⟩)
      obtain ⟨r₀, hr₀, rfl⟩ := (hrun j r').1 hr'
      obtain rfl | hlt := hlast.eq_or_lt
      · cases hr.symm.trans hr₀.1
        rw [if_pos rfl]
      · -- a later run would have a larger generation than the slot
        have := hk.mono i j r r₀ ⟨hr, rfl⟩ hr₀ hlt
        have := hk.bound j r₀ hr₀
        omega
  · refine (h k).frame ?_ (hasRun_modify_of_ne hruns hr hne) ?_
    · rw [State.slot, hslots, readPersisted, hstored, Function.update_of_ne hne]
      exact slot_put_of_ne s hne _
    · rw [hstored, Function.update_of_ne hne]

theorem inv_finish {s t : State Key} (h : Inv s) {i : ℕ} {completes : Bool}
    (hfail : NoFailure s (.finish i completes : Event Spelling))
    (hstep : s.finish i completes = some t) : Inv t := by
  rw [State.finish] at hstep
  split at hstep
  · cases hstep
  next r hr =>
    split at hstep
    · cases hstep
    next hout =>
      have hout : r.outcome = none := by simpa using hout
      have hslot : State.slot { s with runs := s.runs.modify i fun r =>
          { r with outcome := some completes } } r.key = s.slot r.key := rfl
      simp only [hslot] at hstep
      split at hstep
      next hdone =>
        cases hstep
        refine inv_finish_active h hr ⟨?_, hout⟩ rfl rfl (by simp [State.put, hdone.1])
        by_contra ha
        have := (h r.key).aborted i r ⟨hr, rfl⟩ (by simpa using ha)
        omega
      next hnot =>
        cases hstep
        refine inv_finish_aborted h hr ?_ rfl rfl rfl
        cases completes with
        | false => exact hfail r (by simp [hr])
        | true =>
          by_contra ha
          have := (h r.key).active i r ⟨hr, rfl⟩ ⟨by simpa using ha, hout⟩
          exact hnot ⟨rfl, this.2.2.symm⟩

theorem inv_step {s t : State Key} {e : Event Spelling} (h : Inv s) (hfail : NoFailure s e)
    (hstep : step key s e = some t) : Inv t := by
  cases e with
  | set workspace value =>
    cases hstep
    exact inv_set h workspace value
  | reopen workspace =>
    cases hstep
    exact inv_reopen h workspace
  | finish i completes => exact inv_finish h hfail hstep

theorem lastKept_set {s : State Key} (h : Inv s) (hkept : LastKept s) (workspace : Spelling)
    (value : ToggleState) : LastKept (s.set key workspace value) := by
  rw [State.set]
  simp only
  split
  · exact hkept
  split
  · exact hkept
  intro k i r hr hlast hout
  have hrun := fun i r => hasRun_append s (key workspace) k i r
    { key := key workspace, value, generation := (s.slot (key workspace)).generation + 1 }
  by_cases hne : k = key workspace
  · -- the new run is the last one, and it is under way
    have hnew := hlast s.runs.length _ ((hrun _ _).2 (Or.inr ⟨rfl, rfl, hne.symm⟩))
    obtain hr | ⟨-, rfl, -⟩ := (hrun i r).1 hr
    · have := (List.getElem?_eq_some_iff.1 hr.1).1
      rw [State.abortRun, length_abort] at this
      omega
    · cases hout
  · obtain hr | ⟨-, rfl, -⟩ := (hrun i r).1 hr
    · refine hkept k i r ((hasRun_abortRun_of_ne (h _) hne i r).1 hr) (fun j r' hr' => ?_) hout
      exact hlast j r' ((hrun j r').2 (Or.inl ((hasRun_abortRun_of_ne (h _) hne j r').2 hr')))
    · rfl

theorem lastKept_reopen {s : State Key} (h : Inv s) (hkept : LastKept s) (workspace : Spelling) :
    LastKept (s.reopen key workspace) := by
  intro k i r hr hlast hout
  by_cases hne : k = key workspace
  · subst hne
    obtain ⟨r₀, hr₀, -, -, -, hsame, -⟩ := hasRun_abortRun (h _) hr
    cases hsame (by simp [hout])
    refine hkept _ i r hr₀ (fun j r' hr' => ?_) hout
    obtain ⟨r'', hr''⟩ := exists_hasRun_abortRun hr'
    exact hlast j r'' hr''
  · have hrun := hasRun_abortRun_of_ne (h _) hne
    refine hkept k i r ((hrun i r).1 hr) (fun j r' hr' => ?_) hout
    exact hlast j r' ((hrun j r').2 hr')

theorem lastKept_finish {s t : State Key} (hkept : LastKept s) {i : ℕ} {completes : Bool}
    (hdrop : NotDropped s (.finish i completes : Event Spelling))
    (hstep : s.finish i completes = some t) : LastKept t := by
  have hruns : t.runs = s.runs.modify i fun r => { r with outcome := some completes } := by
    rw [State.finish] at hstep
    split at hstep
    · cases hstep
    split at hstep
    · cases hstep
    simp only at hstep
    split at hstep <;> cases hstep <;> rfl
  intro k j r hr hlast hout
  have hrun := hasRun_modify hruns k
  have hlast₀ : ∀ j' r', s.HasRun k j' r' → j' ≤ j := fun j' r' hr' =>
    hlast j' _ ((hrun j' _).2 ⟨r', hr', rfl⟩)
  obtain ⟨r₀, hr₀, rfl⟩ := (hrun j r).1 hr
  split at hout
  next hij =>
    subst hij
    rw [if_pos rfl]
    obtain rfl : completes = true := Option.some.inj hout
    by_contra habort
    obtain ⟨j', r', hr', hlt⟩ := hdrop r₀ hr₀.1 (by simpa using habort)
    have := hlast₀ j' r' ⟨hr'.1, hr'.2.trans hr₀.2⟩
    omega
  next hij =>
    rw [if_neg hij]
    exact hkept k j r₀ hr₀ hlast₀ hout

theorem lastKept_step {s t : State Key} {e : Event Spelling} (h : Inv s) (hkept : LastKept s)
    (hdrop : NotDropped s e) (hstep : step key s e = some t) : LastKept t := by
  cases e with
  | set workspace value =>
    cases hstep
    exact lastKept_set h hkept workspace value
  | reopen workspace =>
    cases hstep
    exact lastKept_reopen h hkept workspace
  | finish i completes => exact lastKept_finish hkept hdrop hstep

/-- A run that is rejected without an abort leaves its workspace in transition, with no run under
    way. -/
theorem isTransitioning_of_rejected {s t : State Key} (h : Inv s) {i : ℕ} {r : Run Key}
    {workspace : Spelling} (hr : s.HasRun (key workspace) i r) (ha : r.aborted = false)
    (hstep : s.finish i false = some t) :
    isTransitioning key t workspace = true ∧
      ∀ j r', t.HasRun (key workspace) j r' → ¬ r'.Active := by
  rw [State.finish, hr.1] at hstep
  simp only at hstep
  split at hstep
  · cases hstep
  next hout =>
    have hactive : r.Active := ⟨ha, by simpa using hout⟩
    obtain ⟨hcontroller, hin, -⟩ := (h (key workspace)).active i r hr hactive
    rw [if_neg (by simp)] at hstep
    cases hstep
    refine ⟨?_, fun j r' hr' hactive' => ?_⟩
    · show (s.slot (key workspace)).inFlight.isSome = true
      rw [hin]
      rfl
    · obtain ⟨r₀, hr₀, rfl⟩ := (hasRun_modify rfl _ j r').1 hr'
      split at hactive'
      next => cases hactive'.2
      next hij =>
        have := ((h (key workspace)).active j r₀ hr₀ hactive').1
        exact hij (Option.some.inj (hcontroller.symm.trans this))

/-- And the same `set` again starts no run. -/
theorem runs_set_of_inFlight {s : State Key} {workspace : Spelling} {value : ToggleState}
    (h : (s.slot (key workspace)).inFlight = some value) :
    (s.set key workspace value).runs = s.runs := by
  rw [State.set]
  simp only
  split
  · rfl
  · rfl

end

/-! ## Runs of the system -/

/-- While every run that is rejected has been aborted, the control is settled whenever no run of
    the workspace is under way. The last completed `set` has its value, also where its run has been
    aborted, unless a `reopen` has dropped it. -/
theorem converged_of_run (canonical : List Char → Option (List Char))
    (toLowerCase : List Char → List Char) {stored : List Char → Option ToggleState}
    {es : List (Event (List Char))} {s : State (List Char)}
    (h : Transition.exec (step (toggleWorkspaceKey canonical toLowerCase)) (State.init stored) es =
      some s)
    (hfail : Transition.Always (step (toggleWorkspaceKey canonical toLowerCase)) NoFailure
      (State.init stored) es) :
    Converged (toggleWorkspaceKey canonical toLowerCase) s ∧
      (Transition.Always (step (toggleWorkspaceKey canonical toLowerCase)) NotDropped
          (State.init stored) es →
        ∀ workspace i r, s.HasRun (toggleWorkspaceKey canonical toLowerCase workspace) i r →
          s.IsLast (toggleWorkspaceKey canonical toLowerCase workspace) i →
          r.outcome = some true →
          persisted (toggleWorkspaceKey canonical toLowerCase) s workspace = r.value) := by
  have hinv : Inv s :=
    Transition.exec_invariant (fun _ _ _ => inv_step) h hfail (inv_init stored)
  refine ⟨hinv.converged, fun hdrop workspace i r hr hlast hout => ?_⟩
  have hkept : Inv s ∧ LastKept s := by
    have hstep : ∀ s e t, Inv s ∧ LastKept s → NoFailure s e ∧ NotDropped s e →
        step (toggleWorkspaceKey canonical toLowerCase) s e = some t → Inv t ∧ LastKept t :=
      fun s e t hs he hstep =>
        ⟨inv_step hs.1 he.1 hstep, lastKept_step hs.1 hs.2 he.2 hstep⟩
    exact Transition.exec_invariant hstep h (hfail.and hdrop)
      ⟨inv_init stored, lastKept_init stored⟩
  exact hinv.converged.asked workspace i r hr hlast hout (hkept.2 _ i r hr hlast hout)

/-- The keys where no path exists. -/
def spellingKey : List Char → List Char :=
  toggleWorkspaceKey (fun _ => none) (List.map Char.toLower)

theorem converged_of_run_sample :
    ∃ s, Transition.exec (step spellingKey) (State.init fun _ => none)
        [.set ['/', 'R', '/'] .on, .set ['\\', 'r'] .off, .finish 0 false, .finish 1 true] =
          some s ∧
      Converged spellingKey s := by
  obtain ⟨s, hs⟩ : ∃ s, Transition.exec (step spellingKey) (State.init fun _ => none)
      [.set ['/', 'R', '/'] .on, .set ['\\', 'r'] .off, .finish 0 false, .finish 1 true] =
        some s :=
    ⟨_, rfl⟩
  have hfail : Transition.Always (step spellingKey) NoFailure (State.init fun _ => none)
      [.set ['/', 'R', '/'] .on, .set ['\\', 'r'] .off, .finish 0 false, .finish 1 true] := by
    decide
  exact ⟨s, hs, (converged_of_run (fun _ => none) (List.map Char.toLower) hs hfail).1⟩

/-- A first activation that is rejected. -/
theorem not_converged :
    ¬ ∀ (es : List (Event (List Char))) (s : State (List Char)),
      Transition.exec (step spellingKey) (State.init fun _ => none) es = some s →
        Converged spellingKey s := by
  intro h
  have hs := h [.set ['/', 'r'] .on, .finish 0 false] _ rfl
  have hquiet := (hs.quiet ['/', 'r'] ?_).1
  · cases hquiet
  · rintro i r ⟨hr, -⟩ ⟨-, hout⟩
    cases i with
    | zero =>
      cases hr
      cases hout
    | succ i => cases hr

end Toggle

end Cognis.Extension
