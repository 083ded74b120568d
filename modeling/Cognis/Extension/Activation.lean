/-
  The runs that turn a workspace on and off (`activation.ts`, `deactivation.ts`), the toggle
  that starts and aborts them, and the reconciler that watches over their result.

  A run that has been aborted goes on with the step that it is at. Runs that overlap share one
  marker, which the first one to end takes away.

  * `Inv`: once a turn-off has taken its last step against the watcher, or against the entry,
    there is none;
  * `offClean_of_run`: so it is in every run of the system in which no step of an aborted
    turn-on, and no restored entry, comes later than that; and the reconciler keeps still while
    a run is under way, if no run ends while another one is;
  * `not_clear_of_late`: a step that comes later undoes what the turn-off has done.
-/
import Cognis.Extension.Toggle

namespace Cognis.Extension.Activation

/-! ## Steps -/

/-- `TransitionPhase`, and the two calls that `turnOff` makes after its sequence. -/
inductive Phase where
  | verifyEngineBinary | verifyModelAssets | openDatabase | reconcileAndIndex
  | startWatcher | writeMcpEntry
  | stopWatcher | stopDaemons | removeMcpEntry
  | releaseLiveIndexing | stopMcpServer
  deriving DecidableEq, Repr

/-- `TURN_ON_ORDER` -/
def turnOnOrder : List Phase :=
  [.verifyEngineBinary, .verifyModelAssets, .openDatabase, .reconcileAndIndex, .startWatcher,
    .writeMcpEntry]

/-- `TURN_OFF_ORDER` -/
def turnOffOrder : List Phase := [.stopWatcher, .stopDaemons, .removeMcpEntry]

/-- What a run does, in this order. -/
def phases : ToggleState → List Phase
  | .on => turnOnOrder
  | .off => turnOffOrder ++ [.releaseLiveIndexing, .stopMcpServer]

/-- Whether the signal is looked at before and after the step. -/
def Phase.checked : Phase → Bool
  | .releaseLiveIndexing | .stopMcpServer => false
  | _ => true

/-- What the steps act on. -/
structure Host where
  /-- `isWatcherRunning` -/
  watcher : Bool
  /-- `isEntryPresent` -/
  entry : Bool
  deriving DecidableEq, Repr

/-- What a step has done when it completes. -/
def Phase.effect : Phase → Host → Host
  | .startWatcher, h => { h with watcher := true }
  | .writeMcpEntry, h => { h with entry := true }
  | .stopWatcher, h | .stopDaemons, h | .releaseLiveIndexing, h => { h with watcher := false }
  | .removeMcpEntry, h => { h with entry := false }
  | _, h => h

/-- What the reconciler does about an entry. -/
inductive Action where
  | restoreEntry | removeEntry
  deriving DecidableEq, Repr

def Action.effect : Action → Host → Host
  | .restoreEntry, h => { h with entry := true }
  | .removeEntry, h => { h with entry := false }

/-! ## The system -/

/-- How far a run is. -/
inductive Work where
  /-- the steps to go, the first of which may be under way -/
  | running (todo : List Phase) (working : Bool)
  | ended (completes : Bool)
  deriving DecidableEq, Repr

/-- The steps that a run has to go. -/
def Work.todo : Work → List Phase
  | running todo _ => todo
  | ended _ => []

def Work.isRunning : Work → Bool
  | running _ _ => true
  | ended _ => false

/-- One workspace: the toggle, the work of each of its runs, what they act on, the marker, and
    the actions of the reconciler that are under way. -/
structure System where
  control : Toggle.State Unit
  work : List Work := []
  host : Host
  transitioning : Bool := false
  actions : List Action := []

/-- A toggle request; a run begins its next step, completes it, or is found to have ended by
    the `set` that waits for it; the reconciler ticks, or one of its actions completes. -/
inductive Event where
  | request (value : ToggleState)
  | start (run : ℕ)
  | complete (run : ℕ)
  | settle (run : ℕ)
  | tick (due : Bool)
  | land (action : ℕ)
  deriving DecidableEq, Repr

namespace System

/-- The toggle slot of the workspace. -/
def slot (s : System) : Toggle.Slot := s.control.slot ()

/-- `set`; the first step of the run begins at once. -/
def request (s : System) (value : ToggleState) : System :=
  let control := s.control.set (fun _ : Unit => ()) () value
  if control.runs.length = s.control.runs.length then { s with control }
  else
    { s with
      control
      work := s.work ++ [.running (phases value) true]
      transitioning := true }

/-- `host.signal.aborted` -/
def aborted (s : System) (i : ℕ) : Bool := s.control.runs[i]?.any (·.aborted)

/-- How the run ends in place of a step, if it does: there is no watcher for an entry, or it
    has been aborted. -/
def endsAtStart (s : System) (i : ℕ) (p : Phase) : Option Bool :=
  if p = .writeMcpEntry ∧ s.host.watcher = false then some true
  else if p.checked ∧ s.aborted i then some false
  else none

/-- How the run ends after a step, if it does. -/
def endsAfter (s : System) (i : ℕ) (p : Phase) (todo : List Phase) : Option Bool :=
  if p.checked ∧ s.aborted i then some false
  else if todo = [] then some true
  else none

/-- The run ends, and its `finally` takes the marker away; or it goes on. -/
def goOn (s : System) (i : ℕ) (ends : Option Bool) (next : Work) : System :=
  match ends with
  | some completes =>
    { s with work := s.work.set i (.ended completes), transitioning := false }
  | none => { s with work := s.work.set i next }

/-- A step begins. -/
def start (s : System) (i : ℕ) : Option System :=
  match s.work[i]? with
  | some (.running (p :: todo) false) =>
    some (s.goOn i (s.endsAtStart i p) (.running (p :: todo) true))
  | _ => none

/-- A step completes. -/
def complete (s : System) (i : ℕ) : Option System :=
  match s.work[i]? with
  | some (.running (p :: todo) true) =>
    some ({ s with host := p.effect s.host }.goOn i (s.endsAfter i p todo) (.running todo false))
  | _ => none

/-- The rest of `set`. -/
def settle (s : System) (i : ℕ) : Option System :=
  match s.work[i]? with
  | some (.ended completes) => (s.control.finish i completes).map fun control => { s with control }
  | _ => none

/-- `tick`; `due` says whether the budget is used up. -/
def tick (s : System) (due : Bool) : System :=
  if s.transitioning then s
  else
    match s.host.watcher, s.host.entry with
    | true, false => if due then { s with actions := s.actions ++ [.restoreEntry] } else s
    | false, true => { s with actions := s.actions ++ [.removeEntry] }
    | _, _ => s

/-- An action of the reconciler completes. -/
def land (s : System) (n : ℕ) : Option System :=
  match s.actions[n]? with
  | some a => some { s with host := a.effect s.host, actions := s.actions.eraseIdx n }
  | none => none

/-- The workspace at the start, with what is stored and what is running. -/
def init (stored : Unit → Option ToggleState) (host : Host) : System where
  control := .init stored
  host

end System

/-- One step. -/
def step (s : System) : Event → Option System
  | .request value => some (s.request value)
  | .start i => s.start i
  | .complete i => s.complete i
  | .settle i => s.settle i
  | .tick due => some (s.tick due)
  | .land n => s.land n

/-! ## What a turn-off has done -/

/-- The steps that are the last ones against the watcher and against the entry leave none. -/
def Clear : Phase → Host → Prop
  | .releaseLiveIndexing, h => h.watcher = false
  | .removeMcpEntry, h => h.entry = false
  | _, _ => True

/-- The workspace is off, or its run turns it off and has taken the step `last`. -/
def Gone (last : Phase) (s : System) : Prop :=
  match s.slot.controller with
  | some i => s.control.runs[i]?.map (·.value) = some .off ∧ ∀ w ∈ s.work[i]?, last ∉ w.todo
  | none => s.slot.persisted = .off

theorem gone_of_controller {s : System} {last : Phase} {i : ℕ} (hi : s.slot.controller = some i) :
    Gone last s ↔ s.control.runs[i]?.map (·.value) = some .off ∧
      ∀ w ∈ s.work[i]?, last ∉ w.todo := by
  rw [Gone, hi]

theorem gone_of_none {s : System} {last : Phase} (hi : s.slot.controller = none) :
    Gone last s ↔ s.slot.persisted = .off := by
  rw [Gone, hi]

instance Gone.decidable (last : Phase) (s : System) : Decidable (Gone last s) :=
  match h : s.slot.controller with
  | some _ => decidable_of_iff _ (gone_of_controller h).symm
  | none => decidable_of_iff _ (gone_of_none h).symm

/-- The run is under way. -/
def System.Running (s : System) (i : ℕ) : Prop := ∃ w ∈ s.work[i]?, w.isRunning

/-- No other run is under way. -/
def System.Alone (s : System) (i : ℕ) : Prop :=
  ∀ j < s.work.length, j ≠ i → ∀ w ∈ s.work[j]?, w.isRunning = false

instance System.Alone.decidable (s : System) (i : ℕ) : Decidable (s.Alone i) :=
  inferInstanceAs (Decidable (∀ _, _ → _))

/-- No watcher is started and no entry is written after the last step against it. -/
def NoLateEffect (s : System) : Event → Prop
  | .complete i => ∀ w ∈ s.work[i]?,
      (w.todo.head? = some .startWatcher → ¬ Gone .releaseLiveIndexing s) ∧
        (w.todo.head? = some .writeMcpEntry → ¬ Gone .removeMcpEntry s)
  | .land n => s.actions[n]? = some .restoreEntry → ¬ Gone .removeMcpEntry s
  | _ => True

instance NoLateEffect.decidable (s : System) : ∀ e, Decidable (NoLateEffect s e)
  | .complete _ => inferInstanceAs (Decidable (∀ _ ∈ _, _))
  | .land _ => inferInstanceAs (Decidable (_ → ¬ _))
  | .request _ | .start _ | .settle _ | .tick _ => .isTrue trivial

/-- No run ends while another one is under way, and none is started while the reconciler is at
    work. -/
def MarkerKept (s : System) : Event → Prop
  | .request value =>
    s.slot.inFlight ≠ some value → (s.slot.inFlight = none → s.slot.persisted ≠ value) →
      s.actions = []
  | .start i => ∀ w ∈ s.work[i]?, ∀ p ∈ w.todo.head?, (s.endsAtStart i p).isSome → s.Alone i
  | .complete i => ∀ w ∈ s.work[i]?, ∀ p ∈ w.todo.head?,
      (s.endsAfter i p w.todo.tail).isSome → s.Alone i
  | _ => True

instance MarkerKept.decidable (s : System) : ∀ e, Decidable (MarkerKept s e)
  | .request _ => inferInstanceAs (Decidable (_ → _ → _ = _))
  | .start _ | .complete _ => inferInstanceAs (Decidable (∀ _ ∈ _, ∀ _ ∈ _, _))
  | .settle _ | .tick _ | .land _ => .isTrue trivial

/-- When all runs have returned and the workspace is off, nothing is left. -/
def OffClean (s : System) : Prop :=
  (∀ r ∈ s.control.runs, r.outcome.isSome) → s.slot.persisted = .off →
    s.host.watcher = false ∧ s.host.entry = false

/-- While a run is under way, a tick begins nothing, and nothing that it began is under way. -/
def TickQuiet (s : System) : Prop :=
  (∃ i, s.Running i) → (∀ due, (s.tick due).actions = s.actions) ∧ s.actions = []

/-! ## The invariant -/

/-- The two steps that a turn-off takes last against the watcher and against the entry. -/
def LastStep (last : Phase) : Prop := last = .releaseLiveIndexing ∨ last = .removeMcpEntry

structure Inv (s : System) : Prop where
  control : Toggle.Inv s.control
  length : s.work.length = s.control.runs.length
  suffix : ∀ (i : ℕ) (r : Toggle.Run Unit) (todo : List Phase) (working : Bool),
    s.control.runs[i]? = some r → s.work[i]? = some (Work.running todo working) →
      todo <:+ phases r.value
  rejected : ∀ (i : ℕ) (r : Toggle.Run Unit), s.control.runs[i]? = some r →
    s.work[i]? = some (Work.ended false) → r.aborted = true
  clear : ∀ last, LastStep last → Gone last s → Clear last s.host

theorem clear_effect {last : Phase} (h : LastStep last) (host : Host) :
    Clear last (last.effect host) := by
  rcases h with rfl | rfl <;> rfl

theorem mem_phases_off {last : Phase} (h : LastStep last) : last ∈ phases .off := by
  rcases h with rfl | rfl <;> decide

/-- No step but a late one undoes what a turn-off has done. -/
theorem clear_effect_of_clear {last p : Phase} (h : LastStep last) {host : Host}
    (hclear : Clear last host)
    (hlate : (p = .startWatcher → last ≠ .releaseLiveIndexing) ∧
      (p = .writeMcpEntry → last ≠ .removeMcpEntry)) : Clear last (p.effect host) := by
  rcases h with rfl | rfl
  · cases p <;> first | exact hclear | rfl | exact absurd rfl (hlate.1 rfl)
  · cases p <;> first | exact hclear | rfl | exact absurd rfl (hlate.2 rfl)

/-- The run that has the controller has not been aborted. -/
theorem Inv.not_aborted {s : System} (h : Inv s) {i : ℕ} (hi : s.slot.controller = some i) :
    s.aborted i = false := by
  obtain ⟨r, ⟨hr, -⟩, hactive⟩ := (h.control ()).controller i hi
  rw [System.aborted, hr]
  exact hactive.1

/-- Only the slot and the run that has the controller matter. -/
theorem gone_congr {s t : System} {last : Phase} (hc : t.slot.controller = s.slot.controller)
    (hp : t.slot.persisted = s.slot.persisted)
    (hvalue : ∀ i, s.slot.controller = some i →
      t.control.runs[i]?.map (·.value) = s.control.runs[i]?.map (·.value))
    (hwork : ∀ i, s.slot.controller = some i → t.work[i]? = s.work[i]?) :
    Gone last t ↔ Gone last s := by
  rw [Gone, Gone, hc, hp]
  cases h : s.slot.controller with
  | none => rfl
  | some i =>
    simp only
    rw [hvalue i h, hwork i h]

/-! ## Steps of the system -/

/-- A request is dropped, or its run takes the place of the active one. -/
theorem request_cases (s : System) (value : ToggleState) :
    (s.request value = { s with control := s.control.put () s.slot }) ∨
      ∃ control : Toggle.State Unit,
        s.request value =
          { s with
            control
            work := s.work ++ [.running (phases value) true]
            transitioning := true } ∧
        control.slot () =
          ⟨s.slot.persisted, some value, some s.control.runs.length, s.slot.generation + 1⟩ ∧
        control.runs = Toggle.abort s.control.runs s.slot.controller ++
          [{ key := (), value, generation := s.slot.generation + 1 }] ∧
        s.slot.inFlight ≠ some value ∧ (s.slot.inFlight = none → s.slot.persisted ≠ value) := by
  have hput : (s.control.put () s.slot).runs.length = s.control.runs.length := rfl
  rw [System.request]
  by_cases hsame : s.slot.inFlight = none ∧ s.slot.persisted = value
  · have hset : s.control.set (fun _ : Unit => ()) () value = s.control.put () s.slot :=
      if_pos hsame
    rw [hset]
    exact .inl (if_pos hput)
  by_cases hflight : s.slot.inFlight = some value
  · have hset : s.control.set (fun _ : Unit => ()) () value = s.control.put () s.slot :=
      (if_neg hsame).trans (if_pos hflight)
    rw [hset]
    exact .inl (if_pos hput)
  · have hset : s.control.set (fun _ : Unit => ()) () value =
        { s.control.put () ⟨s.slot.persisted, some value, some s.control.runs.length,
            s.slot.generation + 1⟩ with
          runs := Toggle.abort s.control.runs s.slot.controller ++
            [{ key := (), value, generation := s.slot.generation + 1 }] } :=
      (if_neg hsame).trans (if_neg hflight)
    refine .inr ⟨s.control.set (fun _ : Unit => ()) () value, ?_, ?_, ?_, hflight,
      fun hnone hp => hsame ⟨hnone, hp⟩⟩
    · rw [hset]
      exact if_neg (by simp [Toggle.length_abort])
    · rw [hset]
      exact Toggle.slot_put_self s.control () _
    · rw [hset]

/-- The runs after an accepted request: those before, some of them aborted, and the new one. -/
theorem getElem?_abort_append {runs : List (Toggle.Run Unit)} {controller : Option ℕ} {i : ℕ}
    {r new : Toggle.Run Unit} (h : (Toggle.abort runs controller ++ [new])[i]? = some r) :
    (i < runs.length ∧ ∃ r₀, runs[i]? = some r₀ ∧ r.value = r₀.value ∧
      (r₀.aborted = true → r.aborted = true)) ∨ (i = runs.length ∧ r = new) := by
  have hlen := Toggle.length_abort runs controller
  by_cases hi : i < runs.length
  · rw [List.getElem?_append_left (by omega), Toggle.getElem?_abort] at h
    obtain ⟨r₀, hr₀, rfl⟩ := h
    refine .inl ⟨hi, r₀, hr₀, ?_, ?_⟩
    · split <;> rfl
    · intro ha
      split
      · rfl
      · exact ha
  · rw [List.getElem?_append_right (by omega), hlen, List.getElem?_singleton] at h
    split at h
    · cases h
      exact .inr ⟨by omega, rfl⟩
    · cases h

theorem inv_request {s : System} (h : Inv s) (value : ToggleState) : Inv (s.request value) := by
  have hcontrol : Toggle.Inv (s.request value).control := by
    have hset := @Toggle.inv_set Unit Unit _ (fun _ => ()) _ h.control () value
    rw [System.request]
    split <;> exact hset
  obtain heq | ⟨control, heq, hslot, hruns, -, -⟩ := request_cases s value
  · have hslot : (s.request value).slot = s.slot := by
      rw [heq]
      exact Toggle.slot_put_self s.control () s.slot
    rw [heq] at hcontrol hslot ⊢
    refine ⟨hcontrol, h.length, h.suffix, h.rejected, fun last hlast hgone => ?_⟩
    exact h.clear last hlast ((gone_congr (congrArg _ hslot) (congrArg _ hslot) (fun _ _ => rfl)
      (fun _ _ => rfl)).1 hgone)
  · rw [heq] at hcontrol ⊢
    refine ⟨hcontrol, ?_, ?_, ?_, ?_⟩
    · simp [hruns, Toggle.length_abort, h.length]
    · intro i r todo working hr hw
      rw [hruns] at hr
      obtain ⟨hi, r₀, hr₀, hvalue, -⟩ | ⟨rfl, rfl⟩ := getElem?_abort_append hr
      · rw [hvalue]
        rw [List.getElem?_append_left (by rwa [h.length])] at hw
        exact h.suffix i r₀ todo working hr₀ hw
      · rw [← h.length, List.getElem?_concat_length] at hw
        cases hw
        exact List.suffix_refl _
    · intro i r hr hw
      rw [hruns] at hr
      obtain ⟨hi, r₀, hr₀, -, habort⟩ | ⟨rfl, rfl⟩ := getElem?_abort_append hr
      · rw [List.getElem?_append_left (by rwa [h.length])] at hw
        exact habort (h.rejected i r₀ hr₀ hw)
      · rw [← h.length, List.getElem?_concat_length] at hw
        cases hw
    · -- the new run has all its steps to go
      intro last hlast hgone
      have hc : System.slot { s with
          control, work := s.work ++ [.running (phases value) true], transitioning := true } =
          ⟨s.slot.persisted, some value, some s.control.runs.length, s.slot.generation + 1⟩ := hslot
      obtain ⟨hvalue, htodo⟩ := (gone_of_controller (by rw [hc])).1 hgone
      have hlen := Toggle.length_abort s.control.runs s.slot.controller
      rw [hruns, ← hlen, List.getElem?_concat_length] at hvalue
      have hmem := htodo (.running (phases value) true)
        (by rw [← h.length, List.getElem?_concat_length]; rfl)
      rw [show value = .off from Option.some.inj hvalue] at hmem
      exact absurd (mem_phases_off hlast) hmem

/-- A run goes on or ends, with what its step has done. -/
theorem inv_goOn {s : System} (h : Inv s) {i : ℕ} {todo₀ todo : List Phase} {w₀ w : Bool}
    {ends : Option Bool} {host : Host} (hw : s.work[i]? = some (.running todo₀ w₀))
    (hends : ends = some false → s.aborted i = true) (hsuffix : todo <:+ todo₀)
    (hother : ∀ last, LastStep last → Gone last s → s.slot.controller ≠ some i → Clear last host)
    (hself : ∀ last, LastStep last → s.slot.controller = some i →
      s.control.runs[i]?.map (·.value) = some .off → (ends = none → last ∉ todo) →
        ends ≠ some false → Clear last host) :
    Inv ({ s with host }.goOn i ends (.running todo w)) := by
  have hlt : i < s.work.length := (List.getElem?_eq_some_iff.1 hw).1
  obtain ⟨t, next, ht, hcontrol, hwork, hhost, hnext⟩ : ∃ t next,
      { s with host }.goOn i ends (.running todo w) = t ∧ t.control = s.control ∧
      t.work = s.work.set i next ∧ t.host = host ∧
      (next = .running todo w ∧ ends = none ∨ ∃ c, next = .ended c ∧ ends = some c) := by
    cases ends with
    | none => exact ⟨_, _, rfl, rfl, rfl, rfl, .inl ⟨rfl, rfl⟩⟩
    | some c => exact ⟨_, _, rfl, rfl, rfl, rfl, .inr ⟨c, rfl, rfl⟩⟩
  have hslot : t.slot = s.slot := by rw [System.slot, hcontrol, System.slot]
  have hself' : t.work[i]? = some next := by rw [hwork, List.getElem?_set_self hlt]
  have hne : ∀ j, i ≠ j → t.work[j]? = s.work[j]? := fun j hij => by
    rw [hwork, List.getElem?_set_ne hij]
  rw [ht]
  refine ⟨hcontrol ▸ h.control, by simp [hwork, hcontrol, h.length], ?_, ?_, ?_⟩
  · intro j r todo' working hr hj
    rw [hcontrol] at hr
    by_cases hij : i = j
    · subst hij
      rw [hself'] at hj
      obtain ⟨rfl, -⟩ | ⟨c, rfl, -⟩ := hnext
      · cases hj
        exact hsuffix.trans (h.suffix i r todo₀ w₀ hr hw)
      · cases hj
    · rw [hne j hij] at hj
      exact h.suffix j r todo' working hr hj
  · intro j r hr hj
    rw [hcontrol] at hr
    by_cases hij : i = j
    · subst hij
      rw [hself'] at hj
      obtain ⟨rfl, -⟩ | ⟨c, rfl, hc⟩ := hnext
      · cases hj
      · cases hj
        have haborted := hends hc
        rw [System.aborted, hr] at haborted
        exact haborted
    · rw [hne j hij] at hj
      exact h.rejected j r hr hj
  · intro last hlast hgone
    rw [hhost]
    by_cases hc : s.slot.controller = some i
    · obtain ⟨hvalue, htodo⟩ := (gone_of_controller (hslot ▸ hc)).1 hgone
      rw [hcontrol] at hvalue
      refine hself last hlast hc hvalue (fun hnone => ?_) (fun hfalse => ?_)
      · obtain ⟨rfl, -⟩ | ⟨c, -, hsome⟩ := hnext
        · exact htodo _ hself'
        · rw [hnone] at hsome
          cases hsome
      · have haborted := hends hfalse
        rw [h.not_aborted hc] at haborted
        cases haborted
    · refine hother last hlast ((gone_congr (congrArg _ hslot) (congrArg _ hslot)
        (fun _ _ => by rw [hcontrol]) fun j hj => hne j ?_).1 hgone) hc
      rintro rfl
      exact hc hj

theorem inv_start {s t : System} (h : Inv s) {i : ℕ} (hstep : s.start i = some t) : Inv t := by
  rw [System.start] at hstep
  split at hstep
  next p todo hw =>
    cases hstep
    refine inv_goOn h hw (fun hends => ?_) (List.suffix_refl _)
      (fun last hlast hgone _ => h.clear last hlast hgone) ?_
    · rw [System.endsAtStart] at hends
      split at hends
      · cases hends
      split at hends
      next hab => exact hab.2
      · cases hends
    · intro last hlast hc hvalue htodo hfalse
      cases hends : s.endsAtStart i p with
      | none =>
        refine h.clear last hlast ((gone_of_controller hc).2 ⟨hvalue, fun w' hw' => ?_⟩)
        rw [hw] at hw'
        cases hw'
        exact htodo hends
      | some c =>
        -- a turn-off writes no entry
        obtain ⟨r, hr, hoff⟩ := Option.map_eq_some_iff.1 hvalue
        have hmem := (h.suffix i r _ false hr hw).subset List.mem_cons_self
        rw [hoff] at hmem
        rw [System.endsAtStart] at hends
        split at hends
        next hwrite =>
          rw [hwrite.1] at hmem
          exact absurd hmem (by decide)
        next hwrite =>
          refine absurd ?_ hfalse
          rw [System.endsAtStart, if_neg hwrite]
          split at hends
          next hab => rw [if_pos hab]
          next => cases hends
  · cases hstep

theorem inv_complete {s t : System} (h : Inv s) {i : ℕ} (hlate : NoLateEffect s (.complete i))
    (hstep : s.complete i = some t) : Inv t := by
  rw [System.complete] at hstep
  split at hstep
  next p todo hw =>
    cases hstep
    obtain ⟨hwatcher, hentry⟩ := hlate _ hw
    refine inv_goOn h hw (fun hends => ?_) (List.suffix_cons p todo) ?_ ?_
    · rw [System.endsAfter] at hends
      split at hends
      next hab => exact hab.2
      · split at hends <;> cases hends
    · intro last hlast hgone _
      refine clear_effect_of_clear hlast (h.clear last hlast hgone) ⟨?_, ?_⟩
      · rintro rfl rfl
        exact hwatcher rfl hgone
      · rintro rfl rfl
        exact hentry rfl hgone
    · intro last hlast hc hvalue htodo hfalse
      obtain ⟨r, hr, hoff⟩ := Option.map_eq_some_iff.1 hvalue
      have hmem := (h.suffix i r _ true hr hw).subset List.mem_cons_self
      rw [hoff] at hmem
      by_cases hp : last = p
      · exact hp ▸ clear_effect hlast s.host
      · have hnot : last ∉ todo := by
          rw [System.endsAfter] at htodo hfalse
          split at hfalse
          · exact absurd rfl hfalse
          next hab =>
            by_cases hnil : todo = []
            · rw [hnil]
              exact List.not_mem_nil
            · exact htodo (by rw [if_neg hab, if_neg hnil])
        have hgone : Gone last s := by
          refine (gone_of_controller hc).2 ⟨hvalue, fun w' hw' => ?_⟩
          rw [hw] at hw'
          cases hw'
          exact fun hmem' => (List.mem_cons.1 hmem').elim hp hnot
        refine clear_effect_of_clear hlast (h.clear last hlast hgone) ⟨?_, ?_⟩
        · rintro rfl
          exact absurd hmem (by decide)
        · rintro rfl
          exact absurd hmem (by decide)
  · cases hstep

/-- The runs after one has been settled. -/
theorem runs_finish {c c' : Toggle.State Unit} {i : ℕ} {completes : Bool}
    (h : c.finish i completes = some c') :
    (∃ r, c.runs[i]? = some r ∧ r.outcome = none) ∧
      c'.runs = c.runs.modify i fun r => { r with outcome := some completes } := by
  rw [Toggle.State.finish] at h
  split at h
  · cases h
  next r hr =>
    split at h
    · cases h
    next hout =>
      refine ⟨⟨r, hr, by simpa using hout⟩, ?_⟩
      simp only at h
      split at h <;> cases h <;> rfl

/-- The slot after a run has been settled: it is that of the run, which had the controller, or it
    is as before. -/
theorem slot_finish {c c' : Toggle.State Unit} (hc : Toggle.Inv c) {i : ℕ} {completes : Bool}
    (h : c.finish i completes = some c') :
    (∃ r, c.runs[i]? = some r ∧ (c.slot ()).controller = some i ∧ completes = true ∧
      c'.slot () = ⟨r.value, none, none, (c.slot ()).generation⟩) ∨
      c'.slot () = c.slot () := by
  rw [Toggle.State.finish] at h
  split at h
  · cases h
  next r hr =>
    split at h
    · cases h
    next hout =>
      simp only at h
      split at h
      next hdone =>
        cases h
        refine .inl ⟨r, hr, ?_, hdone.1, Toggle.slot_of_slots ?_⟩
        · refine ((hc ()).active i r ⟨hr, rfl⟩ ⟨?_, by simpa using hout⟩).1
          by_contra hab
          have hlt := (hc ()).aborted i r ⟨hr, rfl⟩ (by simpa using hab)
          exact absurd hdone.2 (Nat.ne_of_gt hlt)
        · simp [Toggle.State.put, Toggle.State.slot]
      next hnot =>
        cases h
        exact .inr rfl

theorem inv_settle {s t : System} (h : Inv s) {i : ℕ} (hstep : s.settle i = some t) : Inv t := by
  rw [System.settle] at hstep
  split at hstep
  next completes hw =>
    obtain ⟨c, hfinish, rfl⟩ := Option.map_eq_some_iff.1 hstep
    obtain ⟨⟨r, hr, -⟩, hruns⟩ := runs_finish hfinish
    have hback : ∀ (j : ℕ) (r' : Toggle.Run Unit), c.runs[j]? = some r' → ∃ r₀, s.control.runs[j]? = some r₀ ∧
        r'.value = r₀.value ∧ r'.aborted = r₀.aborted := by
      intro j r' hr'
      rw [hruns, List.getElem?_modify, Option.map_eq_map, Option.map_eq_some_iff] at hr'
      obtain ⟨r₀, hr₀, rfl⟩ := hr'
      exact ⟨r₀, hr₀, by split <;> rfl, by split <;> rfl⟩
    refine ⟨?_, by simp [hruns, h.length], ?_, ?_, fun last hlast hgone => ?_⟩
    · refine @Toggle.inv_finish Unit Unit _ _ _ h.control _ _ ?_ hfinish
      cases completes with
      | true => exact trivial
      | false => exact fun r' hr' => h.rejected i r' hr' hw
    · intro j r' todo working hr' hj
      obtain ⟨r₀, hr₀, hvalue, -⟩ := hback j r' hr'
      exact hvalue ▸ h.suffix j r₀ todo working hr₀ hj
    · intro j r' hr' hj
      obtain ⟨r₀, hr₀, -, habort⟩ := hback j r' hr'
      exact habort ▸ h.rejected j r₀ hr₀ hj
    · obtain ⟨r', hr', hcontroller, -, hslot⟩ | hslot := slot_finish h.control hfinish
      · -- the run that has ended has left nothing
        refine h.clear last hlast ((gone_of_controller hcontroller).2 ⟨?_, fun w' hw' => ?_⟩)
        · have hoff := (gone_of_none (by rw [System.slot, hslot])).1 hgone
          rw [System.slot, hslot] at hoff
          rw [hr']
          exact congrArg some hoff
        · rw [hw] at hw'
          cases hw'
          exact List.not_mem_nil
      · have hslot : ({ s with control := c } : System).slot = s.slot := hslot
        refine h.clear last hlast ((gone_congr (congrArg _ hslot) (congrArg _ hslot) (fun j _ => ?_)
          fun _ _ => rfl).1 hgone)
        show c.runs[j]?.map _ = _
        rw [hruns, List.getElem?_modify, Option.map_eq_map, Option.map_map]
        congr 1
        funext r'
        simp only [Function.comp_apply]
        split <;> rfl
  · cases hstep

theorem inv_tick {s : System} (h : Inv s) (due : Bool) : Inv (s.tick due) := by
  have hkeep : ∀ actions, Inv { s with actions } := fun actions =>
    ⟨h.control, h.length, h.suffix, h.rejected, h.clear⟩
  rw [System.tick]
  split
  · exact h
  split
  · split
    · exact hkeep _
    · exact h
  · exact hkeep _
  · exact h

theorem inv_land {s t : System} (h : Inv s) {n : ℕ} (hlate : NoLateEffect s (.land n))
    (hstep : s.land n = some t) : Inv t := by
  rw [System.land] at hstep
  split at hstep
  next a ha =>
    cases hstep
    refine ⟨h.control, h.length, h.suffix, h.rejected, fun last hlast hgone => ?_⟩
    have hclear : Clear last s.host := h.clear last hlast hgone
    rcases hlast with rfl | rfl
    · cases a <;> exact hclear
    · cases a with
      | restoreEntry => exact absurd hgone (hlate ha)
      | removeEntry => rfl
  · cases hstep

theorem inv_step {s t : System} {e : Event} (h : Inv s) (hlate : NoLateEffect s e)
    (hstep : step s e = some t) : Inv t := by
  cases e with
  | request value =>
    cases hstep
    exact inv_request h value
  | start i => exact inv_start h hstep
  | complete i => exact inv_complete h hlate hstep
  | settle i => exact inv_settle h hstep
  | tick due =>
    cases hstep
    exact inv_tick h due
  | land n => exact inv_land h hlate hstep

theorem Inv.offClean {s : System} (h : Inv s) : OffClean s := by
  intro hall hoff
  have hnone : s.slot.controller = none := by
    by_contra hsome
    obtain ⟨i, hi⟩ := Option.ne_none_iff_exists'.1 hsome
    obtain ⟨r, ⟨hr, -⟩, hactive⟩ := (h.control ()).controller i hi
    have hout := hall r (List.mem_of_getElem? hr)
    rw [hactive.2] at hout
    cases hout
  exact ⟨h.clear _ (.inl rfl) ((gone_of_none hnone).2 hoff),
    h.clear _ (.inr rfl) ((gone_of_none hnone).2 hoff)⟩

theorem inv_init {stored : Unit → Option ToggleState} {host : Host}
    (hclean : Toggle.readPersisted stored () = .off → host.watcher = false ∧ host.entry = false) :
    Inv (.init stored host) := by
  have hslot : (System.init stored host).slot = { persisted := Toggle.readPersisted stored () } := by
    cases h : stored () <;>
      simp [System.init, System.slot, Toggle.State.init, Toggle.State.slot, Toggle.readPersisted, h]
  refine ⟨Toggle.inv_init stored, rfl, ?_, ?_, fun last hlast hgone => ?_⟩
  · intro i r _ _ hr _
    cases hr
  · intro i r hr _
    cases hr
  · have hoff := (gone_of_none (by rw [hslot])).1 hgone
    rw [hslot] at hoff
    rcases hlast with rfl | rfl
    · exact (hclean hoff).1
    · exact (hclean hoff).2

/-! ## The marker -/

/-- While a run is under way the marker stands, and the reconciler is not at work. -/
def MarkerInv (s : System) : Prop :=
  (∃ i, s.Running i) → s.transitioning = true ∧ s.actions = []

theorem System.Alone.eq {s : System} {i j : ℕ} (h : s.Alone i) (hj : s.Running j) : j = i := by
  obtain ⟨w, hw, hrun⟩ := hj
  by_contra hne
  rw [h j (List.getElem?_eq_some_iff.1 hw).1 hne w hw] at hrun
  cases hrun

/-- A run goes on, or ends as the only one under way. -/
theorem markerInv_goOn {s : System} (h : MarkerInv s) {i : ℕ} (hi : s.Running i) {host : Host}
    {ends : Option Bool} {todo : List Phase} {w : Bool} (halone : ends.isSome → s.Alone i) :
    MarkerInv ({ s with host }.goOn i ends (.running todo w)) := by
  have hset : ∀ (next : Work) (j : ℕ), (∃ w ∈ (s.work.set i next)[j]?, w.isRunning) →
      s.Running j := by
    rintro next j ⟨w', hw', hrun⟩
    by_cases hij : i = j
    · exact hij ▸ hi
    · rw [List.getElem?_set_ne hij] at hw'
      exact ⟨w', hw', hrun⟩
  rintro ⟨j, hj⟩
  cases ends with
  | none => exact h ⟨j, hset _ j hj⟩
  | some c =>
    cases (halone rfl).eq (hset _ j hj)
    obtain ⟨w₀, hw₀, -⟩ := hi
    obtain ⟨w', hw', hrun⟩ := hj
    have hlt : i < s.work.length := (List.getElem?_eq_some_iff.1 hw₀).1
    rw [System.goOn, List.getElem?_set_self hlt] at hw'
    cases hw'
    cases hrun

theorem markerInv_step {s t : System} {e : Event} (h : MarkerInv s) (hkept : MarkerKept s e)
    (hstep : step s e = some t) : MarkerInv t := by
  cases e with
  | request value =>
    cases hstep
    obtain heq | ⟨control, heq, -, -, hflight, hpersisted⟩ := request_cases s value
    · rw [heq]
      exact h
    · rw [heq]
      exact fun _ => ⟨rfl, hkept hflight hpersisted⟩
  | start i =>
    simp only [step, System.start] at hstep
    split at hstep
    next p todo hw =>
      cases hstep
      exact markerInv_goOn h ⟨_, hw, rfl⟩ (hkept _ hw p rfl)
    · cases hstep
  | complete i =>
    simp only [step, System.complete] at hstep
    split at hstep
    next p todo hw =>
      cases hstep
      exact markerInv_goOn h ⟨_, hw, rfl⟩ (hkept _ hw p rfl)
    · cases hstep
  | settle i =>
    simp only [step, System.settle] at hstep
    split at hstep
    · obtain ⟨c, -, rfl⟩ := Option.map_eq_some_iff.1 hstep
      exact h
    · cases hstep
  | tick due =>
    cases hstep
    intro hrun
    have hsame : (s.tick due).work = s.work := by
      rw [System.tick]
      repeat' split
      all_goals rfl
    simp only [System.Running, hsame] at hrun
    have hmarker := h hrun
    rw [System.tick, if_pos hmarker.1]
    exact hmarker
  | land n =>
    simp only [step, System.land] at hstep
    split at hstep
    next a ha =>
      cases hstep
      intro hrun
      rw [(h hrun).2] at ha
      cases ha
    · cases hstep

theorem MarkerInv.tickQuiet {s : System} (h : MarkerInv s) : TickQuiet s := by
  intro hrun
  obtain ⟨hmarker, hactions⟩ := h hrun
  refine ⟨fun due => ?_, hactions⟩
  rw [System.tick, if_pos hmarker]

/-! ## Runs of the system -/

/-- In every run of the system from a workspace that is on, or off with nothing left: without
    late effects nothing is left when all runs have returned and the workspace is off; and while
    the marker is kept the reconciler keeps still whenever a run is under way. -/
theorem offClean_of_run {stored : Unit → Option ToggleState} {host : Host}
    (hclean : Toggle.readPersisted stored () = .off → host.watcher = false ∧ host.entry = false)
    {es : List Event} {s : System}
    (h : Transition.exec step (System.init stored host) es = some s) :
    (Transition.Always step NoLateEffect (System.init stored host) es → OffClean s) ∧
      (Transition.Always step MarkerKept (System.init stored host) es → TickQuiet s) := by
  constructor
  · intro hlate
    have hinv : Inv s := Transition.exec_invariant (fun _ _ _ => inv_step) h hlate (inv_init hclean)
    exact hinv.offClean
  · intro hkept
    have hinit : MarkerInv (System.init stored host) := by
      rintro ⟨i, w, hw, -⟩
      cases hw
    have hmarker : MarkerInv s :=
      Transition.exec_invariant (fun _ _ _ => markerInv_step) h hkept hinit
    exact hmarker.tickQuiet

/-- A late step leaves what the turn-off has removed. -/
theorem not_clear_of_late {s t : System} {i : ℕ} {p : Phase} {todo : List Phase}
    (hw : s.work[i]? = some (.running (p :: todo) true)) (hstep : s.complete i = some t) :
    (p = .startWatcher → ¬ Clear .releaseLiveIndexing t.host) ∧
      (p = .writeMcpEntry → ¬ Clear .removeMcpEntry t.host) := by
  have hhost : t.host = p.effect s.host := by
    rw [System.complete, hw] at hstep
    simp only at hstep
    cases hstep
    cases s.endsAfter i p todo <;> rfl
  rw [hhost]
  constructor <;> rintro rfl hclear <;> cases hclear

/-! ## A turn-on that writes its entry late -/

/-- A workspace that has never been on. -/
def fresh : System := .init (fun _ => none) ⟨false, false⟩

/-- A turn-on and then a turn-off, one after the other. -/
def inTurn : List Event :=
  [.request .on, .complete 0, .start 0, .complete 0, .start 0, .complete 0, .start 0, .complete 0,
    .start 0, .complete 0, .start 0, .complete 0, .settle 0,
    .request .off, .complete 1, .start 1, .complete 1, .start 1, .complete 1, .start 1, .complete 1,
    .start 1, .complete 1, .settle 1, .tick true]

theorem offClean_of_run_inTurn :
    ∃ s, Transition.exec step fresh inTurn = some s ∧ OffClean s ∧ TickQuiet s := by
  obtain ⟨s, hs⟩ : ∃ s, Transition.exec step fresh inTurn = some s := ⟨_, rfl⟩
  have h := offClean_of_run (fun _ => ⟨rfl, rfl⟩) hs
  have hlate : Transition.Always step NoLateEffect fresh inTurn := by decide +kernel
  have hkept : Transition.Always step MarkerKept fresh inTurn := by decide +kernel
  exact ⟨s, hs, h.1 hlate, h.2 hkept⟩

/-- A turn-on writes its entry when the turn-off that has aborted it is over. -/
def lateEntry : List Event :=
  [.request .on, .complete 0, .start 0, .complete 0, .start 0, .complete 0, .start 0, .complete 0,
    .start 0, .complete 0, .start 0,
    .request .off, .complete 1, .start 1, .complete 1, .start 1, .complete 1, .start 1, .complete 1,
    .start 1, .complete 1, .settle 1,
    .complete 0, .settle 0]

/-- Every run leaves nothing when the workspace is off, and the reconciler keeps still. -/
def LeavesNothing : Prop :=
  ∀ es s, Transition.exec step fresh es = some s → OffClean s ∧ TickQuiet s

theorem not_leavesNothing : ¬ LeavesNothing := by
  intro h
  obtain ⟨s, hs, hout, hoff, hentry⟩ : ∃ s, Transition.exec step fresh lateEntry = some s ∧
      (s.control.runs.all fun r => r.outcome.isSome) ∧ s.slot.persisted = .off ∧
      s.host.entry = true := ⟨_, rfl, rfl, rfl, rfl⟩
  have hclean := (h lateEntry s hs).1 (by simpa using hout) hoff
  rw [hentry] at hclean
  exact absurd hclean.2 (by simp)

end Cognis.Extension.Activation
