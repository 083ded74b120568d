/-
  Admission of tool work (`caps.rs`, `server.rs`): any number of clients whose requests go
  through `tools_call` and `resources_read`, one atomic operation or engine call at a time.

  A call of `tools/call` reserves a slot of the limiter in a compare-and-swap loop and holds
  it, through every early return, until it is dropped. `resources/read` reaches the same
  dispatcher and takes no slot.

  * `exec_slotInvariant`: the counter is the number of slots held, and at most the cap.
  * `admission_bounds_iff`: a run is bounded throughout exactly when none of its steps starts
    a `resources/read`.
-/
import Cognis.Lib.Pool
import Cognis.Lib.Transition

namespace Cognis

open Transition Pool

/-- Where a client is. -/
inductive CallPc
  /-- between two requests -/
  | idle
  /-- `acquire`, before the load -/
  | loading
  /-- in the loop of `acquire`, with the counter it has observed -/
  | reserving (current : ℕ)
  /-- `acquire` has failed; the envelope is on its way -/
  | rejected
  /-- admitted, before `missing_required_indexes` -/
  | checking
  /-- before `Deadline::start` -/
  | starting
  /-- before `open_snapshot` -/
  | pinning
  /-- in `dispatch_tool` -/
  | dispatching
  /-- the payload is there, or a panic unwinds; the slot is dropped next -/
  | dropping
  /-- the slot is free; the response is on its way -/
  | answering
  /-- `resources_read`, before `Deadline::start` -/
  | readStarting
  /-- before `open_snapshot` -/
  | readPinning
  /-- in `dispatch_tool` -/
  | readDispatching
deriving DecidableEq

/-- A client, and whether its request has reached the engine or a deadline. -/
structure Call where
  pc : CallPc := .idle
  reached : Bool := false
deriving DecidableEq

/-- What a client does next: send a request, or go on with it. A step of `acquire` may fail
    spuriously, and a step that calls the engine may fail or panic. -/
inductive CallAction
  | callTool
  | readResource
  | proceed
  | spurious
  | fail
deriving DecidableEq

/-- One step of a client, on the counter `in_flight`. -/
def callStep (cap inFlight : ℕ) (c : Call) : CallAction → Option (ℕ × Call)
  | .callTool => if c.pc = .idle then some (inFlight, ⟨.loading, false⟩) else none
  | .readResource => if c.pc = .idle then some (inFlight, ⟨.readStarting, false⟩) else none
  | .proceed =>
    match c.pc with
    | .idle => none
    | .loading =>
      -- a cap of 0 admits without a slot
      if cap = 0 then some (inFlight, { c with pc := .checking })
      else some (inFlight, { c with pc := .reserving inFlight })
    | .reserving current =>
      if cap ≤ current then some (inFlight, { c with pc := .rejected })
      else if inFlight = current then some (current + 1, { c with pc := .checking })
      else some (inFlight, { c with pc := .reserving inFlight })
    | .checking => some (inFlight, ⟨.starting, true⟩)
    | .starting => some (inFlight, ⟨.pinning, true⟩)
    | .pinning => some (inFlight, ⟨.dispatching, true⟩)
    | .dispatching => some (inFlight, ⟨.dropping, true⟩)
    | .dropping => some (if cap = 0 then inFlight else inFlight - 1, { c with pc := .answering })
    | .rejected | .answering => some (inFlight, { c with pc := .idle })
    | .readStarting => some (inFlight, ⟨.readPinning, true⟩)
    | .readPinning => some (inFlight, ⟨.readDispatching, true⟩)
    | .readDispatching => some (inFlight, ⟨.answering, true⟩)
  | .spurious =>
    match c.pc with
    | .reserving current =>
      if current < cap then some (inFlight, { c with pc := .reserving inFlight }) else none
    | _ => none
  | .fail =>
    match c.pc with
    | .checking | .pinning | .dispatching => some (inFlight, ⟨.dropping, true⟩)
    | .readPinning | .readDispatching => some (inFlight, ⟨.answering, true⟩)
    | _ => none

/-- The server and its clients. -/
structure Admission (ι : Type) where
  inFlight : ℕ
  calls : ι → Call

namespace Admission

variable {ι : Type}

def init : Admission ι := ⟨0, fun _ => {}⟩

/-- A step of one client. -/
def step [DecidableEq ι] (cap : ℕ) (s : Admission ι) (l : ι × CallAction) : Option (Admission ι) :=
  (callStep cap s.inFlight (s.calls l.1) l.2).map fun (inFlight, c) =>
    { inFlight, calls := Function.update s.calls l.1 c }

end Admission

namespace CallPc

/-- The client holds a slot of the limiter. -/
def holdsSlot : CallPc → Bool
  | checking | starting | pinning | dispatching | dropping => true
  | _ => false

/-- The client reads a resource. -/
def reads : CallPc → Bool
  | readStarting | readPinning | readDispatching => true
  | _ => false

/-- The client does the work that a dispatch is part of. -/
def running (pc : CallPc) : Bool := pc.holdsSlot || pc.reads

/-- The client has asked for a slot and has none. -/
def waiting : CallPc → Bool
  | loading | reserving _ | rejected => true
  | _ => false

end CallPc

/-- What a step of a client does to the limiter. -/
inductive SlotEffect (cap inFlight inFlight' : ℕ) (pc pc' : CallPc) : Prop
  | keep : inFlight' = inFlight → pc'.holdsSlot = pc.holdsSlot →
      SlotEffect cap inFlight inFlight' pc pc'
  | reserve : inFlight < cap → inFlight' = inFlight + 1 → pc.holdsSlot = false →
      pc'.holdsSlot = true → SlotEffect cap inFlight inFlight' pc pc'
  | drop : inFlight' = inFlight - 1 → pc.holdsSlot = true → pc'.holdsSlot = false →
      SlotEffect cap inFlight inFlight' pc pc'

section

variable {cap inFlight inFlight' : ℕ} {c c' : Call} {a : CallAction}

theorem callStep_slotEffect (hcap : 0 < cap) (h : callStep cap inFlight c a = some (inFlight', c')) :
    SlotEffect cap inFlight inFlight' c.pc c'.pc := by
  obtain ⟨pc, reached⟩ := c
  cases a with
  | callTool | readResource =>
    simp only [callStep] at h
    split_ifs at h with hpc
    cases h
    exact .keep rfl (by rw [hpc]; rfl)
  | spurious =>
    simp only [callStep] at h
    split at h
    · split_ifs at h
      cases h
      exact .keep rfl rfl
    · cases h
  | fail =>
    simp only [callStep] at h
    split at h <;> cases h <;> exact .keep rfl rfl
  | proceed =>
    cases pc with
    | idle => cases h
    | loading =>
      simp only [callStep, Nat.pos_iff_ne_zero.1 hcap, if_false] at h
      cases h
      exact .keep rfl rfl
    | reserving current =>
      simp only [callStep] at h
      split_ifs at h with hfull hcas
      · cases h
        exact .keep rfl rfl
      · cases h
        exact .reserve (by omega) (by omega) rfl rfl
      · cases h
        exact .keep rfl rfl
    | dropping =>
      simp only [callStep, Nat.pos_iff_ne_zero.1 hcap, if_false] at h
      cases h
      exact .drop rfl rfl rfl
    | rejected | checking | starting | pinning | dispatching | answering | readStarting
    | readPinning | readDispatching =>
      cases h
      exact .keep rfl rfl

/-- Nothing before the admission of a call reaches the engine or a deadline. -/
theorem callStep_waiting (h : callStep cap inFlight c a = some (inFlight', c'))
    (hc : c.pc.waiting → c.reached = false) : c'.pc.waiting → c'.reached = false := by
  obtain ⟨pc, reached⟩ := c
  cases a with
  | callTool | readResource =>
    simp only [callStep] at h
    split_ifs at h
    cases h
    exact fun _ => rfl
  | spurious =>
    simp only [callStep] at h
    split at h
    · split_ifs at h
      cases h
      exact fun _ => hc rfl
    · cases h
  | fail =>
    simp only [callStep] at h
    split at h <;> cases h <;> exact fun hw => absurd hw Bool.false_ne_true
  | proceed =>
    cases pc with
    | idle => cases h
    | loading | reserving current =>
      simp only [callStep] at h
      split_ifs at h <;> cases h <;> exact fun _ => hc rfl
    | rejected | checking | starting | pinning | dispatching | dropping | answering | readStarting
    | readPinning | readDispatching =>
      cases h
      exact fun hw => absurd hw Bool.false_ne_true

/-- Only the request itself starts the read of a resource. -/
theorem callStep_reads (h : callStep cap inFlight c a = some (inFlight', c'))
    (ha : a ≠ .readResource) (hc : c.pc.reads = false) : c'.pc.reads = false := by
  obtain ⟨pc, reached⟩ := c
  cases a with
  | readResource => exact absurd rfl ha
  | callTool =>
    simp only [callStep] at h
    split_ifs at h
    cases h
    rfl
  | spurious =>
    simp only [callStep] at h
    split at h
    · split_ifs at h
      cases h
      rfl
    · cases h
  | fail =>
    simp only [callStep] at h
    split at h <;> cases h <;> rfl
  | proceed =>
    cases pc with
    | idle => cases h
    | readStarting | readPinning | readDispatching => exact absurd hc.symm Bool.false_ne_true
    | loading | reserving current =>
      simp only [callStep] at h
      split_ifs at h <;> cases h <;> rfl
    | rejected | checking | starting | pinning | dispatching | dropping | answering =>
      cases h
      rfl

end

namespace Admission

theorem step_eq {ι : Type} [DecidableEq ι] {cap : ℕ} {s t : Admission ι} {l : ι × CallAction}
    (h : step cap s l = some t) :
    ∃ inFlight c, callStep cap s.inFlight (s.calls l.1) l.2 = some (inFlight, c) ∧
      t = { inFlight, calls := Function.update s.calls l.1 c } := by
  obtain ⟨⟨inFlight, c⟩, hstep, rfl⟩ := Option.map_eq_some_iff.1 h
  exact ⟨inFlight, c, hstep, rfl⟩

variable {ι : Type} [Fintype ι] {cap : ℕ} {s t : Admission ι}

/-- The number of slots held. -/
def slotsHeld (s : Admission ι) : ℕ := count (fun c : Call => c.pc.holdsSlot) s.calls

/-- The number of dispatches running. -/
def dispatches (s : Admission ι) : ℕ := count (fun c : Call => c.pc.running) s.calls

/-- A dispatch has a slot, or it is for a resource. -/
theorem dispatches_eq (s : Admission ι) :
    s.dispatches = s.slotsHeld + count (fun c : Call => c.pc.reads) s.calls := by
  refine count_or (fun c => ?_) (fun c => ?_) s.calls
  · rw [CallPc.running, Bool.or_eq_true]
  · cases c.pc <;> simp [CallPc.holdsSlot, CallPc.reads]

/-- The counter is the number of slots held, and at most the cap; nobody has reached the
    engine before it was admitted. -/
structure SlotInvariant (cap : ℕ) (s : Admission ι) : Prop where
  counted : s.inFlight = s.slotsHeld
  bounded : s.inFlight ≤ cap
  waiting : ∀ i, (s.calls i).pc.waiting → (s.calls i).reached = false

/-- What admission is for: at most `cap` dispatches run, the counter is their number, it is
    0 when none runs, and a rejected call has reached neither the engine nor a deadline. -/
structure Bounds (cap : ℕ) (s : Admission ι) : Prop where
  bounded : s.dispatches ≤ cap
  counted : s.inFlight = s.dispatches
  quiescent : (∀ i, ¬ (s.calls i).pc.running) → s.inFlight = 0
  rejected : ∀ i, (s.calls i).pc = .rejected → (s.calls i).reached = false

/-- The slots are the dispatches exactly while nobody reads a resource. -/
theorem SlotInvariant.bounds_iff_noReads (hs : SlotInvariant cap s) :
    Bounds cap s ↔ ∀ i, ¬ (s.calls i).pc.reads := by
  have heq := s.dispatches_eq
  constructor
  · intro hb
    have hcounted := hb.counted
    rw [hs.counted] at hcounted
    have hreads : count (fun c : Call => c.pc.reads) s.calls = 0 := by omega
    exact count_eq_zero_iff.1 hreads
  · intro hreads
    rw [count_eq_zero_iff.2 hreads, add_zero, ← hs.counted] at heq
    refine ⟨heq ▸ hs.bounded, heq.symm, fun hidle => ?_, fun i hi => ?_⟩
    · rw [← heq]
      exact count_eq_zero_iff.2 hidle
    · exact hs.waiting i (by rw [hi]; rfl)

theorem init_slotInvariant : SlotInvariant cap (init : Admission ι) where
  counted := (count_eq_zero_iff.2 fun _ => Bool.false_ne_true).symm
  bounded := Nat.zero_le _
  waiting _ _ := rfl

variable [DecidableEq ι]

theorem step_slotInvariant (hcap : 0 < cap) {l : ι × CallAction} (hs : SlotInvariant cap s)
    (h : step cap s l = some t) : SlotInvariant cap t := by
  obtain ⟨inFlight, c, hstep, rfl⟩ := step_eq h
  have hcount := count_update (P := fun c : Call => c.pc.holdsSlot) s.calls l.1 c
  have hcounted : s.inFlight = count (fun c : Call => c.pc.holdsSlot) s.calls := hs.counted
  have hbounded := hs.bounded
  refine ⟨?_, ?_, fun i => ?_⟩
  · show inFlight = count (fun c : Call => c.pc.holdsSlot) (Function.update s.calls l.1 c)
    cases callStep_slotEffect hcap hstep with
    | keep hin hslot => rw [hslot] at hcount; omega
    | reserve _ hin hold hnew => rw [if_neg (by simp [hold]), if_pos hnew] at hcount; omega
    | drop hin hold hnew => rw [if_pos hold, if_neg (by simp [hnew])] at hcount; omega
  · show inFlight ≤ cap
    cases callStep_slotEffect hcap hstep <;> omega
  · show (Function.update s.calls l.1 c i).pc.waiting →
      (Function.update s.calls l.1 c i).reached = false
    by_cases hi : i = l.1
    · subst hi
      rw [Function.update_self]
      exact callStep_waiting hstep (hs.waiting _)
    · rw [Function.update_of_ne hi]
      exact hs.waiting i

theorem exec_slotInvariant (hcap : 0 < cap) {run : List (ι × CallAction)}
    (h : exec (step cap) init run = some t) : SlotInvariant cap t :=
  exec_preserves (fun _ _ _ hs => step_slotInvariant hcap hs) h init_slotInvariant

omit [Fintype ι] in
theorem step_not_reads {l : ι × CallAction} (hl : l.2 ≠ .readResource)
    (hs : ∀ i, ¬ (s.calls i).pc.reads) (h : step cap s l = some t) (i : ι) :
    ¬ (t.calls i).pc.reads := by
  obtain ⟨inFlight, c, hstep, rfl⟩ := step_eq h
  show ¬ (Function.update s.calls l.1 c i).pc.reads
  by_cases hi : i = l.1
  · subst hi
    rw [Function.update_self, callStep_reads hstep hl (Bool.not_eq_true _ ▸ hs _)]
    exact Bool.false_ne_true
  · rw [Function.update_of_ne hi]
    exact hs i

omit [Fintype ι] in
/-- Without such requests nobody ever reads a resource. -/
theorem exec_not_reads {run : List (ι × CallAction)} (hrun : ∀ l ∈ run, l.2 ≠ .readResource)
    (h : exec (step cap) init run = some t) : ∀ i, ¬ (t.calls i).pc.reads :=
  exec_invariant (I := fun s : Admission ι => ∀ i, ¬ (s.calls i).pc.reads)
    (fun _ _ _ hs hl hstep => step_not_reads hl hs hstep) h (always_of_forall hrun init)
    fun _ => Bool.false_ne_true

omit [Fintype ι] in
/-- A step that starts the read of a resource. -/
theorem step_readResource {i : ι} (h : step cap s (i, .readResource) = some t) :
    (t.calls i).pc.reads := by
  obtain ⟨inFlight, c, hstep, rfl⟩ := step_eq h
  simp only [callStep] at hstep
  split_ifs at hstep
  cases hstep
  show (Function.update s.calls i _ i).pc.reads
  rw [Function.update_self]
  rfl

/-- The bounds hold throughout a run exactly when none of its steps starts the read of a
    resource. -/
theorem admission_bounds_iff (cap : ℕ) (hcap : 0 < cap) (run : List (ι × CallAction))
    (h : (exec (step cap) (init : Admission ι) run).isSome) :
    (∀ pre post s, run = pre ++ post → exec (step cap) init pre = some s → Bounds cap s) ↔
      ∀ l ∈ run, l.2 ≠ .readResource := by
  constructor
  · rintro hall ⟨i, a⟩ hl rfl
    obtain ⟨pre, post, rfl⟩ := List.append_of_mem hl
    rw [exec_append_eq] at h
    cases hpre : exec (step cap) (init : Admission ι) pre with
    | none => rw [hpre] at h; cases h
    | some s =>
      simp only [hpre, Option.bind_some, exec] at h
      cases hstep : step cap s (i, .readResource) with
      | none => rw [hstep] at h; cases h
      | some t =>
        have ht : exec (step cap) init (pre ++ [(i, .readResource)]) = some t := by
          rw [exec_append hpre]
          simp only [exec, hstep]
        have hbounds := hall (pre ++ [(i, .readResource)]) post t (by simp) ht
        exact (exec_slotInvariant hcap ht).bounds_iff_noReads.1 hbounds i (step_readResource hstep)
  · rintro hrun pre post s rfl hs
    refine (exec_slotInvariant hcap hs).bounds_iff_noReads.2 (exec_not_reads (fun l hl => ?_) hs)
    exact hrun l (List.mem_append_left _ hl)

/-- Two clients, one of which is admitted and the other reads a resource. -/
def readBesideCall : List (Bool × CallAction) :=
  [(false, .callTool), (false, .proceed), (false, .proceed), (true, .readResource),
    (true, .proceed)]

/-- Two calls, one of which fails and frees its slot for the other. -/
def failThenCall : List (Bool × CallAction) :=
  [(false, .callTool), (true, .callTool), (false, .proceed), (true, .proceed), (false, .proceed),
    (false, .fail), (true, .spurious), (true, .proceed), (true, .proceed), (false, .proceed)]

theorem admission_bounds_failThenCall :
    (∀ pre post s, failThenCall = pre ++ post → exec (step 1) init pre = some s → Bounds 1 s) ↔
      ∀ l ∈ failThenCall, l.2 ≠ .readResource :=
  admission_bounds_iff 1 Nat.zero_lt_one failThenCall (by decide)

/-- Two dispatches run under a cap of 1. -/
theorem not_admission_bounds : ¬ ∀ (run : List (Bool × CallAction)) (s : Admission Bool),
    exec (step 1) init run = some s → Bounds 1 s := by
  intro h
  have hrun : (exec (step 1) (init : Admission Bool) readBesideCall).map dispatches = some 2 := by
    decide
  obtain ⟨s, hs, htwo⟩ := Option.map_eq_some_iff.1 hrun
  exact absurd (h readBesideCall s hs).bounded (by omega)

end Admission

end Cognis
