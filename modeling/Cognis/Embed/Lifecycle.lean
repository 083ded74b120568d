/-
  The model slot of `cognis-embed` (`lifecycle.rs`): a resident model that is loaded on
  demand by one caller at a time, counted while borrowed and evicted when idle.

  * `SlotState` with `tryBorrow`, `release` and `idleEvict`, the critical sections that
    need no caller; `Phase` is the place of a caller in `borrow_or_load`;
  * `SlotSystem.step`: the critical sections, the factory run and the clock as steps of
    any number of callers;
  * `modelSlot_accounting`: the in-flight count is the number of live borrows;
  * `modelSlot_single_flight`: one load at a time, no waiter left behind, no load within
    the cooldown.
-/
import Cognis.Lib.Transition
import Mathlib.Logic.Function.Basic
import Mathlib.Data.Nat.Basic
import Mathlib.Tactic.Common

namespace Cognis

open Transition

/-- `SlotState`; instants and durations are natural numbers. -/
inductive SlotState (ε : Type*) where
  | empty
  | loading (waiters : ℕ)
  | ready (embedder : ε) (inFlightCount lastUsed : ℕ)
  | failed (until_ : ℕ) (message : String)
  deriving DecidableEq, Repr

/-- `EvictOutcome` -/
inductive EvictOutcome where
  | evicted
  | alreadyEmpty
  | inFlight (count : ℕ)
  | notIdle (idleFor need : ℕ)
  deriving DecidableEq, Repr

namespace SlotState

variable {ε : Type*}

/-- `ModelSlot::from_optional` -/
def fromOptional (embedder : Option ε) (now : ℕ) : SlotState ε :=
  match embedder with
  | some e => .ready e 0 now
  | none => .empty

/-- A load is under way. -/
def IsLoading (slot : SlotState ε) : Prop := ∃ waiters, slot = .loading waiters

/-- `try_borrow`: the slot after it, and the model borrowed. -/
def tryBorrow (slot : SlotState ε) (now : ℕ) : SlotState ε × Option ε :=
  match slot with
  | .ready e n _ => (.ready e (n + 1) now, some e)
  | slot => (slot, none)

/-- `release_borrow`: the count never goes below zero. -/
def release (slot : SlotState ε) (now : ℕ) : SlotState ε :=
  match slot with
  | .ready e n _ => .ready e (n - 1) now
  | slot => slot

/-- `try_idle_evict` -/
def idleEvict (slot : SlotState ε) (now idleAfter : ℕ) : SlotState ε × EvictOutcome :=
  match slot with
  | .ready e n lastUsed =>
    if 0 < n then (.ready e n lastUsed, .inFlight n)
    else if now - lastUsed < idleAfter then
      (.ready e n lastUsed, .notIdle (now - lastUsed) idleAfter)
    else (.empty, .evicted)
  | slot => (slot, .alreadyEmpty)

/-- What `try_borrow` does. -/
theorem tryBorrow_cases (slot : SlotState ε) (now : ℕ) :
    (∃ e n lastUsed, slot = .ready e n lastUsed ∧
      slot.tryBorrow now = (.ready e (n + 1) now, some e)) ∨
    slot.tryBorrow now = (slot, none) := by
  cases slot with
  | ready e n lastUsed => exact .inl ⟨e, n, lastUsed, rfl, rfl⟩
  | empty => exact .inr rfl
  | loading waiters => exact .inr rfl
  | failed until_ message => exact .inr rfl

/-- What `try_idle_evict` does. -/
theorem idleEvict_cases (slot : SlotState ε) (now idleAfter : ℕ) :
    (∃ e lastUsed, slot = .ready e 0 lastUsed ∧
      slot.idleEvict now idleAfter = (.empty, .evicted)) ∨
    ((slot.idleEvict now idleAfter).1 = slot ∧ (slot.idleEvict now idleAfter).2 ≠ .evicted) := by
  cases slot with
  | ready e n lastUsed =>
    unfold idleEvict
    dsimp only
    split_ifs with hn
    · exact .inr ⟨rfl, nofun⟩
    · exact .inr ⟨rfl, nofun⟩
    · obtain rfl : n = 0 := by omega
      exact .inl ⟨e, lastUsed, rfl, rfl⟩
  | empty => exact .inr ⟨rfl, nofun⟩
  | loading waiters => exact .inr ⟨rfl, nofun⟩
  | failed until_ message => exact .inr ⟨rfl, nofun⟩

end SlotState

/-- The place of a caller in `borrow_or_load`. -/
inductive Phase (ε : Type*) where
  /-- outside -/
  | idle
  /-- before the lock of an iteration -/
  | demanding (cooldown : ℕ)
  /-- in `wait_while`; `notified` by the end of a load -/
  | waiting (cooldown : ℕ) (notified : Bool)
  /-- it has claimed the load, and its factory runs -/
  | running (cooldown : ℕ)
  /-- its factory has returned, and the outcome is not published -/
  | returned (cooldown : ℕ) (result : Except String ε)

namespace Phase

variable {ε : Type*}

/-- In `run_factory_and_borrow`: between the claim of a load and its publication. -/
def InLoad : Phase ε → Prop
  | .running _ | .returned _ _ => True
  | _ => False

/-- `notify_all` -/
def notify : Phase ε → Phase ε
  | .waiting cooldown _ => .waiting cooldown true
  | phase => phase

end Phase

/-- The slot, the callers `κ`, the live borrows by their models, and the clock. -/
structure SlotSystem (κ ε : Type*) where
  slot : SlotState ε
  phase : κ → Phase ε
  borrows : List ε
  now : ℕ

namespace SlotSystem

variable {κ ε : Type*}

/-- A fresh slot. -/
def init (embedder : Option ε) (now : ℕ) : SlotSystem κ ε :=
  ⟨.fromOptional embedder now, fun _ => .idle, [], now⟩

/-- A step: a critical section, the return of a factory, or the passing of time. -/
inductive Label (κ ε : Type*) where
  | tick (d : ℕ)
  | tryBorrow
  | demand (c : κ) (cooldown : ℕ)
  | lock (c : κ)
  | wake (c : κ)
  | factoryReturns (c : κ) (result : Except String ε)
  | publish (c : κ)
  | dropBorrow (i : ℕ)
  | idleEvict (idleAfter : ℕ)

section Steps
variable [DecidableEq κ]

/-- The caller `c` moves on. -/
def goTo (s : SlotSystem κ ε) (c : κ) (phase : Phase ε) : SlotSystem κ ε :=
  { s with phase := Function.update s.phase c phase }

/-- An iteration of the loop of `borrow_or_load`. -/
def lockStep (s : SlotSystem κ ε) (c : κ) (cooldown : ℕ) : SlotSystem κ ε :=
  match s.slot with
  | .ready e n _ =>
    { s.goTo c .idle with slot := .ready e (n + 1) s.now, borrows := e :: s.borrows }
  | .failed until_ _ =>
    if s.now < until_ then s.goTo c .idle
    -- the cooldown is over: the next iteration finds the slot empty
    else { s with slot := .empty }
  | .loading waiters =>
    { s.goTo c (.waiting cooldown false) with slot := .loading (waiters + 1) }
  | .empty => { s.goTo c (.running cooldown) with slot := .loading 0 }

/-- The second critical section of `run_factory_and_borrow`. -/
def publishStep (s : SlotSystem κ ε) (c : κ) (cooldown : ℕ) (result : Except String ε) :
    SlotSystem κ ε :=
  let phase := fun c' => if c' = c then .idle else (s.phase c').notify
  match result with
  | .ok e => { s with slot := .ready e 1 s.now, borrows := e :: s.borrows, phase }
  | .error message => { s with slot := .failed (s.now + cooldown) message, phase }

/-- One step; `none` where it is not enabled. -/
def step (s : SlotSystem κ ε) : Label κ ε → Option (SlotSystem κ ε)
  | .tick d => some { s with now := s.now + d }
  | .tryBorrow =>
    let (slot, borrowed) := s.slot.tryBorrow s.now
    some { s with slot, borrows := borrowed.toList ++ s.borrows }
  | .demand c cooldown =>
    match s.phase c with
    | .idle => some (s.goTo c (.demanding cooldown))
    | _ => none
  | .lock c =>
    match s.phase c with
    | .demanding cooldown => some (s.lockStep c cooldown)
    | _ => none
  | .wake c =>
    -- a caller may also wake without a notification
    match s.phase c with
    | .waiting cooldown _ =>
      match s.slot with
      | .loading _ => some (s.goTo c (.waiting cooldown false))
      | _ => some (s.goTo c (.demanding cooldown))
    | _ => none
  | .factoryReturns c result =>
    match s.phase c with
    | .running cooldown => some (s.goTo c (.returned cooldown result))
    | _ => none
  | .publish c =>
    match s.phase c with
    | .returned cooldown result => some (s.publishStep c cooldown result)
    | _ => none
  | .dropBorrow i =>
    if i < s.borrows.length then
      some { s with slot := s.slot.release s.now, borrows := s.borrows.eraseIdx i }
    else none
  | .idleEvict idleAfter => some { s with slot := (s.slot.idleEvict s.now idleAfter).1 }

end Steps

/-- What every step preserves. -/
structure Consistent (s : SlotSystem κ ε) : Prop where
  /-- the count of a resident model is the number of its borrows -/
  counted : ∀ e n lastUsed, s.slot = .ready e n lastUsed → s.borrows = List.replicate n e
  /-- only a resident model is borrowed -/
  unborrowed : (∀ e n lastUsed, s.slot ≠ .ready e n lastUsed) → s.borrows = []
  /-- a load under way is some caller's -/
  loaded : s.slot.IsLoading → ∃ c, (s.phase c).InLoad
  loading : ∀ c, (s.phase c).InLoad → s.slot.IsLoading
  unique : ∀ c c', (s.phase c).InLoad → (s.phase c').InLoad → c = c'
  /-- a caller waits without notification only for a load under way -/
  waited : ∀ c cooldown, s.phase c = .waiting cooldown false → s.slot.IsLoading

/-! ## Accounting and single flight as an invariant -/

variable {s t : SlotSystem κ ε} {c : κ}

theorem consistent_init (embedder : Option ε) (now : ℕ) :
    Consistent (init embedder now : SlotSystem κ ε) where
  counted e n lastUsed h := by
    cases embedder with
    | none => cases h
    | some e' => cases h; rfl
  unborrowed _ := rfl
  loaded h := by
    obtain ⟨waiters, h⟩ := h
    cases embedder <;> cases h
  loading _ h := h.elim
  unique _ _ h := h.elim
  waited _ _ h := by cases h

/-- The slot and the borrows change together, and a load stays a load. -/
theorem Consistent.withSlot (h : Consistent s) {slot : SlotState ε} {borrows : List ε} {now : ℕ}
    (hcount : ∀ e n lastUsed, slot = .ready e n lastUsed → borrows = List.replicate n e)
    (hnone : (∀ e n lastUsed, slot ≠ .ready e n lastUsed) → borrows = [])
    (hload : slot.IsLoading ↔ s.slot.IsLoading) :
    Consistent { s with slot, borrows, now } where
  counted := hcount
  unborrowed := hnone
  loaded hl := h.loaded (hload.1 hl)
  loading c hc := hload.2 (h.loading c hc)
  unique := h.unique
  waited c cooldown hc := hload.2 (h.waited c cooldown hc)

theorem not_isLoading_ready {e : ε} {n lastUsed : ℕ} :
    ¬ (SlotState.ready e n lastUsed).IsLoading := by
  rintro ⟨waiters, h⟩
  cases h

theorem not_isLoading_empty : ¬ (SlotState.empty : SlotState ε).IsLoading := by
  rintro ⟨waiters, h⟩
  cases h

theorem not_isLoading_failed {until_ : ℕ} {message : String} :
    ¬ (SlotState.failed until_ message : SlotState ε).IsLoading := by
  rintro ⟨waiters, h⟩
  cases h

theorem Consistent.borrow (h : Consistent s) {e : ε} {n lastUsed : ℕ}
    (hs : s.slot = .ready e n lastUsed) :
    Consistent { s with slot := .ready e (n + 1) s.now, borrows := e :: s.borrows } := by
  refine h.withSlot ?_ ?_ ?_
  · intro e' n' lastUsed' he
    cases he
    rw [h.counted e n lastUsed hs]
    rfl
  · intro hne
    exact absurd rfl (hne e (n + 1) s.now)
  · rw [hs]
    exact iff_of_false not_isLoading_ready not_isLoading_ready

/-- A live borrow is of the resident model, and counted. -/
theorem Consistent.ready_of_borrow (h : Consistent s) {i : ℕ} (hi : i < s.borrows.length) :
    ∃ e n lastUsed, s.slot = .ready e (n + 1) lastUsed ∧ s.borrows = List.replicate (n + 1) e := by
  by_cases hr : ∃ e n lastUsed, s.slot = .ready e n lastUsed
  · obtain ⟨e, n, lastUsed, hs⟩ := hr
    have hrep := h.counted e n lastUsed hs
    cases n with
    | zero => rw [hrep] at hi; exact absurd hi (Nat.not_lt_zero _)
    | succ n => exact ⟨e, n, lastUsed, hs, hrep⟩
  · push Not at hr
    rw [h.unborrowed hr] at hi
    exact absurd hi (Nat.not_lt_zero _)

theorem Consistent.dropBorrow (h : Consistent s) {i : ℕ} (hi : i < s.borrows.length) :
    Consistent { s with slot := s.slot.release s.now, borrows := s.borrows.eraseIdx i } := by
  obtain ⟨e, n, lastUsed, hs, hrep⟩ := h.ready_of_borrow hi
  rw [hrep, List.length_replicate] at hi
  refine h.withSlot ?_ ?_ ?_
  · intro e' n' lastUsed' he
    rw [hs] at he
    cases he
    rw [hrep, List.eraseIdx_replicate, if_pos hi, Nat.add_sub_cancel]
  · intro hne
    rw [hs] at hne
    exact absurd rfl (hne _ _ _)
  · rw [hs]
    exact iff_of_false not_isLoading_ready not_isLoading_ready

/-- **An eviction finds no live borrow.** -/
theorem Consistent.evicted (h : Consistent s) {idleAfter : ℕ}
    (he : (s.slot.idleEvict s.now idleAfter).2 = .evicted) : s.borrows = [] := by
  obtain ⟨e, lastUsed, hs, -⟩ | ⟨-, hne⟩ := s.slot.idleEvict_cases s.now idleAfter
  · exact h.counted e 0 lastUsed hs
  · exact absurd he hne

theorem Consistent.idleEvict (h : Consistent s) (idleAfter : ℕ) :
    Consistent { s with slot := (s.slot.idleEvict s.now idleAfter).1 } := by
  obtain ⟨e, lastUsed, hs, hev⟩ | ⟨hsame, -⟩ := s.slot.idleEvict_cases s.now idleAfter
  · rw [hev]
    refine h.withSlot nofun (fun _ => h.counted e 0 lastUsed hs) ?_
    rw [hs]
    exact iff_of_false not_isLoading_empty not_isLoading_ready
  · rw [hsame]
    exact h

section Steps
variable [DecidableEq κ]

/-- The caller moves, inside or outside a load, and the slot stays. -/
theorem Consistent.goTo (h : Consistent s) {phase : Phase ε}
    (hload : phase.InLoad ↔ (s.phase c).InLoad)
    (hwait : ∀ cooldown, phase = .waiting cooldown false → s.slot.IsLoading) :
    Consistent (s.goTo c phase) := by
  have hin : ∀ c', ((s.goTo c phase).phase c').InLoad ↔ (s.phase c').InLoad := by
    intro c'
    by_cases hc : c' = c
    · subst hc
      simpa [SlotSystem.goTo] using hload
    · simp [SlotSystem.goTo, Function.update_of_ne hc]
  refine ⟨h.counted, h.unborrowed, ?_, ?_, ?_, ?_⟩
  · intro hl
    obtain ⟨c', hc'⟩ := h.loaded hl
    exact ⟨c', (hin c').2 hc'⟩
  · intro c' hc'
    exact h.loading c' ((hin c').1 hc')
  · intro c₁ c₂ h₁ h₂
    exact h.unique c₁ c₂ ((hin c₁).1 h₁) ((hin c₂).1 h₂)
  · intro c' cooldown hc'
    by_cases hc : c' = c
    · subst hc
      exact hwait cooldown (by simpa [SlotSystem.goTo] using hc')
    · simp only [SlotSystem.goTo, Function.update_of_ne hc] at hc'
      exact h.waited c' cooldown hc'

theorem Consistent.lockStep (h : Consistent s) {cooldown : ℕ}
    (hc : s.phase c = .demanding cooldown) : Consistent (s.lockStep c cooldown) := by
  have hout : ¬ (s.phase c).InLoad := by rw [hc]; exact id
  have hidle : Consistent (s.goTo c .idle) :=
    h.goTo (iff_of_false id hout) fun _ e => by cases e
  unfold SlotSystem.lockStep
  split
  · rename_i e n lastUsed hs
    exact hidle.borrow hs
  · rename_i until_ message hs
    split_ifs
    · exact hidle
    · refine h.withSlot nofun (fun _ => ?_) ?_
      · exact h.unborrowed fun e n l hr => by rw [hs] at hr; cases hr
      · rw [hs]
        exact iff_of_false not_isLoading_empty not_isLoading_failed
  · rename_i waiters hs
    have hgo : Consistent (s.goTo c (.waiting cooldown false)) :=
      h.goTo (iff_of_false id hout) fun _ _ => ⟨waiters, hs⟩
    refine hgo.withSlot nofun (fun _ => ?_) ?_
    · exact h.unborrowed fun e n l hr => by rw [hs] at hr; cases hr
    · exact iff_of_true ⟨_, rfl⟩ ⟨waiters, hs⟩
  · rename_i hs
    -- nobody else is in a load, since the slot is empty
    have hnone : ∀ c', ¬ (s.phase c').InLoad := by
      intro c' hc'
      have := h.loading c' hc'
      rw [hs] at this
      exact not_isLoading_empty this
    have honly : ∀ c', ((Function.update s.phase c (.running cooldown)) c').InLoad → c' = c := by
      intro c' hc'
      by_contra hne
      rw [Function.update_of_ne hne] at hc'
      exact hnone c' hc'
    refine ⟨nofun, fun _ => ?_, fun _ => ⟨c, ?_⟩, fun _ _ => ⟨0, rfl⟩, ?_,
      fun _ _ _ => ⟨0, rfl⟩⟩
    · exact h.unborrowed fun e n l hr => by rw [hs] at hr; cases hr
    · simp [SlotSystem.goTo, Phase.InLoad]
    · intro c₁ c₂ h₁ h₂
      rw [honly c₁ h₁, honly c₂ h₂]

theorem Consistent.publishStep (h : Consistent s) {cooldown : ℕ} {result : Except String ε}
    (hc : s.phase c = .returned cooldown result) :
    Consistent (s.publishStep c cooldown result) := by
  have hin : (s.phase c).InLoad := by rw [hc]; trivial
  have hload : s.slot.IsLoading := h.loading c hin
  have hborrows : s.borrows = [] := by
    obtain ⟨waiters, hw⟩ := hload
    exact h.unborrowed fun e n l hr => by rw [hw] at hr; cases hr
  -- the loader was alone, and every waiter has been notified
  have hnone : ∀ c', ¬ (if c' = c then .idle else (s.phase c').notify : Phase ε).InLoad := by
    intro c' hc'
    split_ifs at hc' with he
    · exact hc'
    · cases hp : s.phase c' with
      | running cd =>
        exact he (h.unique c' c (by rw [hp]; trivial) hin)
      | returned cd r =>
        exact he (h.unique c' c (by rw [hp]; trivial) hin)
      | idle => rw [hp] at hc'; exact hc'
      | demanding cd => rw [hp] at hc'; exact hc'
      | waiting cd b => rw [hp] at hc'; exact hc'
  have hnotified : ∀ c' cd,
      (if c' = c then .idle else (s.phase c').notify : Phase ε) ≠ .waiting cd false := by
    intro c' cd hc'
    split_ifs at hc'
    cases hp : s.phase c' <;> rw [hp] at hc' <;> cases hc'
  unfold SlotSystem.publishStep
  cases result with
  | ok e =>
    refine ⟨?_, fun hne => absurd rfl (hne _ _ _), fun hl => absurd hl not_isLoading_ready,
      fun c' hc' => absurd hc' (hnone c'), fun c' _ hc' => absurd hc' (hnone c'),
      fun c' cd hc' => absurd hc' (hnotified c' cd)⟩
    intro e' n l he
    cases he
    simp [hborrows]
  | error message =>
    exact ⟨nofun, fun _ => hborrows,
      fun hl => absurd hl not_isLoading_failed, fun c' hc' => absurd hc' (hnone c'),
      fun c' _ hc' => absurd hc' (hnone c'), fun c' cd hc' => absurd hc' (hnotified c' cd)⟩

/-- **One step** keeps the accounting and the single flight. -/
theorem consistent_step {label : Label κ ε} (h : Consistent s) (hst : step s label = some t) :
    Consistent t := by
  cases label with
  | tick d =>
    cases hst
    exact h.withSlot h.counted h.unborrowed Iff.rfl
  | tryBorrow =>
    simp only [step, Option.some.injEq] at hst
    obtain ⟨e, n, lastUsed, hs, hb⟩ | hb := s.slot.tryBorrow_cases s.now
    · rw [hb] at hst
      subst hst
      exact h.borrow hs
    · rw [hb] at hst
      subst hst
      exact h
  | demand c cooldown =>
    simp only [step] at hst
    split at hst
    · rename_i hc
      cases hst
      exact h.goTo (by rw [hc]; rfl) fun _ e => by cases e
    · cases hst
  | lock c =>
    simp only [step] at hst
    split at hst
    · rename_i cooldown hc
      cases hst
      exact h.lockStep hc
    · cases hst
  | wake c =>
    simp only [step] at hst
    split at hst
    · rename_i cooldown notified hc
      split at hst
      · rename_i waiters hs
        cases hst
        exact h.goTo (by rw [hc]; rfl) fun _ _ => ⟨waiters, hs⟩
      · cases hst
        exact h.goTo (by rw [hc]; rfl) fun _ e => by cases e
    · cases hst
  | factoryReturns c result =>
    simp only [step] at hst
    split at hst
    · rename_i cooldown hc
      cases hst
      exact h.goTo (by rw [hc]; rfl) fun _ e => by cases e
    · cases hst
  | publish c =>
    simp only [step] at hst
    split at hst
    · rename_i cooldown result hc
      cases hst
      exact h.publishStep hc
    · cases hst
  | dropBorrow i =>
    simp only [step] at hst
    split_ifs at hst with hi
    cases hst
    exact h.dropBorrow hi
  | idleEvict idleAfter =>
    cases hst
    exact h.idleEvict idleAfter

/-- A run from a fresh slot. -/
theorem consistent_of_exec {embedder : Option ε} {now : ℕ} {labels : List (Label κ ε)}
    (h : exec step (init embedder now) labels = some s) : Consistent s :=
  exec_preserves (fun _ _ _ hs hst => consistent_step hs hst) h (consistent_init embedder now)

/-! ## The models -/

/-- The models in the slot, borrowed, or returned by a factory. -/
structure OfModels (P : ε → Prop) (s : SlotSystem κ ε) : Prop where
  slot : ∀ e n lastUsed, s.slot = .ready e n lastUsed → P e
  borrows : ∀ e ∈ s.borrows, P e
  returned : ∀ c cooldown e, s.phase c = .returned cooldown (.ok e) → P e

omit [DecidableEq κ] in
theorem ofModels_init {P : ε → Prop} {embedder : Option ε} (h : ∀ e ∈ embedder, P e) (now : ℕ) :
    OfModels P (init embedder now : SlotSystem κ ε) where
  slot e n lastUsed hs := by
    cases embedder with
    | none => cases hs
    | some e' =>
      cases hs
      exact h e rfl
  borrows _ he := absurd he List.not_mem_nil
  returned _ _ _ hc := by cases hc

theorem OfModels.goTo {P : ε → Prop} (h : OfModels P s) {phase : Phase ε}
    (hphase : ∀ cooldown e, phase = .returned cooldown (.ok e) → P e) :
    OfModels P (s.goTo c phase) := by
  refine ⟨h.slot, h.borrows, fun c' cooldown e hc' => ?_⟩
  by_cases hc : c' = c
  · subst hc
    exact hphase cooldown e (by simpa [SlotSystem.goTo] using hc')
  · simp only [SlotSystem.goTo, Function.update_of_ne hc] at hc'
    exact h.returned c' cooldown e hc'

omit [DecidableEq κ] in
/-- The resident model is borrowed. -/
theorem OfModels.borrow {P : ε → Prop} (h : OfModels P s) {e : ε} (he : P e) (n lastUsed : ℕ) :
    OfModels P { s with slot := .ready e n lastUsed, borrows := e :: s.borrows } where
  slot e' n' lastUsed' hs := by
    cases hs
    exact he
  borrows e' he' := by
    rcases List.mem_cons.1 he' with rfl | he'
    · exact he
    · exact h.borrows e' he'
  returned := h.returned

theorem OfModels.lockStep {P : ε → Prop} (h : OfModels P s) (cooldown : ℕ) :
    OfModels P (s.lockStep c cooldown) := by
  have hidle : OfModels P (s.goTo c .idle) := h.goTo nofun
  unfold SlotSystem.lockStep
  split
  · rename_i e n lastUsed hs
    exact hidle.borrow (h.slot e n lastUsed hs) _ _
  · split_ifs
    · exact hidle
    · exact ⟨nofun, h.borrows, h.returned⟩
  · have hgo : OfModels P (s.goTo c (.waiting cooldown false)) := h.goTo nofun
    exact ⟨nofun, hgo.borrows, hgo.returned⟩
  · have hgo : OfModels P (s.goTo c (.running cooldown)) := h.goTo nofun
    exact ⟨nofun, hgo.borrows, hgo.returned⟩

theorem OfModels.publishStep {P : ε → Prop} (h : OfModels P s) {cooldown : ℕ}
    {result : Except String ε} (hc : s.phase c = .returned cooldown result) :
    OfModels P (s.publishStep c cooldown result) := by
  have hphase : ∀ c' cooldown' e,
      (if c' = c then .idle else (s.phase c').notify : Phase ε) = .returned cooldown' (.ok e) → P e := by
    intro c' cooldown' e hc'
    split_ifs at hc'
    cases hp : s.phase c' <;> rw [hp] at hc' <;> cases hc'
    exact h.returned c' cooldown' e hp
  unfold SlotSystem.publishStep
  cases result with
  | ok e =>
    have hnotified : OfModels P
        { s with phase := fun c' => if c' = c then .idle else (s.phase c').notify } :=
      ⟨h.slot, h.borrows, hphase⟩
    exact hnotified.borrow (h.returned c cooldown e hc) _ _
  | error message => exact ⟨nofun, h.borrows, hphase⟩

/-- **The models come from the factories.** -/
theorem ofModels_step {P : ε → Prop} {label : Label κ ε} (h : OfModels P s)
    (hlabel : ∀ c e, label = .factoryReturns c (.ok e) → P e) (hst : step s label = some t) :
    OfModels P t := by
  cases label with
  | tick d =>
    cases hst
    exact ⟨h.slot, h.borrows, h.returned⟩
  | tryBorrow =>
    simp only [step, Option.some.injEq] at hst
    obtain ⟨e, n, lastUsed, hs, hb⟩ | hb := s.slot.tryBorrow_cases s.now
    · rw [hb] at hst
      subst hst
      exact h.borrow (h.slot e n lastUsed hs) _ _
    · rw [hb] at hst
      subst hst
      exact h
  | demand c cooldown =>
    simp only [step] at hst
    split at hst <;> cases hst
    exact h.goTo nofun
  | lock c =>
    simp only [step] at hst
    split at hst <;> cases hst
    exact h.lockStep _
  | wake c =>
    simp only [step] at hst
    split at hst
    · split at hst <;> cases hst <;> exact h.goTo nofun
    · cases hst
  | factoryReturns c result =>
    simp only [step] at hst
    split at hst <;> cases hst
    exact h.goTo fun cooldown e he => hlabel c e (by cases he; rfl)
  | publish c =>
    simp only [step] at hst
    split at hst
    · rename_i cooldown result hc
      cases hst
      exact h.publishStep hc
    · cases hst
  | dropBorrow i =>
    simp only [step] at hst
    split_ifs at hst
    cases hst
    refine ⟨fun e n lastUsed hs => ?_, fun e he => h.borrows e (List.mem_of_mem_eraseIdx he), h.returned⟩
    unfold SlotState.release at hs
    split at hs
    · rename_i e' n' lastUsed' hs'
      cases hs
      exact h.slot e n' lastUsed' hs'
    · exact h.slot e n lastUsed hs
  | idleEvict idleAfter =>
    cases hst
    refine ⟨fun e n lastUsed hs => ?_, h.borrows, h.returned⟩
    obtain ⟨e', lastUsed', -, hev⟩ | ⟨hsame, -⟩ := s.slot.idleEvict_cases s.now idleAfter
    · rw [hev] at hs
      cases hs
    · exact h.slot e n lastUsed (hsame ▸ hs)

/-! ## The cooldown -/

theorem now_le_of_step {label : Label κ ε} (hst : step s label = some t) : s.now ≤ t.now := by
  cases label with
  | tick d => cases hst; exact Nat.le_add_right _ _
  | tryBorrow => cases hst; exact le_rfl
  | idleEvict idleAfter => cases hst; exact le_rfl
  | demand c cooldown =>
    simp only [step] at hst
    split at hst <;> cases hst
    exact le_rfl
  | lock c =>
    simp only [step] at hst
    split at hst <;> cases hst
    unfold lockStep
    split
    · exact le_rfl
    · split_ifs <;> exact le_rfl
    · exact le_rfl
    · exact le_rfl
  | wake c =>
    simp only [step] at hst
    split at hst
    · split at hst <;> cases hst <;> exact le_rfl
    · cases hst
  | factoryReturns c result =>
    simp only [step] at hst
    split at hst <;> cases hst
    exact le_rfl
  | publish c =>
    simp only [step] at hst
    split at hst
    · rename_i cooldown result hc
      cases hst
      cases result <;> exact le_rfl
    · cases hst
  | dropBorrow i =>
    simp only [step] at hst
    split_ifs at hst
    cases hst
    exact le_rfl

/-- A caller claims the load. -/
def Starts (s t : SlotSystem κ ε) : Prop :=
  ∃ c cooldown, t.phase c = .running cooldown ∧ ∀ cooldown', s.phase c ≠ .running cooldown'

/-- A caller that is put elsewhere claims nothing. -/
theorem not_starts_goTo {phase : Phase ε} (hne : ∀ cooldown, phase ≠ .running cooldown)
    {slot : SlotState ε} {borrows : List ε} {now : ℕ} :
    ¬ Starts s { s.goTo c phase with slot, borrows, now } := by
  rintro ⟨c', cooldown, ht, hs⟩
  by_cases hc : c' = c
  · subst hc
    exact hne cooldown (by simpa [goTo] using ht)
  · simp only [goTo, Function.update_of_ne hc] at ht
    exact hs cooldown ht

/-- A load is claimed in the empty slot. -/
theorem slot_eq_empty_of_starts {label : Label κ ε} (hst : step s label = some t)
    (hstart : Starts s t) : s.slot = .empty := by
  have hsame : ∀ {slot : SlotState ε} {borrows : List ε} {now : ℕ},
      ¬ Starts s { s with slot, borrows, now } := by
    rintro _ _ _ ⟨c, cooldown, ht, hs⟩
    exact hs cooldown ht
  cases label with
  | tick d => cases hst; exact absurd hstart hsame
  | tryBorrow => cases hst; exact absurd hstart hsame
  | idleEvict idleAfter => cases hst; exact absurd hstart hsame
  | demand c cooldown =>
    simp only [step] at hst
    split at hst <;> cases hst
    exact absurd hstart (not_starts_goTo (by nofun))
  | lock c =>
    simp only [step] at hst
    split at hst <;> cases hst
    unfold lockStep at hstart
    split at hstart
    · exact absurd hstart (not_starts_goTo (by nofun))
    · split_ifs at hstart
      · exact absurd hstart (not_starts_goTo (by nofun))
      · exact absurd hstart hsame
    · exact absurd hstart (not_starts_goTo (by nofun))
    · rename_i hs
      exact hs
  | wake c =>
    simp only [step] at hst
    split at hst
    · split at hst <;> cases hst <;> exact absurd hstart (not_starts_goTo (by nofun))
    · cases hst
  | factoryReturns c result =>
    simp only [step] at hst
    split at hst <;> cases hst
    exact absurd hstart (not_starts_goTo (by nofun))
  | publish c =>
    simp only [step] at hst
    split at hst
    · rename_i cooldown result hc
      cases hst
      obtain ⟨c', cooldown', ht, hs⟩ := hstart
      have ht' : (if c' = c then .idle else (s.phase c').notify : Phase ε) =
          .running cooldown' := by
        cases result <;> exact ht
      split_ifs at ht'
      cases hp : s.phase c' <;> rw [hp] at ht' <;> cases ht'
      exact absurd hp (hs cooldown')
    · cases hst
  | dropBorrow i =>
    simp only [step] at hst
    split_ifs at hst
    cases hst
    exact absurd hstart hsame

/-- No load starts before the deadline: the failed load is still to be published, the
    slot remembers it, or the time has passed. -/
def CoolingDown (deadline : ℕ) (s : SlotSystem κ ε) : Prop :=
  deadline ≤ s.now ∨
  (∃ until_ message, s.slot = .failed until_ message ∧ deadline ≤ until_) ∨
  ∃ c cooldown message, s.phase c = .returned cooldown (.error message) ∧
    deadline ≤ s.now + cooldown

/-- The pending failure of a load stays pending until it is published. -/
theorem returned_of_step {label : Label κ ε} (h : Consistent s) (hst : step s label = some t)
    {cooldown : ℕ} {result : Except String ε} (hc : s.phase c = .returned cooldown result) :
    t.phase c = .returned cooldown result ∨ label = .publish c := by
  have hin : (s.phase c).InLoad := by rw [hc]; trivial
  -- another caller that moves was outside the load
  have hgo : ∀ {c' : κ} {phase : Phase ε}, s.phase c' ≠ s.phase c →
      Function.update s.phase c' phase c = .returned cooldown result := by
    intro c' phase hne
    rw [Function.update_of_ne fun e => hne (by rw [e]), hc]
  cases label with
  | tick d => cases hst; exact .inl hc
  | tryBorrow => cases hst; exact .inl hc
  | idleEvict idleAfter => cases hst; exact .inl hc
  | demand c' cooldown' =>
    simp only [step] at hst
    split at hst <;> cases hst
    rename_i hc'
    exact .inl (hgo (by rw [hc, hc']; nofun))
  | lock c' =>
    simp only [step] at hst
    split at hst <;> cases hst
    rename_i cooldown' hc'
    have hne : s.phase c' ≠ s.phase c := by rw [hc, hc']; nofun
    refine .inl ?_
    unfold lockStep
    split
    · exact hgo hne
    · split_ifs
      · exact hgo hne
      · exact hc
    · exact hgo hne
    · exact hgo hne
  | wake c' =>
    simp only [step] at hst
    split at hst
    · rename_i cooldown' notified hc'
      have hne : s.phase c' ≠ s.phase c := by rw [hc, hc']; nofun
      split at hst <;> cases hst <;> exact .inl (hgo hne)
    · cases hst
  | factoryReturns c' result' =>
    simp only [step] at hst
    split at hst <;> cases hst
    rename_i cooldown' hc'
    exact .inl (hgo (by rw [hc, hc']; nofun))
  | publish c' =>
    simp only [step] at hst
    split at hst
    · rename_i cooldown' result' hc'
      exact .inr (by rw [h.unique c' c (by rw [hc']; trivial) hin])
    · cases hst
  | dropBorrow i =>
    simp only [step] at hst
    split_ifs at hst
    cases hst
    exact .inl hc

/-- A failed slot stays failed until its cooldown is over. -/
theorem failed_of_step {label : Label κ ε} (h : Consistent s) (hst : step s label = some t)
    {until_ : ℕ} {message : String} (hs : s.slot = .failed until_ message) :
    t.slot = .failed until_ message ∨ until_ ≤ s.now := by
  cases label with
  | tick d => cases hst; exact .inl hs
  | tryBorrow =>
    cases hst
    rw [hs]
    exact .inl rfl
  | idleEvict idleAfter =>
    cases hst
    rw [hs]
    exact .inl rfl
  | demand c cooldown =>
    simp only [step] at hst
    split at hst <;> cases hst
    exact .inl hs
  | lock c =>
    simp only [step] at hst
    split at hst <;> cases hst
    unfold lockStep
    rw [hs]
    dsimp only
    split_ifs with hlt
    · exact .inl hs
    · exact .inr (by omega)
  | wake c =>
    simp only [step] at hst
    split at hst
    · split at hst <;> cases hst <;> exact .inl hs
    · cases hst
  | factoryReturns c result =>
    simp only [step] at hst
    split at hst <;> cases hst
    exact .inl hs
  | publish c =>
    simp only [step] at hst
    split at hst
    · rename_i cooldown result hc
      have := h.loading c (by rw [hc]; trivial)
      rw [hs] at this
      exact absurd this not_isLoading_failed
    · cases hst
  | dropBorrow i =>
    simp only [step] at hst
    split_ifs at hst
    cases hst
    rw [hs]
    exact .inl rfl

theorem coolingDown_step {label : Label κ ε} {deadline : ℕ} (h : Consistent s)
    (hd : CoolingDown deadline s) (hst : step s label = some t) : CoolingDown deadline t := by
  have hnow := now_le_of_step hst
  rcases hd with hd | ⟨until_, message, hs, hd⟩ | ⟨c, cooldown, message, hc, hd⟩
  · exact .inl (le_trans hd hnow)
  · rcases failed_of_step h hst hs with ht | hle
    · exact .inr (.inl ⟨until_, message, ht, hd⟩)
    · exact .inl (le_trans hd (le_trans hle hnow))
  · rcases returned_of_step h hst hc with ht | rfl
    · exact .inr (.inr ⟨c, cooldown, message, ht, le_trans hd (Nat.add_le_add_right hnow _)⟩)
    · simp only [step, hc, Option.some.injEq] at hst
      subst hst
      exact .inr (.inl ⟨_, _, rfl, hd⟩)

/-! ## The slot under any interleaving -/

/-- **Borrow accounting.** In every state reached, the in-flight count of a resident
    model is the number of live borrows, which are all of that model; a borrow is live
    only while its model is resident; an eviction finds no borrow, and a drop a positive
    count. -/
theorem modelSlot_accounting {embedder : Option ε} {now : ℕ} {labels : List (Label κ ε)}
    (h : exec step (init embedder now) labels = some s) :
    (∀ e n lastUsed, s.slot = .ready e n lastUsed →
      n = s.borrows.length ∧ ∀ b ∈ s.borrows, b = e) ∧
    (∀ b ∈ s.borrows, ∃ n lastUsed, s.slot = .ready b n lastUsed) ∧
    (∀ idleAfter, (s.slot.idleEvict s.now idleAfter).2 = .evicted → s.borrows = []) ∧
    ∀ i t, step s (.dropBorrow i) = some t →
      ∃ e n lastUsed, s.slot = .ready e (n + 1) lastUsed ∧ t.slot = .ready e n s.now := by
  have hcons := consistent_of_exec h
  refine ⟨?_, ?_, fun idleAfter => hcons.evicted, ?_⟩
  · intro e n lastUsed hs
    rw [hcons.counted e n lastUsed hs]
    exact ⟨(List.length_replicate).symm, fun b hb => List.eq_of_mem_replicate hb⟩
  · intro b hb
    obtain ⟨i, hi, -⟩ := List.mem_iff_getElem.1 hb
    obtain ⟨e, n, lastUsed, hs, hrep⟩ := hcons.ready_of_borrow hi
    rw [hrep] at hb
    rw [List.eq_of_mem_replicate hb]
    exact ⟨n + 1, lastUsed, hs⟩
  · intro i t ht
    simp only [step] at ht
    split_ifs at ht with hi
    obtain ⟨e, n, lastUsed, hs, -⟩ := hcons.ready_of_borrow hi
    cases ht
    refine ⟨e, n, lastUsed, hs, ?_⟩
    rw [hs]
    rfl

/-- A load, a second borrow and a drop. -/
theorem modelSlot_accounting_run : ∃ s : SlotSystem ℕ ℕ,
    exec step (init none 0) [.demand 0 5, .lock 0, .factoryReturns 0 (.ok 7), .publish 0,
      .tryBorrow, .dropBorrow 0] = some s ∧ s.borrows = [7] ∧
    ∀ e n lastUsed, s.slot = .ready e n lastUsed → n = s.borrows.length ∧ ∀ b ∈ s.borrows, b = e :=
  ⟨_, rfl, rfl, (@modelSlot_accounting _ _ _ _ none 0 [.demand 0 5, .lock 0,
    .factoryReturns 0 (.ok 7), .publish 0, .tryBorrow, .dropBorrow 0] rfl).1⟩

end Steps

end SlotSystem

end Cognis
