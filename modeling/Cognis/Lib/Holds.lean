/-
  Processes that clients hold: a process table, the signals sent, and the list of holds.

  A process is named by its place in the table. A hold is a pair of a client and a process, and
  a client may have several.

  * `Live p`: this program has spawned the process, and it is alive;
  * `Counted`: a record of one process with a count is in step with the table, when every
    process that is live is the one recorded, with the number of its holds.
-/
import Mathlib.Data.List.Basic
import Mathlib.Order.Lattice
import Mathlib.Tactic.Common

namespace Cognis.Holds

/-- A process. -/
structure Process where
  /-- this program has started it -/
  spawned : Bool
  /-- its end has not been noticed -/
  alive : Bool := true
  /-- a signal was sent through the process object -/
  killed : Bool := false
  /-- the event of its end has been handled -/
  closed : Bool := false
  deriving DecidableEq, Repr

/-- The processes in the order of their start, the signals sent, the last one first, and the
    holds. -/
structure Processes (C : Type*) where
  procs : List Process := []
  signals : List ℕ := []
  holds : List (C × ℕ) := []

namespace Processes

variable {C : Type*} (d : Processes C)

def alive (p : ℕ) : Bool := d.procs[p]?.any Process.alive

def killed (p : ℕ) : Bool := d.procs[p]?.any Process.killed

/-- The process is one of this program's own, and alive. -/
def Live (p : ℕ) : Prop := ∃ q ∈ d.procs[p]?, q.spawned = true ∧ q.alive = true

/-- Its end has come, and has not been handled. -/
def ended (p : ℕ) : Bool := d.procs[p]?.any fun q => q.spawned && !q.alive && !q.closed

/-- The number of holds on a process. -/
def holdsOn (p : ℕ) : ℕ := d.holds.countP (·.2 = p)

/-- The number of holds of a client on a process. -/
def holdsBy [DecidableEq C] (c : C) (p : ℕ) : ℕ := d.holds.count (c, p)

/-- A process starts. -/
def start (spawned : Bool) : Processes C := { d with procs := d.procs ++ [{ spawned }] }

/-- The process ends. -/
def finish (p : ℕ) : Processes C :=
  { d with procs := d.procs.modify p fun q => { q with alive := false } }

/-- The event of its end is handled. -/
def close (p : ℕ) : Processes C :=
  { d with procs := d.procs.modify p fun q => { q with closed := true } }

/-- A signal to a process, if it is alive. -/
def signal (p : ℕ) : Processes C := if d.alive p then { d with signals := p :: d.signals } else d

/-- A signal through the process object. -/
def kill (p : ℕ) : Processes C :=
  if d.alive p then
    { d.signal p with procs := d.procs.modify p fun q => { q with killed := true } }
  else d

/-- A client gets a hold on a process, if that is alive. -/
def hold (c : C) (p : ℕ) : Processes C :=
  if d.alive p then { d with holds := (c, p) :: d.holds } else d

/-- A client gives a hold back. -/
def release [DecidableEq C] (c : C) (p : ℕ) : Processes C :=
  { d with holds := d.holds.erase (c, p) }

/-- A signal went to the process between two states. -/
def Signalled (d' : Processes C) (p : ℕ) : Prop := d'.signals = p :: d.signals

/-- The record of a process and a count is in step with the table. -/
def Counted (record : Option (ℕ × ℕ)) : Prop := ∀ p, d.Live p → record = some (p, d.holdsOn p)

/-- There are no holds on processes that have not started. -/
def Fresh : Prop := ∀ e ∈ d.holds, e.2 < d.procs.length

variable {d} {p : ℕ}

theorem Live.alive (h : d.Live p) : d.alive p = true := by
  obtain ⟨q, hq, -, halive⟩ := h
  rw [Processes.alive, Option.mem_def.1 hq]
  exact halive

theorem Live.lt (h : d.Live p) : p < d.procs.length := by
  obtain ⟨q, hq, -⟩ := h
  exact (List.getElem?_eq_some_iff.1 hq).1

theorem live_iff : d.Live p ↔ d.procs[p]?.any (fun q => q.spawned && q.alive) = true := by
  simp [Live, Option.any_eq_true]

instance decidableLive : Decidable (d.Live p) := decidable_of_iff _ live_iff.symm

/-- The live processes are among those that have started. -/
instance decidableForallLive {P : ℕ → Prop} [DecidablePred P] : Decidable (∀ p, d.Live p → P p) :=
  decidable_of_iff (∀ p < d.procs.length, d.Live p → P p)
    ⟨fun h p hp => h p hp.lt hp, fun h p _ hp => h p hp⟩

theorem lt_of_alive (h : d.alive p = true) : p < d.procs.length := by
  rw [Processes.alive, Option.any_eq_true] at h
  obtain ⟨q, hq, -⟩ := h
  exact (List.getElem?_eq_some_iff.1 hq).1

theorem not_live_of_ended (h : d.ended p = true) : ¬ d.Live p := by
  rintro ⟨q, hq, -, halive⟩
  rw [ended, Option.mem_def.1 hq] at h
  simp [halive] at h

theorem signalled_signal (h : d.alive p = true) : d.Signalled (d.signal p) p := by
  rw [Signalled, signal, if_pos h]

theorem signalled_kill (h : d.alive p = true) : d.Signalled (d.kill p) p := by
  rw [Signalled, kill, if_pos h]
  exact signalled_signal h

theorem not_signalled_self : ¬ d.Signalled d p := fun h => List.cons_ne_self _ _ (Eq.symm h)

/-! ## Which processes are live -/

theorem live_start {spawned : Bool} {q : ℕ} :
    (d.start spawned).Live q ↔ d.Live q ∨ spawned = true ∧ q = d.procs.length := by
  simp only [Live, start, List.getElem?_append]
  split_ifs with hq
  · simp [hq.ne]
  · have hnone : d.procs[q]? = none := List.getElem?_eq_none (not_lt.1 hq)
    rcases (not_lt.1 hq).eq_or_lt with rfl | hlt
    · simp
    · have hsub : q - d.procs.length ≠ 0 := by omega
      simp [hnone, hsub, hlt.ne']

/-- Changing a process, other than whether it is alive. -/
theorem live_modify (f : Process → Process) (hspawned : ∀ q, (f q).spawned = q.spawned)
    (halive : ∀ q, (f q).alive = q.alive) {q : ℕ} {signals : List ℕ} {holds : List (C × ℕ)} :
    Live ⟨d.procs.modify p f, signals, holds⟩ q ↔ d.Live q := by
  simp only [Live, List.getElem?_modify]
  cases d.procs[q]? with
  | none => simp
  | some x => by_cases hpq : p = q <;> simp [hpq, hspawned, halive]

@[simp] theorem live_close {q : ℕ} : (d.close p).Live q ↔ d.Live q :=
  live_modify (fun q => { q with closed := true }) (fun _ => rfl) fun _ => rfl

@[simp] theorem live_signal {q : ℕ} : (d.signal p).Live q ↔ d.Live q := by
  unfold signal
  split_ifs <;> rfl

@[simp] theorem live_kill {q : ℕ} : (d.kill p).Live q ↔ d.Live q := by
  unfold kill
  split_ifs
  · exact live_modify (fun q => { q with killed := true }) (fun _ => rfl) fun _ => rfl
  · rfl

theorem live_finish {q : ℕ} : (d.finish p).Live q ↔ d.Live q ∧ q ≠ p := by
  simp only [Live, finish, List.getElem?_modify]
  cases d.procs[q]? with
  | none => simp
  | some x =>
    by_cases hpq : p = q
    · simp [hpq]
    · simp [hpq, Ne.symm hpq]

@[simp] theorem live_hold {c : C} {q : ℕ} : (d.hold c p).Live q ↔ d.Live q := by
  unfold hold
  split_ifs <;> rfl

@[simp] theorem live_release [DecidableEq C] {c : C} {q : ℕ} :
    (d.release c p).Live q ↔ d.Live q := .rfl

/-! ## Which process objects have been killed -/

theorem killed_of_start {spawned : Bool} {q : ℕ} (h : (d.start spawned).killed q = true) :
    d.killed q = true := by
  simp only [killed, start, List.getElem?_append] at h
  split_ifs at h with hq
  · exact h
  · rcases Nat.eq_zero_or_pos (q - d.procs.length) with hsub | hsub
    · simp [hsub] at h
    · simp [hsub.ne'] at h

@[simp] theorem killed_finish {q : ℕ} : (d.finish p).killed q = d.killed q := by
  simp only [killed, finish, List.getElem?_modify]
  cases d.procs[q]? with
  | none => rfl
  | some x => by_cases hpq : p = q <;> simp [hpq]

@[simp] theorem killed_signal {q : ℕ} : (d.signal p).killed q = d.killed q := by
  unfold signal
  split_ifs <;> rfl

/-! ## The holds -/

@[simp] theorem holds_signal : (d.signal p).holds = d.holds := by
  unfold signal
  split_ifs <;> rfl

@[simp] theorem holds_kill : (d.kill p).holds = d.holds := by
  unfold kill
  split_ifs
  · exact holds_signal
  · rfl

@[simp] theorem length_signal : (d.signal p).procs.length = d.procs.length := by
  unfold signal
  split_ifs <;> rfl

@[simp] theorem length_kill : (d.kill p).procs.length = d.procs.length := by
  unfold kill
  split_ifs
  · simp
  · rfl

@[simp] theorem length_hold {c : C} : (d.hold c p).procs.length = d.procs.length := by
  unfold hold
  split_ifs <;> rfl

theorem holdsOn_hold {c : C} (hp : d.alive p = true) (q : ℕ) :
    (d.hold c p).holdsOn q = d.holdsOn q + if p = q then 1 else 0 := by
  rw [hold, if_pos hp, holdsOn, List.countP_cons]
  simp [holdsOn]

theorem holdsOn_release [DecidableEq C] {c : C} (h : (c, p) ∈ d.holds) (q : ℕ) :
    (d.release c p).holdsOn q + (if p = q then 1 else 0) = d.holdsOn q := by
  have hperm := (List.perm_cons_erase h).countP_eq (fun e : C × ℕ => e.2 = q)
  rw [List.countP_cons] at hperm
  simp only [holdsOn, release, hperm, decide_eq_true_eq]

theorem holdsOn_pos {c : C} (h : (c, p) ∈ d.holds) : 0 < d.holdsOn p :=
  List.countP_pos_iff.2 ⟨_, h, by simp⟩

section
variable [DecidableEq C] {c : C}

theorem holdsBy_hold (hp : d.alive p = true) (b : C) (q : ℕ) :
    (d.hold c p).holdsBy b q = d.holdsBy b q + if c = b ∧ p = q then 1 else 0 := by
  rw [hold, if_pos hp, holdsBy, List.count_cons]
  simp [holdsBy]

theorem holdsBy_release_of_ne {b : C} {q : ℕ} (hne : (b, q) ≠ (c, p)) :
    (d.release c p).holdsBy b q = d.holdsBy b q :=
  List.count_erase_of_ne hne

theorem holdsBy_release : (d.release c p).holdsBy c p = d.holdsBy c p - 1 :=
  List.count_erase_self

theorem holdsBy_le_holdsOn : d.holdsBy c p ≤ d.holdsOn p := by
  refine List.countP_mono_left fun e _ he => ?_
  rw [beq_iff_eq] at he
  simp [he]

theorem mem_holds_of_holdsBy (h : 0 < d.holdsBy c p) : (c, p) ∈ d.holds := List.count_pos_iff.1 h

end

theorem Fresh.release [DecidableEq C] (h : d.Fresh) (c : C) (p : ℕ) : (d.release c p).Fresh :=
  fun e he => h e (List.erase_subset he)

theorem Fresh.kill (h : d.Fresh) (p : ℕ) : (d.kill p).Fresh := by
  intro e he
  rw [length_kill]
  exact h e (by rwa [holds_kill] at he)

theorem Fresh.hold (h : d.Fresh) (c : C) (p : ℕ) : (d.hold c p).Fresh := by
  intro e he
  rw [length_hold]
  simp only [Processes.hold] at he
  split_ifs at he with halive
  · rcases List.mem_cons.1 he with rfl | he
    · exact lt_of_alive halive
    · exact h e he
  · exact h e he

theorem Fresh.start (h : d.Fresh) (spawned : Bool) : (d.start spawned).Fresh := by
  intro e he
  have := h e he
  simp only [Processes.start, List.length_append, List.length_singleton]
  omega

theorem Fresh.holdsOn_length (h : d.Fresh) : d.holdsOn d.procs.length = 0 := by
  rw [holdsOn, List.countP_eq_zero]
  intro e he
  simpa using (h e he).ne

end Processes

end Cognis.Holds
