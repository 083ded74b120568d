/-
  Programs on a disk, whose requests may fail and which a crash may cut off.

  * `Machine` is a program with its disk and the log of its requests; `step` makes the next
    request, with an outcome, or is the crash;
  * `Keeps` is about all runs whose requests meet a condition: `C` holds wherever the program
    can be cut off, and a postcondition where it ends;
  * `Keeps.bind`, `Keeps.tryCatch`, `Keeps.grows`: the rules of the program;
  * `Keeps.exec`, `Keeps.exec_cut`: what it says of the runs of the machine.
-/
import Cognis.Lib.Program
import Cognis.Lib.Transition

namespace Cognis.Crash

open Transition

variable {Q : Type} {A : Q → Type} {ε ε' α β D O : Type}

/-- A program with its disk, and the requests that it has made with their outcomes. -/
structure Machine (A : Q → Type) (ε α D O : Type) where
  disk : D
  log : List (Q × O) := []
  rest : Prog A ε α
  crashed : Bool := false

/-- The outcome of the next request, or the crash. -/
inductive Label (O : Type)
  | request (o : O)
  | crash

section
variable (effect : D → (q : Q) → O → Option (A q × D))

/-- The next request, in a machine that is not cut off. -/
def request (m : Machine A ε α D O) (o : O) : Option (Machine A ε α D O) :=
  match m.rest with
  | .ask q k =>
    (effect m.disk q o).map fun (a, disk) =>
      { m with disk, log := m.log ++ [(q, o)], rest := k a }
  | _ => none

def step (m : Machine A ε α D O) (label : Label O) : Option (Machine A ε α D O) :=
  if m.crashed then none
  else
    match label with
    | .request o => request effect m o
    | .crash => some { m with crashed := true }

variable (G : D → List (Q × O) → Q → O → Prop) (C : D → List (Q × O) → Prop)

/-- Where the requests meet `G`, the program can be cut off in states of `C` only, and ends as
    the postcondition says. -/
def Keeps (post : Except ε α → D → List (Q × O) → Prop) :
    Prog A ε α → D → List (Q × O) → Prop
  | .done a, disk, log => C disk log ∧ post (.ok a) disk log
  | .fail e, disk, log => C disk log ∧ post (.error e) disk log
  | .ask q k, disk, log => C disk log ∧ ∀ o a disk', G disk log q o →
      effect disk q o = some (a, disk') → Keeps post (k a) disk' (log ++ [(q, o)])

/-- A postcondition by cases: of the value, and of the error. -/
def ends (P : α → D → List (Q × O) → Prop) (E : ε → D → List (Q × O) → Prop) :
    Except ε α → D → List (Q × O) → Prop
  | .ok a => P a
  | .error e => E e

/-- A step meets the conditions on the requests and on the crash. -/
def Meets (K : D → List (Q × O) → Prop) (m : Machine A ε α D O) : Label O → Prop
  | .request o => ∀ q k, m.rest = .ask q k → G m.disk m.log q o
  | .crash => K m.disk m.log

end

section
variable {effect : D → (q : Q) → O → Option (A q × D)} {G : D → List (Q × O) → Q → O → Prop}
  {C : D → List (Q × O) → Prop} {disk : D} {log : List (Q × O)}

theorem Keeps.cut {post : Except ε α → D → List (Q × O) → Prop} {p : Prog A ε α}
    (h : Keeps effect G C post p disk log) : C disk log := by
  cases p with
  | done a => exact h.1
  | fail e => exact h.1
  | ask q k => exact h.1

theorem Keeps.mono {post post' : Except ε α → D → List (Q × O) → Prop} {p : Prog A ε α}
    (h : Keeps effect G C post p disk log)
    (hpost : ∀ r disk log, post r disk log → post' r disk log) :
    Keeps effect G C post' p disk log := by
  induction p generalizing disk log with
  | done a => exact ⟨h.1, hpost _ _ _ h.2⟩
  | fail e => exact ⟨h.1, hpost _ _ _ h.2⟩
  | ask q k ih => exact ⟨h.1, fun o a disk' hG heffect => ih a (h.2 o a disk' hG heffect)⟩

/-- The log only grows. -/
theorem Keeps.grows {post : Except ε α → D → List (Q × O) → Prop} {p : Prog A ε α}
    (h : Keeps effect G C post p disk log) :
    Keeps effect G C (fun r disk log' => post r disk log' ∧ log <+: log') p disk log := by
  induction p generalizing disk log with
  | done a => exact ⟨h.1, h.2, List.prefix_rfl⟩
  | fail e => exact ⟨h.1, h.2, List.prefix_rfl⟩
  | ask q k ih =>
    refine ⟨h.1, fun o a disk' hG heffect => (ih a (h.2 o a disk' hG heffect)).mono ?_⟩
    exact fun r disk log' hpost => ⟨hpost.1, (List.prefix_append _ _).trans hpost.2⟩

theorem Keeps.bind {post : Except ε α → D → List (Q × O) → Prop}
    {post' : Except ε β → D → List (Q × O) → Prop} {p : Prog A ε α} {f : α → Prog A ε β}
    (h : Keeps effect G C post p disk log)
    (hok : ∀ a disk log, post (.ok a) disk log → C disk log → Keeps effect G C post' (f a) disk log)
    (herror : ∀ e disk log, post (.error e) disk log → post' (.error e) disk log) :
    Keeps effect G C post' (p >>= f) disk log := by
  induction p generalizing disk log with
  | done a => exact hok a disk log h.2 h.1
  | fail e => exact ⟨h.1, herror e disk log h.2⟩
  | ask q k ih => exact ⟨h.1, fun o a disk' hG heffect => ih a (h.2 o a disk' hG heffect)⟩

theorem Keeps.tryCatch {post : Except ε α → D → List (Q × O) → Prop}
    {post' : Except ε' α → D → List (Q × O) → Prop} {p : Prog A ε α} {handler : ε → Prog A ε' α}
    (h : Keeps effect G C post p disk log)
    (hok : ∀ a disk log, post (.ok a) disk log → post' (.ok a) disk log)
    (herror : ∀ e disk log, post (.error e) disk log → C disk log →
      Keeps effect G C post' (handler e) disk log) :
    Keeps effect G C post' (p.tryCatch handler) disk log := by
  induction p generalizing disk log with
  | done a => exact ⟨h.1, hok a disk log h.2⟩
  | fail e => exact herror e disk log h.2 h.1
  | ask q k ih => exact ⟨h.1, fun o a disk' hG heffect => ih a (h.2 o a disk' hG heffect)⟩

theorem Keeps.mapError {post : Except ε α → D → List (Q × O) → Prop}
    {post' : Except ε' α → D → List (Q × O) → Prop} {p : Prog A ε α} {f : ε → ε'}
    (h : Keeps effect G C post p disk log)
    (hok : ∀ a disk log, post (.ok a) disk log → post' (.ok a) disk log)
    (herror : ∀ e disk log, post (.error e) disk log → post' (.error (f e)) disk log) :
    Keeps effect G C post' (p.mapError f) disk log :=
  h.tryCatch hok fun e disk log hpost hC => ⟨hC, herror e disk log hpost⟩

/-- **The runs of the machine**: where a crash has cut it off `C` holds, and otherwise the rest
    of the program keeps what the program does. -/
theorem Keeps.exec {post : Except ε α → D → List (Q × O) → Prop} {K : D → List (Q × O) → Prop}
    {m m' : Machine A ε α D O} {labels : List (Label O)}
    (h : Keeps effect G C post m.rest m.disk m.log) (hm : m.crashed = false)
    (hrun : exec (step effect) m labels = some m')
    (hG : Always (step effect) (Meets G K) m labels) :
    (m'.crashed = false → Keeps effect G C post m'.rest m'.disk m'.log) ∧
      (m'.crashed = true → C m'.disk m'.log ∧ K m'.disk m'.log) := by
  let I (m : Machine A ε α D O) : Prop :=
    (m.crashed = false → Keeps effect G C post m.rest m.disk m.log) ∧
      (m.crashed = true → C m.disk m.log ∧ K m.disk m.log)
  refine exec_invariant (I := I) ?_ hrun hG ⟨fun _ => h, fun hc => by rw [hm] at hc; cases hc⟩
  rintro ⟨disk, log, rest, crashed⟩ label t ⟨hkeeps, -⟩ hmeets hstep
  cases crashed with
  | true => cases hstep
  | false =>
    cases label with
    | crash =>
      obtain rfl := Option.some.inj hstep
      exact ⟨nofun, fun _ => ⟨(hkeeps rfl).cut, hmeets⟩⟩
    | request o =>
      cases rest with
      | done a => cases hstep
      | fail e => cases hstep
      | ask q k =>
        obtain ⟨⟨a, disk'⟩, heffect, rfl⟩ := Option.map_eq_some_iff.1 hstep
        exact ⟨fun _ => (hkeeps rfl).2 o a disk' (hmeets q k rfl) heffect, nofun⟩

/-- A run that is bound by nothing can be cut off in states of `C` only. -/
theorem Keeps.exec_cut {post : Except ε α → D → List (Q × O) → Prop} {m m' : Machine A ε α D O}
    {labels : List (Label O)}
    (h : Keeps effect (fun _ _ _ _ => True) C post m.rest m.disk m.log) (hm : m.crashed = false)
    (hrun : Transition.exec (step effect) m labels = some m') : C m'.disk m'.log := by
  have hG : Always (step effect) (Meets (fun _ _ _ _ => True) fun _ _ => True) m labels := by
    refine (always_of_forall (fun _ _ => trivial) m).of_invariant (I := fun _ => True)
      (fun _ _ _ _ _ _ => trivial) (fun m label _ _ => ?_) trivial
    cases label with
    | request o => exact fun _ _ _ => trivial
    | crash => exact trivial
  obtain ⟨hgoes, hcrashed⟩ := h.exec hm hrun hG
  cases hc : m'.crashed with
  | true => exact (hcrashed hc).1
  | false => exact (hgoes hc).cut

end

end Cognis.Crash
