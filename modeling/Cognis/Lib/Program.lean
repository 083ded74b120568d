/-
  Programs that ask: a program is a tree whose nodes are requests to an environment and whose
  branches are the answers.

  * `Runs` relates a program to the requests and answers of a run and to its outcome;
  * `trace` and `outcome` are the run in an environment that answers by the position in the
    run and the request, `settled` in one that answers by the request alone;
  * `Uses` bounds the requests of a program, `Yields` is a postcondition of its runs.
-/
import Mathlib.Tactic.Common

namespace Cognis

/-- A program with requests in `Q`, answered in `A`. -/
inductive Prog {Q : Type} (A : Q → Type) (ε α : Type)
  | done (a : α)
  | fail (e : ε)
  | ask (q : Q) (k : A q → Prog A ε α)

namespace Prog

variable {Q : Type} {A : Q → Type} {ε α β : Type}

/-- A request on its own. -/
def request (q : Q) : Prog A ε (A q) := ask q done

/-- `?` -/
def ofExcept : Except ε α → Prog A ε α
  | .ok a => done a
  | .error e => fail e

def bind : Prog A ε α → (α → Prog A ε β) → Prog A ε β
  | done a, f => f a
  | fail e, _ => fail e
  | ask q k, f => ask q fun a => (k a).bind f

instance : Monad (Prog A ε) where
  pure := done
  bind := bind

@[simp] theorem pure_eq (a : α) : (pure a : Prog A ε α) = done a := rfl

@[simp] theorem done_bind (a : α) (f : α → Prog A ε β) : done a >>= f = f a := rfl

@[simp] theorem fail_bind (e : ε) (f : α → Prog A ε β) : fail e >>= f = fail e := rfl

@[simp] theorem ask_bind (q : Q) (k : A q → Prog A ε α) (f : α → Prog A ε β) :
    ask q k >>= f = ask q fun a => k a >>= f := rfl

@[simp] theorem request_bind (q : Q) (f : A q → Prog A ε β) :
    request q >>= f = ask q f := rfl

/-- `try`: a handler for the errors. -/
def tryCatch {ε' : Type} : Prog A ε α → (ε → Prog A ε' α) → Prog A ε' α
  | done a, _ => done a
  | fail e, handler => handler e
  | ask q k, handler => ask q fun a => (k a).tryCatch handler

/-- The error with what is known where it is thrown. -/
def mapError {ε' : Type} (f : ε → ε') (p : Prog A ε α) : Prog A ε' α :=
  p.tryCatch fun e => fail (f e)

/-! ## Runs -/

/-- A request and its answer. -/
abbrev Event (A : Q → Type) := (q : Q) × A q

/-- The program makes the requests of `t`, gets their answers and ends with `r`. -/
def Runs : Prog A ε α → List (Event A) → Except ε α → Prop
  | done a, t, r => t = [] ∧ r = .ok a
  | fail e, t, r => t = [] ∧ r = .error e
  | ask q k, t, r => ∃ a t', t = ⟨q, a⟩ :: t' ∧ (k a).Runs t' r

/-- The events of the run from position `n`, in an environment that answers `answer`. -/
def trace (answer : ℕ → (q : Q) → A q) : ℕ → Prog A ε α → List (Event A)
  | _, done _ => []
  | _, fail _ => []
  | n, ask q k => ⟨q, answer n q⟩ :: (k (answer n q)).trace answer (n + 1)

/-- The outcome of the run from position `n`. -/
def outcome (answer : ℕ → (q : Q) → A q) : ℕ → Prog A ε α → Except ε α
  | _, done a => .ok a
  | _, fail e => .error e
  | n, ask q k => (k (answer n q)).outcome answer (n + 1)

@[simp] theorem runs_done {a : α} {t : List (Event A)} {r : Except ε α} :
    (done a : Prog A ε α).Runs t r ↔ t = [] ∧ r = .ok a := Iff.rfl

@[simp] theorem runs_fail {e : ε} {t : List (Event A)} {r : Except ε α} :
    (fail e : Prog A ε α).Runs t r ↔ t = [] ∧ r = .error e := Iff.rfl

@[simp] theorem runs_ask {q : Q} {k : A q → Prog A ε α} {t : List (Event A)} {r : Except ε α} :
    (ask q k).Runs t r ↔ ∃ a t', t = ⟨q, a⟩ :: t' ∧ (k a).Runs t' r := Iff.rfl

theorem runs_trace (answer : ℕ → (q : Q) → A q) (n : ℕ) (p : Prog A ε α) :
    p.Runs (p.trace answer n) (p.outcome answer n) := by
  induction p generalizing n with
  | done a => exact ⟨rfl, rfl⟩
  | fail e => exact ⟨rfl, rfl⟩
  | ask q k ih => exact ⟨answer n q, _, rfl, ih _ (n + 1)⟩

theorem outcome_const (answer : (q : Q) → A q) (p : Prog A ε α) (n m : ℕ) :
    p.outcome (fun _ => answer) n = p.outcome (fun _ => answer) m := by
  induction p generalizing n m with
  | done a => rfl
  | fail e => rfl
  | ask q k ih => exact ih _ (n + 1) (m + 1)

/-- The outcome in an environment whose answers depend on the requests alone. -/
def settled (answer : (q : Q) → A q) (p : Prog A ε α) : Except ε α :=
  p.outcome (fun _ => answer) 0

section
variable {answer : (q : Q) → A q}

@[simp] theorem settled_done (a : α) : (done a : Prog A ε α).settled answer = .ok a := rfl

@[simp] theorem settled_fail (e : ε) : (fail e : Prog A ε α).settled answer = .error e := rfl

@[simp] theorem settled_ask (q : Q) (k : A q → Prog A ε α) :
    (ask q k).settled answer = (k (answer q)).settled answer :=
  outcome_const answer (k (answer q)) 1 0

theorem settled_bind {p : Prog A ε α} {a : α} (h : p.settled answer = .ok a)
    (f : α → Prog A ε β) : (p >>= f).settled answer = (f a).settled answer := by
  induction p with
  | done b => rw [Except.ok.inj h, done_bind]
  | fail e => cases h
  | ask q k ih =>
    rw [settled_ask] at h
    rw [ask_bind, settled_ask]
    exact ih _ h

end

theorem Runs.bind {p : Prog A ε α} {f : α → Prog A ε β} {t : List (Event A)} {r : Except ε β}
    (h : (p >>= f).Runs t r) :
    (∃ t₁ t₂ a, t = t₁ ++ t₂ ∧ p.Runs t₁ (.ok a) ∧ (f a).Runs t₂ r) ∨
      ∃ e, p.Runs t (.error e) ∧ r = .error e := by
  induction p generalizing t with
  | done a => exact .inl ⟨[], t, a, rfl, ⟨rfl, rfl⟩, h⟩
  | fail e =>
    obtain ⟨rfl, rfl⟩ := h
    exact .inr ⟨e, ⟨rfl, rfl⟩, rfl⟩
  | ask q k ih =>
    obtain ⟨a, t', rfl, h⟩ := h
    rcases ih a h with ⟨t₁, t₂, b, rfl, hp, hf⟩ | ⟨e, hp, rfl⟩
    · exact .inl ⟨⟨q, a⟩ :: t₁, t₂, b, rfl, ⟨a, t₁, rfl, hp⟩, hf⟩
    · exact .inr ⟨e, ⟨a, t', rfl, hp⟩, rfl⟩

theorem Runs.append {p : Prog A ε α} {f : α → Prog A ε β} {t t' : List (Event A)} {a : α}
    {r : Except ε β} (hp : p.Runs t (.ok a)) (hf : (f a).Runs t' r) :
    (p >>= f).Runs (t ++ t') r := by
  induction p generalizing t with
  | done b =>
    obtain ⟨rfl, hb⟩ := hp
    exact Except.ok.inj hb ▸ hf
  | fail e => cases hp.2
  | ask q k ih =>
    obtain ⟨b, t₁, rfl, hp⟩ := hp
    exact ⟨b, t₁ ++ t', rfl, ih b hp⟩

/-- The program has made the requests of `t` and got their answers; it goes on with the
    second one. -/
inductive Reaches : Prog A ε α → List (Event A) → Prog A ε α → Prop
  | refl (p : Prog A ε α) : Reaches p [] p
  | answer {p : Prog A ε α} {t : List (Event A)} {q : Q} {k : A q → Prog A ε α}
      (h : Reaches p t (ask q k)) (a : A q) : Reaches p (t ++ [⟨q, a⟩]) (k a)

theorem Reaches.runs {p p' : Prog A ε α} {t t' : List (Event A)} {r : Except ε α}
    (h : Reaches p t p') (hr : p'.Runs t' r) : p.Runs (t ++ t') r := by
  induction h generalizing t' with
  | refl => exact hr
  | answer h a ih =>
    rw [List.append_assoc]
    exact ih ⟨a, t', rfl, hr⟩

/-! ## The requests of a program -/

/-- Every request is an allowed one. -/
def Uses (allowed : Q → Prop) : Prog A ε α → Prop
  | done _ => True
  | fail _ => True
  | ask q k => allowed q ∧ ∀ a, (k a).Uses allowed

theorem Uses.bind {allowed : Q → Prop} {p : Prog A ε α} {f : α → Prog A ε β}
    (hp : p.Uses allowed) (hf : ∀ a, (f a).Uses allowed) : (p >>= f).Uses allowed := by
  induction p with
  | done a => exact hf a
  | fail e => exact trivial
  | ask q k ih => exact ⟨hp.1, fun a => ih a (hp.2 a)⟩

theorem Uses.mono {allowed allowed' : Q → Prop} {p : Prog A ε α} (hp : p.Uses allowed)
    (h : ∀ q, allowed q → allowed' q) : p.Uses allowed' := by
  induction p with
  | done a => exact trivial
  | fail e => exact trivial
  | ask q k ih => exact ⟨h q hp.1, fun a => ih a (hp.2 a)⟩

theorem Uses.runs {allowed : Q → Prop} {p : Prog A ε α} (hp : p.Uses allowed)
    {t : List (Event A)} {r : Except ε α} (h : p.Runs t r) : ∀ event ∈ t, allowed event.1 := by
  induction p generalizing t with
  | done a => exact fun event he => by rw [h.1] at he; cases he
  | fail e => exact fun event he => by rw [h.1] at he; cases he
  | ask q k ih =>
    obtain ⟨a, t', rfl, h⟩ := h
    intro event he
    rcases List.mem_cons.1 he with rfl | he
    · exact hp.1
    · exact ih a (hp.2 a) h event he

/-! ## Postconditions -/

/-- Every run that ends with a value satisfies `P`, of its events and the value. -/
def Yields (p : Prog A ε α) (P : List (Event A) → α → Prop) : Prop :=
  ∀ t a, p.Runs t (.ok a) → P t a

section
variable {P : List (Event A) → α → Prop} {R : List (Event A) → β → Prop}

theorem yields_done {a : α} (h : P [] a) : (done a : Prog A ε α).Yields P := by
  rintro t b ⟨rfl, hb⟩
  exact Except.ok.inj hb ▸ h

theorem yields_fail {e : ε} : (fail e : Prog A ε α).Yields P := by
  rintro t b ⟨-, hb⟩
  cases hb

theorem yields_ask {q : Q} {k : A q → Prog A ε α}
    (h : ∀ a, (k a).Yields fun t => P (⟨q, a⟩ :: t)) : (ask q k).Yields P := by
  rintro t b ⟨a, t', rfl, hk⟩
  exact h a t' b hk

theorem Yields.bind {p : Prog A ε α} {f : α → Prog A ε β} (hp : p.Yields P)
    (hf : ∀ t a, P t a → (f a).Yields fun t' => R (t ++ t')) : (p >>= f).Yields R := by
  intro t b h
  rcases h.bind with ⟨t₁, t₂, a, rfl, hpa, hfa⟩ | ⟨e, -, he⟩
  · exact hf t₁ a (hp t₁ a hpa) t₂ b hfa
  · cases he

end

end Prog

end Cognis
