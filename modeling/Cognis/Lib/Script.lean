/-
  Scripts of statements, each of which may fail, and transactions.

  A script maps a state to every way in which it can end: after a statement that fails the
  script ends, unless it goes on without it (`attempt`). A connection has the committed
  state and, in a transaction, the state that the transaction has made of it.

  * `Ensures` is a postcondition of all endings; `ensures_bind`, `ensures_exec` and
    `ensures_attempt` compute it from the script;
  * `ensures_withWriteTxn`: a transaction is carried out as a whole, or the committed state
    is what it was.
-/
import Mathlib.Tactic.Common

namespace Cognis

/-- An ending of a script. -/
inductive Ending (S α : Type) where
  /-- with a value; `clean` when no statement has failed -/
  | done (a : α) (s : S) (clean : Bool)
  | failed (s : S)

/-- The state at the end. -/
def Ending.state {S α : Type} : Ending S α → S
  | done _ s _ => s
  | failed s => s

/-- A script, by its endings from a state. -/
def Script (S α : Type) := S → List (Ending S α)

namespace Script

variable {S α β : Type}

/-- An ending after statements, of which `clean` tells whether one has failed. -/
def after (clean : Bool) : Ending S α → Ending S α
  | .done a s b => .done a s (clean && b)
  | .failed s => .failed s

/-- The endings that come of an ending of the first part. -/
def next (f : α → Script S β) : Ending S α → List (Ending S β)
  | .done a s b => (f a s).map (after b)
  | .failed s => [.failed s]

instance : Monad (Script S) where
  pure a := fun s => [.done a s true]
  bind m f := fun s => (m s).flatMap (next f)

/-- A statement: it fails, or it does what `f` says where that is defined. -/
def exec (f : S → Option (α × S)) : Script S α := fun s =>
  .failed s ::
    match f s with
    | none => []
    | some (a, s') => [.done a s' true]

/-- A statement that reads. -/
def query (f : S → α) : Script S α := exec fun s => some (f s, s)

/-- A statement that writes. -/
def update (f : S → S) : Script S Unit := exec fun s => some ((), f s)

/-- An error. -/
def error : Script S α := fun s => [.failed s]

/-- Go on whether or not the script fails. -/
def attempt (m : Script S α) : Script S (Option α) := fun s =>
  (m s).map fun
    | .done a s b => .done (some a) s b
    | .failed s => .done none s false

/-! ## Postconditions -/

/-- All endings satisfy `Q`, or `E` where the script fails. -/
def Ensures (m : Script S α) (s : S) (Q : α → S → Bool → Prop) (E : S → Prop) : Prop :=
  ∀ x ∈ m s,
    match x with
    | .done a s b => Q a s b
    | .failed s => E s

theorem ensures_bind {m : Script S α} {f : α → Script S β} {s : S} {Q : β → S → Bool → Prop}
    {E : S → Prop} :
    (m >>= f).Ensures s Q E ↔
      m.Ensures s (fun a s b => (f a).Ensures s (fun a s b' => Q a s (b && b')) E) E := by
  show (∀ y ∈ (m s).flatMap (next f), _) ↔ _
  simp only [List.forall_mem_flatMap]
  refine forall_congr' fun x => imp_congr_right fun _ => ?_
  cases x with
  | failed s => simp [next]
  | done a s b =>
    simp only [next, List.forall_mem_map, Ensures]
    refine forall_congr' fun y => imp_congr_right fun _ => ?_
    cases y <;> rfl

@[simp]
theorem ensures_pure {a : α} {s : S} {Q : α → S → Bool → Prop} {E : S → Prop} :
    (pure a : Script S α).Ensures s Q E ↔ Q a s true := by
  show (∀ x ∈ [(.done a s true : Ending S α)], _) ↔ _
  simp

@[simp]
theorem ensures_error {s : S} {Q : α → S → Bool → Prop} {E : S → Prop} :
    (error : Script S α).Ensures s Q E ↔ E s := by
  simp [Ensures, error]

theorem ensures_exec {f : S → Option (α × S)} {s : S} {Q : α → S → Bool → Prop} {E : S → Prop} :
    (exec f).Ensures s Q E ↔ E s ∧ ∀ a s', f s = some (a, s') → Q a s' true := by
  cases hf : f s with
  | none => simp [Ensures, exec, hf]
  | some p =>
    obtain ⟨a, s'⟩ := p
    simp [Ensures, exec, hf]

@[simp]
theorem ensures_query {f : S → α} {s : S} {Q : α → S → Bool → Prop} {E : S → Prop} :
    (query f).Ensures s Q E ↔ E s ∧ Q (f s) s true := by
  simp [query, ensures_exec]

@[simp]
theorem ensures_update {f : S → S} {s : S} {Q : Unit → S → Bool → Prop} {E : S → Prop} :
    (update f).Ensures s Q E ↔ E s ∧ Q () (f s) true := by
  rw [update, ensures_exec]
  refine and_congr_right fun _ => ⟨fun h => h () _ rfl, fun h _ s' hs' => ?_⟩
  cases hs'
  exact h

@[simp]
theorem ensures_attempt {m : Script S α} {s : S} {Q : Option α → S → Bool → Prop}
    {E : S → Prop} :
    m.attempt.Ensures s Q E ↔
      m.Ensures s (fun a s b => Q (some a) s b) (fun s => Q none s false) := by
  simp only [Ensures, attempt, List.forall_mem_map]
  refine forall_congr' fun x => imp_congr_right fun _ => ?_
  cases x <;> rfl

theorem Ensures.mono {m : Script S α} {s : S} {Q Q' : α → S → Bool → Prop} {E E' : S → Prop}
    (h : m.Ensures s Q E) (hQ : ∀ a s b, Q a s b → Q' a s b) (hE : ∀ s, E s → E' s) :
    m.Ensures s Q' E' := by
  intro x hx
  have hx := h x hx
  cases x with
  | done a s b => exact hQ a s b hx
  | failed s => exact hE s hx

/-! ## Endings that occur -/

theorem mem_bind {m : Script S α} {f : α → Script S β} {s s' t : S} {a : α} {v : β}
    {b b' c : Bool} (hm : .done a s' b ∈ m s) (hf : .done v t b' ∈ f a s') (hc : (b && b') = c) :
    .done v t c ∈ (m >>= f) s := by
  subst hc
  exact List.mem_flatMap.2 ⟨_, hm, List.mem_map.2 ⟨_, hf, rfl⟩⟩

theorem failed_mem_bind {m : Script S α} {s s' : S} (h : .failed s' ∈ m s)
    (f : α → Script S β) : .failed s' ∈ (m >>= f) s :=
  List.mem_flatMap.2 ⟨_, h, List.mem_singleton.2 rfl⟩

theorem failed_mem_bind_of_done {m : Script S α} {f : α → Script S β} {s s' t : S} {a : α}
    {b : Bool} (hm : .done a s' b ∈ m s) (hf : .failed t ∈ f a s') : .failed t ∈ (m >>= f) s :=
  List.mem_flatMap.2 ⟨_, hm, List.mem_map.2 ⟨_, hf, rfl⟩⟩

theorem mem_pure (a : α) (s : S) : .done a s true ∈ (pure a : Script S α) s :=
  List.mem_singleton.2 rfl

theorem mem_exec {f : S → Option (α × S)} {s s' : S} {a : α} (hf : f s = some (a, s')) :
    .done a s' true ∈ exec f s := by
  simp [exec, hf]

theorem mem_query (f : S → α) (s : S) : .done (f s) s true ∈ query f s := mem_exec rfl

theorem mem_update (f : S → S) (s : S) : .done () (f s) true ∈ update f s := mem_exec rfl

theorem failed_mem_exec (f : S → Option (α × S)) (s : S) : .failed s ∈ exec f s :=
  List.mem_cons_self

theorem failed_mem_query (f : S → α) (s : S) : .failed s ∈ query f s := List.mem_cons_self

theorem mem_attempt {m : Script S α} {s s' : S} {a : α} {b : Bool} (h : .done a s' b ∈ m s) :
    .done (some a) s' b ∈ m.attempt s := List.mem_map.2 ⟨_, h, rfl⟩

theorem mem_attempt_failed {m : Script S α} {s s' : S} (h : .failed s' ∈ m s) :
    .done none s' false ∈ m.attempt s := List.mem_map.2 ⟨_, h, rfl⟩

end Script

/-! ## Transactions -/

/-- The state of a connection. -/
structure Conn (D : Type) where
  committed : D
  /-- what the transaction under way has made of it -/
  pending : Option D

namespace Conn

variable {D α : Type}

open Script

/-- What the statements of the connection see. -/
def view (c : Conn D) : D := c.pending.getD c.committed

/-- The connection after a statement; without a transaction it is committed at once. -/
def setView (c : Conn D) (d : D) : Conn D :=
  match c.pending with
  | none => ⟨d, none⟩
  | some _ => ⟨c.committed, some d⟩

@[simp] theorem view_mk_none (d : D) : (⟨d, none⟩ : Conn D).view = d := rfl

@[simp] theorem view_mk_some (d e : D) : (⟨d, some e⟩ : Conn D).view = e := rfl

@[simp] theorem setView_mk_none (d e : D) : (⟨d, none⟩ : Conn D).setView e = ⟨e, none⟩ := rfl

@[simp] theorem setView_mk_some (d e e' : D) :
    (⟨d, some e⟩ : Conn D).setView e' = ⟨d, some e'⟩ := rfl

/-- A script on a connection. -/
def onView (m : Script D α) : Script (Conn D) α := fun c =>
  (m c.view).map fun
    | .done a d b => .done a (c.setView d) b
    | .failed d => .failed (c.setView d)

/-- `BEGIN IMMEDIATE` -/
def begin : Script (Conn D) Unit :=
  exec fun c => if c.pending.isSome then none else some ((), ⟨c.committed, some c.committed⟩)

/-- `COMMIT`; the transaction stays open where it fails. -/
def commit : Script (Conn D) Unit := exec fun c => c.pending.map fun d => ((), ⟨d, none⟩)

/-- `ROLLBACK` -/
def rollback : Script (Conn D) Unit := exec fun c => c.pending.map fun _ => ((), ⟨c.committed, none⟩)

/-- `with_write_txn` -/
def withWriteTxn (body : Script D α) : Script (Conn D) α := do
  begin
  match ← (onView body).attempt with
  | some a => do
    commit
    pure a
  | none => do
    let _ ← rollback.attempt
    error

@[simp]
theorem ensures_onView {m : Script D α} {c : Conn D} {Q : α → Conn D → Bool → Prop}
    {E : Conn D → Prop} :
    (onView m).Ensures c Q E ↔
      m.Ensures c.view (fun a d b => Q a (c.setView d) b) fun d => E (c.setView d) := by
  simp only [Ensures, onView, List.forall_mem_map]
  refine forall_congr' fun x => imp_congr_right fun _ => ?_
  cases x <;> rfl

theorem mem_onView {m : Script D α} {c : Conn D} {d : D} {a : α} {b : Bool}
    (h : .done a d b ∈ m c.view) : .done a (c.setView d) b ∈ onView m c :=
  List.mem_map.2 ⟨_, h, rfl⟩

theorem failed_mem_onView {m : Script D α} {c : Conn D} {d : D} (h : .failed d ∈ m c.view) :
    .failed (c.setView d) ∈ onView m c := List.mem_map.2 ⟨_, h, rfl⟩

/-- **A transaction is carried out as a whole**: where it fails the committed state is what
    it was, and else it is what the body has made of it. -/
theorem ensures_withWriteTxn {body : Script D α} {c : Conn D} {Q : α → Conn D → Bool → Prop}
    {E : Conn D → Prop} (hkeep : ∀ pending, E ⟨c.committed, pending⟩)
    (hdone : c.pending = none →
      body.Ensures c.committed (fun a d b => Q a ⟨d, none⟩ b) fun _ => True) :
    (withWriteTxn body).Ensures c Q E := by
  rw [withWriteTxn, ensures_bind, begin, ensures_exec]
  refine ⟨hkeep c.pending, fun _ c' hbegin => ?_⟩
  cases hpending : c.pending with
  | some d => simp [hpending] at hbegin
  | none =>
    rw [hpending] at hbegin
    cases hbegin
    rw [ensures_bind, ensures_attempt, ensures_onView]
    refine (hdone hpending).mono (fun a d b hQ => ?_) fun d _ => ?_
    · simp only
      rw [ensures_bind, commit, ensures_exec]
      refine ⟨hkeep _, fun _ c' hcommit => ?_⟩
      cases hcommit
      simpa using hQ
    · simp only
      rw [ensures_bind, ensures_attempt, rollback, ensures_exec]
      refine ⟨ensures_error.2 (hkeep _), fun _ c' hrollback => ?_⟩
      cases hrollback
      exact ensures_error.2 (hkeep _)

/-- A transaction that is carried out. -/
theorem mem_withWriteTxn {body : Script D α} {d d' : D} {a : α} {clean : Bool}
    (h : .done a d' clean ∈ body d) : .done a ⟨d', none⟩ clean ∈ withWriteTxn body ⟨d, none⟩ := by
  have hbegin : .done () (⟨d, some d⟩ : Conn D) true ∈ begin ⟨d, none⟩ := mem_exec rfl
  have hbody := mem_attempt (mem_onView (c := ⟨d, some d⟩) h)
  have hcommit : .done () (⟨d', none⟩ : Conn D) true ∈ commit ⟨d, some d'⟩ := mem_exec rfl
  exact mem_bind hbegin (mem_bind hbody (mem_bind hcommit (mem_pure a _) rfl) (Bool.and_true _)) rfl

end Conn

end Cognis
