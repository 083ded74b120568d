/-
  The record that a lease guard of `cognis-core` reports (`LeaseGuard::record` in
  `lease.rs`), against the last one that it has written.

  `heartbeat` sets the times of the record before it reads the file and before it writes
  it, and a failure leaves them set.

  * `WriterState` adds to the system the last record that each holder has put on file;
  * `Matches`: the guards report these records;
  * `matches_iff`: the records match in all of a run exactly when each heartbeat that
    fails sets times that the record has already.
-/
import Cognis.Core.LeaseGuard

namespace Cognis

/-! ## The last record written -/

/-- What `record` returns, between two operations of a guard. -/
def Holder.reports : Holder → Option LeaseRecord
  | .held record => some record
  | _ => none

/-- The system, with the last record that each holder has written. -/
structure WriterState (ι : Type) extends GuardState ι where
  lastWritten : ι → Option LeaseRecord

section
variable {ι : Type} [DecidableEq ι] (proc : ι → Process)

/-- No process has started. -/
def WriterState.init (file : LeaseFile) : WriterState ι where
  file := file
  holder := fun _ => .acquiring .read
  lastWritten := fun _ => none

/-- The last record written after a step. -/
def Holder.noted (p : Process) (env : Env) (holder : Holder) (last : Option LeaseRecord) :
    Option LeaseRecord :=
  if env.fault then last else holder.writes p env <|> last

/-- One step; a write that succeeds is noted. -/
def writerStep (s : WriterState ι) (a : GuardLabel ι) : Option (WriterState ι) :=
  (guardStep proc s.toGuardState a).map fun t =>
    { t with
      lastWritten := Function.update s.lastWritten a.id
        ((s.holder a.id).noted (proc a.id) a.env (s.lastWritten a.id)) }

/-- Every guard reports the last record that it has written. -/
def WriterState.Matches (s : WriterState ι) : Prop :=
  ∀ i record, (s.holder i).reports = some record → s.lastWritten i = some record

/-- The heartbeat fails at its read, or at the check of the nonce. -/
def HeartbeatRefused (env : Env) (file : LeaseFile) (record : LeaseRecord) : Prop :=
  env.fault = true ∨ file = .invalid ∨ ∃ r, file = .record r ∧ r.ownerNonce ≠ record.ownerNonce

/-- If the step of the holder is one at which a heartbeat fails, then the times that the
    heartbeat sets are those of the record before it. -/
def Harmless (p : Process) (env : Env) (file : LeaseFile) (last : Option LeaseRecord) :
    Holder → HolderAction → Prop
  | .held record, .heartbeat =>
    HeartbeatRefused env file record → record.beat p env.now = record
  | .refresh record, .proceed => env.fault = true → last = some record
  | _, _ => True

/-- A heartbeat fails at the step of the holder. -/
def Fails (env : Env) (file : LeaseFile) : Holder → HolderAction → Prop
  | .held record, .heartbeat => HeartbeatRefused env file record
  | .refresh _, .proceed => env.fault = true
  | _, _ => False

/-- The condition on a step of the system. -/
def FailsHarmlessly (s : WriterState ι) (a : GuardLabel ι) : Prop :=
  Harmless (proc a.id) a.env s.file (s.lastWritten a.id) (s.holder a.id) a.action

/-- In every state of the run the records match, and a heartbeat that fails leaves the guard
    with the record that it had, the last one written. -/
def RecordsMatch (start : WriterState ι) (run : List (GuardLabel ι)) : Prop :=
  ∀ before rest s, run = before ++ rest →
    Transition.exec (writerStep proc) start before = some s → s.Matches ∧
      ∀ a t, rest.head? = some a → writerStep proc s a = some t →
        Fails a.env s.file (s.holder a.id) a.action →
          (t.holder a.id).reports = s.lastWritten a.id

end

/-! ## One step -/

/-- The record that a holder has written and may report: the one of a call of
    `acquire_or_attach` that is read back, or the one of a guard. -/
def Holder.written : Holder → Option LeaseRecord
  | .acquiring (.verify record) | .acquiring (.finalVerify record)
  | .acquiring (.rewrite record) => some record
  | .held record => some record
  | _ => none

theorem Holder.written_of_reports {holder : Holder} {record : LeaseRecord}
    (h : holder.reports = some record) : holder.written = some record := by
  cases holder with
  | held r => exact h
  | _ => cases h

/-- The record that a call goes on with, or returns. -/
def Holder.afterAcquire : AcquirePc ⊕ AcquireOutcome → Holder
  | .inl pc => .acquiring pc
  | .inr (.acquired record) => .held record
  | .inr _ => .acquiring .read

theorem written_acquireStep {p : Process} {env : Env} (file : LeaseFile) {pc : AcquirePc}
    {last : Option LeaseRecord} {record : LeaseRecord}
    (hlast : ∀ r, (Holder.acquiring pc).written = some r → last = some r)
    (h : (Holder.afterAcquire (acquireStep p env file pc).2).written = some record) :
    (Holder.acquiring pc).noted p env last = some record := by
  have hnoted {holder : Holder} (hwrites : holder.writes p env = none) :
      holder.noted p env last = last := by
    unfold Holder.noted
    rw [hwrites]
    split_ifs <;> rfl
  cases pc with
  | read =>
    simp only [acquireStep] at h
    repeat' split at h
    all_goals cases h
  | verify r | finalVerify r =>
    rw [hnoted rfl]
    have hr : record = r := by
      simp only [acquireStep] at h
      repeat' split at h
      all_goals first | exact (Option.some.inj h).symm | cases h
    exact hr ▸ hlast r rfl
  | write | overwrite | own =>
    unfold Holder.noted
    simp only [acquireStep, writeThen, writeLeaseAtomic] at h
    cases hfault : env.fault
    · rw [hfault] at h
      have hr : newOwnerRecord p env = record := Option.some.inj h
      exact congrArg some hr
    · rw [hfault] at h
      cases h
  | rewrite r =>
    have hr : record = r := (Option.some.inj h).symm
    unfold Holder.noted
    split_ifs
    · exact hr ▸ hlast r rfl
    · exact hr ▸ rfl

/-- A heartbeat that does not go on to write has been refused, and keeps the times that it
    has set. -/
theorem heartbeatRead_written {p : Process} {env : Env} {file : LeaseFile}
    {record r : LeaseRecord} (h : (heartbeatRead p env file record).written = some r) :
    HeartbeatRefused env file record ∧ r = record.beat p env.now := by
  unfold heartbeatRead readLease at h
  dsimp only at h
  cases hfault : env.fault with
  | true =>
    rw [hfault] at h
    exact ⟨.inl hfault, (Option.some.inj h).symm⟩
  | false =>
    rw [hfault] at h
    cases file with
    | missing => cases h
    | invalid => exact ⟨.inr (.inl rfl), (Option.some.inj h).symm⟩
    | record existing =>
      by_cases hnonce : existing.ownerNonce = (record.beat p env.now).ownerNonce
      · simp only [Bool.false_eq_true, if_false, if_pos hnonce] at h
        cases h
      · simp only [Bool.false_eq_true, if_false, if_neg hnonce] at h
        exact ⟨.inr (.inr ⟨existing, rfl, hnonce⟩), (Option.some.inj h).symm⟩

/-- A refused heartbeat does not go on to write. -/
theorem heartbeatRead_of_refused {p : Process} {env : Env} {file : LeaseFile}
    {record : LeaseRecord} (h : HeartbeatRefused env file record) :
    heartbeatRead p env file record = .held (record.beat p env.now) := by
  unfold heartbeatRead readLease
  dsimp only
  rcases h with hfault | rfl | ⟨existing, rfl, hnonce⟩
  · rw [hfault]
    rfl
  · cases env.fault <;> rfl
  · cases env.fault with
    | true => rfl
    | false => simp [LeaseRecord.beat, hnonce]

/-- **One step of a holder**: what it may report afterwards is the last record written. -/
theorem written_holderStep {p : Process} {env : Env} {file file' : LeaseFile}
    {holder holder' : Holder} {action : HolderAction} {last : Option LeaseRecord}
    (hlast : ∀ r, holder.written = some r → last = some r)
    (hharmless : Harmless p env file last holder action)
    (h : holderStep p env file holder action = some (file', holder')) :
    ∀ r, holder'.written = some r → holder.noted p env last = some r := by
  intro r hr
  cases holder with
  | acquiring pc =>
    cases action with
    | proceed =>
      refine written_acquireStep file hlast ?_
      simp only [holderStep] at h
      cases hstep : acquireStep p env file pc with
      | mk file₁ out =>
        rw [hstep] at h
        rcases out with pc | record | lease | e <;> cases h <;> exact hr
    | _ => cases h
  | held record =>
    have hnoted : (Holder.held record).noted p env last = some record := by
      rw [← hlast record rfl]
      unfold Holder.noted
      split_ifs <;> rfl
    cases action with
    | proceed => cases h
    | heartbeat =>
      cases h
      obtain ⟨hrefused, rfl⟩ := heartbeatRead_written hr
      rw [hnoted, hharmless hrefused]
    | release | drop =>
      cases h
      simp only [releaseRead] at hr
      repeat' split at hr
      all_goals cases hr
  | refresh record =>
    cases action with
    | proceed =>
      cases h
      obtain rfl : record = r := Option.some.inj hr
      unfold Holder.noted
      split_ifs with hfault
      · exact hharmless hfault
      · rfl
    | _ => cases h
  | remove record final =>
    cases action with
    | proceed =>
      cases h
      cases final <;> cases hr
    | _ => cases h
  | dropping record =>
    cases action with
    | proceed =>
      cases h
      simp only [releaseRead] at hr
      repeat' split at hr
      all_goals cases hr
    | _ => cases h

/-- The step of a heartbeat that fails. -/
theorem holderStep_of_fails {p : Process} {env : Env} {file : LeaseFile} {holder : Holder}
    {action : HolderAction} (last : Option LeaseRecord) (h : Fails env file holder action) :
    ∃ r, holderStep p env file holder action = some (file, .held r) ∧
      holder.noted p env last = last ∧
      ((∀ r, holder.written = some r → last = some r) →
        (Harmless p env file last holder action ↔ last = some r)) := by
  cases holder with
  | held record =>
    cases action with
    | heartbeat =>
      refine ⟨_, congrArg (fun holder => some (file, holder)) (heartbeatRead_of_refused h), ?_, ?_⟩
      · unfold Holder.noted
        split_ifs <;> rfl
      · intro hlast
        rw [hlast record rfl, Option.some_inj]
        exact ⟨fun hharmless => (hharmless h).symm, fun heq _ => heq.symm⟩
    | _ => cases h
  | refresh record =>
    cases action with
    | proceed =>
      have hfault : env.fault = true := h
      refine ⟨record, ?_, ?_, fun _ => ⟨fun hharmless => hharmless h, fun heq _ => heq⟩⟩
      · unfold holderStep writeLeaseAtomic
        rw [hfault]
        rfl
      · unfold Holder.noted
        rw [if_pos hfault]
    | _ => cases h
  | _ => cases h

theorem harmless_of_not_fails {p : Process} {env : Env} {file : LeaseFile} {holder : Holder}
    {action : HolderAction} {last : Option LeaseRecord} (h : ¬ Fails env file holder action) :
    Harmless p env file last holder action := by
  cases holder with
  | held record =>
    cases action with
    | heartbeat => exact fun hrefused => absurd hrefused h
    | _ => exact trivial
  | refresh record =>
    cases action with
    | proceed => exact fun hfault => absurd hfault h
    | _ => exact trivial
  | _ => exact trivial

/-! ## Runs -/

section
variable {ι : Type} [DecidableEq ι] {proc : ι → Process}

/-- What the holders may report is what they have written last. -/
def WriterInv (s : WriterState ι) : Prop :=
  ∀ i r, (s.holder i).written = some r → s.lastWritten i = some r

omit [DecidableEq ι] in
theorem WriterInv.matches {s : WriterState ι} (h : WriterInv s) : s.Matches :=
  fun i r hr => h i r (Holder.written_of_reports hr)

/-- A step of the system is one of a holder. -/
theorem writerStep_eq_some {s t : WriterState ι} {a : GuardLabel ι} :
    writerStep proc s a = some t ↔ ∃ file holder,
      holderStep (proc a.id) a.env s.file (s.holder a.id) a.action = some (file, holder) ∧
        t = ⟨⟨file, Function.update s.holder a.id holder⟩, Function.update s.lastWritten a.id
          ((s.holder a.id).noted (proc a.id) a.env (s.lastWritten a.id))⟩ := by
  unfold writerStep guardStep
  cases hstep : holderStep (proc a.id) a.env s.file (s.holder a.id) a.action with
  | none => simp
  | some next =>
    obtain ⟨file, holder⟩ := next
    simp [eq_comm]

/-- **Step lemma**: a step at which no heartbeat fails with other times keeps the
    invariant. -/
theorem WriterInv.step {s t : WriterState ι} {a : GuardLabel ι} (h : WriterInv s)
    (hharmless : FailsHarmlessly proc s a) (hst : writerStep proc s a = some t) : WriterInv t := by
  obtain ⟨file, holder, hstep, rfl⟩ := writerStep_eq_some.1 hst
  intro i r hr
  by_cases hi : i = a.id
  · subst hi
    simp only [Function.update_self] at hr ⊢
    exact written_holderStep (h a.id) hharmless hstep r hr
  · simp only [Function.update_of_ne hi] at hr ⊢
    exact h i r hr

/-- A heartbeat that fails with other times leaves a record that is not the last one
    written. -/
theorem not_matches_of_harm {s : WriterState ι} {a : GuardLabel ι} (h : WriterInv s)
    (hharm : ¬ FailsHarmlessly proc s a) :
    ∃ t, writerStep proc s a = some t ∧ ¬ t.Matches := by
  have hfails : Fails a.env s.file (s.holder a.id) a.action := by
    by_contra hfails
    exact hharm (harmless_of_not_fails hfails)
  obtain ⟨r, hstep, hnoted, hiff⟩ := holderStep_of_fails (p := proc a.id)
    (s.lastWritten a.id) hfails
  refine ⟨_, writerStep_eq_some.2 ⟨_, _, hstep, rfl⟩, fun hmatches => ?_⟩
  have hlast := hmatches a.id r (by simp [Holder.reports])
  simp only [Function.update_self, hnoted] at hlast
  exact hharm ((hiff (h a.id)).2 hlast)

theorem recordsMatch_iff {start : WriterState ι} (hstart : WriterInv start)
    (run : List (GuardLabel ι)) : RecordsMatch proc start run ↔
      Transition.Always (writerStep proc) (FailsHarmlessly proc) start run := by
  constructor
  · intro h
    induction run generalizing start with
    | nil => exact trivial
    | cons a as ih =>
      have hharmless : FailsHarmlessly proc start a := by
        by_contra hharm
        obtain ⟨t, hst, hbad⟩ := not_matches_of_harm hstart hharm
        refine hbad (h [a] as t rfl ?_).1
        simp only [Transition.exec, hst]
      refine ⟨hharmless, fun t hst => ih (hstart.step hharmless hst) ?_⟩
      intro before rest s hrun hexec
      refine h (a :: before) rest s (congrArg _ hrun) ?_
      simp only [Transition.exec, hst]
      exact hexec
  · rintro h before rest s rfl hexec
    obtain ⟨hbefore, hrest⟩ := h.of_append hexec
    have hinv : WriterInv s :=
      Transition.exec_invariant (fun _ _ _ hI hG hst => hI.step hG hst) hexec hbefore hstart
    refine ⟨hinv.matches, fun a t hhead hst hfails => ?_⟩
    obtain ⟨rest, rfl⟩ : ∃ as, rest = a :: as := by
      cases rest with
      | nil => cases hhead
      | cons b bs => exact ⟨bs, by rw [Option.some.inj hhead]⟩
    obtain ⟨file, holder, hstep, rfl⟩ := writerStep_eq_some.1 hst
    obtain ⟨r, hstep', -, hiff⟩ := holderStep_of_fails (p := proc a.id)
      (s.lastWritten a.id) hfails
    rw [hstep] at hstep'
    obtain ⟨rfl, rfl⟩ := Prod.mk.inj (Option.some.inj hstep')
    simp only [Function.update_self]
    exact ((hiff (hinv a.id)).1 hrest.1).symm

end

/-- **The record matches the file** in all of a run exactly when each heartbeat that fails
    sets the times that the record has already. -/
theorem guard_record_matches_iff {ι : Type} [DecidableEq ι] (proc : ι → Process)
    (file : LeaseFile) (run : List (GuardLabel ι)) :
    RecordsMatch proc (.init file) run ↔
      Transition.Always (writerStep proc) (FailsHarmlessly proc) (.init file) run :=
  recordsMatch_iff (fun i r hr => by cases hr) run

/-- The property for every run. -/
def RecordsMatchFile : Prop :=
  ∀ (ι : Type) [DecidableEq ι] (proc : ι → Process) (file : LeaseFile)
    (run : List (GuardLabel ι)), RecordsMatch proc (.init file) run

/-- A process acquires the lease at the time 1, and the heartbeat at the time 2 cannot read
    the file: the guard reports the times 2 and 32, the file has 1 and 31. -/
theorem not_recordsMatchFile : ¬ RecordsMatchFile := by
  intro h
  have hmatches := (h Unit (fun _ => GuardExample.proc false) .missing
    [⟨(), .proceed, ⟨1, 0, 0, false⟩⟩, ⟨(), .proceed, ⟨1, 0, 0, false⟩⟩,
      ⟨(), .proceed, ⟨1, 0, 0, false⟩⟩, ⟨(), .heartbeat, ⟨2, 0, 0, true⟩⟩] _ [] _
    (List.append_nil _).symm rfl).1
  exact absurd (hmatches () _ rfl) (by decide +kernel)

end Cognis
