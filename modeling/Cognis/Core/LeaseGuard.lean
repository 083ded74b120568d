/-
  The lease guards of `cognis-core` (`lease.rs`): `heartbeat` and `release` of any number
  of guards against `acquire_or_attach`, one file operation at a time.

  A guard reads the file, compares the nonce with its own, and then replaces or removes
  the file in another operation: what is on file at that moment may be the record of a
  process that has taken the lease over in between.

  * `holderStep` is one file operation of a holder, `guardStep` a step of the system;
  * `guards_keep_others`: in a run in which no record is written while a guard with
    another nonce is past its check, no guard touches another owner's record;
  * `clobbers_of_write`: any such write makes one possible.
-/
import Cognis.Core.Lease
import Mathlib.Data.Fintype.Basic

namespace Cognis

/-! ## The guards -/

/-- A process with the lease file: in a call of `acquire_or_attach`, or with a guard. -/
inductive Holder where
  | acquiring (pc : AcquirePc)
  /-- `HeldLease`, between two operations -/
  | held (record : LeaseRecord)
  /-- the write of a heartbeat that has passed its check -/
  | refresh (record : LeaseRecord)
  /-- the removal of a release that has passed its check, the one of the drop when `last` -/
  | remove (record : LeaseRecord) (last : Bool)
  /-- `release` has returned, and the guard is dropped -/
  | dropping (record : LeaseRecord)
  deriving DecidableEq, Repr

/-- What a holder does next: go on with its call, or start one. -/
inductive HolderAction where
  | proceed | heartbeat | release | drop
  deriving DecidableEq, Repr

/-- The record of a guard after `heartbeat` has set its times. -/
def LeaseRecord.beat (record : LeaseRecord) (p : Process) (now : ℚ) : LeaseRecord :=
  { record with heartbeatAt := now, expiry := now + p.ttl }

/-- The read of `heartbeat`. -/
def heartbeatRead (p : Process) (env : Env) (file : LeaseFile) (record : LeaseRecord) : Holder :=
  let record := record.beat p env.now
  match readLease file env.fault with
  | .ok (some existing) =>
    if existing.ownerNonce = record.ownerNonce then .refresh record else .held record
  | .ok none => .refresh record
  | .error _ => .held record

/-- The guard after a release. -/
def afterRelease (record : LeaseRecord) (last : Bool) : Holder :=
  if last then .acquiring .read else .dropping record

/-- The read of `release`. -/
def releaseRead (env : Env) (file : LeaseFile) (record : LeaseRecord) (last : Bool) : Holder :=
  match readLease file env.fault with
  | .ok (some existing) =>
    if existing.ownerNonce = record.ownerNonce then .remove record last
    else afterRelease record last
  | .ok none => afterRelease record last
  | .error _ => afterRelease record last

/-- `remove_file` -/
def removeLease (file : LeaseFile) (fault : Bool) : LeaseFile := if fault then file else .missing

/-- One file operation of a holder. -/
def holderStep (p : Process) (env : Env) (file : LeaseFile) :
    Holder → HolderAction → Option (LeaseFile × Holder)
  | .acquiring pc, .proceed =>
    match acquireStep p env file pc with
    | (file, .inl pc) => some (file, .acquiring pc)
    | (file, .inr (.acquired record)) => some (file, .held record)
    | (file, .inr (.attached _)) => some (file, .acquiring .read)
    | (file, .inr (.failed _)) => some (file, .acquiring .read)
  | .held record, .heartbeat => some (file, heartbeatRead p env file record)
  | .refresh record, .proceed =>
    some ((writeLeaseAtomic file record env.fault).2, .held record)
  | .held record, .release => some (file, releaseRead env file record false)
  | .held record, .drop => some (file, releaseRead env file record true)
  | .remove record last, .proceed => some (removeLease file env.fault, afterRelease record last)
  | .dropping record, .proceed => some (file, releaseRead env file record true)
  | _, _ => none

/-- The record of a guard that is past its check, and about to replace or remove the
    file. -/
def Holder.poised : Holder → Option LeaseRecord
  | .refresh record | .remove record _ => some record
  | .acquiring _ | .held _ | .dropping _ => none

/-- The record that a holder is about to put on file. -/
def Holder.writes (p : Process) (env : Env) : Holder → Option LeaseRecord
  | .acquiring .write | .acquiring .overwrite | .acquiring .own => some (newOwnerRecord p env)
  | .acquiring (.rewrite record) | .refresh record => some record
  | _ => none

/-! ## The system -/

/-- The lease file and its holders. -/
structure GuardState (ι : Type) where
  file : LeaseFile
  holder : ι → Holder

/-- A step of holder `id`. -/
structure GuardLabel (ι : Type) where
  id : ι
  action : HolderAction
  env : Env

section
variable {ι : Type} (proc : ι → Process)

/-- One step. -/
def guardStep [DecidableEq ι] (s : GuardState ι) (a : GuardLabel ι) : Option (GuardState ι) :=
  match holderStep (proc a.id) a.env s.file (s.holder a.id) a.action with
  | none => none
  | some (file, holder) => some ⟨file, Function.update s.holder a.id holder⟩

/-- The step replaces or removes a record that is not the guard's own. -/
def Clobbers (s : GuardState ι) (a : GuardLabel ι) : Prop :=
  a.action = .proceed ∧ a.env.fault = false ∧ ∃ own r, (s.holder a.id).poised = some own ∧
    s.file = .record r ∧ r.ownerNonce ≠ own.ownerNonce

/-- No record is written while a guard with another nonce is past its check. -/
def WritesUnpoised (s : GuardState ι) (a : GuardLabel ι) : Prop :=
  ∀ r ∈ (s.holder a.id).writes (proc a.id) a.env, a.env.fault = false →
    ∀ j, ∀ own ∈ (s.holder j).poised, r.ownerNonce = own.ownerNonce

/-- A guard past its check has its own record on file, if any. -/
def GuardInv (s : GuardState ι) : Prop :=
  ∀ i own, (s.holder i).poised = some own → ∀ r, s.file = .record r →
    r.ownerNonce = own.ownerNonce

instance [Fintype ι] (s : GuardState ι) : DecidablePred (WritesUnpoised proc s) := fun a => by
  unfold WritesUnpoised
  infer_instance

end

/-! ## One file operation -/

/-- `acquire_or_attach` leaves the file alone, or puts a record on it. -/
theorem acquireStep_file {p : Process} {env : Env} {file file' : LeaseFile} {pc : AcquirePc}
    {out : AcquirePc ⊕ AcquireOutcome} (h : acquireStep p env file pc = (file', out)) :
    file' = file ∨ (env.fault = false ∧
      ∃ r, (Holder.acquiring pc).writes p env = some r ∧ file' = .record r) := by
  have hwrite : ∀ {next}, writeThen p env file next = (file', out) →
      file' = file ∨ (env.fault = false ∧ file' = .record (newOwnerRecord p env)) := by
    intro next h
    simp only [writeThen, writeLeaseAtomic] at h
    cases hfault : env.fault
    · rw [hfault] at h
      cases h
      exact .inr ⟨rfl, rfl⟩
    · rw [hfault] at h
      cases h
      exact .inl rfl
  cases pc with
  | read | verify | finalVerify =>
    refine .inl ?_
    simp only [acquireStep] at h
    repeat' split at h
    all_goals cases h
    all_goals rfl
  | write | overwrite | own =>
    simp only [acquireStep] at h
    rcases hwrite h with hfile | ⟨hfault, hfile⟩
    · exact .inl hfile
    · exact .inr ⟨hfault, _, rfl, hfile⟩
  | rewrite record =>
    unfold acquireStep writeLeaseAtomic at h
    cases hfault : env.fault
    · rw [hfault] at h
      cases h
      exact .inr ⟨rfl, _, rfl, rfl⟩
    · rw [hfault] at h
      cases h
      exact .inl rfl

@[simp]
theorem afterRelease_poised (record : LeaseRecord) (last : Bool) :
    (afterRelease record last).poised = none := by
  cases last <;> rfl

/-- A heartbeat goes on to write when its own record is on file, or none. -/
theorem heartbeatRead_poised {p : Process} {env : Env} {file : LeaseFile}
    {record own r : LeaseRecord} (h : (heartbeatRead p env file record).poised = some own)
    (hfile : file = .record r) : r.ownerNonce = own.ownerNonce := by
  subst hfile
  unfold heartbeatRead at h
  rcases readLease_record r env.fault with hread | hread
  · rw [hread] at h
    dsimp only at h
    split_ifs at h with hnonce
    · cases h
      exact hnonce
    · cases h
  · rw [hread] at h
    cases h

/-- A release goes on to remove its own record. -/
theorem releaseRead_poised {env : Env} {file : LeaseFile} {record own r : LeaseRecord} {last : Bool}
    (h : (releaseRead env file record last).poised = some own) (hfile : file = .record r) :
    r.ownerNonce = own.ownerNonce := by
  subst hfile
  unfold releaseRead at h
  rcases readLease_record r env.fault with hread | hread
  · rw [hread] at h
    dsimp only at h
    split_ifs at h with hnonce
    · cases h
      exact hnonce
    · simp at h
  · rw [hread] at h
    simp at h

/-- What one file operation does: it leaves the file alone, and is past its check only
    when its own record is on file; or it removes the file, or puts a record on it, and is
    past no check. -/
theorem holderStep_cases {p : Process} {env : Env} {file file' : LeaseFile} {holder holder' : Holder}
    {action : HolderAction} (h : holderStep p env file holder action = some (file', holder')) :
    (file' = file ∧
      ∀ own, holder'.poised = some own → ∀ r, file = .record r → r.ownerNonce = own.ownerNonce) ∨
    (holder'.poised = none ∧ (file' = .missing ∨
      env.fault = false ∧ ∃ r, holder.writes p env = some r ∧ file' = .record r)) := by
  cases holder with
  | acquiring pc =>
    cases action with
    | proceed =>
      cases hstep : acquireStep p env file pc with
      | mk file₁ out =>
        have hout : file' = file₁ ∧ holder'.poised = none := by
          simp only [holderStep, hstep] at h
          rcases out with pc | record | lease | e <;> cases h <;> exact ⟨rfl, rfl⟩
        obtain ⟨rfl, hpoised⟩ := hout
        rcases acquireStep_file hstep with rfl | hwrite
        · refine .inl ⟨rfl, fun own hp => ?_⟩
          rw [hpoised] at hp
          cases hp
        · exact .inr ⟨hpoised, .inr hwrite⟩
    | _ => cases h
  | held record =>
    cases action with
    | proceed => cases h
    | heartbeat =>
      cases h
      exact .inl ⟨rfl, fun own hp r hr => heartbeatRead_poised hp hr⟩
    | release | drop =>
      cases h
      exact .inl ⟨rfl, fun own hp r hr => releaseRead_poised hp hr⟩
  | refresh record =>
    cases action with
    | proceed =>
      unfold holderStep writeLeaseAtomic at h
      cases hfault : env.fault
      · rw [hfault] at h
        cases h
        exact .inr ⟨rfl, .inr ⟨rfl, record, rfl, rfl⟩⟩
      · rw [hfault] at h
        cases h
        exact .inl ⟨rfl, nofun⟩
    | _ => cases h
  | remove record last =>
    cases action with
    | proceed =>
      unfold holderStep removeLease at h
      cases hfault : env.fault
      · rw [hfault] at h
        cases h
        exact .inr ⟨afterRelease_poised _ _, .inl rfl⟩
      · rw [hfault] at h
        cases h
        exact .inl ⟨rfl, by simp⟩
    | _ => cases h
  | dropping record =>
    cases action with
    | proceed =>
      cases h
      exact .inl ⟨rfl, fun own hp r hr => releaseRead_poised hp hr⟩
    | _ => cases h

/-! ## Runs -/

section
variable {ι : Type} [DecidableEq ι] {proc : ι → Process}

/-- **Step lemma**: a step that writes no record past the check of a guard with another
    nonce preserves the invariant. -/
theorem GuardInv.step {s t : GuardState ι} {a : GuardLabel ι} (h : GuardInv s)
    (hguard : WritesUnpoised proc s a) (hst : guardStep proc s a = some t) : GuardInv t := by
  unfold guardStep at hst
  split at hst
  · cases hst
  · rename_i file holder hstep
    cases hst
    intro j own hj r hr
    by_cases hji : j = a.id
    · subst hji
      simp only [Function.update_self] at hj
      rcases holderStep_cases hstep with ⟨rfl, hkeep⟩ | ⟨hpoised, -⟩
      · exact hkeep own hj r hr
      · rw [hpoised] at hj
        cases hj
    · simp only [Function.update_of_ne hji] at hj
      rcases holderStep_cases hstep with ⟨rfl, -⟩ | ⟨-, rfl | ⟨hfault, r', hwrites, rfl⟩⟩
      · exact h j own hj r hr
      · cases hr
      · cases hr
        exact hguard r hwrites hfault j own hj

/-- **Guards touch no other record** in a run in which no record is written while a guard
    with another nonce is between its check and its write or removal. -/
theorem guards_keep_others (proc : ι → Process) (start : GuardState ι)
    (hstart : ∀ i, (start.holder i).poised = none) (run : List (GuardLabel ι))
    (s : GuardState ι) (hrun : Transition.exec (guardStep proc) start run = some s)
    (hwrites : Transition.Always (guardStep proc) (WritesUnpoised proc) start run)
    (a : GuardLabel ι) : ¬ Clobbers s a := by
  have hinv : GuardInv s :=
    Transition.exec_invariant (fun _ _ _ hI hG hst => hI.step hG hst) hrun hwrites
      fun i own hp => by rw [hstart i] at hp; cases hp
  rintro ⟨-, -, own, r, hpoised, hfile, hne⟩
  exact hne (hinv a.id own hpoised r hfile)

/-- The condition is needed: a record written while a guard with another nonce is past its
    check is the one that the guard goes on to replace or remove. -/
theorem clobbers_of_write {s t : GuardState ι} {a : GuardLabel ι} {j : ι} {own r : LeaseRecord}
    (hst : guardStep proc s a = some t) (hja : j ≠ a.id) (hpoised : (s.holder j).poised = some own)
    (hfile : t.file = .record r) (hne : r.ownerNonce ≠ own.ownerNonce) (env : Env)
    (hfault : env.fault = false) : Clobbers t ⟨j, .proceed, env⟩ := by
  unfold guardStep at hst
  split at hst
  · cases hst
  · cases hst
    refine ⟨rfl, hfault, own, r, ?_, hfile, hne⟩
    simpa only [Function.update_of_ne hja] using hpoised

end

/-! ## A takeover between the check and the write -/

namespace GuardExample

/-- The record of the first process, which has expired at the time 1. -/
def record : LeaseRecord := ⟨⟨0, 0, 0⟩, 0, "start", 0, 0⟩

/-- Two processes, the first with a guard on the record on file. -/
def start : GuardState Bool := ⟨.record record, fun i => if i then .acquiring .read else .held record⟩

def proc (i : Bool) : Process := ⟨i.toNat, "start", 30⟩

/-- The first process refreshes its record and gives the lease up, then the second
    takes it. -/
def run : List (GuardLabel Bool) :=
  [⟨false, .heartbeat, ⟨1, 0, 0, false⟩⟩, ⟨false, .proceed, ⟨1, 0, 0, false⟩⟩,
    ⟨false, .release, ⟨2, 0, 0, false⟩⟩, ⟨false, .proceed, ⟨2, 0, 0, false⟩⟩,
    ⟨true, .proceed, ⟨2, 0, 0, false⟩⟩, ⟨true, .proceed, ⟨2, 0, 0, false⟩⟩]

end GuardExample

open GuardExample in
theorem guards_keep_others_two :
    ∃ s, Transition.exec (guardStep proc) start run = some s ∧
      s.file = .record (newOwnerRecord (proc true) ⟨2, 0, 0, false⟩) ∧ ∀ a, ¬ Clobbers s a := by
  refine ⟨_, rfl, rfl, ?_⟩
  refine guards_keep_others proc start ?_ run _ rfl ?_
  · rintro (_ | _) <;> rfl
  · decide +kernel

/-- The property for every interleaving. -/
def KeepsOthers : Prop :=
  ∀ (ι : Type) [DecidableEq ι] (proc : ι → Process) (start : GuardState ι),
    (∀ i, (start.holder i).poised = none) → ∀ (run : List (GuardLabel ι)) (s : GuardState ι),
      Transition.exec (guardStep proc) start run = some s → ∀ a, ¬ Clobbers s a

open GuardExample in
/-- The heartbeat of the first process finds its own record, which has expired; the second
    process takes the lease over, and the heartbeat replaces the new record. -/
theorem not_keepsOthers : ¬ KeepsOthers := by
  intro h
  refine h Bool proc start ?_
    [⟨false, .heartbeat, ⟨1, 0, 0, false⟩⟩, ⟨true, .proceed, ⟨1, 0, 0, false⟩⟩,
      ⟨true, .proceed, ⟨1, 0, 0, false⟩⟩] _ rfl ⟨false, .proceed, ⟨1, 0, 0, false⟩⟩ ?_
  · rintro (_ | _) <;> rfl
  · exact ⟨rfl, rfl, _, _, rfl, rfl, by decide⟩

end Cognis
