/-
  The probe for an owner (`attach_existing_owner` of `cognis-owner`), one file operation at a
  time, among the other holders of the lease file.

  The probe is a call of `acquire_or_attach` whose guard is released at once. A process that
  has the lease acquires it again, and then releases it; while the record of the probe is on
  file, others attach to it.

  * `attachExistingOwnerStep` is one file operation of the function, `probeStep` a step of the
    system;
  * `probe_nonDestructive`: in a run that nobody disturbs (`ProbeUndisturbed`), the probe leaves
    the records of live guards on file and nobody attaches to it;
  * `destroys_of_passesOver`, `attaches_of_looks`: the steps outside do harm.
-/
import Cognis.Core.LeaseGuard
import Mathlib.Data.Fintype.Basic

namespace Cognis

/-! ## The probe -/

/-- What `attach_existing_owner` returns: a live owner, none, or an error. -/
inductive ProbeOutcome where
  | attached (lease : LeaseRecord)
  | vacant
  | failed (error : IoErrorKind)
  deriving DecidableEq, Repr

/-- A call of `attach_existing_owner`. -/
inductive Probe where
  | running (holder : Holder)
  | returned (outcome : ProbeOutcome)
  deriving DecidableEq, Repr

/-- A probe that has dropped its guard returns. -/
def Probe.after : Holder → Probe
  | .acquiring _ => .returned .vacant
  | holder => .running holder

/-- One file operation of `attach_existing_owner`: the guard that it acquires is released, and
    its heartbeat may come before. -/
def attachExistingOwnerStep (p : Process) (env : Env) (file : LeaseFile) :
    Holder → HolderAction → Option (LeaseFile × Probe)
  | .acquiring pc, .proceed =>
    match acquireStep p env file pc with
    | (file, .inl pc) => some (file, .running (.acquiring pc))
    | (file, .inr (.acquired record)) => some (file, .running (.held record))
    | (file, .inr (.attached lease)) => some (file, .returned (.attached lease))
    | (file, .inr (.failed e)) => some (file, .returned (.failed e))
  | .held _, .drop => none
  | holder, action => (holderStep p env file holder action).map fun out => (out.1, .after out.2)

/-! ## The system -/

/-- The lease file, the probe and the other holders, of its process or of another. -/
structure ProbeState (ι : Type) where
  file : LeaseFile
  probe : Probe
  holder : ι → Holder
  /-- the record on file is one that the probe wrote -/
  probed : Bool

/-- A step of the probe, or of another holder. -/
inductive ProbeLabel (ι : Type) where
  | probe (action : HolderAction) (env : Env)
  | other (a : GuardLabel ι)

/-- The record on file after an operation is one of the probe. -/
def markProbed (probe wrote before : Bool) (file file' : LeaseFile) : Bool :=
  if wrote then probe else before && decide (file' = file)

/-- The holder writes a record. -/
def Holder.wrote (p : Process) (env : Env) (h : Holder) : Bool :=
  (h.writes p env).isSome && !env.fault

section
variable {ι : Type} [DecidableEq ι] (p : Process) (proc : ι → Process)

/-- One step. -/
def probeStep (s : ProbeState ι) : ProbeLabel ι → Option (ProbeState ι)
  | .probe action env =>
    match s.probe with
    | .returned _ => none
    | .running holder =>
      (attachExistingOwnerStep p env s.file holder action).map fun out =>
        { s with
          file := out.1, probe := out.2
          probed := markProbed true (holder.wrote p env) s.probed s.file out.1 }
  | .other a =>
    (holderStep (proc a.id) a.env s.file (s.holder a.id) a.action).map fun out =>
      { s with
        file := out.1, holder := Function.update s.holder a.id out.2
        probed := markProbed false ((s.holder a.id).wrote (proc a.id) a.env) s.probed s.file out.1 }

end

/-! ## What is to hold -/

/-- The record on file, if any. -/
def LeaseFile.record? : LeaseFile → Option LeaseRecord
  | .record r => some r
  | _ => none

/-- The call that is running. -/
def Probe.holder : Probe → Option Holder
  | .running holder => some holder
  | .returned _ => none

/-- The record of a live guard. -/
def Holder.guard : Holder → Option LeaseRecord
  | .held record | .refresh record => some record
  | _ => none

section
variable {ι : Type} [DecidableEq ι] (p : Process) (proc : ι → Process) (s : ProbeState ι)

/-- A step of the probe leaves the record of a live guard on file, and no other step attaches
    to a record of the probe. -/
def NonDestructive : ProbeLabel ι → Prop
  | .probe action env => ∀ t, probeStep p proc s (.probe action env) = some t →
      ∀ j, ∀ own ∈ (s.holder j).guard, ∀ r ∈ s.file.record?, r.ownerNonce = own.ownerNonce →
        t.file = s.file
  | .other a => s.probed = true → a.action = .proceed → ∀ pc, s.holder a.id = .acquiring pc →
      ∀ lease, (acquireStep (proc a.id) a.env s.file pc).2 ≠ .inr (.attached lease)

end

/-- The record of a live guard, or of a call that is about to read it back. -/
def Holder.claim : Holder → Option LeaseRecord
  | .acquiring (.verify r) | .acquiring (.finalVerify r) | .acquiring (.rewrite r) => some r
  | .held r | .refresh r => some r
  | _ => none

/-- The record that a call has written. -/
def Holder.record : Holder → Option LeaseRecord
  | .remove r _ | .dropping r => some r
  | holder => holder.claim

/-- The next operation replaces or removes the file, after a check. -/
def Holder.past : Holder → Bool
  | .acquiring .write | .acquiring .overwrite | .acquiring .own | .acquiring (.rewrite _) => true
  | .refresh _ | .remove _ _ => true
  | _ => false

/-- The next operation is a read of `acquire_or_attach`. -/
def Holder.looks : Holder → Bool
  | .acquiring .read | .acquiring (.verify _) | .acquiring (.finalVerify _) => true
  | _ => false

/-- A failure of the next operation leaves the record of the probe on file. -/
def Holder.lastTry : Holder → Bool
  | .acquiring (.verify _) | .acquiring (.finalVerify _) | .remove _ true | .dropping _ => true
  | _ => false

/-- The read of `acquire_or_attach` takes a lease for reclaimable: it has expired, or it is one
    of the process itself. -/
def Holder.passesOver (p : Process) (env : Env) (r : LeaseRecord) : Holder → Bool
  | .acquiring .read =>
    !r.isLiveAt env.now || decide (r.pid = p.pid ∧ r.processStartId = p.startId)
  | .acquiring (.verify _) => !r.isLiveAt env.now
  | _ => false

section
variable {ι : Type} (p : Process) (proc : ι → Process) (s : ProbeState ι)

/-- The condition on a step. The probe does not take the lease of another holder for reclaimable,
    and the operations that are to remove its record succeed; nobody writes between its check and
    its write or removal, and nobody looks at the lease while its record is on file. The nonces
    are fresh. -/
def ProbeUndisturbed : ProbeLabel ι → Prop
  | .probe _ env => ∀ holder ∈ s.probe.holder,
      (∀ j, ∀ own ∈ (s.holder j).claim,
        (∀ r ∈ s.file.record?, r.ownerNonce = own.ownerNonce →
          holder.passesOver p env r = false) ∧
        ∀ r ∈ holder.writes p env, r.ownerNonce ≠ own.ownerNonce) ∧
      (holder.lastTry = true → env.fault = false)
  | .other a => ∀ holder ∈ s.probe.holder,
      (∀ r ∈ (s.holder a.id).writes (proc a.id) a.env, a.env.fault = false →
        holder.past = false ∧ ∀ own ∈ holder.record, r.ownerNonce ≠ own.ownerNonce) ∧
      (s.probed = true → (s.holder a.id).looks = false)

instance decidableProbeUndisturbed [Fintype ι] :
    DecidablePred (ProbeUndisturbed p proc s) := fun a => by
  cases a <;> unfold ProbeUndisturbed <;> infer_instance

end

/-! ## The invariant -/

/-- What a run that nobody disturbs keeps: a record of the probe on file is the one that it is
    going to remove, its nonce is its own, and past a check the record on file is nobody's. -/
structure ProbeInv {ι : Type} (s : ProbeState ι) : Prop where
  own : s.probed = true → ∃ holder ∈ s.probe.holder, ∃ own ∈ holder.record, ∃ r,
    s.file = .record r ∧ r.ownerNonce = own.ownerNonce
  fresh : ∀ holder ∈ s.probe.holder, ∀ own ∈ holder.record, ∀ j, ∀ own' ∈ (s.holder j).claim,
    own.ownerNonce ≠ own'.ownerNonce
  unclaimed : ∀ holder ∈ s.probe.holder, holder.past = true → ∀ j, ∀ own' ∈ (s.holder j).claim,
    ∀ r, s.file = .record r → r.ownerNonce ≠ own'.ownerNonce

/-! ## One file operation -/

theorem markProbed_other {wrote before : Bool} {file file' : LeaseFile}
    (h : markProbed false wrote before file file' = true) :
    wrote = false ∧ before = true ∧ file' = file := by
  cases wrote
  · simpa [markProbed] using h
  · cases h

theorem markProbed_probe {wrote before : Bool} {file file' : LeaseFile}
    (h : markProbed true wrote before file file' = true) :
    wrote = true ∨ before = true ∧ file' = file := by
  cases wrote
  · exact .inr (by simpa [markProbed] using h)
  · exact .inl rfl

/-- What a call of `acquire_or_attach` has to do with the record that it returns or goes on with:
    it has written it before, or writes it now. -/
theorem claim_acquireStep {p : Process} {env : Env} {file file' : LeaseFile} {pc : AcquirePc}
    {out : AcquirePc ⊕ AcquireOutcome} (h : acquireStep p env file pc = (file', out)) :
    ∀ own', (∃ pc', out = .inl pc' ∧ own' ∈ (Holder.acquiring pc').claim) ∨
      out = .inr (.acquired own') → own' ∈ (Holder.acquiring pc).claim ∨
        env.fault = false ∧ own' ∈ (Holder.acquiring pc).writes p env := by
  intro own' hown
  cases pc with
  | read =>
    simp only [acquireStep, readLease] at h
    repeat' split at h
    all_goals cases h; simp [Holder.claim] at hown
  | write | overwrite | own =>
    simp only [acquireStep, writeThen, writeLeaseAtomic] at h
    cases hfault : env.fault
    · rw [hfault] at h
      cases h
      exact .inr ⟨rfl, by simpa [Holder.claim, Holder.writes, eq_comm] using hown⟩
    · rw [hfault] at h
      cases h
      simp at hown
  | verify r | finalVerify r =>
    simp only [acquireStep, readLease] at h
    repeat' split at h
    all_goals cases h; simp [Holder.claim] at hown
    all_goals exact .inl (congrArg some hown)
  | rewrite r =>
    cases h
    exact .inl (by simpa [Holder.claim, eq_comm] using hown)

/-- A guard that is released claims nothing. -/
theorem claim_releaseRead (env : Env) (file : LeaseFile) (record : LeaseRecord) (last : Bool) :
    (releaseRead env file record last).claim = none := by
  have hafter : (afterRelease record last).claim = none := by cases last <;> rfl
  unfold releaseRead
  split
  · split_ifs
    · rfl
    · exact hafter
  · exact hafter
  · exact hafter

/-- A holder gets a claim by a write. -/
theorem claim_holderStep {p : Process} {env : Env} {file file' : LeaseFile}
    {holder holder' : Holder} {action : HolderAction}
    (h : holderStep p env file holder action = some (file', holder')) :
    ∀ own' ∈ holder'.claim, (∃ own ∈ holder.claim, own.ownerNonce = own'.ownerNonce) ∨
      env.fault = false ∧ own' ∈ holder.writes p env := by
  cases holder with
  | acquiring pc =>
    cases action with
    | proceed =>
      cases hstep : acquireStep p env file pc with
      | mk file₁ out =>
        obtain hclaim := claim_acquireStep hstep
        rw [holderStep, hstep] at h
        rcases out with pc' | record | lease | e
        · cases h
          intro own' hown
          exact (hclaim own' (.inl ⟨pc', rfl, hown⟩)).imp_left fun h => ⟨own', h, rfl⟩
        · cases h
          rintro own' ⟨⟩
          exact (hclaim record (.inr rfl)).imp_left fun h => ⟨record, h, rfl⟩
        · cases h
          rintro own' ⟨⟩
        · cases h
          rintro own' ⟨⟩
    | _ => cases h
  | held record =>
    cases action with
    | proceed => cases h
    | heartbeat =>
      cases h
      intro own' hown
      refine .inl ⟨record, rfl, ?_⟩
      unfold heartbeatRead at hown
      dsimp only at hown
      split at hown
      · split_ifs at hown <;> cases hown <;> rfl
      · cases hown
        rfl
      · cases hown
        rfl
    | release | drop =>
      cases h
      intro own' hown
      rw [claim_releaseRead] at hown
      cases hown
  | refresh record =>
    cases action with
    | proceed =>
      cases h
      exact fun own' hown => .inl ⟨record, rfl, by cases hown; rfl⟩
    | _ => cases h
  | remove record last =>
    cases action with
    | proceed =>
      cases h
      cases last <;> exact fun own' hown => by cases hown
    | _ => cases h
  | dropping record =>
    cases action with
    | proceed =>
      cases h
      intro own' hown
      rw [claim_releaseRead] at hown
      cases hown
    | _ => cases h

/-- An operation of the probe that writes no record: it leaves the file alone, or removes it
    past a check, and goes on with the record that it had. -/
structure ProbeKeeps (p : Process) (env : Env) (file : LeaseFile) (holder : Holder)
    (file' : LeaseFile) (probe : Probe) : Prop where
  wrote : holder.wrote p env = false
  file : file' = file ∨ holder.past = true ∧ file' = .missing
  /-- it goes on while its record is on file -/
  running : (holder.lastTry = true → env.fault = false) → ∀ r, file' = .record r →
    ∀ own ∈ holder.record, r.ownerNonce = own.ownerNonce →
      ∃ holder' ∈ probe.holder, ∃ own' ∈ holder'.record, r.ownerNonce = own'.ownerNonce
  record : ∀ holder' ∈ probe.holder, ∀ own' ∈ holder'.record,
    ∃ own ∈ holder.record, own.ownerNonce = own'.ownerNonce
  /-- it gets past a check by a reclaimable record or by its own -/
  check : ∀ holder' ∈ probe.holder, holder'.past = true → ∀ r, file' = .record r →
    holder.passesOver p env r = true ∨ ∃ own ∈ holder.record, r.ownerNonce = own.ownerNonce

/-- An operation of the probe that writes a record, and goes on with it. -/
def ProbeWrites (p : Process) (env : Env) (holder : Holder) (file' : LeaseFile) (probe : Probe) :
    Prop :=
  ∃ r, holder.past = true ∧ env.fault = false ∧ holder.writes p env = some r ∧
    file' = .record r ∧ ∃ holder', probe = .running holder' ∧ holder'.record = some r ∧
      holder'.past = false

section
variable {p : Process} {env : Env} {file file' : LeaseFile} {probe : Probe}

/-- A read that ends the call, when the record of the probe is not on file. -/
theorem ProbeKeeps.of_returned {holder : Holder} {outcome : ProbeOutcome}
    (hwrote : holder.wrote p env = false)
    (hrecord : (holder.lastTry = true → env.fault = false) → ∀ r, file = .record r →
      ∀ own ∈ holder.record, r.ownerNonce ≠ own.ownerNonce) :
    ProbeKeeps p env file holder file (.returned outcome) where
  wrote := hwrote
  file := .inl rfl
  running hlast r hr own hown hnonce := absurd hnonce (hrecord hlast r hr own hown)
  record := by rintro holder' ⟨⟩
  check := by rintro holder' ⟨⟩

/-- A read that goes on to write, when the record of the probe is not on file. -/
theorem ProbeKeeps.of_looks {holder holder' : Holder} (hwrote : holder.wrote p env = false)
    (hfile : ∀ r, file = .record r → (∀ own ∈ holder.record, r.ownerNonce ≠ own.ownerNonce) ∧
      holder.passesOver p env r = true)
    (hrecord : ∀ own' ∈ holder'.record, holder.record = some own') :
    ProbeKeeps p env file holder file (.running holder') where
  wrote := hwrote
  file := .inl rfl
  running _ r hr own hown hnonce := absurd hnonce ((hfile r hr).1 own hown)
  record := by
    rintro _ ⟨⟩ own' hown
    exact ⟨own', hrecord own' hown, rfl⟩
  check := by
    rintro _ ⟨⟩ - r hr
    exact .inl (hfile r hr).2

/-- A read that finds the record of the probe, or an operation of its guard that passes no
    check. -/
theorem ProbeKeeps.of_own {holder holder' : Holder} {own own' : LeaseRecord}
    (hwrote : holder.wrote p env = false) (hrecord : holder.record = some own)
    (hrecord' : holder'.record = some own') (hnonce : own.ownerNonce = own'.ownerNonce)
    (hcheck : holder'.past = true → ∀ r, file = .record r → r.ownerNonce = own.ownerNonce) :
    ProbeKeeps p env file holder file (.running holder') where
  wrote := hwrote
  file := .inl rfl
  running := by
    rintro - r - own₁ hown hr
    obtain rfl : own = own₁ := Option.some.inj (hrecord.symm.trans hown)
    exact ⟨_, rfl, own', hrecord', hr.trans hnonce⟩
  record := by
    rintro _ ⟨⟩ own₁ hown
    obtain rfl : own' = own₁ := Option.some.inj (hrecord'.symm.trans hown)
    exact ⟨own, hrecord, hnonce⟩
  check := by
    rintro _ ⟨⟩ hpast r hr
    exact .inr ⟨own, hrecord, hcheck hpast r hr⟩

/-- The operations of `acquire_or_attach`. -/
theorem attachExistingOwnerStep_acquiring {pc : AcquirePc}
    (h : attachExistingOwnerStep p env file (.acquiring pc) .proceed = some (file', probe)) :
    ProbeWrites p env (.acquiring pc) file' probe ∨
      ProbeKeeps p env file (.acquiring pc) file' probe := by
  cases pc with
  | read =>
    refine .inr ?_
    have hgo : (∀ r, file = .record r → (Holder.acquiring .read).passesOver p env r = true) →
        ProbeKeeps p env file (.acquiring .read) file (.running (.acquiring .write)) := by
      intro hpass
      refine ⟨rfl, .inl rfl, ?_, ?_, ?_⟩
      · rintro - r - own ⟨⟩
      · rintro holder' ⟨⟩ own' ⟨⟩
      · rintro holder' ⟨⟩ - r hr
        exact .inl (hpass r hr)
    have hstop : ∀ outcome,
        ProbeKeeps p env file (.acquiring .read) file (.returned outcome) := by
      intro outcome
      refine .of_returned rfl ?_
      rintro - r - own ⟨⟩
    unfold attachExistingOwnerStep acquireStep readLease at h
    cases hfault : env.fault
    · rw [hfault] at h
      cases file with
      | missing => cases h; exact hgo (by rintro r ⟨⟩)
      | invalid => cases h; exact hgo (by rintro r ⟨⟩)
      | record r =>
        dsimp only at h
        simp only [Bool.false_eq_true, ↓reduceIte] at h
        split_ifs at h with hlive hown
        · cases h
          refine hgo ?_
          rintro r' ⟨⟩
          simp [Holder.passesOver, hown]
        · cases h
          exact hstop _
        · cases h
          refine hgo ?_
          rintro r' ⟨⟩
          simp [Holder.passesOver, hlive]
    · rw [hfault] at h
      cases h
      exact hstop _
  | write | overwrite | own =>
    unfold attachExistingOwnerStep acquireStep writeThen writeLeaseAtomic at h
    cases hfault : env.fault
    · rw [hfault] at h
      cases h
      exact .inl ⟨_, rfl, hfault, rfl, rfl, _, rfl, rfl, rfl⟩
    · rw [hfault] at h
      cases h
      refine .inr ⟨by simp [Holder.wrote, hfault], .inl rfl, ?_, ?_, ?_⟩
      · rintro - r - own ⟨⟩
      · rintro holder' ⟨⟩
      · rintro holder' ⟨⟩
  | verify record =>
    refine .inr ?_
    unfold attachExistingOwnerStep acquireStep readLease at h
    cases hfault : env.fault
    · rw [hfault] at h
      cases file with
      | missing =>
        cases h
        exact .of_looks rfl (by rintro r ⟨⟩) (by rintro own' ⟨⟩)
      | invalid =>
        cases h
        exact .of_returned rfl (by rintro - r ⟨⟩)
      | record r =>
        dsimp only at h
        simp only [Bool.false_eq_true, ↓reduceIte] at h
        split_ifs at h with hnonce hlive
        · cases h
          exact .of_own rfl rfl rfl rfl (by rintro ⟨⟩)
        · cases h
          refine .of_returned rfl ?_
          rintro - r' ⟨⟩ own ⟨⟩
          exact hnonce
        · cases h
          refine .of_looks rfl ?_ (by rintro own' ⟨⟩)
          rintro r' ⟨⟩
          refine ⟨?_, by simp [Holder.passesOver, hlive]⟩
          rintro own ⟨⟩
          exact hnonce
    · rw [hfault] at h
      cases h
      refine .of_returned rfl fun hlast => ?_
      rw [hfault] at hlast
      cases hlast rfl
  | finalVerify record =>
    refine .inr ?_
    unfold attachExistingOwnerStep acquireStep readLease at h
    cases hfault : env.fault
    · rw [hfault] at h
      cases file with
      | missing =>
        cases h
        refine .of_looks rfl (by rintro r ⟨⟩) ?_
        rintro own' ⟨⟩
        exact rfl
      | invalid =>
        cases h
        exact .of_returned rfl (by rintro - r ⟨⟩)
      | record r =>
        dsimp only at h
        simp only [Bool.false_eq_true, ↓reduceIte] at h
        split_ifs at h with hnonce
        · cases h
          exact .of_own rfl rfl rfl rfl (by rintro ⟨⟩)
        · cases h
          refine .of_returned rfl ?_
          rintro - r' ⟨⟩ own ⟨⟩
          exact hnonce
    · rw [hfault] at h
      cases h
      refine .of_returned rfl fun hlast => ?_
      rw [hfault] at hlast
      cases hlast rfl
  | rewrite record =>
    unfold attachExistingOwnerStep acquireStep writeLeaseAtomic at h
    cases hfault : env.fault
    · rw [hfault] at h
      cases h
      exact .inl ⟨_, rfl, hfault, rfl, rfl, _, rfl, rfl, rfl⟩
    · rw [hfault] at h
      cases h
      refine .inr ⟨by simp [Holder.wrote, hfault], .inl rfl, ?_, ?_, ?_⟩
      · rintro - r - own hown hnonce
        exact ⟨_, rfl, own, hown, hnonce⟩
      · rintro holder' ⟨⟩ own' hown
        exact ⟨own', hown, rfl⟩
      · rintro holder' ⟨⟩ hpast
        cases hpast

/-- The read of a release, by the probe. -/
theorem ProbeKeeps.releaseRead {holder : Holder} {record : LeaseRecord} {last : Bool}
    (hwrote : holder.wrote p env = false) (hrecord : holder.record = some record)
    (hlast : last = true → holder.lastTry = true) :
    ProbeKeeps p env file holder file (.after (Cognis.releaseRead env file record last)) := by
  have hafter : (last = true → (holder.lastTry = true → env.fault = false) →
      ∀ r, file = .record r → r.ownerNonce ≠ record.ownerNonce) →
      ProbeKeeps p env file holder file (.after (afterRelease record last)) := by
    intro hgone
    cases last
    · exact .of_own hwrote hrecord rfl rfl (by rintro ⟨⟩)
    · refine .of_returned hwrote fun hfault r hr own hown => ?_
      obtain rfl : record = own := Option.some.inj (hrecord.symm.trans hown)
      exact hgone rfl hfault r hr
  unfold Cognis.releaseRead readLease
  cases hfault : env.fault
  · cases file with
    | missing => exact hafter (by rintro - - r ⟨⟩)
    | invalid => exact hafter (by rintro - - r ⟨⟩)
    | record r =>
      dsimp only
      simp only [Bool.false_eq_true, ↓reduceIte]
      split_ifs with hnonce
      · refine .of_own hwrote hrecord rfl rfl ?_
        rintro - r' ⟨⟩
        exact hnonce
      · refine hafter ?_
        rintro - - r' ⟨⟩
        exact hnonce
  · refine hafter fun htrue hlastfault => ?_
    rw [hlastfault (hlast htrue)] at hfault
    cases hfault

/-- The read of a heartbeat, by the probe. -/
theorem ProbeKeeps.heartbeatRead {record : LeaseRecord} :
    ProbeKeeps p env file (.held record) file (.after (Cognis.heartbeatRead p env file record)) := by
  unfold Cognis.heartbeatRead readLease
  cases hfault : env.fault
  · cases file with
    | missing => exact .of_own rfl rfl rfl rfl (by rintro - r ⟨⟩)
    | invalid => exact .of_own rfl rfl rfl rfl (by rintro ⟨⟩)
    | record r =>
      dsimp only
      simp only [Bool.false_eq_true, ↓reduceIte]
      split_ifs with hnonce
      · refine .of_own rfl rfl rfl rfl ?_
        rintro - r' ⟨⟩
        exact hnonce
      · exact .of_own rfl rfl rfl rfl (by rintro ⟨⟩)
  · exact .of_own rfl rfl rfl rfl (by rintro ⟨⟩)

/-- **What one operation of the probe does.** -/
theorem attachExistingOwnerStep_cases {holder : Holder} {action : HolderAction}
    (h : attachExistingOwnerStep p env file holder action = some (file', probe)) :
    ProbeWrites p env holder file' probe ∨ ProbeKeeps p env file holder file' probe := by
  cases holder with
  | acquiring pc =>
    cases action with
    | proceed => exact attachExistingOwnerStep_acquiring h
    | _ => cases h
  | held record =>
    cases action with
    | proceed => cases h
    | heartbeat => cases h; exact .inr .heartbeatRead
    | release => cases h; exact .inr (.releaseRead rfl rfl (by rintro ⟨⟩))
    | drop => cases h
  | refresh record =>
    cases action with
    | proceed =>
      unfold attachExistingOwnerStep holderStep writeLeaseAtomic at h
      cases hfault : env.fault
      · rw [hfault] at h
        cases h
        exact .inl ⟨record, rfl, hfault, rfl, rfl, _, rfl, rfl, rfl⟩
      · rw [hfault] at h
        cases h
        exact .inr (.of_own (by simp [Holder.wrote, hfault]) rfl rfl rfl (by rintro ⟨⟩))
    | _ => cases h
  | remove record last =>
    cases action with
    | proceed =>
      unfold attachExistingOwnerStep holderStep removeLease at h
      cases hfault : env.fault
      · rw [hfault] at h
        cases h
        refine .inr ⟨rfl, .inr ⟨rfl, rfl⟩, by rintro - r ⟨⟩, ?_, ?_⟩
        · cases last
          · rintro holder' ⟨⟩ own' hown
            exact ⟨own', hown, rfl⟩
          · rintro holder' ⟨⟩
        · rintro holder' - - r ⟨⟩
      · rw [hfault] at h
        cases h
        cases last
        · exact .inr (.of_own rfl rfl rfl rfl (by rintro ⟨⟩))
        · refine .inr (.of_returned rfl fun hlast => ?_)
          rw [hlast rfl] at hfault
          cases hfault
    | _ => cases h
  | dropping record =>
    cases action with
    | proceed => cases h; exact .inr (.releaseRead rfl rfl fun _ => rfl)
    | _ => cases h

end

/-! ## Runs -/

section
variable {ι : Type} [DecidableEq ι] {p : Process} {proc : ι → Process}

/-- **Step lemma**, for the probe. -/
theorem ProbeInv.probe {s t : ProbeState ι} {action : HolderAction} {env : Env} (h : ProbeInv s)
    (hc : ProbeUndisturbed p proc s (.probe action env))
    (hst : probeStep p proc s (.probe action env) = some t) : ProbeInv t := by
  simp only [probeStep] at hst
  cases hprobe : s.probe with
  | returned outcome => rw [hprobe] at hst; cases hst
  | running holder =>
    rw [hprobe] at hst
    obtain ⟨⟨file, probe⟩, hout, rfl⟩ := Option.map_eq_some_iff.1 hst
    have hmem : holder ∈ s.probe.holder := by rw [hprobe]; rfl
    obtain ⟨hothers, hlast⟩ := hc holder hmem
    rcases attachExistingOwnerStep_cases hout with
      ⟨r, -, -, hwrites, rfl, holder', rfl, hrecord, hpast⟩ | hkeeps
    · refine ⟨fun _ => ⟨holder', rfl, r, hrecord, r, rfl, rfl⟩, ?_, ?_⟩
      · rintro _ ⟨⟩ own hown j own' hown'
        obtain rfl : r = own := Option.some.inj (hrecord.symm.trans hown)
        exact (hothers j own' hown').2 r hwrites
      · rintro _ ⟨⟩ hpast'
        rw [hpast] at hpast'
        cases hpast'
    · have hfile : ∀ r, file = .record r → s.file = .record r := by
        intro r hr
        rcases hkeeps.file with heq | ⟨-, hmissing⟩
        · exact heq.symm.trans hr
        · rw [hmissing] at hr
          cases hr
      refine ⟨fun hprobed => ?_, ?_, ?_⟩
      · rcases markProbed_probe hprobed with hwrote | ⟨hbefore, heq⟩
        · rw [hkeeps.wrote] at hwrote
          cases hwrote
        · obtain ⟨holder₀, hholder, own, hown, r, hr, hnonce⟩ := h.own hbefore
          obtain rfl : holder = holder₀ := Option.some.inj (hmem.symm.trans hholder)
          have hr' : file = .record r := heq.trans hr
          obtain ⟨holder', hholder', own', hown', hnonce'⟩ :=
            hkeeps.running hlast r hr' own hown hnonce
          exact ⟨holder', hholder', own', hown', r, hr', hnonce'⟩
      · intro holder' hholder' own hown j own' hown'
        obtain ⟨own₀, hown₀, hnonce⟩ := hkeeps.record holder' hholder' own hown
        rw [← hnonce]
        exact h.fresh holder hmem own₀ hown₀ j own' hown'
      · intro holder' hholder' hpast j own' hown' r hr hnonce
        rcases hkeeps.check holder' hholder' hpast r hr with hpass | ⟨own, hown, hnonce'⟩
        · have hr' : r ∈ s.file.record? := by rw [hfile r hr]; rfl
          rw [(hothers j own' hown').1 r hr' hnonce] at hpass
          cases hpass
        · exact h.fresh holder hmem own hown j own' hown' (hnonce'.symm.trans hnonce)

/-- **Step lemma**, for the other holders. -/
theorem ProbeInv.other {s t : ProbeState ι} {a : GuardLabel ι} (h : ProbeInv s)
    (hc : ProbeUndisturbed p proc s (.other a)) (hst : probeStep p proc s (.other a) = some t) :
    ProbeInv t := by
  simp only [probeStep] at hst
  obtain ⟨⟨file, holder'⟩, hout, rfl⟩ := Option.map_eq_some_iff.1 hst
  have hclaim : ∀ j, ∀ own' ∈ (Function.update s.holder a.id holder' j).claim,
      (∃ own ∈ (s.holder j).claim, own.ownerNonce = own'.ownerNonce) ∨
        a.env.fault = false ∧ own' ∈ (s.holder a.id).writes (proc a.id) a.env := by
    intro j own' hown'
    by_cases hj : j = a.id
    · subst hj
      rw [Function.update_self] at hown'
      exact claim_holderStep hout own' hown'
    · rw [Function.update_of_ne hj] at hown'
      exact .inl ⟨own', hown', rfl⟩
  refine ⟨fun hprobed => ?_, ?_, ?_⟩
  · obtain ⟨-, hbefore, heq⟩ := markProbed_other hprobed
    obtain ⟨holder, hholder, own, hown, r, hr, hnonce⟩ := h.own hbefore
    exact ⟨holder, hholder, own, hown, r, heq.trans hr, hnonce⟩
  · intro holder hholder own hown j own' hown'
    rcases hclaim j own' hown' with ⟨own₀, hown₀, hnonce⟩ | ⟨hfault, hwrites⟩
    · rw [← hnonce]
      exact h.fresh holder hholder own hown j own₀ hown₀
    · exact (((hc holder hholder).1 own' hwrites hfault).2 own hown).symm
  · intro holder hholder hpast j own' hown' r hr
    -- past a check of the probe nobody writes
    have hnowrite : ∀ r, (s.holder a.id).writes (proc a.id) a.env = some r →
        a.env.fault = false → False := by
      intro r hwrites hfault
      rw [((hc holder hholder).1 r hwrites hfault).1] at hpast
      cases hpast
    have hfile : s.file = .record r := by
      rcases holderStep_cases hout with ⟨heq, -⟩ | ⟨-, hmissing | ⟨hfault, r', hwrites, -⟩⟩
      · exact heq.symm.trans hr
      · dsimp only at hr
        rw [hmissing] at hr
        cases hr
      · exact (hnowrite r' hwrites hfault).elim
    rcases hclaim j own' hown' with ⟨own₀, hown₀, hnonce⟩ | ⟨hfault, hwrites⟩
    · rw [← hnonce]
      exact h.unclaimed holder hholder hpast j own₀ hown₀ r hfile
    · exact (hnowrite own' hwrites hfault).elim

/-- The record of a guard is one that it claims. -/
theorem Holder.claim_of_guard {holder : Holder} {own : LeaseRecord} (h : own ∈ holder.guard) :
    own ∈ holder.claim := by
  cases holder <;> first | exact h | cases h

theorem ProbeInv.step {s t : ProbeState ι} {a : ProbeLabel ι} (h : ProbeInv s)
    (hc : ProbeUndisturbed p proc s a) (hst : probeStep p proc s a = some t) : ProbeInv t := by
  cases a with
  | probe action env => exact h.probe hc hst
  | other a => exact h.other hc hst

/-- A step that keeps the invariant does no harm. -/
theorem ProbeInv.nonDestructive {s : ProbeState ι} {a : ProbeLabel ι} (h : ProbeInv s)
    (hc : ProbeUndisturbed p proc s a) : NonDestructive p proc s a := by
  cases a with
  | probe action env =>
    intro t hst j own hown r hr hnonce
    have hfile : s.file = .record r := by
      cases hfile : s.file <;> rw [hfile] at hr <;> cases hr
      rfl
    simp only [probeStep] at hst
    cases hprobe : s.probe with
    | returned outcome => rw [hprobe] at hst; cases hst
    | running holder =>
      rw [hprobe] at hst
      obtain ⟨⟨file, probe⟩, hout, rfl⟩ := Option.map_eq_some_iff.1 hst
      have hmem : holder ∈ s.probe.holder := by rw [hprobe]; rfl
      have hnotpast : holder.past = true → False := fun hpast =>
        h.unclaimed holder hmem hpast j own (Holder.claim_of_guard hown) r hfile hnonce
      rcases attachExistingOwnerStep_cases hout with ⟨-, hpast, -⟩ | hkeeps
      · exact (hnotpast hpast).elim
      · rcases hkeeps.file with heq | ⟨hpast, -⟩
        · exact heq
        · exact (hnotpast hpast).elim
  | other a =>
    intro hprobed haction pc hpc lease hout
    obtain ⟨holder, hholder, -⟩ := h.own hprobed
    have hlooks := (hc holder hholder).2 hprobed
    rw [hpc] at hlooks
    -- an operation that attaches is a read
    cases pc with
    | read | verify _ | finalVerify _ => cases hlooks
    | write | overwrite | own =>
      unfold acquireStep writeThen writeLeaseAtomic at hout
      cases hfault : a.env.fault <;> rw [hfault] at hout <;> cases hout
    | rewrite _ => cases hout

/-- **A probe that nobody disturbs** leaves the records of live guards on file, and nobody
    attaches to it. -/
theorem probe_nonDestructive (p : Process) (proc : ι → Process) (start : ProbeState ι)
    (hprobe : start.probe = .running (.acquiring .read)) (hprobed : start.probed = false)
    (run : List (ProbeLabel ι))
    (hrun : Transition.Always (probeStep p proc) (ProbeUndisturbed p proc) start run) :
    Transition.Always (probeStep p proc) (NonDestructive p proc) start run := by
  have hinit : ProbeInv start := by
    refine ⟨?_, ?_, ?_⟩
    · rw [hprobed]
      rintro ⟨⟩
    · rw [hprobe]
      rintro holder ⟨⟩ own ⟨⟩
    · rw [hprobe]
      rintro holder ⟨⟩ ⟨⟩
  exact Transition.Always.of_invariant (I := ProbeInv) (fun _ _ _ hI hG hst => hI.step hG hst)
    (fun _ _ hI hG => hI.nonDestructive hG) hrun hinit

theorem probeStep_running {s : ProbeState ι} {holder : Holder} {action : HolderAction} {env : Env}
    {out : LeaseFile × Probe} (hprobe : s.probe = .running holder)
    (hstep : attachExistingOwnerStep p env s.file holder action = some out) :
    probeStep p proc s (.probe action env) = some { s with
      file := out.1, probe := out.2
      probed := markProbed true (holder.wrote p env) s.probed s.file out.1 } := by
  rw [probeStep, hprobe]
  dsimp only
  rw [hstep]
  rfl

/-- The record of a live guard that the probe takes for reclaimable is replaced next. -/
theorem destroys_of_passesOver {s : ProbeState ι} {env : Env} {j : ι} {own r : LeaseRecord}
    (hprobe : s.probe = .running (.acquiring .read)) (hfile : s.file = .record r)
    (hown : own ∈ (s.holder j).guard) (hnonce : r.ownerNonce = own.ownerNonce)
    (hpass : (Holder.acquiring .read).passesOver p env r = true) (hfault : env.fault = false)
    (hfresh : newOwnerRecord p env ≠ r) :
    ∃ t, probeStep p proc s (.probe .proceed env) = some t ∧
      ¬ NonDestructive p proc t (.probe .proceed env) := by
  have hread : attachExistingOwnerStep p env s.file (.acquiring .read) .proceed =
      some (s.file, .running (.acquiring .write)) := by
    unfold attachExistingOwnerStep acquireStep readLease
    rw [hfile, hfault]
    simp only [Holder.passesOver, Bool.or_eq_true, Bool.not_eq_true', decide_eq_true_eq] at hpass
    dsimp only
    simp only [Bool.false_eq_true, ↓reduceIte]
    by_cases hlive : r.isLiveAt env.now = true
    · rw [if_pos hlive, if_pos (hpass.resolve_left (by simp [hlive]))]
    · rw [if_neg hlive]
  have hwrite : attachExistingOwnerStep p env s.file (.acquiring .write) .proceed =
      some (.record (newOwnerRecord p env),
        .running (.acquiring (.verify (newOwnerRecord p env)))) := by
    unfold attachExistingOwnerStep acquireStep writeThen writeLeaseAtomic
    rw [hfault]
    rfl
  refine ⟨_, probeStep_running hprobe hread, fun h => ?_⟩
  have hrecord : r ∈ s.file.record? := by
    rw [hfile]
    rfl
  have hkept := h _ (probeStep_running rfl hwrite) j own hown r hrecord hnonce
  exact hfresh (LeaseFile.record.inj (hkept.trans hfile))

/-- Another process that looks at the lease while the record of the probe is on file attaches
    to it. -/
theorem attaches_of_looks {s : ProbeState ι} {a : GuardLabel ι} {r : LeaseRecord}
    (hprobed : s.probed = true) (hfile : s.file = .record r) (haction : a.action = .proceed)
    (hread : s.holder a.id = .acquiring .read) (hfault : a.env.fault = false)
    (hpass : (Holder.acquiring .read).passesOver (proc a.id) a.env r = false) :
    ¬ NonDestructive p proc s (.other a) := by
  intro h
  refine h hprobed haction .read hread r ?_
  simp only [Holder.passesOver, Bool.or_eq_false_iff, Bool.not_eq_false', decide_eq_false_iff_not]
    at hpass
  unfold acquireStep readLease
  rw [hfile, hfault]
  dsimp only
  simp only [Bool.false_eq_true, ↓reduceIte]
  rw [if_pos hpass.1, if_neg hpass.2]

end

/-! ## A probe next to an owner of its own process -/

namespace ProbeExample

/-- The process of the probe, and another one. -/
def process (i : Bool) : Process := ⟨i.toNat, "start", 30⟩

/-- No lease, and another process that has not started. -/
def vacant : ProbeState Unit where
  file := .missing
  probe := .running (.acquiring .read)
  holder _ := .acquiring .read
  probed := false

/-- The record of a guard of the process of the probe. -/
def record : LeaseRecord := newOwnerRecord (process false) ⟨0, 0, 0, false⟩

/-- The process of the probe is the owner. -/
def owned : ProbeState Unit where
  file := .record record
  probe := .running (.acquiring .read)
  holder _ := .held record
  probed := false

/-- An operation of the probe. -/
def act (action : HolderAction) : ProbeLabel Unit := .probe action ⟨1, 1, 0, false⟩

/-- An operation of the other process. -/
def acquire : ProbeLabel Unit := .other ⟨(), .proceed, ⟨2, 2, 0, false⟩⟩

/-- The probe acquires the lease and releases it, then the other process acquires it. -/
def run : List (ProbeLabel Unit) :=
  [act .proceed, act .proceed, act .proceed, act .release, act .proceed, act .proceed,
    acquire, acquire, acquire]

end ProbeExample

open ProbeExample in
theorem probe_nonDestructive_vacant :
    ∃ s, Transition.exec (probeStep (process false) fun _ => process true) vacant run = some s ∧
      s.probe = .returned .vacant ∧
      s.file = .record (newOwnerRecord (process true) ⟨2, 2, 0, false⟩) ∧
      Transition.Always (probeStep (process false) fun _ => process true)
        (NonDestructive (process false) fun _ => process true) vacant run := by
  refine ⟨_, rfl, rfl, rfl, ?_⟩
  exact probe_nonDestructive (process false) (fun _ => process true) vacant rfl rfl run
    (by decide +kernel)

/-- The property for every interleaving of a probe that does not end in an attachment. -/
def ProbesSafely : Prop :=
  ∀ (ι : Type) [DecidableEq ι] (p : Process) (proc : ι → Process) (start : ProbeState ι),
    start.probe = .running (.acquiring .read) → start.probed = false →
    ∀ (run : List (ProbeLabel ι)) (s : ProbeState ι),
      Transition.exec (probeStep p proc) start run = some s →
      (∀ lease, s.probe ≠ .returned (.attached lease)) →
      Transition.Always (probeStep p proc) (NonDestructive p proc) start run

open ProbeExample in
/-- The owner probes for an owner: it reads its own live record, replaces it, and releases the
    lease. -/
theorem not_probesSafely : ¬ ProbesSafely := by
  intro h
  have hexec : (Transition.exec (probeStep (process false) fun _ => process false) owned
      [act .proceed, act .proceed, act .proceed, act .release, act .proceed, act .proceed]).map
        ProbeState.probe = some (.returned .vacant) := by decide +kernel
  obtain ⟨s, hs, hvacant⟩ := Option.map_eq_some_iff.1 hexec
  have hattached : ∀ lease, s.probe ≠ .returned (.attached lease) := by
    intro lease
    rw [hvacant]
    rintro ⟨⟩
  have hrun := h Unit (process false) (fun _ => process false) owned rfl rfl _ s hs hattached
  have hguard : record ∈ (owned.holder ()).guard := rfl
  have hfile : owned.file = .record record := rfl
  obtain ⟨t, ht, hharm⟩ : ∃ t, probeStep (process false) (fun _ => process false) owned
      (act .proceed) = some t ∧ ¬ NonDestructive (process false) (fun _ => process false) t
        (act .proceed) :=
    destroys_of_passesOver rfl hfile hguard rfl (by decide +kernel) rfl (by decide)
  exact hharm (hrun.2 t ht).1

end Cognis
