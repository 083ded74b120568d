/-
  The owner of a workspace (`lib.rs`, `run.rs` of `cognis-owner`): any number of processes
  that run `become_owner_deferred` and then `serve_owned` on one lease file.

  A process acquires the lease, opens the database, the watcher and the listener, and serves
  until its loop ends; it stops its services before it drops the guard. In the meantime the
  heartbeat thread refreshes the record, and ends when it finds that the lease is lost.
  Nothing stops the services then.

  * `ownerStep` is a step of one process, `Owners.step` one of the system;
  * `single_owner`: in a run in which no record is written while another process holds the
    resources, the record on file is never another's than the server's, and at most one
    process serves;
  * `not_single_of_write`: such a record breaks it at once when it is live.
-/
import Cognis.Core.LeaseGuard

namespace Cognis

/-! ## A process -/

/-- How far the main thread of a process is. -/
inductive OwnerStage
  /-- in `acquire_or_attach` -/
  | acquiring
  /-- in `acquire_resources`, before the database is open -/
  | opening
  /-- with services running -/
  | serving
  /-- the services are stopped, the guard is being dropped -/
  | closing
deriving DecidableEq, Repr

/-- A process: its main thread, the state of its lease, and whether its heartbeat thread
    runs. -/
structure OwnerProc where
  stage : OwnerStage := .acquiring
  holder : Holder := .acquiring .read
  beating : Bool := false
deriving DecidableEq, Repr

/-- What a process does next. -/
inductive OwnerAction
  /-- the next file operation of `acquire_or_attach` -/
  | acquire
  /-- the heartbeat thread wakes up and reads the file -/
  | heartbeat
  /-- the write of the heartbeat -/
  | refresh
  /-- `Database::open`, the watcher, the listener -/
  | openServices
  /-- `shutdown_services`, at the end of the loop or after an error -/
  | closeServices
  /-- the guard is dropped: the thread is joined and the file read -/
  | dropGuard
  /-- the removal of the lease file -/
  | remove
  /-- the process dies, and may be started again -/
  | crash
deriving DecidableEq, Repr

/-- One step of a process. -/
def ownerStep (p : Process) (env : Env) (file : LeaseFile) (o : OwnerProc) :
    OwnerAction → Option (LeaseFile × OwnerProc)
  | .acquire =>
    match o.stage, o.holder with
    | .acquiring, .acquiring pc =>
      match acquireStep p env file pc with
      | (file, .inl pc) => some (file, { o with holder := .acquiring pc })
      | (file, .inr (.acquired record)) => some (file, ⟨.opening, .held record, true⟩)
      | (file, .inr _) => some (file, {})
    | _, _ => none
  | .heartbeat =>
    match o.holder with
    | .held record =>
      if o.beating then
        match heartbeatRead p env file record with
        | .refresh record => some (file, { o with holder := .refresh record })
        -- the lease is lost, or the file cannot be read: the thread ends
        | holder => some (file, { o with holder, beating := false })
      else none
    | _ => none
  | .refresh =>
    match o.holder with
    | .refresh record =>
      some ((writeLeaseAtomic file record env.fault).2,
        { o with holder := .held record, beating := !env.fault })
    | _ => none
  | .openServices =>
    match o.stage with
    | .opening =>
      -- an error on the way drops what is open, and the guard
      some (file, { o with stage := if env.fault then .closing else .serving })
    | _ => none
  | .closeServices =>
    match o.stage with
    | .serving => some (file, { o with stage := .closing })
    | _ => none
  | .dropGuard =>
    match o.stage, o.holder with
    | .closing, .held record =>
      match releaseRead env file record true with
      | .remove record last => some (file, ⟨.closing, .remove record last, false⟩)
      | _ => some (file, {})
    | _, _ => none
  | .remove =>
    match o.holder with
    | .remove _ _ => some (removeLease file env.fault, {})
    | _ => none
  | .crash => some (file, {})

/-- The process has the lease and has not stopped its services. -/
def OwnerProc.Owns (o : OwnerProc) : Prop := o.stage = .opening ∨ o.stage = .serving

/-- The next operation is the write of `acquire_or_attach` whose error is ignored. -/
def Holder.rewrites : Holder → Bool
  | .acquiring (.rewrite _) => true
  | _ => false

/-- The record that an action puts on file. -/
def OwnerProc.writes (p : Process) (env : Env) (o : OwnerProc) : OwnerAction → Option LeaseRecord
  | .acquire | .refresh => o.holder.writes p env
  | _ => none

instance decidableOwns : DecidablePred OwnerProc.Owns := fun _ =>
  inferInstanceAs (Decidable (_ ∨ _))

/-! ## The system -/

/-- The clock, the lease file and the processes. -/
structure Owners (ι : Type) where
  now : ℚ
  file : LeaseFile
  procs : ι → OwnerProc

/-- Time passes, or a process takes a step. -/
inductive OwnersLabel (ι : Type)
  | tick (d : ℚ)
  | act (i : ι) (action : OwnerAction) (nanos mix : ℕ) (fault : Bool)

namespace Owners

variable {ι : Type} (proc : ι → Process)

/-- No process has started. -/
def init (now : ℚ) (file : LeaseFile) : Owners ι := ⟨now, file, fun _ => {}⟩

/-- One step. -/
def step [DecidableEq ι] (s : Owners ι) : OwnersLabel ι → Option (Owners ι)
  | .tick d => some { s with now := s.now + d }
  | .act i action nanos mix fault =>
    (ownerStep (proc i) ⟨s.now, nanos, mix, fault⟩ s.file (s.procs i) action).map
      fun (file, o) => { s with file, procs := Function.update s.procs i o }

/-- Process `i` has services running. -/
def Serves (s : Owners ι) (i : ι) : Prop := (s.procs i).stage = .serving

/-- While a process serves, no other one has a live record on file, and no other one
    serves. -/
structure Single (s : Owners ι) : Prop where
  lease : ∀ i, s.Serves i → ∀ r, s.file = .record r → r.isLiveAt s.now →
    r.ownerNonce.pid = (proc i).pid
  services : ∀ i j, s.Serves i → s.Serves j → i = j

/-- A process that writes a record does so while no other process holds the resources, and
    the write whose error is ignored succeeds. -/
def WritesUnowned (s : Owners ι) : OwnersLabel ι → Prop
  | .tick _ => True
  | .act i action nanos mix fault =>
    ((s.procs i).writes (proc i) ⟨s.now, nanos, mix, fault⟩ action).isSome →
      (fault = false → ∀ j, j ≠ i → ¬ (s.procs j).Owns) ∧
        ((s.procs i).holder.rewrites → fault = false)

end Owners

/-! ## The records of a process -/

/-- The records that a process has at hand are its own. -/
def Holder.Own (p : Process) : Holder → Prop
  | .acquiring (.verify r) | .acquiring (.finalVerify r) | .acquiring (.rewrite r) | .held r
  | .refresh r | .remove r _ | .dropping r => r.ownerNonce.pid = p.pid
  | .acquiring .read | .acquiring .write | .acquiring .overwrite | .acquiring .own => True

theorem Holder.Own.writes {p : Process} {env : Env} {h : Holder} {r : LeaseRecord}
    (hown : h.Own p) (hr : h.writes p env = some r) : r.ownerNonce.pid = p.pid := by
  rcases h with (_ | _ | _ | _ | _ | r' | _) | r' | r' | ⟨r', last⟩ | r' <;> cases hr <;>
    first
    | rfl
    | exact hown

theorem file_of_readLease {file : LeaseFile} {fault : Bool} {r : LeaseRecord}
    (h : readLease file fault = .ok (some r)) : file = .record r := by
  unfold readLease at h
  split_ifs at h
  cases file <;> cases h
  rfl

/-- What a file operation of `acquire_or_attach` leaves a process with: its own records, and
    when it acquires the lease, its own record on file, unless the last write has failed. -/
theorem acquireStep_own {p : Process} {env : Env} {file file' : LeaseFile} {pc : AcquirePc}
    {out : AcquirePc ⊕ AcquireOutcome} (hown : (Holder.acquiring pc).Own p)
    (h : acquireStep p env file pc = (file', out)) :
    (∀ pc', out = .inl pc' → (Holder.acquiring pc').Own p) ∧
      ∀ r, out = .inr (.acquired r) → r.ownerNonce.pid = p.pid ∧
        ((∃ r', file' = .record r' ∧ r'.ownerNonce.pid = p.pid) ∨
          pc = .rewrite r ∧ env.fault = true) := by
  cases pc with
  | read =>
    simp only [acquireStep, readLease] at h
    repeat' split at h
    all_goals cases h
    all_goals simp [Holder.Own]
  | write | overwrite =>
    simp only [acquireStep] at h
    rcases writeThen_cases h with ⟨rfl, e, rfl⟩ | ⟨hfault, r, hpid, rfl, rfl⟩
    · simp
    · simpa [Holder.Own] using hpid
  | own =>
    simp only [acquireStep] at h
    rcases writeThen_cases h with ⟨rfl, e, rfl⟩ | ⟨hfault, r, hpid, rfl, rfl⟩
    · simp
    · simpa using hpid
  | verify r | finalVerify r =>
    cases hread : readLease file env.fault with
    | error e =>
      simp only [acquireStep, hread] at h
      cases h
      simp
    | ok onDisk =>
      simp only [acquireStep, hread] at h
      cases onDisk with
      | none =>
        cases h
        first
        | exact ⟨fun _ heq => Sum.inl.inj heq ▸ trivial, fun _ heq => by cases heq⟩
        | exact ⟨fun _ heq => Sum.inl.inj heq ▸ hown, fun _ heq => by cases heq⟩
      | some onDisk =>
        have hfile := file_of_readLease hread
        dsimp only at h
        split_ifs at h with hnonce
        · cases h
          refine ⟨fun _ heq => (by cases heq), fun r heq => ?_⟩
          cases heq
          exact ⟨hown, .inl ⟨onDisk, hfile, by rw [hnonce]; exact hown⟩⟩
        all_goals
          cases h
          simp [Holder.Own]
  | rewrite r =>
    simp only [acquireStep, writeLeaseAtomic] at h
    cases hfault : env.fault
    · rw [hfault] at h
      cases h
      simpa [Holder.Own] using hown
    · rw [hfault] at h
      cases h
      simpa [Holder.Own] using hown

theorem heartbeatRead_own {p : Process} {record : LeaseRecord} (env : Env) (file : LeaseFile)
    (hown : record.ownerNonce.pid = p.pid) : (heartbeatRead p env file record).Own p := by
  unfold heartbeatRead
  dsimp only
  split
  · split_ifs <;> exact hown
  · exact hown
  · exact hown

theorem releaseRead_own {p : Process} {record : LeaseRecord} (env : Env) (file : LeaseFile) (last : Bool)
    (hown : record.ownerNonce.pid = p.pid) :
    (releaseRead env file record last).Own p := by
  have hafter : (afterRelease record last).Own p := by cases last <;> trivial
  unfold releaseRead
  split
  · split_ifs
    · exact hown
    · exact hafter
  · exact hafter
  · exact hafter

/-- What the step of a process does to the file. -/
inductive FileEffect (p : Process) (env : Env) (o : OwnerProc) (a : OwnerAction)
    (file : LeaseFile) : LeaseFile → Prop
  | keep : FileEffect p env o a file file
  | removed : FileEffect p env o a file .missing
  | written {r} : env.fault = false → o.writes p env a = some r →
      FileEffect p env o a file (.record r)

/-- What a step leaves a process with: its own records; and the resources only if it has had
    them, or has acquired the lease with its own record on file, unless its last write has
    failed. -/
structure StepEffect (p : Process) (env : Env) (o o' : OwnerProc) (a : OwnerAction)
    (file file' : LeaseFile) : Prop where
  own : o'.holder.Own p
  file : FileEffect p env o a file file'
  owns : o'.Owns → o.Owns ∨ (∃ r, file' = .record r ∧ r.ownerNonce.pid = p.pid) ∨
    (∃ r, o.holder = .acquiring (.rewrite r) ∧ a = .acquire) ∧ env.fault = true

theorem ownerStep_effect {p : Process} {env : Env} {file file' : LeaseFile} {o o' : OwnerProc}
    {a : OwnerAction} (hown : o.holder.Own p) (h : ownerStep p env file o a = some (file', o')) :
    StepEffect p env o o' a file file' := by
  cases a with
  | acquire =>
    simp only [ownerStep] at h
    split at h
    · next pc hstage hholder =>
      rw [hholder] at hown
      cases hstep : acquireStep p env file pc with
      | mk file₁ out =>
        obtain ⟨hnext, hacq⟩ := acquireStep_own hown hstep
        have hfile : FileEffect p env o .acquire file file₁ := by
          rcases acquireStep_file hstep with rfl | ⟨hfault, r, hwrites, rfl⟩
          · exact .keep
          · exact .written hfault (by rw [OwnerProc.writes, hholder]; exact hwrites)
        rw [hstep] at h
        rcases out with pc' | record | lease | e
        · cases h
          refine ⟨hnext _ rfl, hfile, fun ho => ?_⟩
          rcases ho with ho | ho <;> rw [hstage] at ho <;> cases ho
        · cases h
          obtain ⟨hpid, hfile' | ⟨hpc, hfault⟩⟩ := hacq record rfl
          · exact ⟨hpid, hfile, fun _ => .inr (.inl hfile')⟩
          · exact ⟨hpid, hfile, fun _ => .inr (.inr ⟨⟨record, by rw [hholder, hpc], rfl⟩, hfault⟩)⟩
        all_goals
          cases h
          exact ⟨trivial, hfile, fun ho => by rcases ho with ho | ho <;> cases ho⟩
    · cases h
  | heartbeat =>
    simp only [ownerStep] at h
    split at h
    · next record hholder =>
      rw [hholder] at hown
      split_ifs at h
      have hread := heartbeatRead_own env file hown
      split at h
      · next record' heq =>
        cases h
        rw [heq] at hread
        exact ⟨hread, .keep, .inl⟩
      · cases h
        exact ⟨hread, .keep, .inl⟩
    · cases h
  | refresh =>
    simp only [ownerStep] at h
    split at h
    · next record hholder =>
      rw [hholder] at hown
      cases h
      refine ⟨hown, ?_, .inl⟩
      rw [writeLeaseAtomic]
      split_ifs with hfault
      · exact .keep
      · refine .written (Bool.not_eq_true _ ▸ hfault) ?_
        rw [OwnerProc.writes, hholder]
        rfl
    · cases h
  | openServices =>
    simp only [ownerStep] at h
    split at h
    · next hstage =>
      cases h
      exact ⟨hown, .keep, fun _ => .inl (.inl hstage)⟩
    · cases h
  | closeServices =>
    simp only [ownerStep] at h
    split at h
    · cases h
      exact ⟨hown, .keep, fun ho => by rcases ho with ho | ho <;> cases ho⟩
    · cases h
  | dropGuard =>
    simp only [ownerStep] at h
    split at h
    · next record hstage hholder =>
      rw [hholder] at hown
      split at h
      · next record' last heq =>
        have hread := releaseRead_own env file true hown
        cases h
        rw [heq] at hread
        exact ⟨hread, .keep, fun ho => by rcases ho with ho | ho <;> cases ho⟩
      · cases h
        exact ⟨trivial, .keep, fun ho => by rcases ho with ho | ho <;> cases ho⟩
    · cases h
  | remove =>
    simp only [ownerStep] at h
    split at h
    · cases h
      refine ⟨trivial, ?_, fun ho => by rcases ho with ho | ho <;> cases ho⟩
      rw [removeLease]
      split_ifs
      · exact .keep
      · exact .removed
    · cases h
  | crash =>
    cases h
    exact ⟨trivial, .keep, fun ho => by rcases ho with ho | ho <;> cases ho⟩

/-! ## Runs -/

namespace Owners

variable {ι : Type} {proc : ι → Process} {s t : Owners ι}

/-- The holder of the resources has its own record on file, if any, and is the only one. -/
structure Inv (proc : ι → Process) (s : Owners ι) : Prop where
  own : ∀ i, (s.procs i).holder.Own (proc i)
  lease : ∀ i, (s.procs i).Owns → ∀ r, s.file = .record r → r.ownerNonce.pid = (proc i).pid
  single : ∀ i j, (s.procs i).Owns → (s.procs j).Owns → i = j

theorem init_inv (now : ℚ) (file : LeaseFile) : Inv proc (init now file) where
  own _ := trivial
  lease i h := by rcases h with h | h <;> cases h
  single i j h := by rcases h with h | h <;> cases h

theorem Inv.toSingle (h : Inv proc s) : Single proc s where
  lease i hi r hr _ := h.lease i (.inr hi) r hr
  services i j hi hj := h.single i j (.inr hi) (.inr hj)

variable [DecidableEq ι]

/-- **Step lemma**: the invariant survives a step that writes no record while another process
    holds the resources. -/
theorem Inv.step (hpid : Function.Injective fun i => (proc i).pid) (h : Inv proc s)
    {a : OwnersLabel ι} (hguard : WritesUnowned proc s a) (hst : Owners.step proc s a = some t) :
    Inv proc t := by
  cases a with
  | tick d =>
    cases hst
    exact ⟨h.own, h.lease, h.single⟩
  | act i action nanos mix fault =>
    obtain ⟨⟨file, o⟩, hstep, rfl⟩ := Option.map_eq_some_iff.1 hst
    obtain ⟨hown, hfile, howns⟩ := ownerStep_effect (h.own i) hstep
    have hwritten : ∀ r, (s.procs i).writes (proc i) ⟨s.now, nanos, mix, fault⟩ action = some r →
        fault = false → ∀ j, j ≠ i → ¬ (s.procs j).Owns :=
      fun r hr hfault => (hguard (by rw [hr]; rfl)).1 hfault
    -- a process that has just acquired the lease has its own record on file
    have hnew : o.Owns → (s.procs i).Owns ∨ ∃ r, file = .record r ∧ r.ownerNonce.pid = (proc i).pid := by
      intro ho
      rcases howns ho with ho | hr | ⟨⟨r, hr, rfl⟩, hfault⟩
      · exact .inl ho
      · exact .inr hr
      · have := (hguard (by rw [OwnerProc.writes, hr]; rfl)).2 (by rw [hr]; rfl)
        exact absurd (hfault.symm.trans this) (by decide)
    -- another holder's record stays on file
    have hother : ∀ j, j ≠ i → (s.procs j).Owns → ∀ r, file = .record r →
        r.ownerNonce.pid = (proc j).pid := by
      intro j hj ho r hr
      cases hfile with
      | keep => exact h.lease j ho r hr
      | removed => cases hr
      | written hfault hw => exact absurd ho (hwritten _ hw hfault j hj)
    have halone : o.Owns → ∀ j, j ≠ i → (s.procs j).Owns → i = j := by
      intro ho j hji hj
      rcases hnew ho with ho | ⟨r, hr, hr'⟩
      · exact h.single i j ho hj
      · exact hpid (hr'.symm.trans (hother j hji hj r hr))
    refine ⟨fun j => ?_, fun j hj r hr => ?_, fun j k hj hk => ?_⟩
    · show (Function.update s.procs i o j).holder.Own (proc j)
      by_cases hji : j = i
      · subst hji
        rwa [Function.update_self]
      · rw [Function.update_of_ne hji]
        exact h.own j
    · replace hj : (Function.update s.procs i o j).Owns := hj
      by_cases hji : j = i
      · subst hji
        rw [Function.update_self] at hj
        rcases hnew hj with ho | ⟨r', hr', hpid'⟩
        · cases hfile with
          | keep => exact h.lease j ho r hr
          | removed => cases hr
          | written hfault hw =>
            cases hr
            have hw' : (s.procs j).holder.writes (proc j) ⟨s.now, nanos, mix, fault⟩ = some r := by
              cases action <;> first | exact hw | cases hw
            exact (h.own j).writes hw'
        · cases (show LeaseFile.record r' = .record r from hr'.symm.trans hr)
          exact hpid'
      · rw [Function.update_of_ne hji] at hj
        exact hother j hji hj r hr
    · replace hj : (Function.update s.procs i o j).Owns := hj
      replace hk : (Function.update s.procs i o k).Owns := hk
      by_cases hji : j = i <;> by_cases hki : k = i
      · exact hji.trans hki.symm
      · subst hji
        rw [Function.update_self] at hj
        rw [Function.update_of_ne hki] at hk
        exact halone hj k hki hk
      · subst hki
        rw [Function.update_self] at hk
        rw [Function.update_of_ne hji] at hj
        exact (halone hk j hji hj).symm
      · rw [Function.update_of_ne hji] at hj
        rw [Function.update_of_ne hki] at hk
        exact h.single j k hj hk

/-- **One owner** in a run in which no process writes its record while another one holds the
    resources. -/
theorem single_owner (proc : ι → Process) (hpid : Function.Injective fun i => (proc i).pid)
    (now : ℚ) (file : LeaseFile) (run : List (OwnersLabel ι)) (s : Owners ι)
    (hrun : Transition.exec (step proc) (init now file) run = some s)
    (hwrites : Transition.Always (step proc) (WritesUnowned proc) (init now file) run) :
    Single proc s :=
  (Transition.exec_invariant (fun _ _ _ h hG hst => h.step hpid hG hst) hrun hwrites
    (init_inv now file)).toSingle

/-- The condition is needed: a live record that a process writes while another one serves is
    the record of a process that does not. -/
theorem not_single_of_write {i j : ι} {action : OwnerAction} {nanos mix : ℕ} {fault : Bool}
    {r : LeaseRecord} (hst : step proc s (.act i action nanos mix fault) = some t) (hij : j ≠ i)
    (hj : s.Serves j) (hpid : (proc i).pid ≠ (proc j).pid) (hfile : t.file = .record r)
    (hr : r.ownerNonce.pid = (proc i).pid) (hlive : r.isLiveAt t.now) : ¬ Single proc t := by
  intro h
  obtain ⟨⟨file, o⟩, hstep, rfl⟩ := Option.map_eq_some_iff.1 hst
  have hserves : Owners.Serves { s with file, procs := Function.update s.procs i o } j := by
    show (Function.update s.procs i o j).stage = .serving
    rw [Function.update_of_ne hij]
    exact hj
  exact hpid (hr.symm.trans (h.lease j hserves r hfile hlive))

instance decidableWritesUnowned [Fintype ι] (s : Owners ι) :
    DecidablePred (WritesUnowned proc s) := fun a =>
  match a with
  | .tick _ => .isTrue trivial
  | .act i action nanos mix fault =>
    inferInstanceAs (Decidable (((s.procs i).writes (proc i) ⟨s.now, nanos, mix, fault⟩ action).isSome →
      (fault = false → ∀ j, j ≠ i → ¬ (s.procs j).Owns) ∧
        ((s.procs i).holder.rewrites → fault = false)))

end Owners

/-! ## A takeover after a pause -/

namespace OwnersExample

def proc (i : Bool) : Process := ⟨i.toNat, "start", 30⟩

theorem proc_pid : Function.Injective fun i => (proc i).pid := by decide

/-- A step without a fault. -/
def act (i : Bool) (action : OwnerAction) : OwnersLabel Bool := .act i action 0 0 false

/-- The first process starts to serve, and the second attaches to it. -/
def serveAndAttach : List (OwnersLabel Bool) :=
  [act false .acquire, act false .acquire, act false .acquire, act false .openServices,
    act false .heartbeat, act false .refresh, act true .acquire]

/-- The first process leaves, and the second takes the lease. -/
def handOver : List (OwnersLabel Bool) :=
  serveAndAttach ++ [act false .closeServices, act false .dropGuard, act false .remove,
    act true .acquire, act true .acquire, act true .acquire, act true .openServices]

/-- The first process is paused for longer than its lease lasts, the second takes the lease
    over, and then the heartbeat of the first finds that it is lost. -/
def takeover : List (OwnersLabel Bool) :=
  serveAndAttach ++ [.tick 31, act true .acquire, act true .acquire, act true .acquire,
    act true .openServices, act false .heartbeat]

end OwnersExample

open Owners OwnersExample Transition

theorem single_owner_handOver : ∃ s, exec (step proc) (init 0 .missing) handOver = some s ∧
    s.Serves true ∧ Single proc s := by
  have hrun : (exec (step proc) (init 0 .missing) handOver).map (fun s => (s.procs true).stage) =
      some .serving := by decide +kernel
  obtain ⟨s, hs, hserves⟩ := Option.map_eq_some_iff.1 hrun
  exact ⟨s, hs, hserves, single_owner proc proc_pid 0 .missing handOver s hs (by decide +kernel)⟩

/-- The property for every interleaving. -/
def SingleOwner : Prop :=
  ∀ (ι : Type) [DecidableEq ι] (proc : ι → Process), (Function.Injective fun i => (proc i).pid) →
    ∀ (now : ℚ) (file : LeaseFile) (run : List (OwnersLabel ι)) (s : Owners ι),
      exec (step proc) (init now file) run = some s → Single proc s

/-- After the pause both processes serve, and the first one goes on after its heartbeat has
    ended. -/
theorem not_singleOwner : ¬ SingleOwner := by
  intro h
  have hrun : (exec (step proc) (init 0 .missing) takeover).map
      (fun s => ((s.procs false).stage, (s.procs true).stage)) = some (.serving, .serving) := by
    decide +kernel
  obtain ⟨s, hs, hserve⟩ := Option.map_eq_some_iff.1 hrun
  obtain ⟨hfirst, hsecond⟩ := Prod.mk.inj hserve
  have hsingle := h Bool proc proc_pid 0 .missing takeover s hs
  exact absurd (hsingle.services false true hfirst hsecond) (by decide)

end Cognis
