/-
  The repository lease of `cognis-core` (`lease.rs`): `acquire_or_attach` of any
  number of processes on one lease file, one file operation at a time.

  A process reads the file, replaces it when the lease on it is reclaimable, and
  reads it back to detect a lost race.  The three steps are not atomic: a process
  that found the lease reclaimable replaces the record of another that has
  verified its own in the meantime.

  * `acquireStep` is one file operation of the function, `leaseStep` a step of
    the system;
  * `acquire_exclusive`: in a run in which no process writes after another has
    acquired the lease, at most one process acquires it;
  * `acquired_of_write`: any such write makes a second owner possible.
-/
import Cognis.Lib.Transition
import Mathlib.Algebra.Order.Ring.Rat
import Mathlib.Logic.Function.Basic
import Mathlib.Tactic.NormNum

namespace Cognis

/-! ## The lease file -/

/-- `generate_owner_nonce`: the text `pid-nanos-mix`, by its parts. -/
structure OwnerNonce where
  pid : ℕ
  nanos : ℕ
  mix : ℕ
  deriving DecidableEq, Repr

/-- `LeaseRecord` -/
structure LeaseRecord where
  ownerNonce : OwnerNonce
  pid : ℕ
  processStartId : String
  heartbeatAt : ℚ
  expiry : ℚ
  deriving DecidableEq, Repr

/-- `is_live_at` -/
def LeaseRecord.isLiveAt (r : LeaseRecord) (now : ℚ) : Bool := now < r.expiry

/-- The lease file: absent, not a record, or a record. -/
inductive LeaseFile where
  | missing
  | invalid
  | record (r : LeaseRecord)
  deriving DecidableEq, Repr

/-- The kinds of I/O errors that matter here. -/
inductive IoErrorKind where
  | invalidData
  | other
  deriving DecidableEq, Repr

/-- `read_lease`; `fault` when the operation itself fails. -/
def readLease (file : LeaseFile) (fault : Bool) : Except IoErrorKind (Option LeaseRecord) :=
  if fault then .error .other else
    match file with
    | .missing => .ok none
    | .invalid => .error .invalidData
    | .record r => .ok (some r)

/-- `write_lease_atomic`: the file is replaced, or left as it is on a failure. -/
def writeLeaseAtomic (file : LeaseFile) (r : LeaseRecord) (fault : Bool) :
    Except IoErrorKind Unit × LeaseFile :=
  if fault then (.error .other, file) else (.ok (), .record r)

/-! ## `acquire_or_attach` -/

/-- A process: its pid, its start identity, and the time to live it asks for. -/
structure Process where
  pid : ℕ
  startId : String
  ttl : ℚ
  deriving DecidableEq, Repr

/-- What a step takes from outside: the clock, the parts of a nonce, and
    whether the file operation fails. -/
structure Env where
  now : ℚ
  nanos : ℕ
  mix : ℕ
  fault : Bool
  deriving DecidableEq, Repr

/-- `new_owner_record` -/
def newOwnerRecord (p : Process) (env : Env) : LeaseRecord where
  ownerNonce := ⟨p.pid, env.nanos, env.mix⟩
  pid := p.pid
  processStartId := p.startId
  heartbeatAt := env.now
  expiry := env.now + p.ttl

/-- What `acquire_or_attach` returns. -/
inductive AcquireOutcome where
  | acquired (record : LeaseRecord)
  | attached (lease : LeaseRecord)
  | failed (error : IoErrorKind)
  deriving DecidableEq, Repr

/-- The next file operation of a process. -/
inductive AcquirePc where
  /-- the first read of a call -/
  | read
  /-- the write after a reclaimable lease -/
  | write
  /-- the read back after the first write of `record` -/
  | verify (record : LeaseRecord)
  /-- the retry over an expired winner -/
  | overwrite
  /-- the read back after the retry -/
  | finalVerify (record : LeaseRecord)
  /-- the write after the record vanished before the final read -/
  | rewrite (record : LeaseRecord)
  /-- the write after the record vanished before the first read back -/
  | own
  deriving DecidableEq, Repr

/-- The operations that replace the file. -/
def AcquirePc.Writes : AcquirePc → Prop
  | .write | .overwrite | .rewrite _ | .own => True
  | .read | .verify _ | .finalVerify _ => False

/-- Write a new record and go on, or return the error. -/
def writeThen (p : Process) (env : Env) (file : LeaseFile)
    (next : LeaseRecord → AcquirePc ⊕ AcquireOutcome) :
    LeaseFile × (AcquirePc ⊕ AcquireOutcome) :=
  let record := newOwnerRecord p env
  match writeLeaseAtomic file record env.fault with
  | (.error e, file) => (file, .inr (.failed e))
  | (.ok (), file) => (file, next record)

/-- One file operation of `acquire_or_attach`: the file after it, and the next
    operation or the value returned. -/
def acquireStep (p : Process) (env : Env) (file : LeaseFile) :
    AcquirePc → LeaseFile × (AcquirePc ⊕ AcquireOutcome)
  | .read =>
    match readLease file env.fault with
    | .ok (some existing) =>
      if existing.isLiveAt env.now then
        -- a process that already owns the lease acquires it again
        if existing.pid = p.pid ∧ existing.processStartId = p.startId then (file, .inl .write)
        else (file, .inr (.attached existing))
      else (file, .inl .write)
    | .ok none => (file, .inl .write)
    | .error .invalidData => (file, .inl .write)
    | .error e => (file, .inr (.failed e))
  | .write => writeThen p env file fun record => .inl (.verify record)
  | .verify record =>
    match readLease file env.fault with
    | .ok (some onDisk) =>
      if onDisk.ownerNonce = record.ownerNonce then (file, .inr (.acquired record))
      else if onDisk.isLiveAt env.now then (file, .inr (.attached onDisk))
      else (file, .inl .overwrite)
    | .ok none => (file, .inl .own)
    | .error e => (file, .inr (.failed e))
  | .overwrite => writeThen p env file fun record => .inl (.finalVerify record)
  | .finalVerify record =>
    match readLease file env.fault with
    | .ok (some v) =>
      if v.ownerNonce = record.ownerNonce then (file, .inr (.acquired record))
      else (file, .inr (.attached v))
    | .ok none => (file, .inl (.rewrite record))
    | .error e => (file, .inr (.failed e))
  | .rewrite record => ((writeLeaseAtomic file record env.fault).2, .inr (.acquired record))
  | .own => writeThen p env file fun record => .inr (.acquired record)

@[simp]
theorem newOwnerRecord_isLiveAt (p : Process) (env : Env) (now : ℚ) :
    (newOwnerRecord p env).isLiveAt now = decide (now < env.now + p.ttl) := rfl

/-! ## The system -/

/-- The lease file, the next operation of each process, and the values returned
    so far.  A process that has returned may call again. -/
structure LeaseState (ι : Type) where
  file : LeaseFile
  pc : ι → AcquirePc
  returned : List (ι × AcquireOutcome)

section
variable {ι : Type} (proc : ι → Process)

/-- No process has started. -/
def LeaseState.init (file : LeaseFile) : LeaseState ι := ⟨file, fun _ => .read, []⟩

/-- One file operation of process `i`. -/
def leaseStep [DecidableEq ι] (s : LeaseState ι) (a : ι × Env) : Option (LeaseState ι) :=
  match acquireStep (proc a.1) a.2 s.file (s.pc a.1) with
  | (file, .inl pc) => some { s with file, pc := Function.update s.pc a.1 pc }
  | (file, .inr outcome) =>
    some { file, pc := Function.update s.pc a.1 .read, returned := (a.1, outcome) :: s.returned }

/-- Process `i` has acquired the lease. -/
def LeaseState.Acquired (s : LeaseState ι) (i : ι) : Prop := ∃ r, (i, .acquired r) ∈ s.returned

/-- At most one process has acquired the lease. -/
def LeaseState.Exclusive (s : LeaseState ι) : Prop := ∀ i j, s.Acquired i → s.Acquired j → i = j

/-- No record has expired when it is read. -/
def NoExpiry (s : LeaseState ι) (a : ι × Env) : Prop :=
  ∀ r, s.file = .record r → r.isLiveAt a.2.now

/-- A process that writes does so while no other process has acquired the lease. -/
def WritesBeforeOthers (s : LeaseState ι) (a : ι × Env) : Prop :=
  (s.pc a.1).Writes → a.2.fault = false → ∀ j, j ≠ a.1 → ¬ s.Acquired j

/-- The record on file was written by process `i`. -/
def LeaseState.HeldBy (s : LeaseState ι) (i : ι) : Prop :=
  ∃ r, s.file = .record r ∧ r.ownerNonce.pid = (proc i).pid

/-! ## The invariant -/

/-- An owner's record is on file, a process that reads back has written its own
    record, and the file has not vanished since. -/
structure LeaseInv (s : LeaseState ι) : Prop where
  owner : ∀ i, s.Acquired i → s.HeldBy proc i
  verify : ∀ i r, s.pc i = .verify r ∨ s.pc i = .finalVerify r →
    r.ownerNonce.pid = (proc i).pid ∧ ∃ r', s.file = .record r'
  present : ∀ i, s.pc i ≠ .own ∧ ∀ r, s.pc i ≠ .rewrite r

theorem leaseInv_init (file : LeaseFile) : LeaseInv proc (LeaseState.init file) where
  owner i h := by simp [LeaseState.Acquired, LeaseState.init] at h
  verify i r h := by simp [LeaseState.init] at h
  present i := by simp [LeaseState.init]

/-- Two owners would both have their record on file. -/
theorem LeaseInv.exclusive {proc : ι → Process} {s : LeaseState ι}
    (hpid : Function.Injective fun i => (proc i).pid) (h : LeaseInv proc s) : s.Exclusive := by
  intro i j hi hj
  obtain ⟨r, hr, hri⟩ := h.owner i hi
  obtain ⟨r', hr', hrj⟩ := h.owner j hj
  obtain rfl := LeaseFile.record.inj (hr.symm.trans hr')
  exact hpid (hri.symm.trans hrj)

end

theorem readLease_record (r : LeaseRecord) (fault : Bool) :
    readLease (.record r) fault = .ok (some r) ∨ readLease (.record r) fault = .error .other := by
  cases fault
  · exact .inl rfl
  · exact .inr rfl

/-- A write fails and leaves the file alone, or puts the process's own record on it. -/
theorem writeThen_cases {p : Process} {env : Env} {file file' : LeaseFile}
    {next : LeaseRecord → AcquirePc ⊕ AcquireOutcome} {out : AcquirePc ⊕ AcquireOutcome}
    (h : writeThen p env file next = (file', out)) :
    (file' = file ∧ ∃ e, out = .inr (.failed e)) ∨
    (env.fault = false ∧ ∃ r, r.ownerNonce.pid = p.pid ∧ file' = .record r ∧ out = next r) := by
  simp only [writeThen, writeLeaseAtomic] at h
  cases hfault : env.fault
  · rw [hfault] at h
    cases h
    exact .inr ⟨rfl, _, rfl, rfl, rfl⟩
  · rw [hfault] at h
    cases h
    exact .inl ⟨rfl, _, rfl⟩

/-- What one file operation does, unless the file has vanished: it leaves the file
    alone, and acquires the lease only when the nonce on file is its own; or it
    writes its own record and goes on to read it back. -/
theorem acquireStep_cases {p : Process} {env : Env} {file file' : LeaseFile} {pc : AcquirePc}
    {out : AcquirePc ⊕ AcquireOutcome} (h : acquireStep p env file pc = (file', out))
    (hown : pc ≠ .own) (hrewrite : ∀ r, pc ≠ .rewrite r)
    (hfile : ∀ r, pc = .verify r ∨ pc = .finalVerify r → ∃ r', file = .record r') :
    (file' = file ∧ (out = .inl .write ∨ out = .inl .overwrite ∨
      (∃ lease, out = .inr (.attached lease)) ∨ (∃ e, out = .inr (.failed e)) ∨
      ∃ r r', (pc = .verify r ∨ pc = .finalVerify r) ∧ out = .inr (.acquired r) ∧
        file = .record r' ∧ r'.ownerNonce = r.ownerNonce)) ∨
    (pc.Writes ∧ env.fault = false ∧ ∃ r, r.ownerNonce.pid = p.pid ∧ file' = .record r ∧
      (out = .inl (.verify r) ∨ out = .inl (.finalVerify r))) := by
  cases pc with
  | read =>
    refine .inl ?_
    simp only [acquireStep, readLease] at h
    repeat' split at h
    all_goals cases h
    all_goals simp
  | write =>
    simp only [acquireStep] at h
    rcases writeThen_cases h with ⟨rfl, e, rfl⟩ | ⟨hfault, r, hpid, rfl, rfl⟩
    · simp
    · exact .inr ⟨trivial, hfault, r, hpid, rfl, .inl rfl⟩
  | verify r =>
    obtain ⟨r', rfl⟩ := hfile r (.inl rfl)
    refine .inl ?_
    rcases readLease_record r' env.fault with hread | hread
    · simp only [acquireStep, hread] at h
      split_ifs at h with hnonce hlive
      · cases h
        exact ⟨rfl, .inr (.inr (.inr (.inr ⟨r, r', .inl rfl, rfl, rfl, hnonce⟩)))⟩
      · cases h; simp
      · cases h; simp
    · simp only [acquireStep, hread] at h
      cases h; simp
  | overwrite =>
    simp only [acquireStep] at h
    rcases writeThen_cases h with ⟨rfl, e, rfl⟩ | ⟨hfault, r, hpid, rfl, rfl⟩
    · simp
    · exact .inr ⟨trivial, hfault, r, hpid, rfl, .inr rfl⟩
  | finalVerify r =>
    obtain ⟨r', rfl⟩ := hfile r (.inr rfl)
    refine .inl ?_
    rcases readLease_record r' env.fault with hread | hread
    · simp only [acquireStep, hread] at h
      split_ifs at h with hnonce
      · cases h
        exact ⟨rfl, .inr (.inr (.inr (.inr ⟨r, r', .inr rfl, rfl, rfl, hnonce⟩)))⟩
      · cases h; simp
    · simp only [acquireStep, hread] at h
      cases h; simp
  | rewrite r => exact absurd rfl (hrewrite r)
  | own => exact absurd rfl hown

section
variable {ι : Type} [DecidableEq ι] {proc : ι → Process}

/-- A step that leaves the file alone and does not acquire the lease. -/
theorem LeaseInv.keep {s : LeaseState ι} (h : LeaseInv proc s) (i : ι) {pc : AcquirePc}
    (hpc : pc = .read ∨ pc = .write ∨ pc = .overwrite) {returned : List (ι × AcquireOutcome)}
    (hret : ∀ j r, (j, .acquired r) ∈ returned → (j, .acquired r) ∈ s.returned) :
    LeaseInv proc ⟨s.file, Function.update s.pc i pc, returned⟩ where
  owner j := fun ⟨r, hr⟩ => h.owner j ⟨r, hret j r hr⟩
  verify j r hj := by
    by_cases hji : j = i
    · subst hji
      rcases hpc with rfl | rfl | rfl <;> simp at hj
    · simp only [Function.update_of_ne hji] at hj
      exact h.verify j r hj
  present j := by
    by_cases hji : j = i
    · subst hji
      rcases hpc with rfl | rfl | rfl <;> simp
    · simp only [Function.update_of_ne hji]
      exact h.present j

/-- **Step lemma**: a file operation that does not write after another process has
    acquired the lease preserves the invariant. -/
theorem LeaseInv.step {s t : LeaseState ι} {a : ι × Env} (h : LeaseInv proc s)
    (hguard : WritesBeforeOthers s a) (hst : leaseStep proc s a = some t) : LeaseInv proc t := by
  obtain ⟨i, env⟩ := a
  simp only [leaseStep] at hst
  cases hstep : acquireStep (proc i) env s.file (s.pc i) with
  | mk file out =>
    rw [hstep] at hst
    rcases acquireStep_cases hstep (h.present i).1 (h.present i).2 fun r hr => (h.verify i r hr).2 with
      ⟨rfl, rfl | rfl | ⟨lease, rfl⟩ | ⟨e, rfl⟩ | ⟨r, r', hpc, rfl, hfile, hnonce⟩⟩ |
      ⟨hwrites, hfault, r, hpid, rfl, hout⟩
    · cases hst; exact h.keep i (by simp) fun _ _ hr => hr
    · cases hst; exact h.keep i (by simp) fun _ _ hr => hr
    · cases hst; exact h.keep i (by simp) fun _ _ hr => by simpa using hr
    · cases hst; exact h.keep i (by simp) fun _ _ hr => by simpa using hr
    · -- the nonce on file is the process's own
      cases hst
      have hkeep := h.keep i (.inl rfl) fun _ _ hr => hr
      refine ⟨fun j hj => ?_, hkeep.verify, hkeep.present⟩
      obtain ⟨q, hq⟩ := hj
      rcases List.mem_cons.1 hq with hq | hq
      · obtain rfl := (Prod.mk.inj hq).1
        exact ⟨r', hfile, by rw [hnonce]; exact (h.verify j r hpc).1⟩
      · exact h.owner j ⟨q, hq⟩
    · -- its own record is on file, and no other process has acquired the lease
      have hverify : ∀ pc, pc = .verify r ∨ pc = .finalVerify r →
          LeaseInv proc ⟨.record r, Function.update s.pc i pc, s.returned⟩ := by
        intro pc hpc
        refine ⟨fun j hj => ?_, fun j q hj => ?_, fun j => ?_⟩
        · by_cases hji : j = i
          · subst hji; exact ⟨r, rfl, hpid⟩
          · exact absurd hj (hguard hwrites hfault j hji)
        · by_cases hji : j = i
          · subst hji
            rcases hpc with rfl | rfl <;> simp at hj <;> subst hj <;> exact ⟨hpid, _, rfl⟩
          · simp only [Function.update_of_ne hji] at hj
            exact ⟨(h.verify j q hj).1, _, rfl⟩
        · by_cases hji : j = i
          · subst hji
            rcases hpc with rfl | rfl <;> simp
          · simp only [Function.update_of_ne hji]
            exact h.present j
      rcases hout with rfl | rfl
      · cases hst; exact hverify _ (.inl rfl)
      · cases hst; exact hverify _ (.inr rfl)

end

/-! ## Mutual exclusion -/

/-- **Mutual exclusion** holds in every run in which no process writes after
    another has acquired the lease. -/
theorem acquire_exclusive {ι : Type} [DecidableEq ι] (proc : ι → Process)
    (hpid : Function.Injective fun i => (proc i).pid) (file : LeaseFile) (run : List (ι × Env))
    (s : LeaseState ι) (hrun : Transition.exec (leaseStep proc) (.init file) run = some s)
    (hwrites : Transition.Always (leaseStep proc) WritesBeforeOthers (.init file) run) :
    s.Exclusive :=
  (Transition.exec_invariant (fun _ _ _ h hG hst => h.step hG hst) hrun hwrites
    (leaseInv_init proc file)).exclusive hpid

/-- The first process takes the lease, the second attaches to it. -/
theorem acquire_exclusive_two :
    ∃ s, Transition.exec (leaseStep fun i : Bool => ⟨i.toNat, "start", 30⟩) (.init .missing)
        [(false, ⟨0, 0, 0, false⟩), (false, ⟨0, 0, 0, false⟩), (false, ⟨0, 0, 0, false⟩),
          (true, ⟨1, 0, 0, false⟩)] = some s ∧ s.returned.length = 2 ∧ s.Exclusive := by
  have hrun : ∃ s, Transition.exec (leaseStep fun i : Bool => ⟨i.toNat, "start", 30⟩)
      (.init .missing)
      [(false, ⟨0, 0, 0, false⟩), (false, ⟨0, 0, 0, false⟩), (false, ⟨0, 0, 0, false⟩),
        (true, ⟨1, 0, 0, false⟩)] = some s ∧ s.returned.length = 2 := by
    norm_num [Transition.exec, leaseStep, LeaseState.init, acquireStep, readLease, writeThen,
      writeLeaseAtomic, newOwnerRecord, LeaseRecord.isLiveAt]
  obtain ⟨s, hs, hlen⟩ := hrun
  refine ⟨s, hs, hlen, ?_⟩
  refine acquire_exclusive (fun i : Bool => ⟨i.toNat, "start", 30⟩)
    (fun i j h => by revert i j; decide) .missing _ s hs ?_
  -- only the second step writes, before any call has returned
  refine ⟨fun h => h.elim, fun t ht => ?_⟩
  cases ht
  refine ⟨?_, fun t ht => ?_⟩
  · rintro _ _ j _ ⟨r, hr⟩
    cases hr
  cases ht
  refine ⟨fun h => h.elim, fun t ht => ?_⟩
  cases ht
  exact ⟨fun h => h.elim, fun _ _ => trivial⟩

/-- The condition is needed: a process about to write can go on to acquire the
    lease, whoever has acquired it before. -/
theorem acquired_of_write {ι : Type} [DecidableEq ι] (proc : ι → Process) (s : LeaseState ι)
    (i : ι) (hpc : s.pc i = .write ∨ s.pc i = .overwrite) (env : Env) (hfault : env.fault = false) :
    ∃ t, Transition.exec (leaseStep proc) s [(i, env), (i, env)] = some t ∧ t.Acquired i ∧
      ∀ j, s.Acquired j → t.Acquired j := by
  refine ⟨⟨.record (newOwnerRecord (proc i) env), Function.update s.pc i .read,
    (i, .acquired (newOwnerRecord (proc i) env)) :: s.returned⟩, ?_, ⟨_, .head _⟩,
    fun j ⟨r, hr⟩ => ⟨r, .tail _ hr⟩⟩
  rcases hpc with hpc | hpc <;>
    simp [Transition.exec, leaseStep, acquireStep, writeThen, writeLeaseAtomic, readLease, hpc,
      hfault]

/-- The property for every interleaving, with no lease expiring. -/
def MutualExclusion : Prop :=
  ∀ (ι : Type) [DecidableEq ι] (proc : ι → Process),
    (Function.Injective fun i => (proc i).pid) → ∀ (file : LeaseFile) (run : List (ι × Env))
      (s : LeaseState ι), Transition.exec (leaseStep proc) (.init file) run = some s →
      Transition.Always (leaseStep proc) NoExpiry (.init file) run → s.Exclusive

/-- Both processes find no lease; the first writes and verifies, then the second
    replaces its record and verifies its own. -/
theorem not_mutualExclusion : ¬ MutualExclusion := by
  intro h
  have hexcl := h Bool (fun i => ⟨i.toNat, "start", 30⟩) (fun i j h => by revert i j; decide)
    .missing
    [(false, ⟨0, 0, 0, false⟩), (true, ⟨0, 0, 0, false⟩), (false, ⟨0, 0, 0, false⟩),
      (false, ⟨0, 0, 0, false⟩), (true, ⟨0, 0, 0, false⟩), (true, ⟨0, 0, 0, false⟩)] _ rfl ?_
  · exact absurd (hexcl false true ⟨_, .tail _ (.head _)⟩ ⟨_, .head _⟩) (by decide)
  · refine ⟨fun r hr => (by cases hr), fun t ht => ?_⟩
    cases ht
    refine ⟨fun r hr => (by cases hr), fun t ht => ?_⟩
    cases ht
    refine ⟨fun r hr => (by cases hr), fun t ht => ?_⟩
    cases ht
    refine ⟨fun r hr => (by cases hr; norm_num), fun t ht => ?_⟩
    cases ht
    refine ⟨fun r hr => (by cases hr; norm_num), fun t ht => ?_⟩
    cases ht
    exact ⟨fun r hr => (by cases hr; norm_num), fun _ _ => trivial⟩

end Cognis
