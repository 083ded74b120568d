/-
  Orphan reconciliation (`reconcileOrphanLease` in `lease.ts`) against the owners that live.

  The extension records a lease for a process that it has not started. It leaves a record of
  that process alone, but looks at no other: the record of an owner at another pid is
  replaced, whether it has expired or not, and the next heartbeat of that owner is refused.

  * `reconcileOrphanLease_guarded`: the record of a guard in the process itself stays;
  * `reconcileOrphanLease_other`: a record of another pid never stands in the way;
  * `keepsLiveOwner_iff`: a live owner keeps its record exactly when it is no record of
    another pid, or nothing is written.
-/
import Cognis.Core.GuardRecord
import Cognis.Extension.Lease

namespace Cognis

namespace Extension

/-! ## The call -/

/-- `reconcileOrphanLease` on the lease file: `pid` is `undefined` or a number, and `written`
    tells whether `writeLeaseAtomic` succeeds. -/
def reconcileOrphan (host : Host) (text : ℚ → String) (file : LeaseFile) (now : ℚ)
    (nonce : String) (pid : Option ℤ) (ttlSeconds : ℚ) (written : Bool) : LeaseFile :=
  match pid with
  | none => file
  | some pid =>
    if pid ≤ 0 then file else
      match reconcileOrphanLease host file now nonce pid.toNat ttlSeconds with
      | some record => if written then record.file text else file
      | none => file

/-! ## The owners -/

/-- A lease guard of `cognis-core` that runs in a process that lives. -/
structure RunningGuard (host : Host) where
  process : OwnerProcess
  lives : host.Lives process
  record : Cognis.LeaseRecord

/-- The record is one of the guard's, with the times of some heartbeat. -/
structure RunningGuard.Wrote {host : Host} (g : RunningGuard host) (r : LeaseRecord) : Prop where
  nonce : r.ownerNonce = nonceText g.record.ownerNonce
  pid : r.pid = g.process.pid
  startId : r.processStartId = thisProcessStartId host.platform g.process

/-- The record names a process that lives at another pid. -/
def OfOtherPid (host : Host) (pid : Option ℤ) (r : LeaseRecord) : Prop :=
  ∃ q : ℕ, r.pid = q ∧ pid ≠ some (q : ℤ) ∧ (host.startTime q).isSome

/-- The record was written by a live owner other than the process that is reconciled, or by
    a guard within it. -/
def OfLiveOwner (host : Host) (pid : Option ℤ) (r : LeaseRecord) : Prop :=
  OfOtherPid host pid r ∨
    ∃ g : RunningGuard host, pid = some (g.process.pid : ℤ) ∧ g.Wrote r

/-- The file as `read_lease` finds it; `nonce` gives the nonce that a text stands for. -/
def LeaseFile.owned (nonce : String → OwnerNonce) (file : LeaseFile) : Cognis.LeaseFile :=
  match file with
  | none => .missing
  | some _ =>
    match readLease file with
    | some r => .record (r.toOwner (nonce r.ownerNonce))
    | none => .invalid

/-- Every guard that wrote the record finds its own nonce at the next heartbeat. -/
def HeartbeatsPass (host : Host) (file : LeaseFile) (r : LeaseRecord) : Prop :=
  ∀ (g : RunningGuard host) (ttl : ℚ) (env : Env) (nonce : String → OwnerNonce),
    g.Wrote r → env.fault = false → (∀ n, nonce (nonceText n) = n) →
      heartbeatRead (g.process.process host.platform ttl) env (file.owned nonce) g.record =
        .refresh (g.record.beat (g.process.process host.platform ttl) env.now)

/-- A live owner keeps its record until it expires, and its guard the next heartbeat. -/
def KeepsLiveOwner (host : Host) (text : ℚ → String) (file : LeaseFile) (now : ℚ)
    (nonce : String) (pid : Option ℤ) (ttlSeconds : ℚ) (written : Bool) : Prop :=
  ∀ r, readLease file = some r → isLeaseExpired r now = false → OfLiveOwner host pid r →
    reconcileOrphan host text file now nonce pid ttlSeconds written = file ∧
      HeartbeatsPass host (reconcileOrphan host text file now nonce pid ttlSeconds written) r

/-- A record that has not expired, of a process that lives at another pid, stands where the
    lease of `pid` is to be written. -/
def Displaces (host : Host) (file : LeaseFile) (now : ℚ) (pid : Option ℤ) : Prop :=
  (∃ p, pid = some p ∧ 0 < p) ∧
    ∃ r, readLease file = some r ∧ isLeaseExpired r now = false ∧ OfOtherPid host pid r

/-! ## One call -/

theorem readLease_owned {nonce : String → OwnerNonce} {file : LeaseFile} {r : LeaseRecord}
    (h : readLease file = some r) :
    file.owned nonce = .record (r.toOwner (nonce r.ownerNonce)) := by
  cases file with
  | none => cases h
  | some parsed => simp only [LeaseFile.owned, h]

/-- As long as its record is on file, a guard is not refused. -/
theorem heartbeatsPass_of_readLease {host : Host} {file : LeaseFile} {r : LeaseRecord}
    (h : readLease file = some r) : HeartbeatsPass host file r := by
  intro g ttl env nonce hwrote hfault hnonce
  rw [readLease_owned h]
  simp [heartbeatRead, Cognis.readLease, hfault, LeaseRecord.toOwner, hwrote.nonce, hnonce,
    LeaseRecord.beat]

/-- The record of a guard in the process stays: it has the start identity of an owner. -/
theorem reconcileOrphanLease_guarded {host : Host} {file : LeaseFile} {now : ℚ} {r : LeaseRecord}
    (hread : readLease file = some r) (hlive : isLeaseExpired r now = false)
    (g : RunningGuard host) (hwrote : g.Wrote r) (nonce : String) (ttlSeconds : ℚ) :
    reconcileOrphanLease host file now nonce g.process.pid ttlSeconds = none := by
  have hverified := isUnverified_thisProcessStartId host.platform g.process
  simp [reconcileOrphanLease, g.process.pid_ne_zero, hread, hlive, hwrote.pid, hwrote.startId,
    hverified]

/-- A record of another pid does not stand in the way. -/
theorem reconcileOrphanLease_other {host : Host} {file : LeaseFile} {now : ℚ} {r : LeaseRecord}
    {pid : ℕ} (hpid : pid ≠ 0) (hread : readLease file = some r) (hother : r.pid ≠ pid)
    (nonce : String) (ttlSeconds : ℚ) :
    ∃ w, reconcileOrphanLease host file now nonce pid ttlSeconds = some w ∧
      w.ownerNonce = nonce := by
  simp [reconcileOrphanLease, hpid, hread, hother]

/-- A guard whose record is replaced is refused at its next heartbeat. -/
theorem heartbeatRefused_of_displaced (text : ℚ → String) {w : LeaseRecord}
    {nonce : String → OwnerNonce} {record : Cognis.LeaseRecord} (env : Env)
    (hnonce : nonce w.ownerNonce ≠ record.ownerNonce) :
    HeartbeatRefused env ((w.file text).owned nonce) record := by
  rw [readLease_owned (readLease_file text w)]
  exact .inr (.inr ⟨_, rfl, hnonce⟩)

/-- The record that stands in the way of nothing is gone. -/
theorem reconcileOrphan_ne_of_displaces {host : Host} {text : ℚ → String} {file : LeaseFile}
    {now ttlSeconds : ℚ} {nonce : String} {pid : Option ℤ} (h : Displaces host file now pid)
    (hfresh : ∀ r, readLease file = some r → r.ownerNonce ≠ nonce) :
    reconcileOrphan host text file now nonce pid ttlSeconds true ≠ file := by
  obtain ⟨⟨p, rfl, hpos⟩, r, hread, -, q, hq, hne, -⟩ := h
  obtain ⟨n, rfl⟩ := Int.eq_ofNat_of_zero_le hpos.le
  have hother : r.pid ≠ (n : ℚ) := by
    rw [hq]
    intro heq
    exact hne (by rw [Nat.cast_inj.1 heq])
  have hrecorded : ∃ w, reconcileOrphanLease host file now nonce n ttlSeconds = some w ∧
      w.ownerNonce = nonce := reconcileOrphanLease_other (by omega) hread hother nonce ttlSeconds
  obtain ⟨w, hw, hwnonce⟩ := hrecorded
  intro heq
  have hwritten : w.file text = file := by
    rw [reconcileOrphan, if_neg hpos.not_ge, Int.toNat_natCast, hw] at heq
    exact heq
  -- the nonce on file is a fresh one
  refine hfresh w ?_ hwnonce
  rw [← hwritten, readLease_file]

/-! ## The owners keep their record -/

/-- **A live owner keeps its record** exactly when no record of another pid stands where the
    lease is to be written, or the write fails. -/
theorem keepsLiveOwner_iff (host : Host) (text : ℚ → String) (file : LeaseFile) (now : ℚ)
    (nonce : String) (pid : Option ℤ) (ttlSeconds : ℚ) (written : Bool)
    (hfresh : ∀ r, readLease file = some r → r.ownerNonce ≠ nonce) :
    KeepsLiveOwner host text file now nonce pid ttlSeconds written ↔
      ¬ Displaces host file now pid ∨ written = false := by
  constructor
  · intro h
    by_contra! hnot
    obtain ⟨hdisplaces, hwritten⟩ := hnot
    rw [ne_eq, Bool.not_eq_false] at hwritten
    subst hwritten
    obtain ⟨-, r, hread, hlive, hother⟩ := id hdisplaces
    exact reconcileOrphan_ne_of_displaces hdisplaces hfresh (h r hread hlive (.inl hother)).1
  · intro h r hread hlive howner
    have hsame : reconcileOrphan host text file now nonce pid ttlSeconds written = file := by
      cases pid with
      | none => rfl
      | some p =>
        rw [reconcileOrphan]
        by_cases hpos : p ≤ 0
        · rw [if_pos hpos]
        rw [if_neg hpos]
        rw [not_le] at hpos
        rcases h with hdisplaces | hwritten
        · rcases howner with hother | ⟨g, hpid, hwrote⟩
          · exact absurd ⟨⟨p, rfl, hpos⟩, r, hread, hlive, hother⟩ hdisplaces
          · obtain rfl := Option.some.inj hpid
            rw [Int.toNat_natCast, reconcileOrphanLease_guarded hread hlive g hwrote]
        · rw [hwritten]
          cases reconcileOrphanLease host file now nonce p.toNat ttlSeconds <;> rfl
    exact ⟨hsame, hsame.symm ▸ heartbeatsPass_of_readLease hread⟩

/-- A record of the process `42`, live until `30`. -/
def otherOwner : LeaseRecord := ⟨"2a-1-1", 42, "proc-starttime-7", 0, 30⟩

def otherOwnerFile : LeaseFile := otherOwner.file fun _ => ""

theorem readLease_otherOwnerFile : readLease otherOwnerFile = some otherOwner := readLease_file _ _

theorem ofOtherPid_otherOwner : OfOtherPid (linuxSample 7) (some 5) otherOwner :=
  ⟨42, by norm_num [otherOwner], by decide, rfl⟩

theorem displaces_otherOwner : Displaces (linuxSample 7) otherOwnerFile 1 (some 5) :=
  ⟨⟨5, rfl, by decide⟩, otherOwner, readLease_otherOwnerFile, by decide, ofOtherPid_otherOwner⟩

theorem fresh_otherOwner (r : LeaseRecord) (h : readLease otherOwnerFile = some r) :
    r.ownerNonce ≠ "ext-nonce" := by
  rw [readLease_otherOwnerFile] at h
  cases h
  decide

/-- The record of another live owner is lost. -/
theorem keepsLiveOwner_iff_other :
    ¬ KeepsLiveOwner (linuxSample 7) (fun _ => "") otherOwnerFile 1 "ext-nonce" (some 5) 30
      true := by
  rw [keepsLiveOwner_iff _ _ _ _ _ _ _ _ fresh_otherOwner]
  rintro (h | h)
  · exact h displaces_otherOwner
  · cases h

/-- No live owner is ever displaced. -/
def NeverDisplaced : Prop :=
  ∀ (host : Host) (text : ℚ → String) (file : LeaseFile) (now : ℚ) (nonce : String)
    (pid : Option ℤ) (ttlSeconds : ℚ) (written : Bool),
    (∀ r, readLease file = some r → r.ownerNonce ≠ nonce) →
      KeepsLiveOwner host text file now nonce pid ttlSeconds written

/-- The process `42` holds a lease until `30`; at `1` the pid `5` is reconciled, and the file
    names `5`. -/
theorem not_neverDisplaced : ¬ NeverDisplaced := by
  intro h
  have hkeeps := h (linuxSample 7) (fun _ => "") otherOwnerFile 1 "ext-nonce" (some 5) 30 true
    fresh_otherOwner
  have hsame := (hkeeps otherOwner readLease_otherOwnerFile (by decide)
    (.inl ofOtherPid_otherOwner)).1
  exact reconcileOrphan_ne_of_displaces displaces_otherOwner fresh_otherOwner hsame

end Extension

end Cognis
