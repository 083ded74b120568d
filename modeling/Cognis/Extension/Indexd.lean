/-
  The live-indexing daemon of a repository (`indexd.ts`), shared by the clients of one host: the
  handle map, the count of holds, and the events that change them.

  The processes and the holds of the clients are those of `Holds`. A call runs up to its next
  `await` in one step. Forced stops are not modelled, nor the signal to the owner at the end of a
  stop, which is another process.

  * `KeepsCount` says of a step that it takes none of the branches that lose the count;
  * `Inv.step`: such a step keeps map, count and process in step;
  * `inStep_of_keepsCount`: so does every run of such steps, and in it a stop terminates the
    daemon exactly when it releases the last hold.
-/
import Cognis.Extension.Lease
import Cognis.Lib.Holds
import Cognis.Lib.Transition
import Mathlib.Logic.Function.Basic

namespace Cognis.Extension.Indexd

open Holds (Processes)
open Transition

/-! ## The module -/

/-- `IndexStatusReport`, the fields that the map depends on. -/
structure IndexStatusReport where
  pid : Option ℕ
  active : Bool
  deriving DecidableEq, Repr

/-- `LiveIndexingHandle` -/
structure LiveIndexingHandle (Path : Type) where
  proc : Option ℕ
  statusPath : Path
  pid : Option ℕ
  refCount : ℕ

/-- The process that the handle is about. -/
def LiveIndexingHandle.daemon {Path : Type} (h : LiveIndexingHandle Path) : Option ℕ :=
  h.proc <|> h.pid

/-- What a stop call waits for. -/
inductive Waiting where
  /-- `waitForProcessExit` -/
  | process
  /-- `waitForPidExit` -/
  | pid
  deriving DecidableEq, Repr

/-- A stop call that waits, and the pid it has read. -/
structure Stopping where
  waits : Waiting
  pid : Option ℕ
  deriving DecidableEq, Repr

/-- The state of the module, for one repository. -/
structure State (C Path : Type) where
  daemons : Processes C := {}
  /-- the entry of `processes` -/
  processes : Option (LiveIndexingHandle Path) := none
  /-- what `readIndexStatus` reads -/
  status : Path → Option IndexStatusReport
  stops : List Stopping := []

namespace State

variable {C Path : Type} (s : State C Path)

/-- `isHandleRunning` -/
def isHandleRunning : Option (LiveIndexingHandle Path) → Bool
  | none => false
  | some h =>
    match h.proc with
    | some p => !s.daemons.killed p
    | none => h.pid.any s.daemons.alive

/-- `isStatusProcessAlive` -/
def isStatusProcessAlive (status : IndexStatusReport) : Bool :=
  status.active && status.pid.any s.daemons.alive

/-- The status of a live process in a status file. -/
def aliveStatus (path : Path) : Option IndexStatusReport :=
  (s.status path).filter s.isStatusProcessAlive

/-- `isLiveIndexing` -/
def isLiveIndexing (defaultStatusPath : Path) : Bool :=
  s.isHandleRunning s.processes || (s.aliveStatus defaultStatusPath).isSome

/-- `refreshIndexStatus` -/
def refreshIndexStatus : State C Path :=
  match s.processes with
  | none => s
  | some h =>
    match s.status h.statusPath with
    | some status =>
      if !status.active ∧ h.proc = none then { s with processes := none }
      else { s with processes := some { h with pid := status.pid <|> h.pid } }
    | none =>
      if h.proc = none ∧ !h.pid.any s.daemons.alive then { s with processes := none } else s

/-- `attachToExistingIndexd` -/
def attachToExistingIndexd (statusPath : Path) (status : IndexStatusReport) : State C Path :=
  let attached : LiveIndexingHandle Path :=
    match s.processes with
    | some existing =>
      if s.isHandleRunning (some existing) then
        { existing with refCount := existing.refCount + 1, pid := status.pid <|> existing.pid }
      else ⟨none, statusPath, status.pid, 1⟩
    | none => ⟨none, statusPath, status.pid, 1⟩
  { s with processes := some attached }

/-- The end of `startLiveIndexing`: a daemon is spawned. -/
def spawn (statusPath : Path) : State C Path :=
  let proc := s.daemons.procs.length
  { s with
    daemons := s.daemons.start true
    processes := some ⟨some proc, statusPath, some proc, 1⟩ }

/-- `startLiveIndexing`, without a forced rebuild. -/
def startLiveIndexing (defaultStatusPath statusPath : Path) : State C Path :=
  if s.isLiveIndexing defaultStatusPath then
    ((s.aliveStatus statusPath).elim s (s.attachToExistingIndexd statusPath)).refreshIndexStatus
  else
    match s.aliveStatus statusPath with
    | some status => s.attachToExistingIndexd statusPath status
    | none => s.spawn statusPath

/-- `killByPid`, with the verdict of the lease. -/
def killByPid (pid : Option ℕ) (verdict : OwnerVerification) : Processes C :=
  match pid with
  | some p => if verdict = .mismatch then s.daemons else s.daemons.signal p
  | none => s.daemons

/-- `stopLiveIndexing`, not forced, up to its first `await`. -/
def stopLiveIndexing (verdict : OwnerVerification) : State C Path :=
  match s.processes with
  | none => s
  | some h =>
    let refCount := h.refCount - 1
    let s := { s with processes := some { h with refCount } }
    if 0 < refCount then s
    else
      let pid := h.pid <|> h.proc
      match h.proc with
      | some p =>
        { s with daemons := s.daemons.kill p, stops := s.stops ++ [⟨.process, pid⟩] }
      | none =>
        if pid.any s.daemons.alive then
          { s with daemons := s.killByPid pid verdict, stops := s.stops ++ [⟨.pid, pid⟩] }
        else { s with processes := none }

/-- A stop call goes on: the process has ended, or the time is up. -/
def resume (i : ℕ) (verdict : OwnerVerification) : Option (State C Path) :=
  match s.stops[i]? with
  | none => none
  | some stop =>
    if stop.waits = .process ∧ stop.pid.any s.daemons.alive then
      some { s with
        daemons := s.killByPid stop.pid verdict
        stops := s.stops.set i { stop with waits := .pid } }
    else some { s with processes := none, stops := s.stops.eraseIdx i }

/-- The `close` handler of a process, and its `error` handler. -/
def onClose (p : ℕ) : Option (State C Path) :=
  if s.daemons.ended p then some { s with daemons := s.daemons.close p, processes := none }
  else none

/-! ## Holds -/

/-- The process that the map records, and the count. -/
def record : Option (ℕ × ℕ) :=
  s.processes.bind fun h => h.daemon.map fun p => (p, h.refCount)

/-- After a start, the client holds the process recorded. -/
def hold (c : C) : State C Path :=
  s.record.elim s fun r => { s with daemons := s.daemons.hold c r.1 }

/-- With a stop, the client gives its hold on the process recorded back. -/
def release [DecidableEq C] (c : C) : State C Path :=
  s.record.elim s fun r => { s with daemons := s.daemons.release c r.1 }

end State

/-- A client starts or stops the daemon, with the verdict of the lease at a stop; a stop call
    goes on; the status file is read again; a daemon writes it; another host starts a daemon; a
    process ends; the event of its end comes. -/
inductive Event (C Path : Type) where
  | start (client : C) (statusPath : Path)
  | stop (client : C) (verdict : OwnerVerification)
  | resume (stop : ℕ) (verdict : OwnerVerification)
  | refresh
  | writeStatus (statusPath : Path) (status : Option IndexStatusReport)
  | appear
  | finish (proc : ℕ)
  | close (proc : ℕ)

/-- The host at its start, with the status files that it finds. -/
def State.init {C Path : Type} (status : Path → Option IndexStatusReport) : State C Path :=
  { status }

section
variable {C Path : Type} [DecidableEq C] [DecidableEq Path] (defaultStatusPath : Path)

/-- One step. -/
def step (s : State C Path) : Event C Path → Option (State C Path)
  | .start c path => some ((s.startLiveIndexing defaultStatusPath path).hold c)
  | .stop c verdict => some ((s.release c).stopLiveIndexing verdict)
  | .resume i verdict => s.resume i verdict
  | .refresh => some s.refreshIndexStatus
  | .writeStatus path status => some { s with status := Function.update s.status path status }
  | .appear => some { s with daemons := s.daemons.start false }
  | .finish p => some { s with daemons := s.daemons.finish p }
  | .close p => s.onClose p

/-- A stop by a client terminates a live daemon exactly when it releases the last hold. -/
def StopsLast (s : State C Path) : Event C Path → Prop
  | .stop c verdict => ∀ p, s.daemons.Live p →
      (s.daemons.Signalled ((s.release c).stopLiveIndexing verdict).daemons p ↔
        (c, p) ∈ s.daemons.holds ∧ s.daemons.holdsOn p = 1)
  | _ => True

/-! ## What loses the count -/

/-- A start attaches to the live daemon `p`: the status file names a live process, which is `p`, or
    need not be where the entry has the process object of `p` and has not killed it. -/
def AttachKeeps (s : State C Path) (path : Path) (p : ℕ) : Prop :=
  ∃ status ∈ s.aliveStatus path, status.pid = some p ∨
    ∃ h ∈ s.processes, h.proc = some p ∧ s.daemons.killed p = false

/-- A refresh leaves the entry of an attached daemon `p`: its status file is not there, or says
    that the daemon is active, and names no other process. -/
def RefreshKeeps (s : State C Path) (p : ℕ) : Prop :=
  ∀ h ∈ s.processes, h.proc = none → ∀ status ∈ s.status h.statusPath,
    status.active = true ∧ ∀ q ∈ status.pid, q = p

/-- The step takes none of the branches that lose the count of a live daemon. A start finds the
    status of the daemon, so that it attaches to it; a stop is by a client that holds the daemon, and
    the lease does not refuse to terminate one that is attached; a refresh leaves the entry; a
    stop call that ends, and the event of the end of a process, meet no live daemon. -/
def KeepsCount (s : State C Path) : Event C Path → Prop
  | .start _ path => ∀ p, s.daemons.Live p → AttachKeeps s path p ∧ RefreshKeeps s p
  | .stop c verdict => ∀ p, s.daemons.Live p → (c, p) ∈ s.daemons.holds ∧
      ∀ h ∈ s.processes, h.proc = none → h.refCount ≤ 1 → verdict ≠ .mismatch
  | .resume i _ => ∀ p, s.daemons.Live p → ∀ stop ∈ s.stops[i]?,
      stop.waits = .process ∧ stop.pid.any s.daemons.alive
  | .refresh => ∀ p, s.daemons.Live p → RefreshKeeps s p
  | .close _ => ∀ p, ¬ s.daemons.Live p
  | _ => True

instance RefreshKeeps.decidable (s : State C Path) (p : ℕ) : Decidable (RefreshKeeps s p) := by
  unfold RefreshKeeps
  infer_instance

instance AttachKeeps.decidable (s : State C Path) (path : Path) (p : ℕ) :
    Decidable (AttachKeeps s path p) := by
  unfold AttachKeeps
  infer_instance

instance KeepsCount.decidable (s : State C Path) (e : Event C Path) :
    Decidable (KeepsCount s e) := by
  cases e <;> dsimp only [KeepsCount] <;> infer_instance

/-- After the run, map, count and process are in step; and each stop in it terminates the daemon
    exactly when it releases the last hold. -/
def InStep (status : Path → Option IndexStatusReport) (events : List (Event C Path)) : Prop :=
  (∀ t, exec (step defaultStatusPath) (.init status) events = some t →
    t.daemons.Counted t.record) ∧
    Always (step defaultStatusPath) StopsLast (.init status) events

end

/-! ## The invariant -/

/-- Map and process are in step, and the count is ahead of the holds by `n`: by one, between a
    start and its hold. An entry whose process object has been killed has no holds. -/
structure Inv {C Path : Type} (n : ℕ) (s : State C Path) : Prop where
  record : ∀ p, s.daemons.Live p → s.record = some (p, s.daemons.holdsOn p + n)
  fresh : s.daemons.Fresh
  killed : ∀ h ∈ s.processes, ∀ p ∈ h.proc, s.daemons.Live p → s.daemons.killed p = true →
    h.refCount = 0

section
variable {C Path : Type} {s : State C Path} {p n : ℕ}

theorem LiveIndexingHandle.daemon_of_proc {h : LiveIndexingHandle Path} (hproc : h.proc = some p) :
    h.daemon = some p := by
  rw [daemon, hproc]
  rfl

theorem LiveIndexingHandle.daemon_of_pid {h : LiveIndexingHandle Path} (hproc : h.proc = none) :
    h.daemon = h.pid := by
  rw [daemon, hproc]
  rfl

theorem State.record_eq_some : s.record = some (p, n) ↔
    ∃ h, s.processes = some h ∧ h.daemon = some p ∧ h.refCount = n := by
  simp [record, Option.bind_eq_some_iff]

/-- The entry of a live daemon. -/
theorem Inv.entry (hs : Inv 0 s) (hp : s.daemons.Live p) :
    ∃ h, s.processes = some h ∧ h.daemon = some p ∧ h.refCount = s.daemons.holdsOn p :=
  State.record_eq_some.1 (hs.record p hp)

/-- There is one live daemon at most. -/
theorem Inv.live_unique (hs : Inv 0 s) {q : ℕ} (hp : s.daemons.Live p) (hq : s.daemons.Live q) :
    q = p :=
  (Prod.mk.inj (Option.some.inj ((hs.record q hq).symm.trans (hs.record p hp)))).1

/-- A refresh that leaves the entry keeps the record. -/
theorem record_refresh (hkeep : RefreshKeeps s p) (hp : s.daemons.alive p = true)
    (hrecord : s.record = some (p, n)) : s.refreshIndexStatus.record = some (p, n) := by
  obtain ⟨h, hh, hdaemon, rfl⟩ := State.record_eq_some.1 hrecord
  simp only [State.refreshIndexStatus, hh]
  cases hstatus : s.status h.statusPath with
  | none =>
    have hstay : ¬ (h.proc = none ∧ !h.pid.any s.daemons.alive) := by
      rintro ⟨hproc, hdead⟩
      rw [← h.daemon_of_pid hproc, hdaemon, Option.any_some, hp] at hdead
      exact absurd hdead (by decide)
    dsimp only
    rw [if_neg hstay]
    exact hrecord
  | some status =>
    dsimp only
    cases hproc : h.proc with
    | none =>
      obtain ⟨hactive, hpid⟩ := hkeep h hh hproc status hstatus
      rw [if_neg (by simp [hactive])]
      refine State.record_eq_some.2 ⟨_, rfl, ?_, rfl⟩
      rw [LiveIndexingHandle.daemon_of_pid rfl]
      rw [h.daemon_of_pid hproc] at hdaemon
      cases hst : status.pid with
      | none => exact hdaemon
      | some q => rw [hpid q hst]; rfl
    | some q =>
      rw [if_neg (by simp)]
      refine State.record_eq_some.2 ⟨_, rfl, ?_, rfl⟩
      rw [LiveIndexingHandle.daemon_of_proc rfl, ← h.daemon_of_proc hproc]
      exact hdaemon

@[simp] theorem daemons_refresh : s.refreshIndexStatus.daemons = s.daemons := by
  unfold State.refreshIndexStatus
  split
  · rfl
  · split <;> split_ifs <;> rfl

/-- A refresh changes nothing of an entry but the pid. -/
theorem refresh_entry {h' : LiveIndexingHandle Path} (hh : h' ∈ s.refreshIndexStatus.processes) :
    ∃ h ∈ s.processes, h'.proc = h.proc ∧ h'.refCount = h.refCount := by
  unfold State.refreshIndexStatus at hh
  cases hentry : s.processes with
  | none => simp [hentry] at hh
  | some h =>
    simp only [hentry] at hh
    cases hstatus : s.status h.statusPath with
    | none =>
      simp only [hstatus] at hh
      split_ifs at hh
      · simp at hh
      · rw [hentry] at hh
        exact ⟨h', hh, rfl, rfl⟩
    | some status =>
      simp only [hstatus] at hh
      split_ifs at hh
      · simp at hh
      · cases hh
        exact ⟨h, rfl, rfl, rfl⟩

/-! ## A start -/

/-- Attaching to the live daemon counts. -/
theorem Inv.attach (hs : Inv 0 s) (hp : s.daemons.Live p) {path : Path}
    {status : IndexStatusReport} (hstatus : s.aliveStatus path = some status)
    (hnames : status.pid = some p ∨
      ∃ h ∈ s.processes, h.proc = some p ∧ s.daemons.killed p = false)
    (hkeep : RefreshKeeps s p) :
    Inv 1 (s.attachToExistingIndexd path status) ∧
      RefreshKeeps (s.attachToExistingIndexd path status) p := by
  obtain ⟨h, hh, hdaemon, hcount⟩ := hs.entry hp
  have hunique : ∀ q, s.daemons.Live q → q = p := fun q => hs.live_unique hp
  have hpid : (h.proc = some p → s.daemons.killed p = true) → status.pid = some p := by
    intro hkilled
    refine hnames.resolve_right ?_
    rintro ⟨h', hh', hproc, hnot⟩
    rw [hh] at hh'
    cases hh'
    rw [hkilled hproc] at hnot
    cases hnot
  unfold State.attachToExistingIndexd
  simp only [hh]
  by_cases hrun : s.isHandleRunning (some h) = true
  · rw [if_pos hrun]
    refine ⟨⟨fun q hq => ?_, hs.fresh, fun h' hh' q hq hlive hkilled => ?_⟩, fun h' hh' hproc => ?_⟩
    · obtain rfl := hunique q hq
      refine State.record_eq_some.2 ⟨_, rfl, ?_, by rw [hcount]⟩
      cases hproc : h.proc with
      | none => rw [hpid (by simp [hproc])]; rfl
      | some r => rw [← hdaemon, h.daemon_of_proc hproc]; rfl
    · -- a handle whose process object has been killed is not running
      cases hh'
      rw [State.isHandleRunning, Option.mem_def.1 hq] at hrun
      have : s.daemons.killed q = true := hkilled
      simp [this] at hrun
    · cases hh'
      exact hkeep h hh hproc
  · rw [if_neg hrun]
    -- the entry has been killed, so there are no holds
    have hkilled : h.proc = some p → s.daemons.killed p = true := by
      intro hproc
      simpa [State.isHandleRunning, hproc] using hrun
    have hzero : s.daemons.holdsOn p = 0 := by
      cases hproc : h.proc with
      | none =>
        rw [h.daemon_of_pid hproc] at hdaemon
        simp [State.isHandleRunning, hproc, hdaemon, hp.alive] at hrun
      | some q =>
        rw [h.daemon_of_proc hproc] at hdaemon
        cases hdaemon
        rw [← hcount]
        exact hs.killed h hh p hproc hp (hkilled hproc)
    refine ⟨⟨fun q hq => ?_, hs.fresh, fun h' hh' q hq => ?_⟩, fun h' hh' hproc status' hst => ?_⟩
    · obtain rfl := hunique q hq
      exact State.record_eq_some.2 ⟨_, rfl, hpid hkilled, (congrArg (· + 1) hzero).symm⟩
    · cases hh'
      cases hq
    · cases hh'
      obtain ⟨hread, halive⟩ := Option.filter_eq_some_iff.1 hstatus
      rw [Option.mem_def, hread] at hst
      cases hst
      rw [State.isStatusProcessAlive, Bool.and_eq_true] at halive
      refine ⟨halive.1, fun q hq => ?_⟩
      rw [Option.mem_def, hpid hkilled] at hq
      exact (Option.some.inj hq).symm

theorem Inv.refresh (hs : Inv n s) (hkeep : ∀ p, s.daemons.Live p → RefreshKeeps s p) :
    Inv n s.refreshIndexStatus := by
  refine ⟨fun p hp => ?_, ?_, fun h' hh' p hproc hp hkilled => ?_⟩
  · rw [daemons_refresh] at hp ⊢
    exact record_refresh (hkeep p hp) hp.alive (hs.record p hp)
  · rw [daemons_refresh]
    exact hs.fresh
  · rw [daemons_refresh] at hp hkilled
    obtain ⟨h, hh, heq, hcount⟩ := refresh_entry hh'
    rw [hcount]
    exact hs.killed h hh p (heq ▸ hproc) hp hkilled

/-- A daemon that is spawned when there is no live one. -/
theorem Inv.spawn (hs : Inv 0 s) (hnone : ∀ p, ¬ s.daemons.Live p) (path : Path) :
    Inv 1 (s.spawn path) := by
  have hlive : ∀ p, (s.daemons.start true).Live p → p = s.daemons.procs.length := fun p hp =>
    (Processes.live_start.1 hp).elim (fun h => absurd h (hnone p)) fun h => h.2
  refine ⟨fun p hp => ?_, hs.fresh.start true, fun h hh p hproc hp hkilled => ?_⟩
  · obtain rfl := hlive p hp
    refine State.record_eq_some.2 ⟨_, rfl, rfl, ?_⟩
    have hzero : (s.daemons.start true).holdsOn s.daemons.procs.length = 0 :=
      hs.fresh.holdsOn_length
    rw [State.spawn, hzero]
  · obtain rfl := hlive p hp
    have hfresh : (s.daemons.start true).killed s.daemons.procs.length = false := by
      simp [Processes.killed, Processes.start]
    have : (s.daemons.start true).killed s.daemons.procs.length = true := hkilled
    rw [hfresh] at this
    cases this

/-- Without a live daemon, every entry will do. -/
theorem Inv.of_none (hfresh : s.daemons.Fresh) (hnone : ∀ p, ¬ s.daemons.Live p) : Inv n s :=
  ⟨fun p hp => absurd hp (hnone p), hfresh, fun _ _ p _ hp => absurd hp (hnone p)⟩

theorem inv_init (status : Path → Option IndexStatusReport) :
    Inv 0 (State.init (C := C) status) :=
  Inv.of_none (fun _ he => absurd he (by simp [State.init])) fun _ hp =>
    absurd hp.lt (by simp [State.init])

/-- The entry stays, and the processes have changed otherwise. -/
theorem Inv.of_entry (hs : Inv n s) {t : State C Path} (hentry : t.processes = s.processes)
    (hlive : ∀ q, t.daemons.Live q → s.daemons.Live q)
    (hkilled : ∀ q, t.daemons.killed q = true → s.daemons.killed q = true)
    (hholds : t.daemons.holds = s.daemons.holds)
    (hlength : s.daemons.procs.length ≤ t.daemons.procs.length) : Inv n t := by
  refine ⟨fun q hq => ?_, fun e he => ?_, fun h hh q hproc hq hk => ?_⟩
  · rw [State.record, hentry, Processes.holdsOn, hholds]
    exact hs.record q (hlive q hq)
  · exact (hs.fresh e (hholds ▸ he)).trans_le hlength
  · exact hs.killed h (hentry ▸ hh) q hproc (hlive q hq) (hkilled q hk)

@[simp] theorem daemons_attach (path : Path) (status : IndexStatusReport) :
    (s.attachToExistingIndexd path status).daemons = s.daemons := rfl

theorem Inv.startLiveIndexing (hs : Inv 0 s) {defaultStatusPath path : Path}
    (hkeep : ∀ p, s.daemons.Live p → AttachKeeps s path p ∧ RefreshKeeps s p) :
    Inv 1 (s.startLiveIndexing defaultStatusPath path) := by
  unfold State.startLiveIndexing
  by_cases hlive : ∃ p, s.daemons.Live p
  · -- the status file names the live daemon, so the start attaches to it
    obtain ⟨p, hp⟩ := hlive
    obtain ⟨⟨status, halive, hnames⟩, hrefresh⟩ := hkeep p hp
    obtain ⟨hstarted, hrefresh'⟩ := hs.attach hp halive hnames hrefresh
    rw [halive]
    split_ifs
    · refine hstarted.refresh fun q hq => ?_
      obtain rfl := hs.live_unique hp hq
      exact hrefresh'
    · exact hstarted
  · push Not at hlive
    split_ifs
    · cases s.aliveStatus path with
      | none => exact Inv.of_none (by rw [daemons_refresh]; exact hs.fresh) (by rw [daemons_refresh]; exact hlive)
      | some status => exact Inv.of_none (by rw [daemons_refresh]; exact hs.fresh) (by rw [daemons_refresh]; exact hlive)
    · cases s.aliveStatus path with
      | none => exact hs.spawn hlive path
      | some status => exact Inv.of_none hs.fresh hlive

/-- The client that has started the daemon is one of those that hold it. -/
theorem Inv.hold (hs : Inv 1 s) (c : C) : Inv 0 (s.hold c) := by
  unfold State.hold
  cases hrecord : s.record with
  | none =>
    refine ⟨fun p hp => ?_, hs.fresh, hs.killed⟩
    have := hs.record p hp
    rw [hrecord] at this
    cases this
  | some r =>
    obtain ⟨p, n⟩ := r
    refine ⟨fun q hq => ?_, hs.fresh.hold c p, fun h hh q hq hlive hkilled => ?_⟩
    · have hlive : s.daemons.Live q := Processes.live_hold.1 hq
      have hq' := hs.record q hlive
      obtain ⟨rfl, rfl⟩ := Prod.mk.inj (Option.some.inj (hrecord.symm.trans hq'))
      have hcount : (s.daemons.hold c p).holdsOn p = s.daemons.holdsOn p + 1 := by
        rw [Processes.holdsOn_hold hlive.alive, if_pos rfl]
      exact hrecord.trans (congrArg (fun n => some (p, n)) hcount.symm)
    · have hkilled' : s.daemons.killed q = true := by
        simp only [Option.elim_some, Processes.hold] at hkilled
        split_ifs at hkilled <;> exact hkilled
      exact hs.killed h hh q hq (Processes.live_hold.1 hlive) hkilled'

/-! ## A stop -/

theorem killByPid_cases (pid : Option ℕ) (verdict : OwnerVerification) :
    s.killByPid pid verdict = s.daemons ∨ ∃ p, s.killByPid pid verdict = s.daemons.signal p := by
  unfold State.killByPid
  cases pid with
  | none => exact .inl rfl
  | some p =>
    dsimp only
    split_ifs
    · exact .inl rfl
    · exact .inr ⟨p, rfl⟩

/-- A stop leaves the processes as they are, but for signals. -/
theorem stop_cases (verdict : OwnerVerification) :
    (s.stopLiveIndexing verdict).daemons = s.daemons ∨
      (∃ p, (s.stopLiveIndexing verdict).daemons = s.daemons.kill p) ∨
      ∃ p, (s.stopLiveIndexing verdict).daemons = s.daemons.signal p := by
  unfold State.stopLiveIndexing
  cases s.processes with
  | none => exact .inl rfl
  | some h =>
    dsimp only
    by_cases hcount : 0 < h.refCount - 1
    · rw [if_pos hcount]
      exact .inl rfl
    · rw [if_neg hcount]
      cases h.proc with
      | some p => exact .inr (.inl ⟨p, rfl⟩)
      | none =>
        dsimp only
        split_ifs
        · exact (killByPid_cases _ verdict).imp id .inr
        · exact .inl rfl

theorem holds_stop (verdict : OwnerVerification) :
    (s.stopLiveIndexing verdict).daemons.holds = s.daemons.holds := by
  rcases stop_cases (s := s) verdict with h | ⟨p, h⟩ | ⟨p, h⟩ <;> simp [h]

theorem length_stop (verdict : OwnerVerification) :
    (s.stopLiveIndexing verdict).daemons.procs.length = s.daemons.procs.length := by
  rcases stop_cases (s := s) verdict with h | ⟨p, h⟩ | ⟨p, h⟩ <;> simp [h]

theorem live_stop (verdict : OwnerVerification) {q : ℕ} :
    (s.stopLiveIndexing verdict).daemons.Live q ↔ s.daemons.Live q := by
  rcases stop_cases (s := s) verdict with h | ⟨p, h⟩ | ⟨p, h⟩ <;> simp [h]

/-- What a stop does to a live daemon: it takes one from the count, and terminates the daemon
    when nothing is left. -/
theorem stop_spec {h : LiveIndexingHandle Path} (hh : s.processes = some h)
    (hdaemon : h.daemon = some p) (hp : s.daemons.Live p) {verdict : OwnerVerification}
    (hverdict : h.proc = none → h.refCount ≤ 1 → verdict ≠ .mismatch) :
    (s.stopLiveIndexing verdict).processes = some { h with refCount := h.refCount - 1 } ∧
      (1 < h.refCount → (s.stopLiveIndexing verdict).daemons = s.daemons) ∧
      (h.refCount ≤ 1 → s.daemons.Signalled (s.stopLiveIndexing verdict).daemons p) := by
  unfold State.stopLiveIndexing
  simp only [hh]
  by_cases hcount : 0 < h.refCount - 1
  · rw [if_pos hcount]
    exact ⟨rfl, fun _ => rfl, fun hone => absurd hcount (by omega)⟩
  · have hone : h.refCount ≤ 1 := by omega
    rw [if_neg hcount]
    cases hproc : h.proc with
    | some q =>
      rw [h.daemon_of_proc hproc] at hdaemon
      cases hdaemon
      refine ⟨rfl, fun hlt => absurd hone (not_le.2 hlt), fun _ => ?_⟩
      exact Processes.signalled_kill hp.alive
    | none =>
      have hpid : (h.pid <|> none) = some p := by
        rw [← h.daemon_of_pid hproc, hdaemon]
        rfl
      have hsignal : s.killByPid (some p) verdict = s.daemons.signal p :=
        if_neg (hverdict hproc hone)
      simp only [hpid, Option.any_some, hp.alive, if_true]
      refine ⟨trivial, fun hlt => absurd hone (not_le.2 hlt), fun _ => ?_⟩
      exact (congrArg Processes.signals hsignal).trans (Processes.signalled_signal hp.alive)

variable [DecidableEq C]

/-- A release before the entry of a live daemon. -/
theorem Inv.release (hs : Inv 0 s) (hp : s.daemons.Live p) (c : C) :
    s.release c = { s with daemons := s.daemons.release c p } := by
  rw [State.release, hs.record p hp, Option.elim_some]

theorem release_daemons (c : C) :
    s.release c = s ∨ ∃ p, s.release c = { s with daemons := s.daemons.release c p } := by
  unfold State.release
  cases s.record with
  | none => exact .inl rfl
  | some r => exact .inr ⟨r.1, rfl⟩

/-- What a stop by a client that holds the live daemon does. -/
theorem Inv.stop_spec (hs : Inv 0 s) (hp : s.daemons.Live p) {c : C} {verdict : OwnerVerification}
    (hverdict : ∀ h ∈ s.processes, h.proc = none → h.refCount ≤ 1 → verdict ≠ .mismatch) :
    ∃ h, s.processes = some h ∧ h.daemon = some p ∧ h.refCount = s.daemons.holdsOn p ∧
      ((s.release c).stopLiveIndexing verdict).processes =
        some { h with refCount := h.refCount - 1 } ∧
      (1 < h.refCount →
        ((s.release c).stopLiveIndexing verdict).daemons = s.daemons.release c p) ∧
      (h.refCount ≤ 1 →
        s.daemons.Signalled ((s.release c).stopLiveIndexing verdict).daemons p) := by
  obtain ⟨h, hh, hdaemon, hcount⟩ := hs.entry hp
  refine ⟨h, hh, hdaemon, hcount, ?_⟩
  rw [hs.release hp]
  exact Indexd.stop_spec (s := { s with daemons := s.daemons.release c p }) hh hdaemon hp
    (hverdict h hh)

/-- A stop of a live daemon by a client that holds it keeps the count. -/
theorem Inv.stop (hs : Inv 0 s) {c : C} {verdict : OwnerVerification}
    (hkeep : ∀ p, s.daemons.Live p → (c, p) ∈ s.daemons.holds ∧
      ∀ h ∈ s.processes, h.proc = none → h.refCount ≤ 1 → verdict ≠ .mismatch) :
    Inv 0 ((s.release c).stopLiveIndexing verdict) := by
  have hrelease : (s.release c).daemons.procs = s.daemons.procs ∧
      (s.release c).daemons.holds ⊆ s.daemons.holds := by
    rcases release_daemons (s := s) c with h | ⟨p, h⟩
    · rw [h]
      exact ⟨rfl, List.Subset.refl _⟩
    · rw [h]
      exact ⟨rfl, List.erase_subset⟩
  have hlive : ∀ q, ((s.release c).stopLiveIndexing verdict).daemons.Live q ↔ s.daemons.Live q := by
    intro q
    rw [live_stop, Processes.Live, hrelease.1, Processes.Live]
  refine ⟨fun p hp => ?_, fun e he => ?_, fun h' hh' p hproc hp hkilled => ?_⟩
  · have hp := (hlive p).1 hp
    obtain ⟨h, -, hdaemon, hcount, hentry, -, -⟩ := hs.stop_spec hp (hkeep p hp).2 (c := c)
    refine State.record_eq_some.2 ⟨_, hentry, hdaemon, ?_⟩
    have hholds := Processes.holdsOn_release (hkeep p hp).1 p
    rw [if_pos rfl] at hholds
    have heq : ((s.release c).stopLiveIndexing verdict).daemons.holdsOn p =
        (s.daemons.release c p).holdsOn p := by
      rw [Processes.holdsOn, holds_stop, hs.release hp]
      rfl
    rw [heq]
    dsimp only
    omega
  · rw [holds_stop] at he
    rw [length_stop, hrelease.1]
    exact hs.fresh e (hrelease.2 he)
  · have hp := (hlive p).1 hp
    obtain ⟨h, hh, -, hcount, hentry, hkeepProcs, -⟩ := hs.stop_spec hp (hkeep p hp).2 (c := c)
    rw [hentry] at hh'
    cases hh'
    dsimp only at hproc ⊢
    by_contra hne
    -- holds are left, so this stop has killed nothing, and neither has one before
    rw [hkeepProcs (by omega)] at hkilled
    have hzero := hs.killed h hh p hproc hp hkilled
    omega

/-- A stop of a live daemon terminates it exactly when it releases the last hold. -/
theorem Inv.stopsLast (hs : Inv 0 s) {c : C} {verdict : OwnerVerification}
    (hkeep : ∀ p, s.daemons.Live p → (c, p) ∈ s.daemons.holds ∧
      ∀ h ∈ s.processes, h.proc = none → h.refCount ≤ 1 → verdict ≠ .mismatch)
    (hp : s.daemons.Live p) :
    s.daemons.Signalled ((s.release c).stopLiveIndexing verdict).daemons p ↔
      (c, p) ∈ s.daemons.holds ∧ s.daemons.holdsOn p = 1 := by
  obtain ⟨hmem, hverdict⟩ := hkeep p hp
  obtain ⟨h, -, -, hcount, -, hrest, hlast⟩ := hs.stop_spec hp hverdict (c := c)
  have hpos := Processes.holdsOn_pos hmem
  constructor
  · intro hsignal
    refine ⟨hmem, le_antisymm (not_lt.1 fun hlt => ?_) hpos⟩
    rw [hrest (hcount ▸ hlt)] at hsignal
    exact Processes.not_signalled_self hsignal
  · rintro ⟨-, hone⟩
    exact hlast (hcount ▸ hone.le)

/-! ## Runs -/

variable [DecidableEq Path] {defaultStatusPath : Path}

/-- **Step lemma**: a step that takes none of the branches that lose the count keeps map, count
    and process in step. -/
theorem Inv.step (hs : Inv 0 s) {e : Event C Path} (hkeep : KeepsCount s e) {t : State C Path}
    (h : step defaultStatusPath s e = some t) : Inv 0 t := by
  cases e with
  | start c path =>
    cases h
    exact (hs.startLiveIndexing hkeep).hold c
  | stop c verdict =>
    cases h
    exact hs.stop hkeep
  | resume i verdict =>
    simp only [Indexd.step, State.resume] at h
    cases hstop : s.stops[i]? with
    | none => simp [hstop] at h
    | some stop =>
      simp only [hstop] at h
      split_ifs at h with hwait
      · cases h
        rcases killByPid_cases (s := s) stop.pid verdict with heq | ⟨p, heq⟩
        · rw [heq]
          exact ⟨hs.record, hs.fresh, hs.killed⟩
        · rw [heq]
          exact hs.of_entry rfl (fun q => Processes.live_signal.1)
            (fun q => by rw [Processes.killed_signal]; exact id) Processes.holds_signal
            Processes.length_signal.ge
      · cases h
        exact Inv.of_none hs.fresh fun p hp => hwait (hkeep p hp stop hstop)
  | refresh =>
    cases h
    exact hs.refresh hkeep
  | writeStatus path status =>
    cases h
    exact ⟨hs.record, hs.fresh, hs.killed⟩
  | appear =>
    cases h
    refine hs.of_entry rfl (fun q hq => ?_) (fun q => ?_) rfl (by simp [Processes.start])
    · exact (Processes.live_start.1 hq).resolve_right fun h => absurd h.1 (by decide)
    · exact Processes.killed_of_start
  | finish p =>
    cases h
    exact hs.of_entry rfl (fun q hq => (Processes.live_finish.1 hq).1)
      (fun q => by rw [Processes.killed_finish]; exact id) rfl (by simp [Processes.finish])
  | close p =>
    simp only [Indexd.step, State.onClose] at h
    split_ifs at h
    cases h
    refine Inv.of_none (fun e he => ?_) fun q hq => hkeep q (Processes.live_close.1 hq)
    simpa [Processes.close] using hs.fresh e he

/-- **Run lemma**: a run of such steps keeps map, count and process in step. -/
theorem inStep_of_keepsCount (status : Path → Option IndexStatusReport)
    {events : List (Event C Path)}
    (hkeep : Always (Indexd.step defaultStatusPath) KeepsCount (.init status) events) :
    InStep defaultStatusPath status events := by
  refine ⟨fun t ht => ?_, ?_⟩
  · exact (exec_invariant (fun _ _ _ hs hk h => hs.step hk h) ht hkeep (inv_init status)).record
  · refine Always.of_invariant (fun _ _ _ hs hk h => hs.step hk h) (fun s e hs hk => ?_) hkeep
      (inv_init status)
    cases e with
    | stop c verdict => exact fun p hp => hs.stopsLast hk hp
    | _ => trivial

end

end Cognis.Extension.Indexd
