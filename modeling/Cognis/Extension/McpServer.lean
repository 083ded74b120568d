/-
  The HTTP MCP server of a repository (`mcpServer.ts`), shared by the clients of one host: the
  handle map, the ports that a start tries, the count of holds, and the events that change them.

  The processes and the holds are those of `Holds`; the tool surface of the panel is a client
  without a name. What follows in the same turn of the event loop is one step.

  * `KeepsCount` says of a step that it takes none of the branches that lose the count;
  * `Inv.step`: such a step keeps map, count and process in step;
  * `sharedHolds_counted`: so does every run of such steps, of this server and of the live-indexing
    daemon, and in it a stop terminates the daemon exactly when it releases the last hold.
-/
import Cognis.Extension.Indexd

namespace Cognis.Extension

open Transition

namespace McpServer

open Holds (Processes)

/-! ## The module -/

/-- `McpServerPhase` -/
inductive McpServerPhase where
  | stopped | starting | running | error
  deriving DecidableEq, Repr

/-- `ServerHandle` -/
structure ServerHandle where
  proc : ℕ
  phase : McpServerPhase
  refCount : ℕ
  toolHold : Bool := false

/-- A `startMcpServer` call that waits for `launchOnPort`. -/
structure Launch (C : Type) where
  client : Option C
  attempt : ℕ
  proc : ℕ

/-- `MAX_BIND_ATTEMPTS` -/
def maxBindAttempts : ℕ := 4

/-- The state of the module, for one repository. -/
structure State (C : Type) where
  daemons : Processes (Option C) := {}
  /-- the entry of `servers` -/
  servers : Option ServerHandle := none
  launches : List (Launch C) := []

namespace State

variable {C : Type} (s : State C)

/-- `launchOnPort`, up to where it waits. The client holds the process that it has spawned. -/
def launchOnPort (client : Option C) (attempt : ℕ) : State C :=
  let proc := s.daemons.procs.length
  { s with
    daemons := (s.daemons.start true).hold client proc
    servers := some { proc, phase := .starting, refCount := 1 }
    launches := ⟨client, attempt, proc⟩ :: s.launches }

/-- `startMcpServer`, up to where it waits. A client that joins holds the process recorded. -/
def startMcpServer (client : Option C) : State C :=
  match s.servers with
  | some existing =>
    if existing.phase = .running ∨ existing.phase = .starting then
      { s with
        daemons := s.daemons.hold client existing.proc
        servers := some { existing with refCount := existing.refCount + 1 } }
    else s.launchOnPort client 0
  | none => s.launchOnPort client 0

/-- The port attempt of a call has failed: the next port, or the end of the call. -/
def retry [DecidableEq C] (launch : Launch C) : State C :=
  let s := { s with
    daemons := s.daemons.release launch.client launch.proc
    launches := s.launches.filter (·.proc ≠ launch.proc) }
  if launch.attempt + 1 < maxBindAttempts then s.launchOnPort launch.client (launch.attempt + 1)
  else { s with servers := none }

/-- `boundToolHold`: the hold of a call is given back, or becomes that of the tool surface. -/
def boundToolHold [DecidableEq C] : State C :=
  match s.servers with
  | none => s
  | some h =>
    if h.toolHold then
      { s with
        daemons := s.daemons.release none h.proc
        servers := some { h with refCount := max 1 (h.refCount - 1) } }
    else { s with servers := some { h with toolHold := true } }

/-- `callMcpTool`, up to where it waits: a call that has joined goes on at once. -/
def callMcpTool [DecidableEq C] : State C :=
  let t := s.startMcpServer none
  if t.launches.length = s.launches.length then t.boundToolHold else t

/-- The port of a process accepts connections. -/
def onBound [DecidableEq C] (p : ℕ) : Option (State C) :=
  match s.launches.find? (·.proc = p), s.servers with
  | none, _ => none
  | some _, none => some s
  | some launch, some h =>
    if h.proc ≠ p then some s
    else
      let s := { s with
        servers := some { h with phase := .running }
        launches := s.launches.filter (·.proc ≠ p) }
      some (if launch.client = none then s.boundToolHold else s)

/-- The time for a port to bind is up. -/
def onTimeout [DecidableEq C] (p : ℕ) : Option (State C) :=
  match s.launches.find? (·.proc = p), s.servers with
  | none, _ => none
  | some _, none => some s
  | some launch, some h =>
    if h.proc ≠ p then some s
    else some (State.retry { s with daemons := s.daemons.kill p } launch)

/-- The `exit` handler of a process. -/
def onExit [DecidableEq C] (p : ℕ) : Option (State C) :=
  if s.daemons.ended p then
    let s := { s with daemons := s.daemons.close p }
    match s.servers with
    | none => some s
    | some h =>
      if h.proc ≠ p then some s
      else
        let s := { s with servers := none }
        match s.launches.find? (·.proc = p) with
        | none => some s
        | some launch => some (s.retry launch)
  else none

/-- `stopMcpServer`, not forced, by a client, with the verdict of the lease. -/
def stopMcpServer [DecidableEq C] (client : C) (verdict : OwnerVerification) : State C :=
  match s.servers with
  | none => s
  | some h =>
    let refCount := h.refCount - 1
    let s := { s with
      daemons := s.daemons.release (some client) h.proc
      servers := some { h with refCount } }
    if 0 < refCount then s
    else if verdict = .mismatch then { s with servers := none }
    else { s with daemons := s.daemons.kill h.proc }

/-- The process that the map records, and the count. -/
def record : Option (ℕ × ℕ) := s.servers.map fun h => (h.proc, h.refCount)

end State

/-! ## Runs -/

/-- A client starts or stops the server, or the panel calls a tool; a port accepts connections,
    or the time for it is up; a process ends; the event of its end comes. -/
inductive Event (C : Type) where
  | start (client : C)
  | callTool
  | stop (client : C) (verdict : OwnerVerification)
  | bound (proc : ℕ)
  | timeout (proc : ℕ)
  | finish (proc : ℕ)
  | exit (proc : ℕ)

section
variable {C : Type} [DecidableEq C]

/-- One step. -/
def step (s : State C) : Event C → Option (State C)
  | .start c => some (s.startMcpServer (some c))
  | .callTool => some s.callMcpTool
  | .stop c verdict => some (s.stopMcpServer c verdict)
  | .bound p => s.onBound p
  | .timeout p => s.onTimeout p
  | .finish p => some { s with daemons := s.daemons.finish p }
  | .exit p => s.onExit p

/-- A stop by a client terminates a live server exactly when it releases the last hold. -/
def StopsLast (s : State C) : Event C → Prop
  | .stop c verdict => ∀ p, s.daemons.Live p →
      (s.daemons.Signalled (s.stopMcpServer c verdict).daemons p ↔
        (some c, p) ∈ s.daemons.holds ∧ s.daemons.holdsOn p = 1)
  | _ => True

/-- The step takes none of the branches that lose the count of a live server: a stop is by a
    client that holds it, and the lease does not refuse to terminate it; and the time of a port is
    not up while its process is alive. -/
def KeepsCount (s : State C) : Event C → Prop
  | .stop c verdict => ∀ p, s.daemons.Live p → (some c, p) ∈ s.daemons.holds ∧
      ∀ h ∈ s.servers, h.refCount ≤ 1 → verdict ≠ .mismatch
  | .timeout p => ¬ s.daemons.Live p
  | _ => True

instance KeepsCount.decidable (s : State C) (e : Event C) : Decidable (KeepsCount s e) := by
  cases e <;> dsimp only [KeepsCount] <;> infer_instance

/-- After the run, map, count and process are in step; and each stop in it terminates the server
    exactly when it releases the last hold. -/
def InStep (events : List (Event C)) : Prop :=
  (∀ t, exec step ({} : State C) events = some t → t.daemons.Counted t.record) ∧
    Always step StopsLast ({} : State C) events

end

/-! ## The invariant -/

/-- The tool calls that wait for a process. -/
def State.toolCalls {C : Type} (s : State C) (p : ℕ) : ℕ :=
  s.launches.countP fun l => l.client.isNone ∧ l.proc = p

/-- Map, count and process are in step. The tool surface has a hold for each of its calls that
    waits, and one more when the entry says so. -/
structure Inv {C : Type} [DecidableEq C] (s : State C) : Prop where
  counted : s.daemons.Counted s.record
  fresh : s.daemons.Fresh
  launched : ∀ l ∈ s.launches, l.proc < s.daemons.procs.length
  phase : ∀ h ∈ s.servers, h.phase = .running ∨ h.phase = .starting
  tool : ∀ h ∈ s.servers, s.daemons.Live h.proc →
    s.toolCalls h.proc + (if h.toolHold then 1 else 0) ≤ s.daemons.holdsBy none h.proc

section
variable {C : Type} [DecidableEq C] {s : State C} {p : ℕ}

/-- The entry of a live server. -/
theorem Inv.entry (hs : Inv s) (hp : s.daemons.Live p) :
    ∃ h, s.servers = some h ∧ h.proc = p ∧ h.refCount = s.daemons.holdsOn p := by
  have := hs.counted p hp
  simpa [State.record] using this

/-- Without a live server, every entry will do. -/
theorem Inv.of_none (hfresh : s.daemons.Fresh)
    (hlaunched : ∀ l ∈ s.launches, l.proc < s.daemons.procs.length)
    (hphase : ∀ h ∈ s.servers, h.phase = .running ∨ h.phase = .starting)
    (hnone : ∀ p, ¬ s.daemons.Live p) : Inv s :=
  ⟨fun p hp => absurd hp (hnone p), hfresh, hlaunched, hphase, fun _ _ hp => absurd hp (hnone _)⟩

/-- A server that is spawned when there is no live one. -/
theorem Inv.launchOnPort (hfresh : s.daemons.Fresh)
    (hlaunched : ∀ l ∈ s.launches, l.proc < s.daemons.procs.length)
    (hnone : ∀ p, ¬ s.daemons.Live p) (client : Option C) (attempt : ℕ) :
    Inv (s.launchOnPort client attempt) := by
  have halive : (s.daemons.start true).alive s.daemons.procs.length = true := by
    simp [Processes.alive, Processes.start]
  have hlength : (s.launchOnPort client attempt).daemons.procs.length =
      s.daemons.procs.length + 1 := by
    simp [State.launchOnPort, Processes.start]
  have hzero : (s.daemons.start true).holdsOn s.daemons.procs.length = 0 := hfresh.holdsOn_length
  refine ⟨fun p hp => ?_, (hfresh.start true).hold _ _, fun l hl => ?_, fun h hh => ?_,
    fun h hh _ => ?_⟩
  · obtain rfl : p = s.daemons.procs.length :=
      (Processes.live_start.1 (Processes.live_hold.1 hp)).elim (fun h => absurd h (hnone p))
        fun h => h.2
    have hone : (s.launchOnPort client attempt).daemons.holdsOn s.daemons.procs.length = 1 := by
      rw [State.launchOnPort, Processes.holdsOn_hold halive, hzero, if_pos rfl]
    rw [hone]
    rfl
  · rw [hlength]
    rcases List.mem_cons.1 hl with rfl | hl
    · exact Nat.lt_succ_self _
    · exact (hlaunched l hl).trans (Nat.lt_succ_self _)
  · cases hh
    exact .inr rfl
  · cases hh
    have hcalls : s.launches.countP (fun l => l.client.isNone ∧ l.proc = s.daemons.procs.length) =
        0 := by
      rw [List.countP_eq_zero]
      intro l hl
      simp [(hlaunched l hl).ne]
    simp only [State.toolCalls, State.launchOnPort, List.countP_cons, hcalls,
      Processes.holdsBy_hold halive]
    cases client <;> simp

theorem Inv.retry (hfresh : s.daemons.Fresh)
    (hlaunched : ∀ l ∈ s.launches, l.proc < s.daemons.procs.length)
    (hnone : ∀ p, ¬ s.daemons.Live p) (launch : Launch C) : Inv (s.retry launch) := by
  have hfresh' := hfresh.release launch.client launch.proc
  have hlaunched' : ∀ l ∈ s.launches.filter (·.proc ≠ launch.proc), l.proc < s.daemons.procs.length :=
    fun l hl => hlaunched l (List.mem_of_mem_filter hl)
  simp only [State.retry]
  split_ifs
  · exact Inv.launchOnPort (s := ⟨_, s.servers, _⟩) hfresh' hlaunched' hnone _ _
  · exact Inv.of_none hfresh' hlaunched' (by simp) hnone

/-! ## A start -/

/-- The tool surface has a hold for each of its calls that waits, one more when the entry says
    so, and `n` others. -/
def ToolHolds (s : State C) (n : ℕ) : Prop :=
  ∀ h ∈ s.servers, s.daemons.Live h.proc →
    s.toolCalls h.proc + (if h.toolHold then 1 else 0) + n ≤ s.daemons.holdsBy none h.proc

/-- A client joins the server that the map records. -/
theorem Inv.join (hs : Inv s) {h : ServerHandle} (hh : s.servers = some h) (client : Option C) :
    let t := { s with
      daemons := s.daemons.hold client h.proc
      servers := some { h with refCount := h.refCount + 1 } }
    Inv t ∧ ToolHolds t (if client = none then 1 else 0) := by
  have hentry : ∀ p, s.daemons.Live p → h.proc = p ∧ h.refCount = s.daemons.holdsOn p := by
    intro p hp
    obtain ⟨h', hh', hproc, hcount⟩ := hs.entry hp
    rw [hh] at hh'
    cases hh'
    exact ⟨hproc, hcount⟩
  have htool : ∀ p, s.daemons.Live p → h.proc = p → s.toolCalls h.proc +
      (if h.toolHold then 1 else 0) + (if client = none then 1 else 0) ≤
        (s.daemons.hold client p).holdsBy none p := by
    rintro p hp rfl
    have := hs.tool h hh hp
    rw [Processes.holdsBy_hold hp.alive]
    simpa using this
  refine ⟨⟨fun p hp => ?_, hs.fresh.hold client h.proc, ?_, ?_, ?_⟩, ?_⟩
  · have hlive := Processes.live_hold.1 hp
    obtain ⟨rfl, hcount⟩ := hentry p hlive
    simp only [State.record, Option.map_some, Processes.holdsOn_hold hlive.alive, if_true, hcount]
  · simpa only [Processes.length_hold] using hs.launched
  · intro h' hh'
    cases hh'
    exact hs.phase h hh
  · intro h' hh' hp
    cases hh'
    have hp := Processes.live_hold.1 hp
    exact (Nat.le_add_right _ _).trans (htool h.proc hp rfl)
  · intro h' hh' hp
    cases hh'
    exact htool h.proc (Processes.live_hold.1 hp) rfl

theorem Inv.startMcpServer (hs : Inv s) (client : Option C) : Inv (s.startMcpServer client) := by
  unfold State.startMcpServer
  cases hh : s.servers with
  | none =>
    refine Inv.launchOnPort hs.fresh hs.launched (fun p hp => ?_) _ _
    obtain ⟨h, hh', -⟩ := hs.entry hp
    rw [hh] at hh'
    cases hh'
  | some h =>
    dsimp only
    rw [if_pos (hs.phase h hh)]
    exact (hs.join hh client).1

/-- The tool surface keeps one hold of the two that it has after a call. -/
theorem Inv.boundToolHold (hs : Inv s) (htool : ToolHolds s 1) : Inv s.boundToolHold := by
  unfold State.boundToolHold
  cases hh : s.servers with
  | none => exact hs
  | some h =>
    have hcalls := htool h hh
    dsimp only
    split_ifs with hhold
    · rw [if_pos hhold] at hcalls
      refine ⟨fun p hp => ?_, hs.fresh.release none h.proc, hs.launched, ?_, ?_⟩
      · obtain ⟨h', hh', rfl, hcount⟩ := hs.entry hp
        rw [hh] at hh'
        cases hh'
        have htwo := hcalls hp
        have hmem := Processes.mem_holds_of_holdsBy (show 0 < s.daemons.holdsBy none h.proc by omega)
        have hle : s.daemons.holdsBy none h.proc ≤ s.daemons.holdsOn h.proc :=
          Processes.holdsBy_le_holdsOn
        have hrelease := Processes.holdsOn_release hmem h.proc
        rw [if_pos rfl] at hrelease
        have hnew : max 1 (h.refCount - 1) = (s.daemons.release none h.proc).holdsOn h.proc := by
          omega
        simp only [State.record, Option.map_some, hnew]
      · intro h' hh'
        cases hh'
        exact hs.phase h hh
      · intro h' hh' hp
        cases hh'
        have htwo := hcalls hp
        have hrelease : (s.daemons.release none h.proc).holdsBy none h.proc =
            s.daemons.holdsBy none h.proc - 1 := Processes.holdsBy_release
        dsimp only
        rw [if_pos hhold, hrelease]
        simp only [State.toolCalls] at htwo ⊢
        omega
    · rw [if_neg hhold] at hcalls
      refine ⟨fun p hp => ?_, hs.fresh, hs.launched, ?_, ?_⟩
      · obtain ⟨h', hh', rfl, hcount⟩ := hs.entry hp
        rw [hh] at hh'
        cases hh'
        simp only [State.record, Option.map_some, hcount]
      · intro h' hh'
        cases hh'
        exact hs.phase h hh
      · intro h' hh' hp
        cases hh'
        simpa [State.toolCalls] using hcalls hp

theorem Inv.callMcpTool (hs : Inv s) : Inv s.callMcpTool := by
  unfold State.callMcpTool
  dsimp only
  split_ifs with hjoined
  · unfold State.startMcpServer at hjoined ⊢
    cases hh : s.servers with
    | none =>
      simp only [hh, State.launchOnPort, List.length_cons] at hjoined
      omega
    | some h =>
      simp only [if_pos (hs.phase h hh)]
      exact (hs.join hh none).1.boundToolHold (hs.join hh none).2
  · exact hs.startMcpServer none

/-! ## The end of a port attempt -/

/-- The processes have changed otherwise, and some calls have ended. -/
theorem Inv.of_entry (hs : Inv s) {t : State C} (hentry : t.servers = s.servers)
    (hlive : ∀ q, t.daemons.Live q → s.daemons.Live q) (hholds : t.daemons.holds = s.daemons.holds)
    (hlength : t.daemons.procs.length = s.daemons.procs.length)
    (hlaunches : t.launches.Sublist s.launches) : Inv t := by
  refine ⟨fun q hq => ?_, fun e he => ?_, fun l hl => ?_, hentry ▸ hs.phase, fun h hh hp => ?_⟩
  · rw [State.record, hentry, Processes.holdsOn, hholds]
    exact hs.counted q (hlive q hq)
  · rw [hlength]
    exact hs.fresh e (hholds ▸ he)
  · rw [hlength]
    exact hs.launched l (hlaunches.subset hl)
  · rw [Processes.holdsBy, hholds]
    refine le_trans ?_ (hs.tool h (hentry ▸ hh) (hlive _ hp))
    exact Nat.add_le_add_right (hlaunches.countP_le) _

omit [DecidableEq C] in
/-- No call waits for a process once its calls have ended. -/
theorem toolCalls_filter (p : ℕ) :
    ({ s with launches := s.launches.filter (·.proc ≠ p) } : State C).toolCalls p = 0 := by
  rw [State.toolCalls, List.countP_eq_zero]
  intro l hl
  have := List.of_mem_filter hl
  simp at this
  simp [this]

/-- The server is running, and the calls that have waited for it end. -/
theorem Inv.running (hs : Inv s) {h : ServerHandle} (hh : s.servers = some h) (p : ℕ) :
    Inv { s with
      servers := some { h with phase := .running }
      launches := s.launches.filter (·.proc ≠ p) } := by
  have hended : Inv { s with launches := s.launches.filter (·.proc ≠ p) } :=
    hs.of_entry rfl (fun _ => id) rfl rfl List.filter_sublist
  refine ⟨fun q hq => ?_, hs.fresh, hended.launched, fun h' hh' => ?_, fun h' hh' hp => ?_⟩
  · obtain ⟨h', hh', rfl, hcount⟩ := hs.entry hq
    rw [hh] at hh'
    cases hh'
    simp only [State.record, Option.map_some, hcount]
  · cases hh'
    exact .inl rfl
  · cases hh'
    exact hended.tool h hh hp

theorem Inv.onBound (hs : Inv s) {t : State C} (h : s.onBound p = some t) : Inv t := by
  unfold State.onBound at h
  cases hfind : s.launches.find? (·.proc = p) with
  | none => simp [hfind] at h
  | some launch =>
    cases hh : s.servers with
    | none =>
      simp only [hfind, hh, Option.some.injEq] at h
      exact h ▸ hs
    | some entry =>
      simp only [hfind, hh] at h
      by_cases hproc : entry.proc = p
      · rw [if_neg (not_not.2 hproc)] at h
        obtain rfl := Option.some.inj h
        have hrunning := hs.running hh p
        split_ifs with htool
        · -- a tool call: its hold was one of those of the tool surface
          refine hrunning.boundToolHold fun h' hh' hp => ?_
          cases hh'
          subst hproc
          have hmem := List.mem_of_find?_eq_some hfind
          have hcall : 0 < s.toolCalls entry.proc := by
            refine List.countP_pos_iff.2 ⟨launch, hmem, ?_⟩
            simpa [htool] using List.find?_some hfind
          have htools := hs.tool entry hh hp
          have hnone := toolCalls_filter (s := s) entry.proc
          simp only [State.toolCalls] at hnone hcall htools ⊢
          rw [hnone]
          omega
        · exact hrunning
      · rw [if_pos hproc] at h
        exact Option.some.inj h ▸ hs

theorem Inv.onTimeout (hs : Inv s) (hp : ¬ s.daemons.Live p) {t : State C}
    (h : s.onTimeout p = some t) : Inv t := by
  unfold State.onTimeout at h
  cases hfind : s.launches.find? (·.proc = p) with
  | none => simp [hfind] at h
  | some launch =>
    cases hh : s.servers with
    | none =>
      simp only [hfind, hh, Option.some.injEq] at h
      exact h ▸ hs
    | some entry =>
      simp only [hfind, hh] at h
      split_ifs at h with hproc
      · exact Option.some.inj h ▸ hs
      · obtain rfl := Option.some.inj h
        have hnone : ∀ q, ¬ s.daemons.Live q := by
          intro q hq
          obtain ⟨h', hh', rfl, -⟩ := hs.entry hq
          rw [hh] at hh'
          cases hh'
          exact hp (not_not.1 hproc ▸ hq)
        refine Inv.retry (hs.fresh.kill p) (fun l hl => ?_) (fun q hq => ?_) launch
        · rw [Processes.length_kill]
          exact hs.launched l hl
        · exact hnone q (Processes.live_kill.1 hq)

theorem Inv.onExit (hs : Inv s) {t : State C} (h : s.onExit p = some t) : Inv t := by
  unfold State.onExit at h
  split_ifs at h with hended
  have hclose : Inv { s with daemons := s.daemons.close p } :=
    hs.of_entry rfl (fun q => Processes.live_close.1) rfl (by simp [Processes.close]) (.refl _)
  cases hh : s.servers with
  | none =>
    rw [hh] at hclose
    simp only [hh, Option.some.injEq] at h
    exact h ▸ hclose
  | some entry =>
    rw [hh] at hclose
    simp only [hh] at h
    split_ifs at h with hproc
    · exact Option.some.inj h ▸ hclose
    · -- the process recorded has ended, so that there is no live one
      have hnone : ∀ q, ¬ (s.daemons.close p).Live q := by
        intro q hq
        have hq := Processes.live_close.1 hq
        obtain ⟨h', hh', rfl, -⟩ := hs.entry hq
        rw [hh] at hh'
        cases hh'
        rw [not_not.1 hproc] at hq
        exact Processes.not_live_of_ended hended hq
      cases hfind : s.launches.find? (·.proc = p) with
      | none =>
        simp only [hfind, Option.some.injEq] at h
        exact h ▸ Inv.of_none hclose.fresh hclose.launched (by simp) hnone
      | some launch =>
        simp only [hfind, Option.some.injEq] at h
        exact h ▸ Inv.retry hclose.fresh hclose.launched hnone launch

/-! ## A stop -/

/-- The state after a stop that has taken one from the count. -/
def State.released (s : State C) (c : C) (h : ServerHandle) : State C where
  daemons := s.daemons.release (some c) h.proc
  servers := some { h with refCount := h.refCount - 1 }
  launches := s.launches

/-- What a stop by a client does: it takes one from the count, and terminates the server when
    nothing is left. -/
theorem stop_spec {h : ServerHandle} (hh : s.servers = some h) {c : C} {verdict : OwnerVerification}
    (hverdict : h.refCount ≤ 1 → verdict ≠ .mismatch) :
    (1 < h.refCount ∧ s.stopMcpServer c verdict = s.released c h) ∨
      (h.refCount ≤ 1 ∧ s.stopMcpServer c verdict =
        { s.released c h with daemons := (s.released c h).daemons.kill h.proc }) := by
  simp only [State.stopMcpServer, hh]
  by_cases hcount : 0 < h.refCount - 1
  · rw [if_pos hcount]
    exact .inl ⟨by omega, rfl⟩
  · have hone : h.refCount ≤ 1 := by omega
    rw [if_neg hcount, if_neg (hverdict hone)]
    exact .inr ⟨hone, rfl⟩

/-- A client that holds the live server gives its hold back. -/
theorem Inv.released (hs : Inv s) {h : ServerHandle} (hh : s.servers = some h) {c : C}
    (hmem : (some c, h.proc) ∈ s.daemons.holds) : Inv (s.released c h) := by
  refine ⟨fun q hq => ?_, hs.fresh.release _ _, hs.launched, fun h' hh' => ?_, fun h' hh' hp => ?_⟩
  · obtain ⟨h', hh', rfl, hcount⟩ := hs.entry hq
    rw [hh] at hh'
    cases hh'
    have hrelease := Processes.holdsOn_release hmem h.proc
    rw [if_pos rfl] at hrelease
    have hnew : h.refCount - 1 = (s.released c h).daemons.holdsOn h.proc := by
      simp only [State.released]
      omega
    rw [← hnew]
    rfl
  · cases hh'
    exact hs.phase h hh
  · cases hh'
    have hnone : (s.released c h).daemons.holdsBy none h.proc = s.daemons.holdsBy none h.proc :=
      Processes.holdsBy_release_of_ne (by simp)
    rw [hnone]
    exact hs.tool h hh hp

/-- A stop of a live server by a client that holds it keeps the count. -/
theorem Inv.stop (hs : Inv s) {c : C} {verdict : OwnerVerification}
    (hkeep : ∀ p, s.daemons.Live p → (some c, p) ∈ s.daemons.holds ∧
      ∀ h ∈ s.servers, h.refCount ≤ 1 → verdict ≠ .mismatch) :
    Inv (s.stopMcpServer c verdict) := by
  cases hh : s.servers with
  | none =>
    rw [State.stopMcpServer, hh]
    exact hs
  | some h =>
    by_cases hp : s.daemons.Live h.proc
    · obtain ⟨hmem, hverdict⟩ := hkeep h.proc hp
      have hreleased := hs.released hh hmem
      rcases stop_spec hh (c := c) (hverdict h hh) with ⟨-, heq⟩ | ⟨-, heq⟩
      · exact heq ▸ hreleased
      · rw [heq]
        exact hreleased.of_entry rfl (fun q => Processes.live_kill.1) Processes.holds_kill
          Processes.length_kill (.refl _)
    · have hnone : ∀ q, ¬ s.daemons.Live q := by
        intro q hq
        obtain ⟨h', hh', rfl, -⟩ := hs.entry hq
        rw [hh] at hh'
        cases hh'
        exact hp hq
      have hphase := hs.phase h hh
      simp only [State.stopMcpServer, hh]
      split_ifs
      · exact Inv.of_none (hs.fresh.release _ _) hs.launched (by simpa using hphase) hnone
      · exact Inv.of_none (hs.fresh.release _ _) hs.launched (by simp) hnone
      · refine Inv.of_none ((hs.fresh.release _ _).kill _)
          (by simpa [Processes.release] using hs.launched) (by simpa using hphase) fun q hq => ?_
        exact hnone q ((Processes.live_kill (d := s.daemons.release (some c) h.proc)).1 hq)

/-- A stop of a live server terminates it exactly when it releases the last hold. -/
theorem Inv.stopsLast (hs : Inv s) {c : C} {verdict : OwnerVerification}
    (hkeep : ∀ p, s.daemons.Live p → (some c, p) ∈ s.daemons.holds ∧
      ∀ h ∈ s.servers, h.refCount ≤ 1 → verdict ≠ .mismatch)
    (hp : s.daemons.Live p) :
    s.daemons.Signalled (s.stopMcpServer c verdict).daemons p ↔
      (some c, p) ∈ s.daemons.holds ∧ s.daemons.holdsOn p = 1 := by
  obtain ⟨hmem, hverdict⟩ := hkeep p hp
  obtain ⟨h, hh, rfl, hcount⟩ := hs.entry hp
  have hpos := Processes.holdsOn_pos hmem
  rcases stop_spec hh (c := c) (hverdict h hh) with ⟨hlt, heq⟩ | ⟨hle, heq⟩
  · rw [heq]
    exact iff_of_false Processes.not_signalled_self fun hone => by omega
  · rw [heq]
    refine iff_of_true ?_ ⟨hmem, by omega⟩
    exact Processes.signalled_kill (d := s.daemons.release (some c) h.proc) hp.alive

/-! ## Runs -/

/-- **Step lemma**: a step that takes none of the branches that lose the count keeps map, count
    and process in step. -/
theorem Inv.step (hs : Inv s) {e : Event C} (hkeep : KeepsCount s e) {t : State C}
    (h : step s e = some t) : Inv t := by
  cases e with
  | start c =>
    cases h
    exact hs.startMcpServer c
  | callTool =>
    cases h
    exact hs.callMcpTool
  | stop c verdict =>
    cases h
    exact hs.stop hkeep
  | bound p => exact hs.onBound h
  | timeout p => exact hs.onTimeout hkeep h
  | finish p =>
    cases h
    exact hs.of_entry rfl (fun q hq => (Processes.live_finish.1 hq).1) rfl
      (by simp [Processes.finish]) (.refl _)
  | exit p => exact hs.onExit h

theorem inv_init : Inv ({} : State C) :=
  Inv.of_none (by simp [Processes.Fresh]) (by simp) (by simp) fun _ hp => absurd hp.lt (by simp)

/-- **Run lemma**: a run of such steps keeps map, count and process in step. -/
theorem inStep_of_keepsCount {events : List (Event C)}
    (hkeep : Always McpServer.step KeepsCount {} events) : InStep events := by
  refine ⟨fun t ht => ?_, ?_⟩
  · exact (exec_invariant (fun _ _ _ hs hk h => hs.step hk h) ht hkeep inv_init).counted
  · refine Always.of_invariant (fun _ _ _ hs hk h => hs.step hk h) (fun s e hs hk => ?_) hkeep
      inv_init
    cases e with
    | stop c verdict => exact fun p hp => hs.stopsLast hk hp
    | _ => trivial

end

end McpServer

/-! ## Both daemons -/

section
variable {C Path : Type} [DecidableEq C] [DecidableEq Path]

/-- **Shared holds are counted**, of the live-indexing daemon and of the HTTP server, in every run
    whose steps take none of the branches that lose the count. -/
theorem sharedHolds_counted (defaultStatusPath : Path)
    (status : Path → Option Indexd.IndexStatusReport) (events : List (Indexd.Event C Path))
    (hkeep : Always (Indexd.step defaultStatusPath) Indexd.KeepsCount (.init status) events)
    (serverEvents : List (McpServer.Event C))
    (hserver : Always McpServer.step McpServer.KeepsCount {} serverEvents) :
    Indexd.InStep defaultStatusPath status events ∧ McpServer.InStep serverEvents :=
  ⟨Indexd.inStep_of_keepsCount status hkeep, McpServer.inStep_of_keepsCount hserver⟩

end

/-- Two clients share the daemon, and the second one ends it. -/
def sharedIndexd : List (Indexd.Event ℕ Unit) :=
  [.start 0 (), .writeStatus () (some ⟨some 0, true⟩), .start 1 (), .refresh, .stop 0 .matched,
    .stop 1 .matched, .finish 0, .resume 0 .matched, .close 0]

/-- The first port is taken; then two clients and the tool surface share the server. -/
def sharedServer : List (McpServer.Event ℕ) :=
  [.start 0, .finish 0, .exit 0, .callTool, .start 1, .bound 1, .callTool, .stop 0 .matched,
    .stop 1 .matched]

/-- In these runs the clients' last stop ends the one, and the tool surface keeps the other. -/
theorem sharedHolds_counted_two :
    Indexd.InStep () (fun _ => none) sharedIndexd ∧ McpServer.InStep sharedServer ∧
      ((exec (Indexd.step ()) (.init fun _ => none) sharedIndexd).map (·.daemons.signals) =
        some [0]) ∧
      (exec McpServer.step {} sharedServer).map (fun t => (t.daemons.signals, t.record)) =
        some ([], some (1, 1)) := by
  obtain ⟨hindexd, hserver⟩ := sharedHolds_counted () (fun _ => none) sharedIndexd (by decide)
    sharedServer (by decide)
  exact ⟨hindexd, hserver, by decide, by decide⟩

/-- Holds are counted in every run of either daemon. -/
def SharedHoldsCounted : Prop :=
  (∀ (status : Unit → Option Indexd.IndexStatusReport) (events : List (Indexd.Event ℕ Unit)),
    Indexd.InStep () status events) ∧
    ∀ events : List (McpServer.Event ℕ), McpServer.InStep events

/-- A client that starts before the daemon has written its status is not counted, and the stop of
    the other one terminates the daemon; a client that has joined a server whose port fails stops
    the next one. -/
theorem not_sharedHoldsCounted : ¬ SharedHoldsCounted ∧
    ¬ Indexd.InStep () (fun _ => none) [.start 0 (), .start 1 (), .stop 0 .matched] ∧
    ¬ McpServer.InStep [.start 0, .start 1, .finish 0, .exit 0, .stop 1 .matched] := by
  have hindexd : ¬ Indexd.InStep () (fun _ => none)
      [.start 0 (), .start 1 (), .stop 0 .matched] := by
    rintro ⟨-, hstops⟩
    have hstop := ((hstops.2 _ rfl).2 _ rfl).1 0 (by decide)
    exact absurd (hstop.1 rfl).2 (by decide)
  have hserver : ¬ McpServer.InStep
      [.start 0, .start 1, .finish 0, .exit 0, .stop 1 .matched] := by
    rintro ⟨hcounted, -⟩
    exact absurd (hcounted _ rfl 1 (by decide)) (by decide)
  exact ⟨fun h => hindexd (h.1 _ _), hindexd, hserver⟩

end Cognis.Extension
