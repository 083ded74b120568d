/-
  A launch of the HTTP MCP server of a repository (`mcpServer.ts`): the promise of
  `launchOnPort`, which the `exit` handler of the process and the wait for the port settle, and
  the `startMcpServer` that waits for it and goes on to the next port.

  Both look first whether the handle is still the one in the map, which a stop or another launch
  may have changed. The handlers, the wait and the calls are the steps of a system, in any order.

  * `KeepsOpen` says of a step that it takes no handle out of the map whose promise is open;
  * `settlesOnce`: in a run of such steps every promise is resolved exactly once;
  * `resolved_once_iff`: in a run to its end, only then.
-/
import Cognis.Lib.Transition
import Cognis.Extension.Lease

namespace Cognis.Extension.Launching

open Transition

/-! ## The module -/

/-- `McpServerPhase` -/
inductive Phase where
  | stopped | starting | running | error
  deriving DecidableEq, Repr

/-- `LOOPBACK_HOST` -/
def loopbackHost : String := "127.0.0.1"

/-- `McpServerState` -/
structure McpServerState where
  phase : Phase
  host : String := loopbackHost
  port : Option ℕ := none
  url : Option String := none
  pid : Option ℕ := none
  lastError : Option String := none
  routeToken : Option String := none
  repoKey : Option String := none
  deriving DecidableEq, Repr

/-- `STOPPED_STATE` -/
def stoppedState : McpServerState := { phase := .stopped }

def errorState (lastError : String) : McpServerState :=
  { phase := .error, lastError := some lastError }

/-- `ServerHandle`; its process is named by the launch that spawned it. -/
structure ServerHandle where
  launch : ℕ
  state : McpServerState
  refCount : ℕ
  toolHold : Bool := false
  deriving DecidableEq, Repr

/-- What `launchOnPort` resolves with. -/
structure Outcome where
  running : Bool
  error : Option String := none
  deriving DecidableEq, Repr

/-- How far the `startMcpServer` is that waits for the promise. -/
inductive Caller where
  | waiting
  | retried
  | returned (state : McpServerState)
  deriving DecidableEq, Repr

/-- The variables of one `launchOnPort` and of the call that waits for it. `exited` and `waited`
    say that the event of the exit has come and that the wait for the port has ended; `resolved`
    lists the calls of `resolve`. -/
structure Launch where
  attempt : ℕ
  lastError : String
  signalled : Bool := false
  exited : Bool := false
  waited : Bool := false
  settled : Bool := false
  resolved : List Outcome := []
  caller : Caller := .waiting
  deriving DecidableEq, Repr

/-- What a new process and its environment give: the pid, if it could be spawned, the credential,
    and the repository key. -/
structure Spawned where
  pid : Option ℕ
  routeToken : String
  repoKey : Option String
  deriving DecidableEq, Repr

/-- The entry of `servers` for the repository, its launches so far, in their order, and the states
    that have been published. -/
structure State where
  servers : Option ServerHandle := none
  launches : List Launch := []
  published : List McpServerState := []
  deriving DecidableEq, Repr

/-- `MAX_BIND_ATTEMPTS` -/
def maxBindAttempts : ℕ := 4

/-- `derivePort`, of the first four bytes of the digest of the path. -/
def derivePort (digest offset : ℕ) : ℕ :=
  let span := 65535 - 49152 + 1
  49152 + (digest % span + offset) % span

/-- `buildMcpUrl` -/
def buildMcpUrl (host : String) (port : ℕ) : String :=
  "http://" ++ host ++ ":" ++ toString port ++ "/mcp"

/-- `publish` -/
def State.publish (s : State) (state : McpServerState) : State :=
  { s with published := s.published ++ [state] }

/-- `getMcpServerState` -/
def State.getMcpServerState (s : State) : McpServerState :=
  (s.servers.map (·.state)).getD stoppedState

/-- The variables of launch `i` change. -/
def State.modify (s : State) (i : ℕ) (f : Launch → Launch) : State :=
  { s with launches := s.launches.modify i f }

/-- `settle` -/
def settle (outcome : Outcome) (l : Launch) : Launch :=
  if l.settled then l else { l with settled := true, resolved := l.resolved ++ [outcome] }

/-- The handle of launch `i` is the one in the map. -/
def State.Recorded (s : State) (i : ℕ) : Prop := ∃ h ∈ s.servers, h.launch = i

instance (s : State) (i : ℕ) : Decidable (s.Recorded i) :=
  inferInstanceAs (Decidable (∃ h ∈ s.servers, h.launch = i))

section
variable (digest : ℕ) (s : State)

/-- `launchOnPort`, up to where it waits. -/
def launchOnPort (attempt : ℕ) (lastError : String) (spawned : Spawned) : State :=
  let port := derivePort digest attempt
  let state : McpServerState :=
    { phase := .starting, port := some port, url := some (buildMcpUrl loopbackHost port),
      pid := spawned.pid, routeToken := some spawned.routeToken, repoKey := spawned.repoKey }
  State.publish { s with
    servers := some { launch := s.launches.length, state, refCount := 1 }
    launches := s.launches ++ [{ attempt, lastError }] } state

/-- `startMcpServer`, up to where it waits. -/
def startMcpServer (spawned : Spawned) : State :=
  let start := launchOnPort digest s 0 "could not start cognis-mcpd" spawned
  match s.servers with
  | some existing =>
    if existing.state.phase = .running ∨ existing.state.phase = .starting then
      { s with servers := some { existing with refCount := existing.refCount + 1 } }
    else start
  | none => start

/-- A number or a text of the `exit` event in a template. -/
def orNull (text : Option String) : String := text.getD "null"

/-- The `exit` handler of the process of launch `i`. -/
def onExit (i : ℕ) (code : Option ℤ) (signal : Option String) : Option State :=
  match s.launches[i]? with
  | none => none
  | some l =>
    if l.exited then none
    else
      let s := s.modify i fun l => { l with exited := true }
      if s.Recorded i then
        let reason :=
          if code = some 0 ∨ signal = some "SIGTERM" then none
          else some ("cognis-mcpd exited with code=" ++ orNull (code.map toString) ++ " signal=" ++
            orNull signal)
        let state := (reason.map errorState).getD stoppedState
        let error := reason.getD "server exited before binding"
        some ((State.publish { s with servers := none } state).modify i
          (settle { running := false, error }))
      else some s

/-- What follows the `waitForBind` of launch `i`. -/
def onWaited (i : ℕ) (ok : Bool) : Option State :=
  match s.launches[i]?, s.servers with
  | none, _ => none
  | some l, servers =>
    if l.waited then none
    else
      let s := s.modify i fun l => { l with waited := true }
      match servers with
      | none => some s
      | some h =>
        if l.settled ∨ h.launch ≠ i then some s
        else if ok then
          let state := { h.state with phase := .running }
          some ((State.publish { s with servers := some { h with state } } state).modify i
            (settle { running := true }))
        else
          some (s.modify i fun l => settle
            { running := false, error := some "timed out waiting for the server to bind" }
            { l with signalled := true })

/-- What follows the `await launchOnPort(…)` of `startMcpServer`: it returns, goes on to the next
    port, or gives up. -/
def resume (i : ℕ) (spawned : Spawned) : Option State :=
  match s.launches[i]? with
  | none => none
  | some l =>
    match l.caller, l.resolved with
    | .waiting, outcome :: _ =>
      if outcome.running then
        some (s.modify i fun l => { l with caller := .returned s.getMcpServerState })
      else
        let lastError := outcome.error.getD l.lastError
        if l.attempt + 1 < maxBindAttempts then
          some (launchOnPort digest (s.modify i fun l => { l with caller := .retried })
            (l.attempt + 1) lastError spawned)
        else
          some ((State.publish { s with servers := none } (errorState lastError)).modify i
            fun l => { l with caller := .returned (errorState lastError) })
    | _, _ => none

/-- `boundToolHold` -/
def boundToolHold : State :=
  match s.servers with
  | none => s
  | some h =>
    if h.toolHold then { s with servers := some { h with refCount := max 1 (h.refCount - 1) } }
    else { s with servers := some { h with toolHold := true } }

/-- `stopMcpServer`, with the verdict of the lease. -/
def stopMcpServer (force : Bool) (verdict : OwnerVerification) : State :=
  match s.servers with
  | none => s
  | some h =>
    let h := if force then h else { h with refCount := h.refCount - 1 }
    let s := { s with servers := some h }
    if !force && decide (0 < h.refCount) then s
    else if verdict = .mismatch then State.publish { s with servers := none } stoppedState
    else s.modify h.launch fun l => { l with signalled := true }

end

/-! ## Runs -/

/-- A call of the module, what follows a promise, the end of a wait, or the event of an exit. -/
inductive Event where
  | start (spawned : Spawned)
  | resume (launch : ℕ) (spawned : Spawned)
  | boundToolHold
  | stop (force : Bool) (verdict : OwnerVerification)
  | waited (launch : ℕ) (ok : Bool)
  | exit (launch : ℕ) (code : Option ℤ) (signal : Option String)
  deriving DecidableEq, Repr

/-- One step. -/
def step (digest : ℕ) (s : State) : Event → Option State
  | .start spawned => some (startMcpServer digest s spawned)
  | .resume i spawned => resume digest s i spawned
  | .boundToolHold => some (boundToolHold s)
  | .stop force verdict => some (stopMcpServer s force verdict)
  | .waited i ok => onWaited s i ok
  | .exit i code signal => onExit s i code signal

/-- The promise of launch `i` is open. -/
def State.Open (s : State) (i : ℕ) : Prop := ∃ l ∈ s.launches[i]?, l.settled = false

instance (s : State) (i : ℕ) : Decidable (s.Open i) :=
  inferInstanceAs (Decidable (∃ l ∈ s.launches[i]?, l.settled = false))

/-- The step takes no handle out of the map whose promise is open: neither a stop that the lease
    refuses, nor a call that goes on to its next port, or gives up, while another launch has been
    recorded. -/
def KeepsOpen (s : State) : Event → Prop
  | .stop force verdict => ∀ h ∈ s.servers, s.Open h.launch → verdict = .mismatch →
      force = false ∧ 1 < h.refCount
  | .resume i _ => ∀ h ∈ s.servers, s.Open h.launch →
      ∀ l ∈ s.launches[i]?, ∀ o ∈ l.resolved.head?, o.running = true
  | _ => True

instance KeepsOpen.decidable (s : State) (e : Event) : Decidable (KeepsOpen s e) := by
  cases e <;> dsimp only [KeepsOpen] <;> infer_instance

/-- The promise of launch `i` is resolved from `s` to `t`. -/
def Resolves (s t : State) (i : ℕ) (o : Outcome) : Prop :=
  ∃ l l', s.launches[i]? = some l ∧ t.launches[i]? = some l' ∧ l'.resolved = l.resolved ++ [o]

/-- A promise that the step resolves with `running` is that of the handle in the map, which is
    running. -/
def RunsRecorded (digest : ℕ) (s : State) (e : Event) : Prop :=
  ∀ t i o, step digest s e = some t → Resolves s t i o → o.running = true →
    ∃ h, t.servers = some h ∧ h.launch = i ∧ h.state.phase = .running

/-- After the run the promise of each launch whose process has exited and whose wait has ended has
    been resolved once, and the process of the handle in the map has not exited; and in the run
    promises were resolved with `running` only as above. -/
def SettlesOnce (digest : ℕ) (events : List Event) : Prop :=
  (∀ t, exec (step digest) {} events = some t →
    (∀ (i : ℕ) (l : Launch), t.launches[i]? = some l → l.exited = true → l.waited = true →
      l.resolved.length = 1) ∧
    ∀ (h : ServerHandle) (l : Launch), t.servers = some h → t.launches[h.launch]? = some l → l.exited = false) ∧
  Always (step digest) (RunsRecorded digest) {} events

/-! ## The invariant -/

variable {digest i j : ℕ} {s t : State} {e : Event} {l : Launch} {h : ServerHandle}

/-- The handle in the map is that of a process whose exit has not been handled, and a promise is
    resolved when it is settled. -/
structure Inv (s : State) : Prop where
  recorded : ∀ h, s.servers = some h → ∃ l, s.launches[h.launch]? = some l ∧ l.exited = false
  phase : ∀ h, s.servers = some h → h.state.phase = .running ∨ h.state.phase = .starting
  resolved : ∀ (i : ℕ) (l : Launch), s.launches[i]? = some l →
    l.resolved.length = if l.settled then 1 else 0

/-- An open promise is that of the handle in the map, and its wait has not ended. -/
def OpenRecorded (s : State) : Prop :=
  ∀ (i : ℕ) (l : Launch), s.launches[i]? = some l → l.settled = false →
    s.Recorded i ∧ l.waited = false

theorem inv_init : Inv {} := by
  refine ⟨?_, ?_, ?_⟩
  · intro h hh
    cases hh
  · intro h hh
    cases hh
  · intro i l hl
    cases hl

theorem openRecorded_init : OpenRecorded {} := by
  intro i l hl
  cases hl

theorem recorded_iff : s.Recorded i ↔ ∃ h, s.servers = some h ∧ h.launch = i := by
  simp [State.Recorded, Option.mem_def]

theorem getElem?_modify (s : State) (i : ℕ) (f : Launch → Launch) :
    (s.modify i f).launches[j]? = some l ↔
      ∃ l₀, s.launches[j]? = some l₀ ∧ l = if i = j then f l₀ else l₀ := by
  simp only [State.modify, List.getElem?_modify, Functor.map, Option.map]
  cases s.launches[j]? <;> simp [eq_comm]

theorem settle_of_open {o : Outcome} (hl : l.settled = false) :
    settle o l = { l with settled := true, resolved := l.resolved ++ [o] } := by
  rw [settle, hl]
  rfl

theorem settled_settle (o : Outcome) (l : Launch) : (settle o l).settled = true := by
  unfold settle
  split
  · assumption
  · rfl

@[simp] theorem exited_settle (o : Outcome) (l : Launch) : (settle o l).exited = l.exited := by
  unfold settle
  split <;> rfl

@[simp] theorem waited_settle (o : Outcome) (l : Launch) : (settle o l).waited = l.waited := by
  unfold settle
  split <;> rfl

theorem length_resolved_settle {o : Outcome}
    (hl : l.resolved.length = if l.settled then 1 else 0) :
    (settle o l).resolved.length = if (settle o l).settled then 1 else 0 := by
  cases hopen : l.settled with
  | true => rw [settle, if_pos hopen, hl, hopen]
  | false =>
    rw [hopen, if_neg Bool.false_ne_true] at hl
    rw [settle_of_open hopen, List.length_append, hl]
    rfl

/-- The variables of a launch change, other than those of the exit, and the handle stays. -/
theorem Inv.modify {f : Launch → Launch} (hs : Inv s) (hexit : ∀ l, (f l).exited = l.exited)
    (hf : ∀ l, l.resolved.length = (if l.settled then 1 else 0) →
      (f l).resolved.length = if (f l).settled then 1 else 0) (i : ℕ) : Inv (s.modify i f) := by
  refine ⟨fun h hh => ?_, hs.phase, fun j l hl => ?_⟩
  · obtain ⟨l, hl, hlexit⟩ := hs.recorded h hh
    refine ⟨_, (getElem?_modify s i f).2 ⟨l, hl, rfl⟩, ?_⟩
    split
    · rw [hexit, hlexit]
    · exact hlexit
  · obtain ⟨l₀, hl₀, rfl⟩ := (getElem?_modify s i f).1 hl
    split
    · exact hf l₀ (hs.resolved j l₀ hl₀)
    · exact hs.resolved j l₀ hl₀

/-- Variables change that say nothing of the exit or the promise. -/
theorem Inv.adjust {f : Launch → Launch} (hs : Inv s) (i : ℕ)
    (hf : ∀ l, (f l).exited = l.exited ∧ (f l).settled = l.settled ∧
      (f l).resolved = l.resolved) : Inv (s.modify i f) := by
  refine hs.modify (fun l => (hf l).1) (fun l hl => ?_) i
  rw [(hf l).2.1, (hf l).2.2]
  exact hl

/-- The map forgets the handle. -/
theorem Inv.clear (hs : Inv s) : Inv { s with servers := none } := by
  refine ⟨?_, ?_, hs.resolved⟩
  · intro h hh
    cases hh
  · intro h hh
    cases hh

theorem Inv.publish (hs : Inv s) (state : McpServerState) : Inv (s.publish state) :=
  ⟨hs.recorded, hs.phase, hs.resolved⟩

/-- The handle in the map changes, but not its launch. -/
theorem Inv.update (hs : Inv s) (hh : s.servers = some h) {h' : ServerHandle}
    (hlaunch : h'.launch = h.launch)
    (hphase : h'.state.phase = .running ∨ h'.state.phase = .starting) :
    Inv { s with servers := some h' } := by
  refine ⟨?_, ?_, hs.resolved⟩
  · intro h'' hh'
    cases hh'
    rw [hlaunch]
    exact hs.recorded h hh
  · intro h'' hh'
    cases hh'
    exact hphase

theorem Inv.launchOnPort (hs : Inv s) (attempt : ℕ) (lastError : String) (spawned : Spawned) :
    Inv (Launching.launchOnPort digest s attempt lastError spawned) := by
  refine ⟨?_, ?_, ?_⟩
  · intro h hh
    cases hh
    exact ⟨{ attempt, lastError }, by simp [Launching.launchOnPort, State.publish], rfl⟩
  · intro h hh
    cases hh
    exact Or.inr rfl
  · intro i l hl
    simp only [Launching.launchOnPort, State.publish, List.getElem?_append] at hl
    split at hl
    · exact hs.resolved i l hl
    · obtain ⟨-, rfl⟩ := List.getElem?_eq_some_iff.1 hl
      simp

theorem Inv.startMcpServer (hs : Inv s) (spawned : Spawned) :
    Inv (Launching.startMcpServer digest s spawned) := by
  unfold Launching.startMcpServer
  cases hh : s.servers with
  | none => exact hs.launchOnPort _ _ _
  | some h =>
    dsimp only
    split
    · exact hs.update hh rfl (hs.phase h hh)
    · exact hs.launchOnPort _ _ _

/-- What the `exit` handler does. -/
theorem onExit_cases {code : Option ℤ} {signal : Option String}
    (ht : onExit s i code signal = some t) :
    ∃ l, s.launches[i]? = some l ∧ l.exited = false ∧
      ((s.Recorded i ∧ ∃ state error, t = (State.publish
          { s.modify i (fun l => { l with exited := true }) with servers := none } state).modify i
            (settle { running := false, error := some error })) ∨
        (¬ s.Recorded i ∧ t = s.modify i fun l => { l with exited := true })) := by
  unfold onExit at ht
  cases hl : s.launches[i]? with
  | none =>
    rw [hl] at ht
    cases ht
  | some l =>
    rw [hl] at ht
    dsimp only at ht
    refine ⟨l, rfl, ?_⟩
    by_cases hexit : l.exited = true
    · simp [hexit] at ht
    · rw [if_neg hexit] at ht
      refine ⟨by simpa using hexit, ?_⟩
      have hrec : (s.modify i fun l => { l with exited := true }).Recorded i ↔ s.Recorded i :=
        Iff.rfl
      by_cases hr : s.Recorded i
      · rw [if_pos (hrec.2 hr)] at ht
        exact Or.inl ⟨hr, _, _, (Option.some.inj ht).symm⟩
      · rw [if_neg (fun h => hr (hrec.1 h))] at ht
        exact Or.inr ⟨hr, (Option.some.inj ht).symm⟩

theorem Inv.onExit {code : Option ℤ} {signal : Option String} (hs : Inv s)
    (ht : Launching.onExit s i code signal = some t) : Inv t := by
  obtain ⟨l, hl, hexit, ⟨hr, state, error, rfl⟩ | ⟨hr, rfl⟩⟩ := onExit_cases ht
  · -- the map has forgotten the handle
    have hresolved : ∀ (j : ℕ) (l : Launch), (s.modify i fun l => { l with exited := true }).launches[j]? = some l →
        l.resolved.length = if l.settled then 1 else 0 := by
      intro j l hl
      obtain ⟨l₀, hl₀, rfl⟩ := (getElem?_modify s i _).1 hl
      split <;> exact hs.resolved j l₀ hl₀
    have hclear : Inv { s.modify i (fun l => { l with exited := true }) with servers := none } := by
      refine ⟨?_, ?_, hresolved⟩
      · intro h hh
        cases hh
      · intro h hh
        cases hh
    exact (hclear.publish state).modify (exited_settle _) (fun l => length_resolved_settle) i
  · refine ⟨fun h hh => ?_, hs.phase, fun j l hl => ?_⟩
    · have hne : i ≠ h.launch := fun heq => hr (recorded_iff.2 ⟨h, hh, heq.symm⟩)
      obtain ⟨l, hl, hlexit⟩ := hs.recorded h hh
      exact ⟨l, (getElem?_modify s i _).2 ⟨l, hl, (if_neg hne).symm⟩, hlexit⟩
    · obtain ⟨l₀, hl₀, rfl⟩ := (getElem?_modify s i _).1 hl
      split <;> exact hs.resolved j l₀ hl₀

/-- What follows the wait for the port does. -/
theorem onWaited_cases {ok : Bool} (ht : onWaited s i ok = some t) :
    ∃ l, s.launches[i]? = some l ∧ l.waited = false ∧
      ((l.settled = false ∧ ∃ h, s.servers = some h ∧ h.launch = i ∧
          ((∃ state, state = { h.state with phase := .running } ∧
              t = (State.publish { s.modify i (fun l => { l with waited := true }) with
                servers := some { h with state } } state).modify i (settle { running := true })) ∨
            ∃ error, t = (s.modify i fun l => { l with waited := true }).modify i fun l =>
              settle { running := false, error := some error } { l with signalled := true })) ∨
        ((l.settled = true ∨ ¬ s.Recorded i) ∧ t = s.modify i fun l => { l with waited := true })) := by
  unfold onWaited at ht
  cases hl : s.launches[i]? with
  | none =>
    rw [hl] at ht
    cases ht
  | some l =>
    rw [hl] at ht
    dsimp only at ht
    refine ⟨l, rfl, ?_⟩
    by_cases hwait : l.waited = true
    · simp [hwait] at ht
    rw [if_neg hwait] at ht
    refine ⟨by simpa using hwait, ?_⟩
    cases hh : s.servers with
    | none =>
      rw [hh] at ht
      refine Or.inr ⟨Or.inr fun hr => ?_, (Option.some.inj ht).symm⟩
      obtain ⟨h, hh', -⟩ := recorded_iff.1 hr
      rw [hh] at hh'
      cases hh'
    | some h =>
      rw [hh] at ht
      dsimp only at ht
      by_cases hskip : l.settled = true ∨ h.launch ≠ i
      · rw [if_pos hskip] at ht
        refine Or.inr ⟨hskip.imp id fun hne hr => ?_, (Option.some.inj ht).symm⟩
        obtain ⟨h', hh', hi⟩ := recorded_iff.1 hr
        rw [hh] at hh'
        cases hh'
        exact hne hi
      · rw [if_neg hskip] at ht
        push Not at hskip
        refine Or.inl ⟨by simpa using hskip.1, h, rfl, hskip.2, ?_⟩
        cases ok with
        | true =>
          rw [if_pos rfl] at ht
          exact Or.inl ⟨_, rfl, (Option.some.inj ht).symm⟩
        | false =>
          rw [if_neg Bool.false_ne_true] at ht
          exact Or.inr ⟨_, (Option.some.inj ht).symm⟩

/-- What follows the promise of a launch does. -/
theorem resume_cases {spawned : Spawned} (ht : resume digest s i spawned = some t) :
    ∃ l o, s.launches[i]? = some l ∧ l.resolved.head? = some o ∧
      ((o.running = true ∧ ∃ state, t = s.modify i fun l => { l with caller := .returned state }) ∨
        (o.running = false ∧
          ((∃ attempt lastError, t = launchOnPort digest
              (s.modify i fun l => { l with caller := .retried }) attempt lastError spawned) ∨
            ∃ state, t = (State.publish { s with servers := none } state).modify i
              fun l => { l with caller := .returned state }))) := by
  unfold resume at ht
  cases hl : s.launches[i]? with
  | none =>
    rw [hl] at ht
    cases ht
  | some l =>
    rw [hl] at ht
    dsimp only at ht
    split at ht
    · rename_i o os hcaller hresolved
      refine ⟨l, o, rfl, by rw [hresolved]; rfl, ?_⟩
      by_cases hrun : o.running = true
      · rw [if_pos hrun] at ht
        exact Or.inl ⟨hrun, _, (Option.some.inj ht).symm⟩
      · rw [if_neg hrun] at ht
        refine Or.inr ⟨by simpa using hrun, ?_⟩
        split at ht
        · exact Or.inl ⟨_, _, (Option.some.inj ht).symm⟩
        · exact Or.inr ⟨_, (Option.some.inj ht).symm⟩
    · cases ht

/-- What a stop does. -/
theorem stopMcpServer_cases (hh : s.servers = some h) (force : Bool)
    (verdict : OwnerVerification) :
    ∃ h', h'.launch = h.launch ∧ h'.state = h.state ∧
      (stopMcpServer s force verdict = { s with servers := some h' } ∨
        (verdict = .mismatch ∧ ¬ (force = false ∧ 1 < h.refCount) ∧
          ∃ state, stopMcpServer s force verdict = State.publish { s with servers := none } state) ∨
        stopMcpServer s force verdict = ({ s with servers := some h' } : State).modify h.launch
          fun l => { l with signalled := true }) := by
  unfold stopMcpServer
  rw [hh]
  dsimp only
  cases force with
  | true =>
    refine ⟨h, rfl, rfl, Or.inr ?_⟩
    simp only [Bool.not_true, Bool.false_and, Bool.false_eq_true, if_false, if_true]
    split
    · rename_i hverdict
      exact Or.inl ⟨hverdict, by simp, _, rfl⟩
    · exact Or.inr rfl
  | false =>
    refine ⟨{ h with refCount := h.refCount - 1 }, rfl, rfl, ?_⟩
    simp only [Bool.not_false, Bool.true_and, Bool.false_eq_true, if_false, decide_eq_true_eq]
    split
    · exact Or.inl rfl
    · rename_i hlast
      split
      · rename_i hverdict
        exact Or.inr (Or.inl ⟨hverdict, by omega, _, rfl⟩)
      · exact Or.inr (Or.inr rfl)

theorem Inv.onWaited {ok : Bool} (hs : Inv s) (ht : Launching.onWaited s i ok = some t) :
    Inv t := by
  have hwait : Inv (s.modify i fun l => { l with waited := true }) :=
    hs.adjust i (by simp)
  obtain ⟨l, -, -, ⟨-, h, hh, -, ⟨state, rfl, rfl⟩ | ⟨error, rfl⟩⟩ | ⟨-, rfl⟩⟩ := onWaited_cases ht
  · have hrun : Inv { s.modify i (fun l => { l with waited := true }) with
        servers := some { h with state := { h.state with phase := .running } } } :=
      hwait.update hh rfl (Or.inl rfl)
    exact (hrun.publish _).modify (exited_settle _) (fun l => length_resolved_settle) i
  · refine hwait.modify (fun l => ?_) (fun l hl => ?_) i
    · rw [exited_settle]
    · exact length_resolved_settle hl
  · exact hwait

theorem Inv.resume {spawned : Spawned} (hs : Inv s)
    (ht : Launching.resume digest s i spawned = some t) : Inv t := by
  obtain ⟨l, o, -, -, ⟨-, state, rfl⟩ | ⟨-, ⟨attempt, lastError, rfl⟩ | ⟨state, rfl⟩⟩⟩ :=
    resume_cases ht
  · exact hs.adjust i (by simp)
  · have hretried : Inv (s.modify i fun l => { l with caller := .retried }) :=
      hs.adjust i (by simp)
    exact hretried.launchOnPort attempt lastError spawned
  · exact (hs.clear.publish state).adjust i (by simp)

theorem Inv.stopMcpServer (hs : Inv s) (force : Bool) (verdict : OwnerVerification) :
    Inv (Launching.stopMcpServer s force verdict) := by
  cases hh : s.servers with
  | none =>
    unfold Launching.stopMcpServer
    rw [hh]
    exact hs
  | some h =>
    obtain ⟨h', hlaunch, hstate, heq | ⟨-, -, state, heq⟩ | heq⟩ :=
      stopMcpServer_cases hh force verdict
    · rw [heq]
      exact hs.update hh hlaunch (hstate ▸ hs.phase h hh)
    · rw [heq]
      exact hs.clear.publish state
    · rw [heq]
      exact (hs.update hh hlaunch (hstate ▸ hs.phase h hh)).adjust h.launch (by simp)

theorem boundToolHold_cases (s : State) : boundToolHold s = s ∨
    ∃ h h' : ServerHandle, s.servers = some h ∧ h'.launch = h.launch ∧ h'.state = h.state ∧
      boundToolHold s = { s with servers := some h' } := by
  unfold boundToolHold
  cases hh : s.servers with
  | none => exact Or.inl rfl
  | some h =>
    dsimp only
    split
    · exact Or.inr ⟨h, { h with refCount := max 1 (h.refCount - 1) }, rfl, rfl, rfl, rfl⟩
    · exact Or.inr ⟨h, { h with toolHold := true }, rfl, rfl, rfl, rfl⟩

/-- **Step lemma.** -/
theorem Inv.step (hs : Inv s) (ht : Launching.step digest s e = some t) : Inv t := by
  cases e with
  | start spawned =>
    obtain rfl := Option.some.inj ht
    exact hs.startMcpServer spawned
  | resume i spawned => exact hs.resume ht
  | boundToolHold =>
    obtain rfl := Option.some.inj ht
    obtain heq | ⟨h, h', hh, hlaunch, hstate, heq⟩ := boundToolHold_cases s
    · rw [heq]
      exact hs
    · rw [heq]
      exact hs.update hh hlaunch (hstate ▸ hs.phase h hh)
  | stop force verdict =>
    obtain rfl := Option.some.inj ht
    exact hs.stopMcpServer force verdict
  | waited i ok => exact hs.onWaited ht
  | exit i code signal => exact hs.onExit ht

/-! ## Promises -/

/-- The variables of launch `j` after a step: its promise stays, or it was open, its handle is
    the one in the map, and it is resolved; with `running` only if the handle still is, and is
    running. -/
def Follows (s t : State) (j : ℕ) (l l' : Launch) : Prop :=
  (l'.settled = l.settled ∧ l'.resolved = l.resolved) ∨
    (l.settled = false ∧ s.Recorded j ∧ l'.settled = true ∧ ∃ o, l'.resolved = l.resolved ++ [o] ∧
      (o.running = true → ∃ h, t.servers = some h ∧ h.launch = j ∧ h.state.phase = .running))

/-- The promises stay where only other variables change. -/
theorem same_modify {f : Launch → Launch} (hl : s.launches[j]? = some l) (i : ℕ)
    (hf : ∀ l, (f l).settled = l.settled ∧ (f l).resolved = l.resolved) :
    ∃ l', (s.modify i f).launches[j]? = some l' ∧ l'.settled = l.settled ∧
      l'.resolved = l.resolved := by
  refine ⟨_, (getElem?_modify s i f).2 ⟨l, hl, rfl⟩, ?_⟩
  split
  · exact hf l
  · exact ⟨rfl, rfl⟩

/-- The promise of the handle in the map is settled, and the others stay. -/
theorem follows_settle {r : State} {l₀ : Launch} {f : Launch → Launch} {o : Outcome}
    (hr : s.Recorded i) (hl₀ : r.launches[j]? = some l₀)
    (hsame : l₀.settled = l.settled ∧ l₀.resolved = l.resolved)
    (hf : ∀ l, (f l).settled = l.settled ∧ (f l).resolved = l.resolved)
    (hrun : o.running = true → ∃ h, t.servers = some h ∧ h.launch = i ∧ h.state.phase = .running) :
    ∃ l', (r.modify i fun l => settle o (f l)).launches[j]? = some l' ∧ Follows s t j l l' := by
  refine ⟨_, (getElem?_modify r i _).2 ⟨l₀, hl₀, rfl⟩, ?_⟩
  split
  · rename_i hij
    subst hij
    have hset : (f l₀).settled = l.settled := (hf l₀).1.trans hsame.1
    have hresolved : (f l₀).resolved = l.resolved := (hf l₀).2.trans hsame.2
    cases hopen : l.settled with
    | true =>
      have heq : settle o (f l₀) = f l₀ := if_pos (hset.trans hopen)
      rw [heq]
      exact Or.inl ⟨hset, hresolved⟩
    | false =>
      rw [settle_of_open (hset.trans hopen)]
      exact Or.inr ⟨hopen, hr, rfl, o, by rw [hresolved], hrun⟩
  · exact Or.inl hsame

theorem getElem?_launchOnPort {attempt : ℕ} {lastError : String} {spawned : Spawned} {r : State}
    {l' : Launch} (hl : r.launches[j]? = some l') :
    (launchOnPort digest r attempt lastError spawned).launches[j]? = some l' := by
  rw [launchOnPort, State.publish, List.getElem?_append_left (List.getElem?_eq_some_iff.1 hl).1]
  exact hl

/-- **Step lemma**, for promises. -/
theorem follows_step (ht : step digest s e = some t) (hl : s.launches[j]? = some l) :
    ∃ l', t.launches[j]? = some l' ∧ Follows s t j l l' := by
  have hsame : Follows s t j l l := Or.inl ⟨rfl, rfl⟩
  have hother : ∀ (r : State) (i : ℕ) (f : Launch → Launch), r.launches = s.launches →
      (∀ l, (f l).settled = l.settled ∧ (f l).resolved = l.resolved) →
      ∃ l', (r.modify i f).launches[j]? = some l' ∧ Follows s t j l l' := by
    intro r i f hr hf
    obtain ⟨l', hl', hsame'⟩ := same_modify (s := r) (f := f) (hr ▸ hl) i hf
    exact ⟨l', hl', Or.inl hsame'⟩
  cases e with
  | start spawned =>
    obtain rfl := Option.some.inj ht
    refine ⟨l, ?_, hsame⟩
    unfold startMcpServer
    cases s.servers with
    | none => exact getElem?_launchOnPort hl
    | some h =>
      dsimp only
      split
      · exact hl
      · exact getElem?_launchOnPort hl
  | resume i spawned =>
    obtain ⟨-, o, -, -, ⟨-, state, heq⟩ | ⟨-, ⟨attempt, lastError, heq⟩ | ⟨state, heq⟩⟩⟩ :=
      resume_cases ht
    · have hmodify := hother s i (fun l => { l with caller := .returned state }) rfl (by simp)
      rwa [← heq] at hmodify
    · obtain ⟨l', hl', hfollows⟩ :=
        hother s i (fun l => { l with caller := .retried }) rfl (by simp)
      exact ⟨l', heq ▸ getElem?_launchOnPort hl', hfollows⟩
    · have hmodify := hother (State.publish { s with servers := none } state) i
        (fun l => { l with caller := .returned state }) rfl (by simp)
      rwa [← heq] at hmodify
  | boundToolHold =>
    obtain rfl := Option.some.inj ht
    obtain heq | ⟨h, h', -, -, -, heq⟩ := boundToolHold_cases s
    · exact ⟨l, by rw [heq]; exact hl, hsame⟩
    · exact ⟨l, by rw [heq]; exact hl, hsame⟩
  | stop force verdict =>
    obtain rfl := Option.some.inj ht
    cases hh : s.servers with
    | none =>
      have heq : stopMcpServer s force verdict = s := by rw [stopMcpServer, hh]
      exact ⟨l, by rw [heq]; exact hl, hsame⟩
    | some h =>
      obtain ⟨h', -, -, heq | ⟨-, -, state, heq⟩ | heq⟩ := stopMcpServer_cases hh force verdict
      · exact ⟨l, by rw [heq]; exact hl, hsame⟩
      · exact ⟨l, by rw [heq]; exact hl, hsame⟩
      · have hmodify := hother { s with servers := some h' } h.launch
          (fun l => { l with signalled := true }) rfl (by simp)
        rwa [← heq] at hmodify
  | waited i ok =>
    obtain ⟨l₀, -, -, ⟨-, h, hh, hi, hcases⟩ | ⟨-, heq⟩⟩ := onWaited_cases ht
    · have hr : s.Recorded i := recorded_iff.2 ⟨h, hh, hi⟩
      obtain ⟨l₁, hl₁, hsame₁⟩ :=
        same_modify (f := fun l => { l with waited := true }) hl i (by simp)
      obtain ⟨state, hstate, heq⟩ | ⟨error, heq⟩ := hcases
      · have hrun : ∃ h, t.servers = some h ∧ h.launch = i ∧ h.state.phase = .running :=
          ⟨{ h with state }, by rw [heq]; rfl, hi, by rw [hstate]⟩
        obtain ⟨l', hl', hfollows⟩ := follows_settle (f := id) (o := { running := true })
          (r := State.publish { s.modify i (fun l => { l with waited := true }) with
            servers := some { h with state } } state) hr hl₁ hsame₁ (by simp) fun _ => hrun
        exact ⟨l', heq ▸ hl', hfollows⟩
      · obtain ⟨l', hl', hfollows⟩ := follows_settle (t := t)
          (f := fun l => { l with signalled := true })
          (o := { running := false, error := some error }) hr hl₁ hsame₁ (by simp) (by simp)
        exact ⟨l', heq ▸ hl', hfollows⟩
    · have hmodify := hother s i (fun l => { l with waited := true }) rfl (by simp)
      rwa [← heq] at hmodify
  | exit i code signal =>
    obtain ⟨l₀, -, -, ⟨hr, state, error, heq⟩ | ⟨-, heq⟩⟩ := onExit_cases ht
    · obtain ⟨l₁, hl₁, hsame₁⟩ :=
        same_modify (f := fun l => { l with exited := true }) hl i (by simp)
      obtain ⟨l', hl', hfollows⟩ := follows_settle (t := t) (f := id)
        (o := { running := false, error := some error })
        (r := State.publish { s.modify i (fun l => { l with exited := true }) with
          servers := none } state) hr hl₁ hsame₁ (by simp) (by simp)
      exact ⟨l', heq ▸ hl', hfollows⟩
    · have hmodify := hother s i (fun l => { l with exited := true }) rfl (by simp)
      rwa [← heq] at hmodify

theorem recorded_unique (hi : s.Recorded i) (hj : s.Recorded j) : i = j := by
  obtain ⟨h, hh, rfl⟩ := recorded_iff.1 hi
  obtain ⟨h', hh', rfl⟩ := recorded_iff.1 hj
  rw [hh] at hh'
  cases hh'
  rfl

/-- Without an open promise in the map there is none. -/
theorem OpenRecorded.settled (ho : OpenRecorded s)
    (hnot : ∀ h, s.servers = some h → ¬ s.Open h.launch) (hl : s.launches[i]? = some l) :
    l.settled = true := by
  by_contra hset
  have hopen : l.settled = false := by simpa using hset
  obtain ⟨h, hh, rfl⟩ := recorded_iff.1 (ho i l hl hopen).1
  exact hnot h hh ⟨l, hl, hopen⟩

theorem openRecorded_of_settled (hall : ∀ (i : ℕ) (l : Launch), s.launches[i]? = some l → l.settled = true) :
    OpenRecorded s := by
  intro i l hl hopen
  rw [hall i l hl] at hopen
  cases hopen

/-- Once every promise is settled, the one of a new launch is open, and in the map. -/
theorem openRecorded_launchOnPort {attempt : ℕ} {lastError : String} {spawned : Spawned}
    (hall : ∀ (i : ℕ) (l : Launch), s.launches[i]? = some l → l.settled = true) :
    OpenRecorded (launchOnPort digest s attempt lastError spawned) := by
  intro i l hl hopen
  simp only [launchOnPort, State.publish, List.getElem?_append] at hl
  split at hl
  · rw [hall i l hl] at hopen
    cases hopen
  · rename_i hlen
    obtain ⟨hlt, rfl⟩ := List.getElem?_eq_some_iff.1 hl
    simp only [List.length_singleton] at hlt
    obtain rfl : i = s.launches.length := by omega
    exact ⟨recorded_iff.2 ⟨_, rfl, rfl⟩, by simp⟩

/-- Variables change that say nothing of the wait or the promise, and the handle in the map is
    the same. -/
theorem OpenRecorded.adjust {f : Launch → Launch} (ho : OpenRecorded s)
    (hsame : ∀ j, s.Recorded j → t.Recorded j) (hlaunches : t.launches = s.launches.modify i f)
    (hf : ∀ l, (f l).settled = l.settled ∧ (f l).waited = l.waited) : OpenRecorded t := by
  intro j l hl hopen
  rw [hlaunches] at hl
  obtain ⟨l₀, hl₀, rfl⟩ := (getElem?_modify s i f).1 hl
  have hopen₀ : l₀.settled = false := by
    split at hopen
    · exact (hf l₀).1.symm.trans hopen
    · exact hopen
  obtain ⟨hr, hwait⟩ := ho j l₀ hl₀ hopen₀
  refine ⟨hsame j hr, ?_⟩
  split
  · exact (hf l₀).2.trans hwait
  · exact hwait

/-- After the promise in the map is settled there is no open one. -/
theorem OpenRecorded.settle {f g : Launch → Launch} {o : Outcome} {r : State}
    (ho : OpenRecorded s) (hr : s.Recorded i) (hlaunches : r.launches = s.launches.modify i g) :
    OpenRecorded (r.modify i fun l => Launching.settle o (f l)) := by
  refine openRecorded_of_settled fun j l hl => ?_
  obtain ⟨l₁, hl₁, rfl⟩ := (getElem?_modify r i _).1 hl
  rw [hlaunches] at hl₁
  obtain ⟨l₀, hl₀, rfl⟩ := (getElem?_modify s i g).1 hl₁
  by_cases hij : i = j
  · rw [if_pos hij]
    exact settled_settle o _
  · rw [if_neg hij, if_neg hij]
    by_contra hset
    exact hij (recorded_unique hr (ho j l₀ hl₀ (by simpa using hset)).1)

/-- **Step lemma.** A step that keeps open promises in the map. -/
theorem OpenRecorded.step (hs : Inv s) (ho : OpenRecorded s) (hkeep : KeepsOpen s e)
    (ht : Launching.step digest s e = some t) : OpenRecorded t := by
  cases e with
  | start spawned =>
    obtain rfl := Option.some.inj ht
    unfold startMcpServer
    cases hh : s.servers with
    | none =>
      refine openRecorded_launchOnPort fun i l hl => ho.settled (fun h hh' => ?_) hl
      rw [hh] at hh'
      cases hh'
    | some h =>
      dsimp only
      rw [if_pos (hs.phase h hh)]
      refine ho.adjust (i := 0) (f := id) (fun j hj => ?_) (by simp) (by simp)
      obtain ⟨h', hh', hj⟩ := recorded_iff.1 hj
      rw [hh] at hh'
      cases hh'
      exact recorded_iff.2 ⟨_, rfl, hj⟩
  | resume i spawned =>
    obtain ⟨l, o, hl, hhead, ⟨-, state, rfl⟩ | ⟨hrun, hcases⟩⟩ := resume_cases ht
    · exact ho.adjust (fun j hj => hj) rfl (by simp)
    · -- the promise of the handle in the map is settled
      have hall : ∀ (i : ℕ) (l : Launch), s.launches[i]? = some l → l.settled = true := by
        intro j l' hl'
        refine ho.settled (fun h hh hopen => ?_) hl'
        have := hkeep h hh hopen l hl o hhead
        rw [hrun] at this
        cases this
      obtain ⟨attempt, lastError, rfl⟩ | ⟨state, rfl⟩ := hcases
      · refine openRecorded_launchOnPort fun j l' hl' => ?_
        obtain ⟨l₀, hl₀, rfl⟩ := (getElem?_modify s i _).1 hl'
        split <;> exact hall j l₀ hl₀
      · refine openRecorded_of_settled fun j l' hl' => ?_
        obtain ⟨l₀, hl₀, rfl⟩ := (getElem?_modify _ i _).1 hl'
        split <;> exact hall j l₀ hl₀
  | boundToolHold =>
    obtain rfl := Option.some.inj ht
    obtain heq | ⟨h, h', hh, hlaunch, -, heq⟩ := boundToolHold_cases s
    · rw [heq]
      exact ho
    · rw [heq]
      refine ho.adjust (i := 0) (f := id) (fun j hj => ?_) (by simp) (by simp)
      exact recorded_iff.2 ⟨h', rfl, hlaunch.trans (recorded_unique (recorded_iff.2 ⟨h, hh, rfl⟩) hj)⟩
  | stop force verdict =>
    obtain rfl := Option.some.inj ht
    cases hh : s.servers with
    | none =>
      have heq : stopMcpServer s force verdict = s := by rw [stopMcpServer, hh]
      rw [heq]
      exact ho
    | some h =>
      obtain ⟨h', hlaunch, -, hcases⟩ := stopMcpServer_cases hh force verdict
      have hsame : ∀ j, s.Recorded j → State.Recorded { s with servers := some h' } j :=
        fun j hj => recorded_iff.2
          ⟨h', rfl, hlaunch.trans (recorded_unique (recorded_iff.2 ⟨h, hh, rfl⟩) hj)⟩
      obtain heq | ⟨hverdict, hlast, state, heq⟩ | heq := hcases
      · rw [heq]
        exact ho.adjust (i := 0) (f := id) hsame (by simp) (by simp)
      · rw [heq]
        refine openRecorded_of_settled fun i l hl => ho.settled (fun h'' hh'' hopen => ?_) hl
        rw [hh] at hh''
        cases hh''
        exact hlast (hkeep h hh hopen hverdict)
      · rw [heq]
        exact ho.adjust hsame rfl (by simp)
  | waited i ok =>
    obtain ⟨l₀, hl₀, -, ⟨-, h, hh, hi, hcases⟩ | ⟨hskip, rfl⟩⟩ := onWaited_cases ht
    · have hr : s.Recorded i := recorded_iff.2 ⟨h, hh, hi⟩
      obtain ⟨state, -, rfl⟩ | ⟨error, rfl⟩ := hcases
      · exact ho.settle (f := id) hr rfl
      · exact ho.settle hr rfl
    · intro j l hl hopen
      obtain ⟨l₁, hl₁, rfl⟩ := (getElem?_modify s i _).1 hl
      by_cases hij : i = j
      · subst hij
        obtain rfl : l₀ = l₁ := Option.some.inj (hl₀.symm.trans hl₁)
        rw [if_pos rfl] at hopen
        obtain hset | hnot := hskip
        · exact absurd (hset.symm.trans hopen) (by simp)
        · exact absurd (ho i l₀ hl₀ hopen).1 hnot
      · rw [if_neg hij] at hopen ⊢
        exact ho j l₁ hl₁ hopen
  | exit i code signal =>
    obtain ⟨l₀, -, -, ⟨hr, state, error, rfl⟩ | ⟨-, rfl⟩⟩ := onExit_cases ht
    · exact ho.settle (f := id) hr rfl
    · exact ho.adjust (fun j hj => hj) rfl (by simp)

/-! ## Every start settles once -/

theorem runsRecorded_step (s : State) (e : Event) : RunsRecorded digest s e := by
  rintro t i o ht ⟨l, l', hl, hl', hresolved⟩ hrun
  obtain ⟨l'', hl'', hfollows⟩ := follows_step ht hl
  obtain rfl : l' = l'' := Option.some.inj (hl'.symm.trans hl'')
  obtain ⟨-, hsame⟩ | ⟨-, -, -, o', ho', hrecorded⟩ := hfollows
  · rw [hsame] at hresolved
    exact absurd hresolved (by simp)
  · have heq : [o] = [o'] := List.append_cancel_left (hresolved.symm.trans ho')
    cases heq
    exact hrecorded hrun

/-- **Run lemma.** In a run that keeps open promises in the map, a promise has been resolved once
    when its wait has ended. -/
theorem resolved_of_waited {events : List Event} (ht : exec (step digest) {} events = some t)
    (hkeep : Always (step digest) KeepsOpen {} events) (hl : t.launches[i]? = some l)
    (hwait : l.waited = true) : l.resolved.length = 1 := by
  obtain ⟨hs, ho⟩ : Inv t ∧ OpenRecorded t :=
    exec_invariant (I := fun s => Inv s ∧ OpenRecorded s)
      (fun s e t hs hk hst => ⟨hs.1.step hst, hs.2.step hs.1 hk hst⟩) ht hkeep
      ⟨inv_init, openRecorded_init⟩
  rw [hs.resolved i l hl]
  cases hset : l.settled with
  | true => rfl
  | false =>
    rw [(ho i l hl hset).2] at hwait
    cases hwait

/-- In a run that keeps open promises in the map, every promise is resolved once. -/
theorem settlesOnce (digest : ℕ) (events : List Event)
    (hkeep : Always (step digest) KeepsOpen {} events) : SettlesOnce digest events := by
  refine ⟨fun t ht => ⟨fun i l hl _ hwait => resolved_of_waited ht hkeep hl hwait, ?_⟩, ?_⟩
  · intro h l hh hl
    have hs : Inv t := exec_preserves (fun _ _ _ hs hst => Inv.step hs hst) ht inv_init
    obtain ⟨l', hl', hexit⟩ := hs.recorded h hh
    exact (Option.some.inj (hl.symm.trans hl')) ▸ hexit
  · exact Always.of_invariant (I := fun _ => True) (fun _ _ _ _ _ _ => trivial)
      (fun s e _ _ => runsRecorded_step s e) hkeep trivial

/-- A client starts the server, the port accepts connections, the call returns, the client stops
    the server, and the process ends. -/
theorem settlesOnce_stopped :
    SettlesOnce 0 [.start ⟨some 7, "token", none⟩, .waited 0 true, .resume 0 ⟨none, "", none⟩,
      .stop false .matched, .exit 0 none (some "SIGTERM")] :=
  settlesOnce 0 _ (by decide)

/-- A stop that the lease refuses, before the port accepts connections: the promise is never
    resolved. -/
theorem not_settlesOnce : ¬ ∀ digest events, SettlesOnce digest events := by
  intro hall
  have hrun := (hall 0 [.start ⟨some 7, "token", none⟩, .stop true .mismatch,
    .exit 0 (some 0) none, .waited 0 false]).1 _ rfl
  exact absurd (hrun.1 0 _ rfl rfl rfl) (by decide)

/-! ## The condition is exact -/

/-- The promise of launch `i` is open, and its handle is not in the map. -/
def Lost (s : State) (i : ℕ) : Prop :=
  ¬ s.Recorded i ∧ ∃ l, s.launches[i]? = some l ∧ l.settled = false ∧ l.resolved = []

theorem recorded_launchOnPort {attempt : ℕ} {lastError : String} {spawned : Spawned} :
    (launchOnPort digest s attempt lastError spawned).Recorded i ↔ i = s.launches.length := by
  rw [recorded_iff]
  constructor
  · rintro ⟨h, hh, rfl⟩
    cases hh
    rfl
  · rintro rfl
    exact ⟨_, rfl, rfl⟩

theorem not_recorded_clear {r : State} (hr : r.servers = none) : ¬ r.Recorded i := by
  rw [recorded_iff, hr]
  rintro ⟨h, hh, -⟩
  cases hh

/-- A step puts only a new handle in the map. -/
theorem recorded_of_step (ht : step digest s e = some t) (hr : t.Recorded i) :
    s.Recorded i ∨ i = s.launches.length := by
  cases e with
  | start spawned =>
    obtain rfl := Option.some.inj ht
    unfold startMcpServer at hr
    cases hh : s.servers with
    | none =>
      rw [hh] at hr
      exact Or.inr (recorded_launchOnPort.1 hr)
    | some h =>
      rw [hh] at hr
      dsimp only at hr
      split at hr
      · obtain ⟨h', hh', rfl⟩ := recorded_iff.1 hr
        cases hh'
        exact Or.inl (recorded_iff.2 ⟨h, hh, rfl⟩)
      · exact Or.inr (recorded_launchOnPort.1 hr)
  | resume j spawned =>
    obtain ⟨l, o, -, -, ⟨-, state, rfl⟩ | ⟨-, ⟨attempt, lastError, rfl⟩ | ⟨state, rfl⟩⟩⟩ :=
      resume_cases ht
    · exact Or.inl hr
    · right
      rw [recorded_launchOnPort.1 hr]
      exact List.length_modify _ _ _
    · exact absurd hr (not_recorded_clear rfl)
  | boundToolHold =>
    obtain rfl := Option.some.inj ht
    obtain heq | ⟨h, h', hh, hlaunch, -, heq⟩ := boundToolHold_cases s
    · rw [heq] at hr
      exact Or.inl hr
    · rw [heq] at hr
      obtain ⟨h'', hh', rfl⟩ := recorded_iff.1 hr
      cases hh'
      exact Or.inl (recorded_iff.2 ⟨h, hh, hlaunch.symm⟩)
  | stop force verdict =>
    obtain rfl := Option.some.inj ht
    cases hh : s.servers with
    | none =>
      have heq : stopMcpServer s force verdict = s := by rw [stopMcpServer, hh]
      rw [heq] at hr
      exact Or.inl hr
    | some h =>
      obtain ⟨h', hlaunch, -, heq | ⟨-, -, state, heq⟩ | heq⟩ :=
        stopMcpServer_cases hh force verdict
      · rw [heq] at hr
        obtain ⟨h'', hh', rfl⟩ := recorded_iff.1 hr
        cases hh'
        exact Or.inl (recorded_iff.2 ⟨h, hh, hlaunch.symm⟩)
      · rw [heq] at hr
        exact absurd hr (not_recorded_clear rfl)
      · rw [heq] at hr
        obtain ⟨h'', hh', rfl⟩ := recorded_iff.1 hr
        cases hh'
        exact Or.inl (recorded_iff.2 ⟨h, hh, hlaunch.symm⟩)
  | waited j ok =>
    obtain ⟨l, -, -, ⟨-, h, hh, rfl, ⟨state, -, rfl⟩ | ⟨error, rfl⟩⟩ | ⟨-, rfl⟩⟩ :=
      onWaited_cases ht
    · obtain ⟨h', hh', rfl⟩ := recorded_iff.1 hr
      cases hh'
      exact Or.inl (recorded_iff.2 ⟨h, hh, rfl⟩)
    · exact Or.inl hr
    · exact Or.inl hr
  | exit j code signal =>
    obtain ⟨l, -, -, ⟨-, state, error, rfl⟩ | ⟨-, rfl⟩⟩ := onExit_cases ht
    · exact absurd hr (not_recorded_clear rfl)
    · exact Or.inl hr

/-- A lost promise stays lost. -/
theorem Lost.step (hlost : Lost s i) (ht : Launching.step digest s e = some t) : Lost t i := by
  obtain ⟨hr, l, hl, hset, hresolved⟩ := hlost
  obtain ⟨l', hl', ⟨hset', hsame⟩ | ⟨-, hr', -⟩⟩ := follows_step ht hl
  · refine ⟨fun hrt => ?_, l', hl', hset'.trans hset, hsame.trans hresolved⟩
    obtain hrs | hnew := recorded_of_step ht hrt
    · exact hr hrs
    · have := (List.getElem?_eq_some_iff.1 hl).1
      omega
  · exact absurd hr' hr

/-- A step that takes a handle out of the map while its promise is open. -/
theorem lost_of_not_keepsOpen (hs : Inv s) (ht : step digest s e = some t)
    (hkeep : ¬ KeepsOpen s e) : ∃ i, Lost t i := by
  have hresolved : ∀ (i : ℕ) (l : Launch), s.launches[i]? = some l → l.settled = false →
      l.resolved = [] := by
    intro i l hl hset
    have hlen := hs.resolved i l hl
    rw [hset, if_neg Bool.false_ne_true] at hlen
    exact List.length_eq_zero_iff.1 hlen
  cases e with
  | stop force verdict =>
    obtain rfl := Option.some.inj ht
    simp only [KeepsOpen, not_forall] at hkeep
    obtain ⟨h, hh, ⟨l, hl, hset⟩, hverdict, hlast⟩ := hkeep
    have hh : s.servers = some h := hh
    have heq : stopMcpServer s force verdict =
        State.publish { s with servers := none } stoppedState := by
      unfold stopMcpServer
      rw [hh]
      dsimp only
      cases force with
      | true => simp [hverdict]
      | false =>
        have hcount : ¬ 0 < h.refCount - 1 := by
          have : ¬ 1 < h.refCount := fun hlt => hlast ⟨rfl, hlt⟩
          omega
        simp [hverdict, hcount]
    rw [heq]
    exact ⟨h.launch, not_recorded_clear rfl, l, hl, hset, hresolved _ l hl hset⟩
  | resume i spawned =>
    simp only [KeepsOpen, not_forall] at hkeep
    obtain ⟨h, hh, ⟨l, hl, hset⟩, l', hl', o', ho', hrun'⟩ := hkeep
    have hlt : h.launch < s.launches.length := (List.getElem?_eq_some_iff.1 hl).1
    obtain ⟨l₀, o, hl₀, ho, ⟨hrun, -⟩ | ⟨-, ⟨attempt, lastError, rfl⟩ | ⟨state, rfl⟩⟩⟩ :=
      resume_cases ht
    · obtain rfl : l₀ = l' := Option.some.inj (hl₀.symm.trans hl')
      obtain rfl : o = o' := Option.some.inj (ho.symm.trans ho')
      exact absurd hrun hrun'
    · obtain ⟨l₁, hl₁, hset₁, hres₁⟩ :=
        same_modify (f := fun l => { l with caller := .retried }) hl i (by simp)
      refine ⟨h.launch, fun hr => ?_, l₁, getElem?_launchOnPort hl₁, hset₁.trans hset,
        hres₁.trans (hresolved _ l hl hset)⟩
      have hlen := recorded_launchOnPort.1 hr
      simp only [State.modify, List.length_modify] at hlen
      omega
    · obtain ⟨l₁, hl₁, hset₁, hres₁⟩ :=
        same_modify (f := fun l => { l with caller := .returned state }) hl i (by simp)
      exact ⟨h.launch, not_recorded_clear rfl, l₁, hl₁, hset₁.trans hset,
        hres₁.trans (hresolved _ l hl hset)⟩
  | start => exact absurd trivial hkeep
  | boundToolHold => exact absurd trivial hkeep
  | waited => exact absurd trivial hkeep
  | exit => exact absurd trivial hkeep

/-- A run with a step that takes a handle out of the map while its promise is open leaves a
    promise that is never resolved. -/
theorem exists_lost {events : List Event} (hs : Inv s)
    (ht : exec (step digest) s events = some t)
    (hkeep : ¬ Always (step digest) KeepsOpen s events) : ∃ i, Lost t i := by
  induction events generalizing s with
  | nil => exact absurd trivial hkeep
  | cons e events ih =>
    simp only [exec] at ht
    cases hst : step digest s e with
    | none =>
      rw [hst] at ht
      cases ht
    | some s' =>
      rw [hst] at ht
      by_cases he : KeepsOpen s e
      · refine ih (hs.step hst) ht fun hrest => hkeep ⟨he, fun s'' hst' => ?_⟩
        rw [hst] at hst'
        exact Option.some.inj hst' ▸ hrest
      · obtain ⟨i, hlost⟩ := lost_of_not_keepsOpen hs hst he
        refine ⟨i, ?_⟩
        exact exec_preserves (I := fun s => Lost s i) (fun _ _ _ h hst => h.step hst) ht hlost

/-- In a run after which all processes have exited and all waits have ended, every promise is
    resolved once exactly if no step has taken a handle out of the map while its promise was
    open. -/
theorem resolved_once_iff {events : List Event} (ht : exec (step digest) {} events = some t)
    (hend : ∀ (i : ℕ) (l : Launch), t.launches[i]? = some l → l.exited = true ∧ l.waited = true) :
    (∀ (i : ℕ) (l : Launch), t.launches[i]? = some l → l.resolved.length = 1) ↔
      Always (step digest) KeepsOpen {} events := by
  constructor
  · intro hall
    by_contra hkeep
    obtain ⟨i, -, l, hl, -, hnil⟩ := exists_lost inv_init ht hkeep
    have hone := hall i l hl
    rw [hnil] at hone
    cases hone
  · intro hkeep i l hl
    exact resolved_of_waited ht hkeep hl (hend i l hl).2

end Cognis.Extension.Launching
