/-
  The soft deadline of a tool call: a stage gate looks at the clock, and a stage that it
  admits runs to its end.

  `CallRun` is the surroundings of a call: the clock, the cancellation token and the engine,
  by the position in the call. Where the soft limit runs out is a matter of the clock and of
  the call without soft limit.

  * `noLateCall_iff`: no call starts late exactly when the soft limit runs out at a gate that
    leads to no call;
  * `ToolCall.respectsDeadline_iff`: the same for every tool, with its response.
-/
import Cognis.Mcp.Stages

namespace Cognis

/-- What a call runs in. The `n`-th request starts at the elapsed time `clock n`. -/
structure CallRun where
  clock : ℕ → ℕ
  monotone : Monotone clock
  cancelled : ℕ → Bool
  stays : ∀ m n, m ≤ n → cancelled m = true → cancelled n = true
  engine : ℕ → (c : EngineCall) → c.Answer

namespace CallRun

variable (r : CallRun) (caps : Caps)

/-- The answers that a call gets. -/
def answer (n : ℕ) : (op : ToolOp) → op.Answer
  | .gate tool => stageGate caps (r.clock n) (r.cancelled n) tool
  | .call c => r.engine n c

/-- The answers without the soft limit. -/
def answerUnlimited (n : ℕ) : (op : ToolOp) → op.Answer
  | .gate tool => (stageGate caps (r.clock n) (r.cancelled n) tool).map fun _ => .cont
  | .call c => r.engine n c

/-- The soft limit has been reached at the `n`-th request. -/
def Late (n : ℕ) : Prop := caps.softTimeout ≤ r.clock n

/-- A gate refuses the call at the `n`-th request. -/
def Refused (n : ℕ) : Prop := r.cancelled n = true ∨ caps.hardTimeout ≤ r.clock n

instance decidableLate : DecidablePred (r.Late caps) := fun _ => inferInstanceAs (Decidable (_ ≤ _))

instance decidableRefused : DecidablePred (r.Refused caps) := fun _ =>
  inferInstanceAs (Decidable (_ ∨ _))

end CallRun

/-! ## Responses -/

/-- Whether a gate has truncated (`ctx.truncated()`). -/
def isTruncated (t : List (Prog.Event ToolOp.Answer)) : Bool :=
  t.any fun
    | ⟨.gate _, .ok .truncate⟩ => true
    | _ => false

/-- The number of gates. -/
def gateCount (t : List (Prog.Event ToolOp.Answer)) : ℕ :=
  t.countP fun
    | ⟨.gate _, _⟩ => true
    | ⟨.call _, _⟩ => false

/-- A response that is no error: the payload with the metadata of `wrap_tool_result`. -/
structure ToolResponse where
  result : ToolResult
  info : SnapshotInfo
  semanticAvailable : Bool
  truncated : Bool

/-- The response of a call, unless it is an error. -/
def respond (t : List (Prog.Event ToolOp.Answer)) :
    Except ToolFailure (ToolOutput × SnapshotInfo) → Option ToolResponse
  | .ok (output, info) => some ⟨output.result, info, output.semanticIncluded, isTruncated t⟩
  | .error _ => none

/-! ## Runs -/

namespace CallRun

variable {α : Type} (r : CallRun) (caps : Caps)

/-- No call starts late. -/
def NoLateCall (n : ℕ) (p : ToolProg α) : Prop :=
  ∀ i c a, (p.trace (r.answer caps) n)[i]? = some ⟨.call c, a⟩ → ¬ r.Late caps (n + i)

/-- What it means for the soft limit to run out at an operation of the call without soft
    limit: not at a call, and at a gate only when another one refuses in time. -/
def RunsOutAt (f : ℕ → Option ℕ) (g i : ℕ) (t : List (Prog.Event ToolOp.Answer)) (n : ℕ) : Prop :=
  match t[i]? with
  | none => True
  | some ⟨.call _, _⟩ => False
  | some ⟨.gate _, _⟩ => ∀ d, f (g + gateCount (t.take i)) = some d → r.Refused caps (n + i + d)

/-- The first operation at which the soft limit has been reached is such a one. -/
def RunsOut (f : ℕ → Option ℕ) (g n : ℕ) (p : ToolProg α) : Prop :=
  ∀ i, (∀ j < i, ¬ r.Late caps (n + j)) → r.Late caps (n + i) →
    r.RunsOutAt caps f g i (p.trace (r.answerUnlimited caps) n) n

variable {r caps} {n : ℕ}

theorem Late.mono {m : ℕ} (h : r.Late caps m) (hmn : m ≤ n) : r.Late caps n :=
  Nat.le_trans h (r.monotone hmn)

theorem Refused.mono {m : ℕ} (h : r.Refused caps m) (hmn : m ≤ n) : r.Refused caps n :=
  h.imp (r.stays m n hmn) fun h => Nat.le_trans h (r.monotone hmn)

/-- A gate of a refused call. -/
theorem stageGate_refused (tool : String) (h : r.Refused caps n) :
    ∃ e, stageGate caps (r.clock n) (r.cancelled n) tool = .error e := by
  unfold stageGate
  by_cases hc : r.cancelled n = true
  · exact ⟨_, if_pos hc⟩
  · rw [if_neg hc, if_pos (h.resolve_left hc)]
    exact ⟨_, rfl⟩

theorem stageGate_late (tool : String) (hr : ¬ r.Refused caps n) (hl : r.Late caps n) :
    stageGate caps (r.clock n) (r.cancelled n) tool = .ok .truncate := by
  unfold stageGate
  rw [if_neg fun h => hr (.inl h), if_neg fun h => hr (.inr h)]
  exact if_pos hl

theorem stageGate_early (tool : String) (hr : ¬ r.Refused caps n) (hl : ¬ r.Late caps n) :
    stageGate caps (r.clock n) (r.cancelled n) tool = .ok .cont := by
  unfold stageGate
  rw [if_neg fun h => hr (.inl h), if_neg fun h => hr (.inr h)]
  exact if_neg hl

section
variable {c : EngineCall} {tool : String} {f : ℕ → Option ℕ} {g : ℕ}

theorem noLateCall_done (a : α) : r.NoLateCall caps n (.done a) := by
  intro i c a h
  simp [Prog.trace] at h

theorem noLateCall_fail (e : ToolFailure) : r.NoLateCall caps n (.fail e : ToolProg α) := by
  intro i c a h
  simp [Prog.trace] at h

theorem noLateCall_call (k : (ToolOp.call c).Answer → ToolProg α) :
    r.NoLateCall caps n (.ask (.call c) k) ↔
    ¬ r.Late caps n ∧ r.NoLateCall caps (n + 1) (k (r.engine n c)) := by
  constructor
  · intro h
    refine ⟨h 0 c _ rfl, fun i c' a hi => ?_⟩
    rw [Nat.add_right_comm]
    exact h (i + 1) c' a hi
  · rintro ⟨h₀, h⟩ (_ | i) c' a hi
    · exact h₀
    · have hlate := h i c' a hi
      rwa [Nat.add_right_comm] at hlate

theorem noLateCall_gate (k : (ToolOp.gate tool).Answer → ToolProg α) :
    r.NoLateCall caps n (.ask (.gate tool) k) ↔ r.NoLateCall caps (n + 1)
      (k (stageGate caps (r.clock n) (r.cancelled n) tool)) := by
  constructor
  · intro h i c' a hi
    rw [Nat.add_right_comm]
    exact h (i + 1) c' a hi
  · rintro h (_ | i) c' a hi
    · cases hi
    · have hlate := h i c' a hi
      rwa [Nat.add_right_comm] at hlate

theorem runsOut_done (a : α) : r.RunsOut caps f g n (.done a) := fun _ _ _ => trivial

theorem runsOut_fail (e : ToolFailure) : r.RunsOut caps f g n (.fail e : ToolProg α) :=
  fun _ _ _ => trivial

/-- An operation further. -/
theorem runsOutAt_succ {t : List (Prog.Event ToolOp.Answer)} {event : Prog.Event ToolOp.Answer}
    {i : ℕ} : r.RunsOutAt caps f g (i + 1) (event :: t) n ↔
      r.RunsOutAt caps f (g + gateCount [event]) i t (n + 1) := by
  unfold RunsOutAt
  have hcount : gateCount ((event :: t).take (i + 1)) = gateCount [event] + gateCount (t.take i) := by
    rw [List.take_succ_cons, gateCount, gateCount, gateCount, ← List.countP_append]
    rfl
  rw [List.getElem?_cons_succ, hcount, ← Nat.add_assoc, Nat.add_right_comm n 1 i]
  rfl

theorem runsOut_of_early {op : ToolOp} (k : op.Answer → ToolProg α) (hearly : ¬ r.Late caps n) :
    r.RunsOut caps f g n (.ask op k) ↔
      r.RunsOut caps f (g + gateCount [⟨op, r.answerUnlimited caps n op⟩]) (n + 1)
        (k (r.answerUnlimited caps n op)) := by
  constructor
  · intro h i hi hl
    rw [Nat.add_right_comm] at hl
    refine runsOutAt_succ.1 (h (i + 1) (fun j hj => ?_) hl)
    rcases j with _ | j
    · exact hearly
    · have hj' := hi j (by omega)
      rwa [Nat.add_right_comm] at hj'
  · rintro h (_ | i) hi hl
    · exact absurd hl hearly
    · refine runsOutAt_succ.2 (h i (fun j hj => ?_) ?_)
      · rw [Nat.add_right_comm]
        exact hi (j + 1) (by omega)
      · rw [Nat.add_right_comm]
        exact hl

theorem runsOut_of_late {p : ToolProg α} (hlate : r.Late caps n) :
    r.RunsOut caps f g n p ↔ r.RunsOutAt caps f g 0 (p.trace (r.answerUnlimited caps) n) n := by
  constructor
  · exact fun h => h 0 (fun j hj => absurd hj (Nat.not_lt_zero j)) hlate
  · rintro h (_ | i) hi -
    · exact h
    · exact absurd hlate (hi 0 (Nat.succ_pos i))

/-- Once the limit has been reached, a call starts when no gate before it refuses. -/
theorem noLateCall_of_late {p : ToolProg α} (hp : p.Strict) (hlate : r.Late caps n) :
    r.NoLateCall caps n p ↔ ∀ d, p.slack = some d → ∃ j < d, r.Refused caps (n + j) := by
  induction p generalizing n with
  | done a => exact iff_of_true (noLateCall_done a) fun d hd => by cases hd
  | fail e => exact iff_of_true (noLateCall_fail e) fun d hd => by cases hd
  | ask op k ih =>
    cases op with
    | call c =>
      rw [noLateCall_call]
      refine iff_of_false (fun h => h.1 hlate) fun h => ?_
      obtain ⟨j, hj, -⟩ := h 0 rfl
      exact absurd hj (Nat.not_lt_zero j)
    | gate tool =>
      obtain ⟨herror, htrunc, -⟩ := hp
      rw [noLateCall_gate]
      by_cases hr : r.Refused caps n
      · obtain ⟨e, he⟩ := stageGate_refused tool hr
        rw [he, herror]
        refine iff_of_true (noLateCall_fail _) fun d hd => ⟨0, ?_, hr⟩
        obtain ⟨d', -, rfl⟩ := Option.map_eq_some_iff.1 hd
        exact Nat.succ_pos d'
      · rw [stageGate_late tool hr hlate, ih (n := n + 1) _ htrunc (hlate.mono (Nat.le_succ n))]
        constructor
        · intro h d hd
          obtain ⟨d', hd', rfl⟩ := Option.map_eq_some_iff.1 hd
          obtain ⟨j, hj, hrj⟩ := h d' hd'
          rw [Nat.add_right_comm] at hrj
          exact ⟨j + 1, by omega, hrj⟩
        · intro h d hd
          obtain ⟨j, hj, hrj⟩ := h (d + 1) (Option.map_eq_some_iff.2 ⟨d, hd, rfl⟩)
          rcases j with _ | j
          · exact absurd hrj hr
          · refine ⟨j, by omega, ?_⟩
            rw [Nat.add_right_comm]
            exact hrj

/-- **No call starts late** exactly when the soft limit runs out at a gate that leads to no
    call. -/
theorem noLateCall_iff {p : ToolProg α} (hp : p.Strict) (hs : p.Spaced f g) :
    r.NoLateCall caps n p ↔ r.RunsOut caps f g n p := by
  induction p generalizing n g with
  | done a => exact iff_of_true (noLateCall_done a) (runsOut_done a)
  | fail e => exact iff_of_true (noLateCall_fail e) (runsOut_fail e)
  | ask op k ih =>
    by_cases hlate : r.Late caps n
    · rw [noLateCall_of_late hp hlate, runsOut_of_late hlate]
      cases op with
      | call c =>
        refine iff_of_false (fun h => ?_) id
        obtain ⟨j, hj, -⟩ := h 0 rfl
        exact absurd hj (Nat.not_lt_zero j)
      | gate tool =>
        -- the gates that follow are at the next positions
        have hrefused : ∀ d, (∃ j < d + 1, r.Refused caps (n + j)) ↔ r.Refused caps (n + d) :=
          fun d => ⟨fun ⟨j, hj, hr⟩ => hr.mono (by omega), fun hr => ⟨d, Nat.lt_succ_self d, hr⟩⟩
        show (∀ d, (ToolProg.slack (k (.ok .truncate))).map (· + 1) = some d → _) ↔
          ∀ d, f (g + 0) = some d → r.Refused caps (n + 0 + d)
        rw [hs.1]
        constructor
        · intro h d hd
          exact (hrefused d).1 (h (d + 1) (Option.map_eq_some_iff.2 ⟨d, hd, rfl⟩))
        · intro h d hd
          obtain ⟨d', hd', rfl⟩ := Option.map_eq_some_iff.1 hd
          exact (hrefused d').2 (h d' hd')
    · rw [runsOut_of_early k hlate]
      cases op with
      | call c =>
        rw [noLateCall_call, and_iff_right hlate]
        exact ih _ (hp _) (hs _)
      | gate tool =>
        obtain ⟨herror, -, hcont⟩ := hp
        rw [noLateCall_gate]
        by_cases hr : r.Refused caps n
        · obtain ⟨e, he⟩ := stageGate_refused tool hr
          have hu : r.answerUnlimited caps n (.gate tool) = .error e := by
            rw [answerUnlimited, he]
            rfl
          rw [he, hu, herror]
          exact iff_of_true (noLateCall_fail _) (runsOut_fail _)
        · have he := stageGate_early tool hr hlate
          have hu : r.answerUnlimited caps n (.gate tool) = .ok .cont := by
            rw [answerUnlimited, he]
            rfl
          rw [he, hu]
          exact ih _ hcont hs.2

end

end CallRun

/-! ## The deadline of a call -/

namespace CallRun

variable {α : Type} (r : CallRun) (caps : Caps)

/-- A gate is passed late: its stage is skipped, or the call is refused. -/
def LateGate (n : ℕ) (t : List (Prog.Event ToolOp.Answer)) : Prop :=
  ∃ i tool a, t[i]? = some ⟨.gate tool, a⟩ ∧ r.Late caps (n + i)

variable {r caps} {n : ℕ}

theorem lateGate_cons {event : Prog.Event ToolOp.Answer} {t : List (Prog.Event ToolOp.Answer)} :
    r.LateGate caps n (event :: t) ↔
      (∃ tool a, event = ⟨.gate tool, a⟩) ∧ r.Late caps n ∨ r.LateGate caps (n + 1) t := by
  constructor
  · rintro ⟨_ | i, tool, a, hi, hl⟩
    · exact .inl ⟨⟨tool, a, Option.some.inj hi⟩, hl⟩
    · refine .inr ⟨i, tool, a, hi, ?_⟩
      rw [Nat.add_right_comm]
      exact hl
  · rintro (⟨⟨tool, a, rfl⟩, hl⟩ | ⟨i, tool, a, hi, hl⟩)
    · exact ⟨0, tool, a, rfl, hl⟩
    · rw [Nat.add_right_comm] at hl
      exact ⟨i + 1, tool, a, hi, hl⟩

/-- In a run that ends with a value, the gates that truncate are the late ones. -/
theorem isTruncated_iff {p : ToolProg α} (hp : p.Strict) {a : α}
    (h : p.outcome (r.answer caps) n = .ok a) :
    isTruncated (p.trace (r.answer caps) n) = true ↔
      r.LateGate caps n (p.trace (r.answer caps) n) := by
  induction p generalizing n with
  | done a =>
    refine iff_of_false Bool.false_ne_true ?_
    rintro ⟨i, tool, a, hi, -⟩
    cases hi
  | fail e => cases h
  | ask op k ih =>
    rw [Prog.trace, lateGate_cons]
    cases op with
    | call c =>
      rw [or_iff_right fun hcall => by obtain ⟨⟨tool, a, ha⟩, -⟩ := hcall; cases ha]
      exact ih _ (hp _) h
    | gate tool =>
      obtain ⟨herror, htrunc, hcont⟩ := hp
      by_cases hr : r.Refused caps n
      · obtain ⟨e, he⟩ := stageGate_refused tool hr
        have hout : Prog.outcome (r.answer caps) (n + 1) (k (.error e)) = .ok a := he ▸ h
        rw [herror] at hout
        cases hout
      · by_cases hlate : r.Late caps n
        · have ha : r.answer caps n (.gate tool) = .ok .truncate := stageGate_late tool hr hlate
          rw [ha]
          exact iff_of_true rfl (.inl ⟨⟨tool, _, rfl⟩, hlate⟩)
        · have ha : r.answer caps n (.gate tool) = .ok .cont := stageGate_early tool hr hlate
          rw [or_iff_right fun hgate => hlate hgate.2]
          rw [Prog.outcome, ha] at h
          rw [ha]
          exact ih _ hcont h

end CallRun

/-- A tool call in its surroundings. -/
structure ToolCall where
  tb : Toolbox
  name : String
  args : Json
  run : CallRun

namespace ToolCall

variable (c : ToolCall)

def program : ToolProg (ToolOutput × SnapshotInfo) := Tools.callTool c.tb c.name c.args

/-- The requests of the call and their answers. -/
def events : List (Prog.Event ToolOp.Answer) := c.program.trace (c.run.answer c.tb.caps) 0

def response : Option ToolResponse :=
  respond c.events (c.program.outcome (c.run.answer c.tb.caps) 0)

/-- The soft limit has been reached at the `n`-th request. -/
def Late (n : ℕ) : Prop := c.run.Late c.tb.caps n

/-- No call of the engine or the snapshot starts late, and a response is marked as truncated
    when a gate has been passed late. -/
structure RespectsDeadline : Prop where
  noLateCall : ∀ i call a, c.events[i]? = some ⟨.call call, a⟩ → ¬ c.Late i
  truncated : ∀ response, c.response = some response →
    (response.truncated = true ↔ ∃ i tool a, c.events[i]? = some ⟨.gate tool, a⟩ ∧ c.Late i)

/-- What the call does without the soft limit. -/
def unlimited : List (Prog.Event ToolOp.Answer) :=
  c.program.trace (c.run.answerUnlimited c.tb.caps) 0

/-- When the soft limit runs out, the call is over or at a gate; and if it is the one for a
    capsule, it is refused at that gate or at one that precedes the next call. -/
def RunsOutAtGate : Prop :=
  ∀ i, (∀ j < i, ¬ c.Late j) → c.Late i →
    match c.unlimited[i]? with
    | none => True
    | some ⟨.call _, _⟩ => False
    | some ⟨.gate _, _⟩ => c.name = "retrieve_context_capsule" →
      c.run.Refused c.tb.caps (i + (2 - gateCount (c.unlimited.take i)))

theorem runsOutAt_iff (i : ℕ) :
    c.run.RunsOutAt c.tb.caps (Tools.toolSlack c.name) 0 i c.unlimited 0 ↔
      match c.unlimited[i]? with
      | none => True
      | some ⟨.call _, _⟩ => False
      | some ⟨.gate _, _⟩ => c.name = "retrieve_context_capsule" →
        c.run.Refused c.tb.caps (i + (2 - gateCount (c.unlimited.take i))) := by
  unfold CallRun.RunsOutAt
  rcases c.unlimited[i]? with _ | ⟨_ | call, a⟩
  · exact Iff.rfl
  · simp only [Tools.toolSlack, Nat.zero_add]
    by_cases hname : c.name = "retrieve_context_capsule"
    · simp [hname]
    · simp [hname]
  · exact Iff.rfl

/-- **The soft deadline is respected** exactly when it runs out at a gate. -/
theorem respectsDeadline_iff : c.RespectsDeadline ↔ c.RunsOutAtGate := by
  have hgated := Tools.gated_callTool c.tb c.args c.name
  have htrunc : ∀ response, c.response = some response →
      (response.truncated = true ↔ ∃ i tool a, c.events[i]? = some ⟨.gate tool, a⟩ ∧ c.Late i) := by
    intro response h
    unfold ToolCall.response respond at h
    split at h
    · next output info hout =>
      cases h
      have hflag := CallRun.isTruncated_iff hgated.strict hout
      simp only [CallRun.LateGate, Nat.zero_add] at hflag
      exact hflag
    · cases h
  have hcalls : (∀ i call a, c.events[i]? = some ⟨.call call, a⟩ → ¬ c.Late i) ↔
      c.RunsOutAtGate := by
    have h : c.run.NoLateCall c.tb.caps 0 c.program ↔
        c.run.RunsOut c.tb.caps (Tools.toolSlack c.name) 0 0 c.program :=
      CallRun.noLateCall_iff hgated.strict hgated.spaced
    simp only [CallRun.NoLateCall, CallRun.RunsOut, Nat.zero_add] at h
    refine h.trans (forall_congr' fun i => imp_congr_right fun _ => imp_congr_right fun _ => ?_)
    exact c.runsOutAt_iff i
  exact ⟨fun h => hcalls.1 h.noLateCall, fun h => ⟨hcalls.2 h, htrunc⟩⟩

end ToolCall

namespace DeadlineExample

/-- An engine that finds nothing. -/
def emptyEngine (_ : ℕ) : (c : EngineCall) → c.Answer
  | .openSnapshot => .ok ⟨1, 1, 0⟩
  | .ftsSearch _ _ | .semanticSearch _ _ | .diffuse _ _ _ _ | .dependencyTrace _ _ _ => .ok []
  | .hydrate _ => .ok []
  | .lookup _ _ => .ok none
  | .residentCodeGraph => .ok (CodeGraph.fromWeightedTriples [] [] true)
  | .semanticAvailable | .integrationEdgeContext => false
  | .symbolIdsInFile _ => .ok []
  | .edgesIncident _ _ => .ok []

/-- The snapshot is opened at once, and takes until the soft limit. -/
def run : CallRun where
  clock n := if n = 0 then 0 else 5 * 10 ^ 9
  monotone m n hmn := by
    dsimp only
    split_ifs <;> omega
  cancelled _ := false
  stays _ _ _ h := h
  engine := emptyEngine

def capsuleCall : ToolCall := ⟨default, "retrieve_context_capsule", .object [("task", .string "a")], run⟩

end DeadlineExample

open DeadlineExample in
/-- All three gates before it truncate, and the engine is asked for the edge context. -/
theorem not_respectsDeadline : ¬ ∀ c : ToolCall, c.RespectsDeadline := by
  intro h
  exact (h capsuleCall).noLateCall 4 .integrationEdgeContext false rfl (Nat.le_refl (5 * 10 ^ 9))

end Cognis
