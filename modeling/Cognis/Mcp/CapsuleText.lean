/-
  The compressed context of `retrieve_context_capsule` (`tools.rs`): the concatenated texts
  of the relevant symbols, cut by a number of bytes.

  * `truncateText_eq_some`: `String::truncate` cuts where a character ends;
  * `Assembles` is what a capsule promises of its context, `AtBoundary` what the cut needs;
  * `assembles_iff`: the one exactly with the other, and no run ends in another panic.
-/
import Cognis.Mcp.Tools

namespace Cognis

/-! ## The cut -/

/-- The number of bytes of a text. -/
def byteSize (text : List Char) : ℕ := (text.map Char.utf8Size).sum

theorem byteSize_cons (c : Char) (text : List Char) :
    byteSize (c :: text) = c.utf8Size + byteSize text := by
  simp [byteSize]

theorem byteSize_append (text rest : List Char) :
    byteSize (text ++ rest) = byteSize text + byteSize rest := by
  simp [byteSize]

theorem byteSize_replicate (n : ℕ) (c : Char) : byteSize (List.replicate n c) = n * c.utf8Size := by
  simp [byteSize]

theorem utf8ByteSize_ofList (text : List Char) : (String.ofList text).utf8ByteSize = byteSize text := by
  induction text with
  | nil => simp [byteSize]
  | cons c text ih =>
    have hsplit : String.ofList (c :: text) = String.singleton c ++ String.ofList text := by
      rw [String.singleton_eq_ofList, ← String.ofList_append, List.singleton_append]
    rw [hsplit, String.utf8ByteSize_append, String.utf8ByteSize_singleton, ih, byteSize_cons]

theorem byteSize_toList (s : String) : byteSize s.toList = s.utf8ByteSize := by
  rw [← utf8ByteSize_ofList, String.ofList_toList]

/-- The cut is at a character boundary: the whole text fits, or a part of it has exactly the
    given size. -/
def AtBoundary (cap : ℕ) (text : String) : Prop :=
  text.utf8ByteSize ≤ cap ∨ ∃ kept, kept <+: text.toList ∧ byteSize kept = cap

namespace Tools

theorem truncateText_cons (cap : ℕ) (c : Char) (text : List Char) :
    truncateText (cap + 1) (c :: text) = if c.utf8Size ≤ cap + 1 then
      (truncateText (cap + 1 - c.utf8Size) text).map (c :: ·) else none := rfl

/-- A cut text is the part of the given size, or the whole text. -/
theorem truncateText_eq_some {cap : ℕ} {text kept : List Char}
    (h : truncateText cap text = some kept) :
    kept <+: text ∧ (byteSize kept = cap ∨ kept = text ∧ byteSize text ≤ cap) := by
  induction text generalizing cap kept with
  | nil =>
    cases cap with
    | zero =>
      obtain rfl : [] = kept := Option.some.inj h
      exact ⟨List.nil_prefix, .inl rfl⟩
    | succ cap =>
      obtain rfl : [] = kept := Option.some.inj h
      exact ⟨List.nil_prefix, .inr ⟨rfl, Nat.zero_le _⟩⟩
  | cons c text ih =>
    cases cap with
    | zero =>
      obtain rfl : [] = kept := Option.some.inj h
      exact ⟨List.nil_prefix, .inl rfl⟩
    | succ cap =>
      rw [truncateText_cons] at h
      split_ifs at h with hfit
      obtain ⟨rest, hrest, rfl⟩ := Option.map_eq_some_iff.1 h
      obtain ⟨hpart, hsize⟩ := ih hrest
      refine ⟨List.cons_prefix_cons.2 ⟨rfl, hpart⟩, ?_⟩
      rw [byteSize_cons, byteSize_cons]
      rcases hsize with hsize | ⟨rfl, hsize⟩
      · exact .inl (by omega)
      · exact .inr ⟨rfl, by omega⟩

/-- The cut goes on after a part that fits. -/
theorem truncateText_append (kept text : List Char) (cap : ℕ) :
    truncateText (byteSize kept + cap) (kept ++ text) = (truncateText cap text).map (kept ++ ·) := by
  induction kept with
  | nil => simp [byteSize]
  | cons c kept ih =>
    have hpos := c.utf8Size_pos
    obtain ⟨n, hn⟩ : ∃ n, byteSize (c :: kept) + cap = n + 1 :=
      ⟨byteSize (c :: kept) + cap - 1, by rw [byteSize_cons]; omega⟩
    rw [byteSize_cons] at hn
    have hfit : c.utf8Size ≤ n + 1 := by omega
    have hrest : n + 1 - c.utf8Size = byteSize kept + cap := by omega
    rw [byteSize_cons, hn, List.cons_append, truncateText_cons, if_pos hfit, hrest, ih,
      Option.map_map]
    rfl

/-- A part of the given size is cut off. -/
theorem truncateText_part {kept text : List Char} (h : kept <+: text) :
    truncateText (byteSize kept) text = some kept := by
  obtain ⟨rest, rfl⟩ := h
  have happend := truncateText_append kept rest 0
  have hzero : truncateText 0 rest = some [] := by cases rest <;> rfl
  rwa [Nat.add_zero, hzero, Option.map_some, List.append_nil] at happend

/-- An odd number of bytes ends inside a letter of two bytes. -/
theorem truncateText_odd {c : Char} (hc : c.utf8Size = 2) {n m : ℕ} (h : n < m)
    (text : List Char) : truncateText (2 * n + 1) (List.replicate m c ++ text) = none := by
  induction n generalizing m with
  | zero =>
    obtain ⟨m, rfl⟩ : ∃ k, m = k + 1 := ⟨m - 1, by omega⟩
    rw [List.replicate_succ, List.cons_append, truncateText_cons, if_neg (by omega)]
  | succ n ih =>
    obtain ⟨m, rfl⟩ : ∃ k, m = k + 1 := ⟨m - 1, by omega⟩
    have hrest : 2 * (n + 1) + 1 - c.utf8Size = 2 * n + 1 := by omega
    rw [List.replicate_succ, List.cons_append, truncateText_cons, if_pos (by omega), hrest,
      ih (by omega)]
    rfl

section
variable (tb : Toolbox)

/-- The entries of a capsule. -/
def relevantSymbols (composed : List Hit) (symbols : List Symbol) (edges : List Edge) :
    List RelevantSymbol :=
  composed.filterMap fun h => (Table.lookup Symbol.id symbols h.symbolId).map
    (relevantSymbol (tb.analyses.workspaceComplexity symbols edges) h)

/-- The full concatenation. -/
def fullContext (composed : List Hit) (symbols : List Symbol) (edges : List Edge) : String :=
  String.join ((relevantSymbols tb composed symbols edges).map contextText)

/-- `max_tokens` -/
def tokenBudget (args : Json) : ℕ := tb.caps.clampTokens ((argI64 tb args "max_tokens").getD 8000)

end

/-- The outcome is a capsule, whose context is a part of the concatenation, from its start,
    and keeps to the budget of bytes and of tokens. -/
def Assembles (maxTokens : ℕ) (context : String) (r : Except ToolFailure ToolOutput) : Prop :=
  ∃ out c, r = .ok out ∧ out.result = .capsule c ∧ c.compressedContext.toList <+: context.toList ∧
    c.compressedContext.utf8ByteSize ≤ 4 * maxTokens ∧ c.tokenEstimate ≤ maxTokens

/-- The text after the cut. -/
def cut (cap : ℕ) (text : String) : Option (List Char) :=
  if text.utf8ByteSize ≤ cap then some text.toList else truncateText cap text.toList

theorem cut_eq_some {cap : ℕ} {text : String} {kept : List Char} (h : cut cap text = some kept) :
    AtBoundary cap text ∧ kept <+: text.toList ∧ byteSize kept ≤ cap := by
  unfold cut at h
  split_ifs at h with hfit
  · obtain rfl : text.toList = kept := Option.some.inj h
    exact ⟨.inl hfit, List.prefix_rfl, by rwa [byteSize_toList]⟩
  · obtain ⟨hpart, hsize | ⟨rfl, hsize⟩⟩ := truncateText_eq_some h
    · exact ⟨.inr ⟨kept, hpart, hsize⟩, hpart, hsize.le⟩
    · rw [byteSize_toList] at hsize
      exact absurd hsize hfit

theorem not_atBoundary_of_cut {cap : ℕ} {text : String} (h : cut cap text = none) :
    ¬ AtBoundary cap text := by
  unfold cut at h
  split_ifs at h with hfit
  rintro (hle | ⟨kept, hpart, rfl⟩)
  · exact hfit hle
  · rw [truncateText_part hpart] at h
    cases h

theorem composeContext_assembles_iff {tb : Toolbox} {task : String} {maxTokens : ℕ}
    {composed : List Hit} {symbols : List Symbol} {edges : List Edge} {t}
    {r : Except ToolFailure ToolOutput}
    (h : (composeContext tb task maxTokens composed symbols edges).Runs t r) :
    Assembles maxTokens (fullContext tb composed symbols edges) r ↔
      AtBoundary (maxTokens * 4) (fullContext tb composed symbols edges) := by
  unfold composeContext at h
  dsimp only at h
  split at h
  · next hcut =>
    obtain ⟨-, rfl⟩ := h
    refine iff_of_false ?_ (not_atBoundary_of_cut hcut)
    rintro ⟨out, c, hout, -⟩
    cases hout
  · next kept hcut =>
    have hcut' : cut (maxTokens * 4) (fullContext tb composed symbols edges) = some kept := hcut
    obtain ⟨hboundary, hpart, hsize⟩ := cut_eq_some hcut'
    obtain ⟨-, rfl⟩ := h
    refine iff_of_true ⟨_, _, rfl, rfl, ?_, ?_, min_le_right _ _⟩ hboundary
    · rwa [String.toList_ofList]
    · rw [utf8ByteSize_ofList]
      omega

theorem exists_runs_composeContext (tb : Toolbox) (task : String) (maxTokens : ℕ)
    (composed : List Hit) (symbols : List Symbol) (edges : List Edge) :
    ∃ r, (composeContext tb task maxTokens composed symbols edges).Runs [] r := by
  unfold composeContext
  dsimp only
  split
  · exact ⟨_, rfl, rfl⟩
  · exact ⟨_, rfl, rfl⟩

theorem composeContext_panics {tb : Toolbox} (task : String) {maxTokens : ℕ}
    {composed : List Hit} {symbols : List Symbol} {edges : List Edge}
    (h : cut (maxTokens * 4) (fullContext tb composed symbols edges) = none) :
    (composeContext tb task maxTokens composed symbols edges).Runs [] (.error .panicked) := by
  unfold composeContext
  dsimp only
  split
  · exact ⟨rfl, rfl⟩
  · next kept hcut => exact absurd (h.symm.trans hcut) (by simp)

/-! ## The runs of the tool -/

/-- The program ends with a result or an error. -/
def NoPanic {α : Type} (p : ToolProg α) : Prop :=
  ∀ t e, p.Runs t (.error e) → ∃ error, e = .error error

theorem noPanic_done {α : Type} (a : α) : NoPanic (.done a : ToolProg α) := by
  rintro t e ⟨-, he⟩
  cases he

theorem noPanic_error {α : Type} (error : McpError) :
    NoPanic (.fail (.error error) : ToolProg α) := by
  rintro t e ⟨-, he⟩
  exact ⟨error, Except.error.inj he⟩

theorem noPanic_ask {α : Type} {q : ToolOp} {k : q.Answer → ToolProg α}
    (h : ∀ a, NoPanic (k a)) : NoPanic (.ask q k) := by
  rintro t e ⟨a, t', -, hr⟩
  exact h a t' e hr

theorem noPanic_bind {α β : Type} {p : ToolProg α} {f : α → ToolProg β} (hp : NoPanic p)
    (hf : ∀ a, NoPanic (f a)) : NoPanic (p >>= f) := by
  intro t e hr
  rcases Prog.Runs.bind hr with ⟨-, t₂, a, -, -, hr⟩ | ⟨e', hr, heq⟩
  · exact hf a t₂ e hr
  · obtain rfl := Except.error.inj heq
    exact hp t e hr

theorem noPanic_ofEngine {α : Type} (r : EngineResult α) : NoPanic (ToolProg.ofEngine r) := by
  cases r with
  | ok a => exact noPanic_done a
  | error e => exact noPanic_error _

theorem noPanic_stage {α : Type} {tool : String} {p : ToolProg α} {skipped : α}
    (h : NoPanic p) : NoPanic (ToolProg.stage tool p skipped) := by
  refine noPanic_ask ?_
  rintro (e | _ | _)
  · exact noPanic_error e
  · exact h
  · exact noPanic_done _

theorem noPanic_requireStr (args : Json) (key : String) : NoPanic (requireStr args key) := by
  unfold requireStr
  split
  · split_ifs
    · exact noPanic_error _
    · exact noPanic_done _
  · exact noPanic_error _

/-- A run goes on with the second program, unless the first one ends in an error. -/
theorem runs_bind {α β : Type} {p : ToolProg α} {f : α → ToolProg β} (hp : NoPanic p) {t}
    {r : Except ToolFailure β} (h : (p >>= f).Runs t r) :
    (∃ e, r = .error (.error e)) ∨ ∃ a t', (f a).Runs t' r := by
  rcases Prog.Runs.bind h with ⟨-, t', a, -, -, hr⟩ | ⟨e, hr, rfl⟩
  · exact .inr ⟨a, t', hr⟩
  · obtain ⟨error, rfl⟩ := hp t e hr
    exact .inl ⟨error, rfl⟩

theorem exists_runs_bind {α β : Type} {p : ToolProg α} {f : α → ToolProg β} {a : α}
    {r : Except ToolFailure β} (hp : ∃ t, p.Runs t (.ok a)) (hf : ∃ t, (f a).Runs t r) :
    ∃ t, (p >>= f).Runs t r := by
  obtain ⟨t, hp⟩ := hp
  obtain ⟨t', hf⟩ := hf
  exact ⟨t ++ t', hp.append hf⟩

theorem exists_runs_stage {α : Type} {tool : String} {p : ToolProg α} {skipped a : α}
    (hp : ∃ t, p.Runs t (.ok a)) : ∃ t, (ToolProg.stage tool p skipped).Runs t (.ok a) := by
  obtain ⟨t, hp⟩ := hp
  exact ⟨_, .ok .cont, t, rfl, hp⟩

/-- A run of the tool ends in an error of a gate, of the engine or of the arguments, or it
    composes a context. -/
theorem runs_retrieveContextCapsule {tb : Toolbox} {args : Json} {t}
    {r : Except ToolFailure ToolOutput} (h : (retrieveContextCapsule tb args).Runs t r) :
    (∃ e, r = .error (.error e)) ∨ ∃ task composed symbols edges t',
      (composeContext tb task (tokenBudget tb args) composed symbols edges).Runs t' r := by
  have hfts (query : String) (k : ℕ) : NoPanic (ToolProg.ftsSearch query k) :=
    noPanic_ask fun a => noPanic_ofEngine a
  have hsemantic (query : String) (k : ℕ) :
      NoPanic (ToolProg.semanticSearchIfAvailable query k) := by
    refine noPanic_ask ?_
    rintro (_ | _)
    · exact noPanic_done _
    · exact noPanic_ask fun a => noPanic_ofEngine a
  have hdiffuse (seeds : List (List Hit)) (k : ℕ) (alpha eps : ℚ) :
      NoPanic (ToolProg.diffuse seeds k alpha eps) := noPanic_ask fun a => noPanic_ofEngine a
  have hflag : NoPanic ToolProg.integrationEdgeContext := noPanic_ask fun a => noPanic_done a
  have hhydrate (ids : List String) : NoPanic (ToolProg.hydrateMap ids) :=
    noPanic_bind (noPanic_ask fun a => noPanic_ofEngine a) fun symbols => noPanic_done _
  have hedges (ids : List String) (direction : Direction) :
      NoPanic (ToolProg.edgesIncident ids direction) := by
    refine noPanic_ask ?_
    rintro (_ | _) <;> exact noPanic_done _
  unfold retrieveContextCapsule at h
  obtain he | ⟨task, t, h⟩ := runs_bind (noPanic_requireStr args "task") h
  · exact .inl he
  obtain he | ⟨lexical, t, h⟩ := runs_bind (noPanic_stage (hfts _ _)) h
  · exact .inl he
  obtain he | ⟨semantic, t, h⟩ := runs_bind (noPanic_stage (hsemantic _ _)) h
  · exact .inl he
  obtain he | ⟨csar, t, h⟩ := runs_bind (noPanic_stage (hdiffuse _ _ _ _)) h
  · exact .inl he
  obtain he | ⟨flag, t, h⟩ := runs_bind hflag h
  · exact .inl he
  obtain he | ⟨symbols, t, h⟩ := runs_bind (noPanic_stage (hhydrate _)) h
  · exact .inl he
  obtain he | ⟨edges, t, h⟩ := runs_bind (hedges _ _) h
  · exact .inl he
  exact .inr ⟨task, _, symbols, edges, t, h⟩

/-- **A context is assembled exactly when the cut is at a character boundary**, for every
    ranking, every set of symbols and every budget; and a run of the tool that ends in no
    error ends by assembling one. -/
theorem assembles_iff (tb : Toolbox) :
    (∀ (task : String) (maxTokens : ℕ) (composed : List Hit) (symbols : List Symbol)
      (edges : List Edge) t r,
      (composeContext tb task maxTokens composed symbols edges).Runs t r →
        (Assembles maxTokens (fullContext tb composed symbols edges) r ↔
          AtBoundary (maxTokens * 4) (fullContext tb composed symbols edges))) ∧
    ∀ (args : Json) t r, (retrieveContextCapsule tb args).Runs t r →
      (∃ e, r = .error (.error e)) ∨ ∃ task composed symbols edges t',
        (composeContext tb task (tokenBudget tb args) composed symbols edges).Runs t' r :=
  ⟨fun _ _ _ _ _ _ _ => composeContext_assembles_iff, fun _ _ _ => runs_retrieveContextCapsule⟩

end Tools

namespace CapsuleExample

/-- A function with a body. -/
def function (body : String) : Symbol :=
  { ShadowExample.function "lib.py" "f" "def f()" with bodyExcerpt := some body }

/-- The hit of the function. -/
def hit : Hit where
  symbolId := (function "").id
  score := 1
  layer := "csar"
  reason := ""

/-- The number of the call is read. -/
def toolbox : Toolbox :=
  { (default : Toolbox) with
    numbers := ⟨fun literal => if literal = "500" then some 500 else none, fun _ => none⟩ }

def args : Json := .object [("task", .string "f"), ("max_tokens", .number "500")]

/-- What stands before the body in the context, and after it. -/
def header : List Char := "// f [time: O(1), space: O(1)]\n".toList

def ending : List Char := "\n\n".toList

theorem contextText_function (body : String) :
    Tools.contextText (Tools.relevantSymbol (fun _ => none) hit (function body)) =
      "// " ++ "f" ++ " [time: " ++ "O(1)" ++ ", space: " ++ "O(1)" ++ "]\n" ++ body ++ "\n\n" := rfl

theorem fullContext_function (body : String) :
    Tools.fullContext toolbox [hit] [function body] [] =
      "// " ++ "f" ++ " [time: " ++ "O(1)" ++ ", space: " ++ "O(1)" ++ "]\n" ++ body ++ "\n\n" := by
  have hlookup : Table.lookup Symbol.id [function body] hit.symbolId = some (function body) := by
    simp [Table.lookup, hit, function]
  unfold Tools.fullContext Tools.relevantSymbols
  rw [List.filterMap_cons, hlookup, Option.map_some, List.filterMap_nil, List.map_cons,
    List.map_nil, show toolbox.analyses.workspaceComplexity [function body] [] = fun _ => none from rfl,
    contextText_function]
  simp [String.join]

theorem toList_fullContext (body : List Char) :
    (Tools.fullContext toolbox [hit] [function (String.ofList body)] []).toList =
      header ++ (body ++ ending) := by
  rw [fullContext_function]
  simp only [String.toList_append, String.toList_ofList, List.append_assoc]
  rfl

end CapsuleExample

open CapsuleExample Tools in
/-- A short body is assembled. -/
theorem assembles_iff_short :
    ∃ r, (composeContext default "f" 500 [hit] [function "return 1"] []).Runs [] r ∧
      Assembles 500 (fullContext default [hit] [function "return 1"] []) r := by
  obtain ⟨r, hr⟩ := exists_runs_composeContext default "f" 500 [hit] [function "return 1"] []
  exact ⟨r, hr, ((assembles_iff default).1 _ _ _ _ _ _ _ hr).2 (.inl (by decide +kernel))⟩

open Tools in
/-- The property for every run. -/
def ContextsAssemble : Prop :=
  ∀ (tb : Toolbox) (args : Json) t r, (retrieveContextCapsule tb args).Runs t r →
    (∃ e, r = .error (.error e)) ∨ ∃ composed symbols edges,
      Assembles (tokenBudget tb args) (fullContext tb composed symbols edges) r

open CapsuleExample Tools in
/-- A body of 1000 letters of two bytes: with a budget of 500 tokens the cut is inside one
    of them, and the tool panics. -/
theorem not_contextsAssemble : ¬ ContextsAssemble := by
  intro h
  have hrequire : requireStr args "task" = .done "f" := by
    have hstr : argStr args "task" = some "f" := by decide +kernel
    have hblank : Text.isBlank "f" = false := by decide +kernel
    unfold requireStr
    rw [hstr]
    dsimp only
    rw [hblank]
    rfl
  have hbudget : tokenBudget toolbox args = 500 := by decide +kernel
  have hcomposed (k : ℕ) : composeCapsuleWithEdges [[], []] [hit] [] (max k 1) defaultRrfK false =
      [hit] := by
    have hk : ¬ max k 1 = 0 := by omega
    have hfused : rrfFuse [[], []] (max k 1) defaultRrfK = [] := by
      unfold rrfFuse
      split_ifs
      · rfl
      · simp [groupByLayer]
    simp [composeCapsuleWithEdges, composeCapsule, hk, hfused, appendNew]
  have hbuild (sym : Symbol) : Table.build Symbol.id [sym] = [sym] := by
    simp [Table.build, Table.upsertAll, Table.upsert]
  obtain ⟨sym, hcut⟩ : ∃ sym, cut (tokenBudget toolbox args * 4)
      (fullContext toolbox [hit] [sym] []) = none := by
    refine ⟨function (String.ofList (List.replicate 1000 'é')), ?_⟩
    have hwidth : 'é'.utf8Size = 2 := by decide
    have hheader : byteSize header = 31 := by decide +kernel
    have hsize : ¬ byteSize (header ++ (List.replicate 1000 'é' ++ ending)) ≤ 500 * 4 := by
      rw [byteSize_append, byteSize_append, byteSize_replicate, hwidth, hheader]
      omega
    unfold cut
    rw [hbudget, ← byteSize_toList, toList_fullContext, if_neg hsize,
      show 500 * 4 = byteSize header + (2 * 984 + 1) by rw [hheader], truncateText_append,
      truncateText_odd hwidth (by omega)]
    rfl
  have hrun : ∃ t, (retrieveContextCapsule toolbox args).Runs t (.error .panicked) := by
    have hlexical : ∃ t, (ToolProg.ftsSearch "f" csarSeedK).Runs t (.ok []) :=
      ⟨_, .ok [], [], rfl, rfl, rfl⟩
    have hsemantic : ∃ t, (ToolProg.semanticSearchIfAvailable "f" csarSeedK).Runs t (.ok []) :=
      ⟨_, false, [], rfl, rfl, rfl⟩
    have hcsar : ∃ t, (ToolProg.diffuse [[], []] csarSeedK csarAlpha csarEps).Runs t (.ok [hit]) :=
      ⟨_, .ok [hit], [], rfl, rfl, rfl⟩
    have hflag : ∃ t, ToolProg.integrationEdgeContext.Runs t (.ok false) :=
      ⟨_, false, [], rfl, rfl, rfl⟩
    have hhydrate (ids : List String) : ∃ t, (ToolProg.hydrateMap ids).Runs t (.ok [sym]) :=
      ⟨_, .ok [sym], [], rfl, rfl, by rw [hbuild]⟩
    have hedges (ids : List String) : ∃ t, (ToolProg.edgesIncident ids .both).Runs t (.ok []) :=
      ⟨_, .ok [], [], rfl, rfl, rfl⟩
    unfold retrieveContextCapsule
    rw [hrequire, Prog.done_bind]
    refine exists_runs_bind (exists_runs_stage hlexical) ?_
    refine exists_runs_bind (exists_runs_stage hsemantic) ?_
    refine exists_runs_bind (exists_runs_stage hcsar) ?_
    refine exists_runs_bind hflag ?_
    dsimp only
    rw [hcomposed]
    refine exists_runs_bind (exists_runs_stage (hhydrate _)) ?_
    refine exists_runs_bind (hedges _) ?_
    exact ⟨[], composeContext_panics "f" hcut⟩
  obtain ⟨t, hrun⟩ := hrun
  obtain ⟨e, he⟩ | ⟨composed, symbols, edges, out, c, hout, -⟩ := h _ _ _ _ hrun
  · cases he
  · cases hout

end Cognis
