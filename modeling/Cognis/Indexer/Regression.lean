/-
  The notation of the complexity classes and its reader `parse_notation_to_class`
  (`shadow.rs`): the shadow analysis compares the classes that it reads back from
  the reports.

  * `ComplexityClass.readCode` is the degree at which the reader sees a class;
  * `Readable`: the classes that come back with their degree;
  * `notation_roundTrip_iff`: the round trip and the count of the regressions.
-/
import Cognis.Indexer.Shadow

namespace Cognis

namespace ComplexityClass

/-! ## The reader -/

/-- The degree, in twentieths, of the class that is read from the notation. -/
def readCode : ComplexityClass → ℕ
  | .constant => 0
  | .logarithmic power => if power.toNat ≤ 1 then 5 * power.toNat else 0
  | .sqrt => 10
  | .polynomial degree logPower =>
    if degree.toNat ≤ 1 then
      if logPower.toNat ≤ 1 then 20 * degree.toNat + 5 * logPower.toNat else 0
    else if degree.toNat ≤ 3 ∧ logPower.toNat = 0 then 20 * degree.toNat
    else 80
  | .exponential _ => 164
  | .factorial => 200

/-- The classes whose notation is read with their degree: the reader knows the powers
    up to one of a logarithm, the degrees up to three without one, takes every larger
    polynomial for one of degree four, and every base for two. -/
def Readable : ComplexityClass → Prop
  | .constant | .sqrt | .factorial => True
  | .logarithmic power => power.toNat ≤ 1
  | .polynomial degree logPower =>
    if degree.toNat ≤ 1 then logPower.toNat ≤ 1
    else degree.toNat ≤ 3 ∧ logPower.toNat = 0 ∨ 4 * degree.toNat + logPower.toNat = 16
  | .exponential baseCalls => baseCalls.toNat ≤ 2

theorem readCode_eq_iff (c : ComplexityClass) : c.readCode = c.degreeCode ↔ c.Readable := by
  cases c with
  | constant | sqrt | factorial => exact iff_of_true rfl trivial
  | logarithmic power =>
    unfold readCode degreeCode Readable
    dsimp only
    split_ifs <;> omega
  | polynomial degree logPower =>
    unfold readCode degreeCode Readable
    dsimp only
    split_ifs <;> omega
  | exponential baseCalls =>
    unfold readCode degreeCode Readable
    dsimp only
    omega

end ComplexityClass

/-- The notations that are read as a whole. -/
def notationLiterals : List String :=
  ["O(1)", "O(log n)", "O(sqrt(n))", "O(n)", "O(n log n)", "O(n^2)", "O(n^3)", "O(n!)"]

/-- A notation that is no literal is read by its parts. -/
theorem parseNotationToClass_of_notMem {s : String} (h : s ∉ notationLiterals) :
    parseNotationToClass s = if hasSubstring s "^n" then .exponential 2
      else if "O(n^".toList.isPrefixOf s.toList then .polynomial 4 0 else .constant := by
  simp only [notationLiterals, List.mem_cons, List.not_mem_nil, or_false, not_or] at h
  unfold parseNotationToClass
  split
  all_goals first | rfl | simp at h

/-- A text whose first five characters start no literal is none. -/
theorem notMem_notationLiterals {s : String} (start : List Char)
    (hs : s.toList.take 5 = start)
    (h : start ∉ notationLiterals.map fun text => text.toList.take 5) :
    s ∉ notationLiterals :=
  fun hmem => h (hs ▸ List.mem_map_of_mem hmem)

/-! ## Texts without `^n` -/

/-- No `n` after a `^`. -/
def NoPowerN (text : List Char) : Prop := text.IsChain fun a b => a = '^' → b ≠ 'n'

theorem NoPowerN.not_hasSubstring {s : String} (h : NoPowerN s.toList) :
    hasSubstring s "^n" = false := by
  refine decide_eq_false ?_
  intro hinfix
  have hpair : NoPowerN "^n".toList := List.IsChain.infix h hinfix
  simp [NoPowerN] at hpair

theorem isDigit_of_mem_toString {n : ℕ} {c : Char} (h : c ∈ (toString n).toList) :
    c.isDigit = true := by
  rw [Nat.toString_eq_repr, Nat.toList_repr] at h
  exact Nat.isDigit_of_mem_toDigits (by decide) (by decide) h

/-- A power is written with digits. -/
theorem noPowerN_power (n : ℕ) {rest : List Char} (h : NoPowerN rest) :
    NoPowerN ('^' :: ((toString n).toList ++ rest)) := by
  have hdigit {c d : Char} (hc : c ∈ (toString n).toList) (hd : d.isDigit = false) : c ≠ d := by
    rintro rfl
    rw [isDigit_of_mem_toString hc] at hd
    cases hd
  have hdigits : NoPowerN ((toString n).toList ++ rest) := by
    refine List.isChain_append.2 ⟨?_, h, ?_⟩
    · exact (List.pairwise_of_forall_mem_list fun a ha b _ hpow =>
        absurd hpow (hdigit ha (by decide))).isChain
    · exact fun a ha b _ hpow =>
        absurd hpow (hdigit (List.mem_of_getLast? ha) (by decide))
  refine List.IsChain.cons hdigits ?_
  intro c hc _
  cases htext : (toString n).toList with
  | nil =>
    rw [Nat.toString_eq_repr, Nat.toList_repr] at htext
    exact absurd htext Nat.toDigits_ne_nil
  | cons d ds =>
    rw [htext, List.cons_append, List.head?_cons, Option.mem_some_iff] at hc
    subst hc
    exact hdigit (htext ▸ List.mem_cons_self) (by decide)

theorem toString_toList_inj {m n : ℕ} (h : (toString m).toList = (toString n).toList) : m = n := by
  rw [Nat.toString_eq_repr, Nat.toList_repr, Nat.toString_eq_repr, Nat.toList_repr] at h
  rw [← Nat.ofDigitChars_ten_toDigits (n := m), h, Nat.ofDigitChars_ten_toDigits]

/-! ## The notation, read back -/

/-- A polynomial of degree two or more that is no literal is read with degree four. -/
theorem parse_power (n : ℕ) {rest : String}
    (hlit : "O(n^" ++ toString n ++ rest ∉ notationLiterals) (hrest : NoPowerN rest.toList) :
    parseNotationToClass ("O(n^" ++ toString n ++ rest) = .polynomial 4 0 := by
  have hchain : NoPowerN ("O(n^" ++ toString n ++ rest).toList := by
    have htext : ("O(n^" ++ toString n ++ rest).toList =
        "O(n".toList ++ '^' :: ((toString n).toList ++ rest.toList) := by
      simp
    rw [htext]
    exact List.isChain_append.2 ⟨by simp, noPowerN_power n hrest, by simp⟩
  rw [parseNotationToClass_of_notMem hlit, hchain.not_hasSubstring]
  simp

/-- A power of the logarithm, alone or with a linear factor, is read as a constant. -/
theorem parse_logPower {start : String} (power : ℕ)
    (hstart : start = "O((log n)" ∨ start = "O(n (log n)") :
    parseNotationToClass (start ++ "^" ++ toString power ++ ")") = .constant := by
  have htext : (start ++ "^" ++ toString power ++ ")").toList =
      start.toList ++ '^' :: ((toString power).toList ++ ")".toList) := by
    simp
  have hrest : NoPowerN ('^' :: ((toString power).toList ++ ")".toList)) :=
    noPowerN_power power (by simp [NoPowerN])
  have hchain : NoPowerN (start ++ "^" ++ toString power ++ ")").toList := by
    rw [htext]
    refine List.isChain_append.2 ⟨?_, hrest, ?_⟩
    · rcases hstart with rfl | rfl <;> simp
    · rcases hstart with rfl | rfl <;> simp
  have hlit : start ++ "^" ++ toString power ++ ")" ∉ notationLiterals := by
    rcases hstart with rfl | rfl
    · exact notMem_notationLiterals "O((lo".toList (by simp) (by decide)
    · exact notMem_notationLiterals "O(n (".toList (by simp) (by decide)
  rw [parseNotationToClass_of_notMem hlit, hchain.not_hasSubstring]
  rcases hstart with rfl | rfl <;> simp

/-- A base is read as two. -/
theorem parse_base (base : ℕ) :
    parseNotationToClass ("O(" ++ toString base ++ "^n)") = .exponential 2 := by
  have hsub : hasSubstring ("O(" ++ toString base ++ "^n)") "^n" = true := by
    refine decide_eq_true ⟨"O(".toList ++ (toString base).toList, ")".toList, ?_⟩
    simp
  have hlit : "O(" ++ toString base ++ "^n)" ∉ notationLiterals := by
    intro hmem
    have hnone : ∀ text ∈ notationLiterals, hasSubstring text "^n" = false := by decide
    rw [hnone _ hmem] at hsub
    cases hsub
  rw [parseNotationToClass_of_notMem hlit, if_pos hsub]

/-- No literal has a power and a logarithm. -/
theorem spaced_notMem (n : ℕ) {rest : String} (h : ' ' ∈ rest.toList) :
    "O(n^" ++ toString n ++ rest ∉ notationLiterals := by
  intro hmem
  have hnone : ∀ text ∈ notationLiterals, ' ' ∈ text.toList →
      text.toList.take 4 ≠ "O(n^".toList := by decide
  exact hnone _ hmem (by simp [h]) (by simp)

/-- The literals of a power are those of the square and of the cube. -/
theorem power_notMem {n : ℕ} (h : 3 < n) : "O(n^" ++ toString n ++ ")" ∉ notationLiterals := by
  intro hmem
  have hpowers : ∀ text ∈ notationLiterals, text.toList.take 4 = "O(n^".toList →
      text.toList = "O(n^".toList ++ (toString 2).toList ++ ")".toList ∨
        text.toList = "O(n^".toList ++ (toString 3).toList ++ ")".toList := by decide
  have hdigits {m : ℕ} (heq : ("O(n^" ++ toString n ++ ")").toList =
      "O(n^".toList ++ (toString m).toList ++ ")".toList) : n = m := by
    rw [String.toList_append, String.toList_append] at heq
    exact toString_toList_inj (List.append_cancel_left (List.append_cancel_right heq))
  rcases hpowers _ hmem (by simp) with heq | heq
  · have := hdigits heq
    omega
  · have := hdigits heq
    omega

namespace ComplexityClass

theorem parse_logText (power : UInt8) :
    (parseNotationToClass (bigO.logText power)).degreeCode =
      if power.toNat ≤ 1 then 5 * power.toNat else 0 := by
  unfold bigO.logText
  by_cases h0 : power = 0
  · subst h0
    rfl
  by_cases h1 : power = 1
  · subst h1
    rfl
  have hlarge : ¬ power.toNat ≤ 1 := by
    have h0' : power.toNat ≠ 0 := fun h => h0 (UInt8.toNat_inj.1 h)
    have h1' : power.toNat ≠ 1 := fun h => h1 (UInt8.toNat_inj.1 h)
    omega
  have htext : "O((log n)^" = "O((log n)" ++ "^" := by decide
  rw [if_neg h0, if_neg h1, if_neg hlarge, htext, parse_logPower _ (.inl rfl)]
  rfl

theorem parse_linear (logPower : UInt8) :
    (parseNotationToClass (polynomial 1 logPower).bigO).degreeCode =
      if logPower.toNat ≤ 1 then 20 + 5 * logPower.toNat else 0 := by
  by_cases hp0 : logPower = 0
  · subst hp0
    rfl
  by_cases hp1 : logPower = 1
  · subst hp1
    rfl
  have hlarge : ¬ logPower.toNat ≤ 1 := by
    have hp0' : logPower.toNat ≠ 0 := fun h => hp0 (UInt8.toNat_inj.1 h)
    have hp1' : logPower.toNat ≠ 1 := fun h => hp1 (UInt8.toNat_inj.1 h)
    omega
  have hone : ¬ (1 : UInt8) = 0 := by decide
  have htext : "O(" ++ "n" ++ " (log n)^" = "O(n (log n)" ++ "^" := by decide
  unfold bigO
  dsimp only
  rw [if_neg hone, if_pos rfl, if_neg hp0, if_neg hp1, if_neg hlarge, htext,
    parse_logPower _ (.inr rfl)]
  rfl

theorem parse_polynomial {degree : UInt8} (logPower : UInt8) (h : 1 < degree.toNat) :
    (parseNotationToClass (polynomial degree logPower).bigO).degreeCode =
      if degree.toNat ≤ 3 ∧ logPower.toNat = 0 then 20 * degree.toNat else 80 := by
  have hd0 : degree ≠ 0 := by
    rintro rfl
    exact absurd h (by decide)
  have hd1 : degree ≠ 1 := by
    rintro rfl
    exact absurd h (by decide)
  have hstart (rest : String) : "O(" ++ ("n^" ++ toString degree.toNat) ++ rest =
      "O(n^" ++ toString degree.toNat ++ rest := by
    rw [← String.append_assoc, show "O(" ++ "n^" = "O(n^" by decide]
  unfold bigO
  dsimp only
  rw [if_neg hd0, if_neg hd1]
  by_cases hp0 : logPower = 0
  · subst hp0
    rw [if_pos rfl, hstart]
    by_cases hd3 : degree.toNat ≤ 3
    · rw [if_pos ⟨hd3, rfl⟩]
      rcases (show degree.toNat = 2 ∨ degree.toNat = 3 by omega) with hdeg | hdeg
      · rw [hdeg]
        rfl
      · rw [hdeg]
        rfl
    · rw [parse_power _ (power_notMem (by omega)) (by simp [NoPowerN]), if_neg (hd3 ·.1)]
      rfl
  have hp0' : logPower.toNat ≠ 0 := fun h => hp0 (UInt8.toNat_inj.1 h)
  have hsmall : ¬ (degree.toNat ≤ 3 ∧ logPower.toNat = 0) := fun h => hp0' h.2
  rw [if_neg hp0, if_neg hsmall]
  by_cases hp1 : logPower = 1
  · rw [if_pos hp1, hstart, parse_power _ (spaced_notMem _ (by decide)) (by simp [NoPowerN])]
    rfl
  · have hrest : NoPowerN (" (log n)^" ++ (toString logPower.toNat ++ ")")).toList := by
      have htext : (" (log n)^" ++ (toString logPower.toNat ++ ")")).toList =
          " (log n)".toList ++ '^' :: ((toString logPower.toNat).toList ++ ")".toList) := by
        simp
      rw [htext]
      exact List.isChain_append.2 ⟨by simp, noPowerN_power _ (by simp [NoPowerN]), by simp⟩
    rw [if_neg hp1, String.append_assoc, String.append_assoc, hstart,
      parse_power _ (spaced_notMem _ (by simp)) hrest]
    rfl

/-- **The reader sees a class at its `readCode`.** -/
theorem degreeCode_parse (c : ComplexityClass) :
    (parseNotationToClass c.bigO).degreeCode = c.readCode := by
  cases c with
  | constant => rfl
  | sqrt => rfl
  | factorial => rfl
  | logarithmic power => exact parse_logText power
  | exponential baseCalls =>
    unfold bigO
    rw [parse_base]
    rfl
  | polynomial degree logPower =>
    by_cases hd0 : degree = 0
    · subst hd0
      refine (parse_logText logPower).trans ?_
      unfold readCode
      simp
    by_cases hd1 : degree = 1
    · subst hd1
      exact parse_linear logPower
    have hd : 1 < degree.toNat := by
      have hd0' : degree.toNat ≠ 0 := fun h => hd0 (UInt8.toNat_inj.1 h)
      have hd1' : degree.toNat ≠ 1 := fun h => hd1 (UInt8.toNat_inj.1 h)
      omega
    rw [parse_polynomial logPower hd]
    unfold readCode
    dsimp only
    rw [if_neg (show ¬ degree.toNat ≤ 1 by omega)]

end ComplexityClass

/-! ## The regressions -/

/-- The propagated class of an id. -/
def Workspace.propagatedClass (ws : Workspace) (id : String) : Option ComplexityClass :=
  (ws.idToIdx id).map ws.propagatedTime

namespace ShadowInput

variable (input : ShadowInput)

/-- The id has a class before and after the edits, and the second is the larger one by
    the measure. -/
def grows {α : Type} [LT α] [DecidableLT α] (measure : ComplexityClass → α) (id : String) :
    Bool :=
  (input.baseWorkspace.propagatedClass id).any fun old =>
    (input.overlayWorkspace.propagatedClass id).any fun new => measure old < measure new

/-- The touched symbols whose class grows. -/
def regressions (hotspots : List String) : ℕ :=
  (input.touchedSymbolIds hotspots).countP (input.grows ComplexityClass.effectiveDegree)

/-- The touched symbols whose class grows, and not as it is read. -/
def hiddenRegressions (hotspots : List String) : ℕ :=
  (input.touchedSymbolIds hotspots).countP fun id =>
    input.grows ComplexityClass.degreeCode id && !input.grows ComplexityClass.readCode id

/-- The touched symbols whose class grows as it is read, and not itself. -/
def inventedRegressions (hotspots : List String) : ℕ :=
  (input.touchedSymbolIds hotspots).countP fun id =>
    input.grows ComplexityClass.readCode id && !input.grows ComplexityClass.degreeCode id

variable {input : ShadowInput}

theorem grows_congr {α β : Type} [LT α] [DecidableLT α] [LT β] [DecidableLT β]
    {f : ComplexityClass → α} {g : ComplexityClass → β}
    (h : ∀ old new, f old < f new ↔ g old < g new) : input.grows f = input.grows g := by
  funext id
  unfold grows
  simp only [h]

/-- The analysis counts the ids whose class grows as it is read. -/
theorem complexityRegressionsCount_eq (hotspots : List String) :
    input.complexityRegressionsCount hotspots =
      (input.touchedSymbolIds hotspots).countP (input.grows ComplexityClass.readCode) := by
  refine List.countP_congr fun id _ => ?_
  unfold oldAndNewComplexity Workspace.reportedTime grows Workspace.propagatedClass
  cases hnew : input.overlayWorkspace.idToIdx id with
  | none => cases input.baseWorkspace.idToIdx id <;> simp
  | some v =>
    cases hold : input.baseWorkspace.idToIdx id with
    | none => simp
    | some u => simp [ComplexityClass.effectiveDegree_lt_iff, ComplexityClass.degreeCode_parse]

theorem countP_exchange {α : Type} (p q : α → Bool) (l : List α) :
    l.countP p + l.countP (fun a => q a && !p a) = l.countP q + l.countP fun a => p a && !q a := by
  induction l with
  | nil => rfl
  | cons a l ih =>
    cases hp : p a <;> cases hq : q a <;> simp [hp, hq] <;> omega

end ShadowInput

open ShadowInput in
/-- **The notation round trip and the count of the regressions.** A class comes back with
    its degree exactly when it is readable, and the count is right exactly when as many
    regressions are hidden as invented. -/
theorem notation_roundTrip_iff (c : ComplexityClass) (input : ShadowInput)
    (hotspots : List String) :
    ((parseNotationToClass c.bigO).effectiveDegree = c.effectiveDegree ↔ c.Readable) ∧
      (input.complexityRegressionsCount hotspots = input.regressions hotspots ↔
        input.hiddenRegressions hotspots = input.inventedRegressions hotspots) := by
  constructor
  · rw [ComplexityClass.effectiveDegree_eq_iff, ComplexityClass.degreeCode_parse,
      ComplexityClass.readCode_eq_iff]
  · have hexchange := countP_exchange (input.grows ComplexityClass.readCode)
      (input.grows ComplexityClass.degreeCode) (input.touchedSymbolIds hotspots)
    have hgrows : input.grows ComplexityClass.effectiveDegree =
        input.grows ComplexityClass.degreeCode :=
      grows_congr ComplexityClass.effectiveDegree_lt_iff
    rw [complexityRegressionsCount_eq, regressions, hgrows, hiddenRegressions,
      inventedRegressions]
    omega

/-- The property for every class, every base and every list of edits. -/
def NotationRoundTrips : Prop :=
  (∀ c : ComplexityClass,
    (parseNotationToClass c.bigO).effectiveDegree = c.effectiveDegree) ∧
  ∀ (input : ShadowInput) (hotspots : List String),
    input.complexityRegressionsCount hotspots = input.regressions hotspots

namespace RegressionExample

/-- A function whose body is its own class: four nested loops, and five after the edit. -/
def nested (body : String) : Symbol :=
  { ShadowExample.function "lib.py" "scan" "def scan(xs)" with bodyExcerpt := some body }

def input : ShadowInput where
  baseSymbols := [nested "4"]
  baseEdges := []
  fileEdits := [⟨"lib.py", "5"⟩]
  targetQueries := []
  parseSource := fun _ content => [nested content]
  resolveEdges := fun _ => []
  walk := fun _ body =>
    { AstComplexitySummary.trivial with localTime := .polynomial (if body = "4" then 4 else 5) 0 }

end RegressionExample

/-- `O(n^5)` is read as `O(n^4)`, and an edit from the one to the other is not counted. -/
theorem not_notationRoundTrips : ¬ NotationRoundTrips ∧
    RegressionExample.input.complexityRegressionsCount [] ≠
      RegressionExample.input.regressions [] := by
  constructor
  · intro h
    have hfive := h.1 (.polynomial 5 0)
    rw [ComplexityClass.effectiveDegree_eq_iff] at hfive
    exact absurd hfive (by decide +kernel)
  · decide +kernel

end Cognis
