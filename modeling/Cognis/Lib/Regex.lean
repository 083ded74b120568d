/-
  Regular expressions that are searched from left to right, over any alphabet.

  An expression is a sequence of alternatives and of greedy repetitions of a class, with one
  capture group. `run` tries the alternatives in order, as a backtracking search does.

  * `Matches` are the words of an expression; `plain`, `takes` and `avoids` are checks on the
    expression that say something of all its words;
  * `run_isSome` and `run_eq_some`: a run finds a word of the expression, where there is
    one;
  * `find_eq_none_iff`: nothing is found exactly where no word begins;
  * `pieces` cuts a text into the matches, one after another, and the characters between
    them: `replaceAll_rewrites` is the rule of a pass that replaces the matches, and
    `infix_of_mem_captures` says what the group can capture.
-/
import Cognis.Lib.Rewriting

namespace Cognis

/-- An expression. -/
inductive Regex (α : Type) where
  | eps
  | cls (p : α → Bool)
  /-- at least `lo` and at most `hi` characters of a class, as many as there are -/
  | rep (p : α → Bool) (lo : ℕ) (hi : Option ℕ)
  | seq (r s : Regex α)
  | alt (r s : Regex α)
  /-- the capture group -/
  | cap (r : Regex α)
  /-- the start of the text -/
  | start
  /-- `\b`, by the characters of words -/
  | boundary (word : α → Bool)

namespace Regex

variable {α β : Type}

/-! ## Notation -/

/-- A word, character by character, up to `same`. -/
def spelt (same : α → α → Bool) : List α → Regex α
  | [] => eps
  | [c] => cls (same c)
  | c :: cs => seq (cls (same c)) (spelt same cs)

/-- A word. -/
def lit [DecidableEq α] (l : List α) : Regex α := spelt (fun c d => d = c) l

/-- The expressions in a row. -/
def cat : List (Regex α) → Regex α
  | [] => eps
  | [r] => r
  | r :: rs => seq r (cat rs)

/-- The first one of the expressions that leads to a match. -/
def any : List (Regex α) → Regex α
  | [] => eps
  | [r] => r
  | r :: rs => alt r (any rs)

/-- `r?` -/
def opt (r : Regex α) : Regex α := alt r eps

/-- `p+` -/
def plus (p : α → Bool) : Regex α := rep p 1 none

/-- `p*` -/
def many (p : α → Bool) : Regex α := rep p 0 none

/-- `p{n}` -/
def times (n : ℕ) (p : α → Bool) : Regex α := rep p n (some n)

/-! ## Words -/

/-- The words of an expression; an assertion takes no character. -/
def Matches : Regex α → List α → Prop
  | eps, w => w = []
  | cls p, w => ∃ c, w = [c] ∧ p c = true
  | rep p lo hi, w => lo ≤ w.length ∧ (∀ n, hi = some n → w.length ≤ n) ∧ ∀ c ∈ w, p c = true
  | seq r s, w => ∃ u v, w = u ++ v ∧ r.Matches u ∧ s.Matches v
  | alt r s, w => r.Matches w ∨ s.Matches w
  | cap r, w => r.Matches w
  | start, w => w = []
  | boundary _, w => w = []

/-- There are no assertions. -/
def plain : Regex α → Bool
  | seq r s | alt r s => r.plain && s.plain
  | cap r => r.plain
  | start | boundary _ => false
  | eps | cls _ | rep _ _ _ => true

/-! ## Runs -/

/-- A place in a text: the character before it, the text after it, and what the group has
    captured. -/
structure Place (α : Type) where
  prev : Option α
  input : List α
  group : Option (List α) := none

/-- A repetition, from the longest one on. -/
def runRep (p : α → Bool) (group : Option (List α)) (k : Place α → Option β) :
    ℕ → Option ℕ → Option α → List α → Option β
  | lo, _, prev, [] => if lo = 0 then k ⟨prev, [], group⟩ else none
  | lo, hi, prev, c :: cs =>
    (if p c ∧ hi ≠ some 0 then runRep p group k (lo - 1) (hi.map (· - 1)) (some c) cs else none) <|>
      if lo = 0 then k ⟨prev, c :: cs, group⟩ else none

/-- A match from a place that `k` accepts: the first one in the order of the alternatives. -/
def run : Regex α → Place α → (Place α → Option β) → Option β
  | eps, s, k => k s
  | cls p, s, k =>
    match s.input with
    | [] => none
    | c :: cs => if p c then k { s with prev := some c, input := cs } else none
  | rep p lo hi, s, k => runRep p s.group k lo hi s.prev s.input
  | seq r r', s, k => r.run s fun s' => r'.run s' k
  | alt r r', s, k => r.run s k <|> r'.run s k
  | cap r, s, k => r.run s fun s' =>
      k { s' with group := some (s.input.take (s.input.length - s'.input.length)) }
  | start, s, k => if s.prev.isNone then k s else none
  | boundary word, s, k => if s.prev.any word ≠ s.input.head?.any word then k s else none

/-- A match: how many characters it takes, and what the group has captured. -/
structure Match (α : Type) where
  length : ℕ
  group : List α

/-- The match that begins at a place. -/
def find (r : Regex α) (prev : Option α) (input : List α) : Option (Match α) :=
  r.run ⟨prev, input, none⟩ fun s => some ⟨input.length - s.input.length, s.group.getD []⟩

theorem isSome_orElse {o o' : Option β} : (o <|> o').isSome = (o.isSome || o'.isSome) := by
  simp

theorem orElse_eq_some {o o' : Option β} {b : β} (h : (o <|> o') = some b) :
    o = some b ∨ o' = some b := by
  cases o with
  | none => exact .inr h
  | some a => exact .inl h

theorem runRep_isSome {p : α → Bool} {group : Option (List α)} {k : Place α → Option β}
    {v : List α} (hk : ∀ s : Place α, s.input = v → (k s).isSome) {u : List α}
    (hp : ∀ c ∈ u, p c = true) {lo : ℕ} (hlo : lo ≤ u.length) {hi : Option ℕ}
    (hhi : ∀ n, hi = some n → u.length ≤ n) (prev : Option α) :
    (runRep p group k lo hi prev (u ++ v)).isSome := by
  induction u generalizing lo hi prev with
  | nil =>
    obtain rfl : lo = 0 := Nat.le_zero.1 hlo
    rw [List.nil_append]
    cases v with
    | nil => simp [runRep, hk]
    | cons c cs => simp [runRep, hk]
  | cons c u ih =>
    have hne : hi ≠ some 0 := by
      intro h
      simpa using hhi 0 h
    have hrest : (runRep p group k (lo - 1) (hi.map (· - 1)) (some c) (u ++ v)).isSome := by
      refine ih (fun d hd => hp d (List.mem_cons_of_mem _ hd)) ?_ ?_ _
      · rw [List.length_cons] at hlo
        omega
      · intro n hn
        obtain ⟨m, hm, rfl⟩ := Option.map_eq_some_iff.1 hn
        have := hhi m hm
        rw [List.length_cons] at this
        omega
    rw [List.cons_append, runRep, if_pos ⟨hp c List.mem_cons_self, hne⟩, isSome_orElse, hrest, Bool.true_or]

/-- **A word is found**, it or an earlier alternative. -/
theorem run_isSome {r : Regex α} (hr : r.plain = true) {u v : List α} (hu : r.Matches u)
    {k : Place α → Option β} (hk : ∀ s : Place α, s.input = v → (k s).isSome) {s : Place α}
    (hs : s.input = u ++ v) : (r.run s k).isSome := by
  induction r generalizing u v k s with
  | eps =>
    obtain rfl : u = [] := hu
    exact hk s hs
  | cls p =>
    obtain ⟨c, rfl, hc⟩ := hu
    simp only [run, hs, List.singleton_append, hc, if_true]
    exact hk _ rfl
  | rep p lo hi =>
    simp only [run, hs]
    exact runRep_isSome hk hu.2.2 hu.1 hu.2.1 _
  | seq r r' ih ih' =>
    obtain ⟨w, w', rfl, hw, hw'⟩ := hu
    rw [plain, Bool.and_eq_true] at hr
    refine ih hr.1 hw (fun s' hs' => ?_) (hs.trans (List.append_assoc w w' v))
    exact ih' hr.2 hw' hk hs'
  | alt r r' ih ih' =>
    rw [plain, Bool.and_eq_true] at hr
    rw [run, isSome_orElse, Bool.or_eq_true]
    exact hu.imp (fun hu => ih hr.1 hu hk hs) fun hu => ih' hr.2 hu hk hs
  | cap r ih =>
    refine ih (k := fun s' => k { s' with group := _ }) hr hu (fun s' hs' => ?_) hs
    exact hk _ hs'
  | start => cases hr
  | boundary word => cases hr

/-- What the group of an expression captures. -/
def Captures : Regex α → List α → Prop
  | seq r s, g | alt r s, g => r.Captures g ∨ s.Captures g
  | cap r, g => r.Matches g
  | _, _ => False

/-- A run has taken a word, and its group is the one it started with or one that it has
    captured on the way. -/
structure Ran (r : Regex α) (s : Place α) (u : List α) (s' : Place α) : Prop where
  input : s.input = u ++ s'.input
  word : r.Matches u
  group : s'.group = s.group ∨ ∃ g, s'.group = some g ∧ g <:+: s.input ∧ r.Captures g

theorem runRep_eq_some {p : α → Bool} {group : Option (List α)} {k : Place α → Option β} {b : β}
    {lo : ℕ} {hi : Option ℕ} {prev : Option α} {input : List α}
    (h : runRep p group k lo hi prev input = some b) :
    ∃ u s', Ran (rep p lo hi) ⟨prev, input, group⟩ u s' ∧ k s' = some b := by
  have hnil : ∀ {lo : ℕ} {hi : Option ℕ} {prev : Option α} {input : List α},
      (if lo = 0 then k ⟨prev, input, group⟩ else none) = some b →
        ∃ u s', Ran (rep p lo hi) ⟨prev, input, group⟩ u s' ∧ k s' = some b := by
    intro lo hi prev input h
    split_ifs at h with hlo
    exact ⟨[], _, ⟨rfl, ⟨hlo.le, fun _ _ => Nat.zero_le _, fun _ hc => absurd hc (List.not_mem_nil)⟩,
      .inl rfl⟩, h⟩
  induction input generalizing lo hi prev with
  | nil => exact hnil h
  | cons c cs ih =>
    rw [runRep] at h
    rcases orElse_eq_some h with h | h
    · split_ifs at h with hc
      obtain ⟨u, s', hran, hk⟩ := ih h
      obtain ⟨hlo, hhi, hp⟩ := hran.word
      refine ⟨c :: u, s', ⟨congrArg (c :: ·) hran.input, ⟨?_, ?_, ?_⟩, ?_⟩, hk⟩
      · rw [List.length_cons]
        omega
      · rintro n rfl
        have hn := hhi (n - 1) rfl
        have hpos : n ≠ 0 := fun h0 => hc.2 (congrArg some h0)
        rw [List.length_cons]
        omega
      · intro d hd
        rcases List.mem_cons.1 hd with rfl | hd
        · exact hc.1
        · exact hp d hd
      · exact hran.group.imp_right fun ⟨_, _, _, hg⟩ => hg.elim
    · exact hnil h

/-- **What a run has found.** -/
theorem run_eq_some {r : Regex α} {s : Place α} {k : Place α → Option β} {b : β}
    (h : r.run s k = some b) : ∃ u s', Ran r s u s' ∧ k s' = some b := by
  induction r generalizing s k with
  | eps => exact ⟨[], s, ⟨rfl, rfl, .inl rfl⟩, h⟩
  | cls p =>
    simp only [run] at h
    split at h
    · cases h
    · next c cs hinput =>
      split_ifs at h with hc
      exact ⟨[c], ⟨some c, cs, s.group⟩, ⟨hinput, ⟨c, rfl, hc⟩, .inl rfl⟩, h⟩
  | rep p lo hi => exact runRep_eq_some h
  | seq r r' ih ih' =>
    obtain ⟨u, s', hran, h⟩ := ih h
    obtain ⟨v, s'', hran', h⟩ := ih' h
    refine ⟨u ++ v, s'', ⟨?_, ⟨u, v, rfl, hran.word, hran'.word⟩, ?_⟩, h⟩
    · rw [hran.input, hran'.input, List.append_assoc]
    · rcases hran'.group with hg | ⟨g, hg, hwithin, hcap⟩
      · rw [hg]
        exact hran.group.imp_right fun ⟨g, hg, hwithin, hcap⟩ => ⟨g, hg, hwithin, .inl hcap⟩
      · refine .inr ⟨g, hg, hwithin.trans ?_, .inr hcap⟩
        rw [hran.input]
        exact (List.suffix_append u s'.input).isInfix
  | alt r r' ih ih' =>
    rcases orElse_eq_some h with h | h
    · obtain ⟨u, s', hran, h⟩ := ih h
      exact ⟨u, s', ⟨hran.input, .inl hran.word,
        hran.group.imp_right fun ⟨g, hg, hwithin, hcap⟩ => ⟨g, hg, hwithin, .inl hcap⟩⟩, h⟩
    · obtain ⟨u, s', hran, h⟩ := ih' h
      exact ⟨u, s', ⟨hran.input, .inr hran.word,
        hran.group.imp_right fun ⟨g, hg, hwithin, hcap⟩ => ⟨g, hg, hwithin, .inr hcap⟩⟩, h⟩
  | cap r ih =>
    obtain ⟨u, s', hran, h⟩ := ih h
    have htake : s.input.take (s.input.length - s'.input.length) = u := by
      rw [hran.input, List.length_append, Nat.add_sub_cancel, List.take_left]
    rw [htake] at h
    refine ⟨u, { s' with group := some u }, ⟨hran.input, hran.word, .inr ⟨u, rfl, ?_, hran.word⟩⟩, h⟩
    rw [hran.input]
    exact (List.prefix_append u s'.input).isInfix
  | start =>
    simp only [run] at h
    split_ifs at h
    exact ⟨[], s, ⟨rfl, rfl, .inl rfl⟩, h⟩
  | boundary word =>
    simp only [run] at h
    split_ifs at h
    exact ⟨[], s, ⟨rfl, rfl, .inl rfl⟩, h⟩

theorem not_captures_spelt {same : α → α → Bool} {l g : List α} : ¬ (spelt same l).Captures g := by
  induction l with
  | nil => exact id
  | cons c l ih =>
    cases l with
    | nil => exact id
    | cons d l =>
      rintro (h | h)
      · exact h
      · exact ih h

/-! ## Searches -/

/-- What is found is a word of the expression at the place. -/
theorem find_eq_some {r : Regex α} {prev : Option α} {input : List α} {m : Match α}
    (h : r.find prev input = some m) : ∃ u cs, input = u ++ cs ∧ r.Matches u ∧ m.length = u.length ∧
      (m.group = [] ∨ m.group <:+: input ∧ r.Captures m.group) := by
  obtain ⟨u, s', hran, hm⟩ := run_eq_some h
  cases hm
  refine ⟨u, s'.input, hran.input, hran.word, ?_, ?_⟩
  · show input.length - s'.input.length = u.length
    rw [show input = u ++ s'.input from hran.input, List.length_append, Nat.add_sub_cancel]
  · rcases hran.group with hg | ⟨g, hg, hwithin, hcap⟩
    · exact .inl (by rw [hg]; rfl)
    · exact .inr (by rw [hg]; exact ⟨hwithin, hcap⟩)

/-- **Nothing is found** exactly where no word begins. -/
theorem find_eq_none_iff {r : Regex α} (hr : r.plain = true) {prev : Option α} {input : List α} :
    r.find prev input = none ↔ ∀ u, r.Matches u → ¬ u <+: input := by
  constructor
  · rintro h u hu ⟨v, rfl⟩
    have hsome := run_isSome hr hu (s := ⟨prev, u ++ v, none⟩)
      (k := fun s => some (⟨(u ++ v).length - s.input.length, s.group.getD []⟩ : Match α))
      (fun _ _ => rfl) rfl
    rw [find] at h
    rw [h] at hsome
    cases hsome
  · intro h
    cases hm : r.find prev input with
    | none => rfl
    | some m =>
      obtain ⟨u, cs, rfl, hu, -⟩ := find_eq_some hm
      exact absurd (List.prefix_append u cs) (h u hu)

/-! ## Characters of the words -/

/-- No word has this character. -/
def avoids (c : α) : Regex α → Bool
  | cls p | rep p _ _ => !p c
  | seq r s | alt r s => r.avoids c && s.avoids c
  | cap r => r.avoids c
  | eps | start | boundary _ => true

theorem avoids_spec {c : α} {r : Regex α} (h : r.avoids c = true) {w : List α} (hw : r.Matches w) :
    c ∉ w := by
  induction r generalizing w with
  | eps | start | boundary word =>
    obtain rfl : w = [] := hw
    exact List.not_mem_nil
  | cls p =>
    obtain ⟨d, rfl, hd⟩ := hw
    intro hc
    rw [List.mem_singleton.1 hc] at h
    simp [avoids, hd] at h
  | rep p lo hi =>
    intro hc
    have hp := hw.2.2 c hc
    simp [avoids, hp] at h
  | seq r s ih ih' =>
    obtain ⟨u, v, rfl, hu, hv⟩ := hw
    rw [avoids, Bool.and_eq_true] at h
    rw [List.mem_append, not_or]
    exact ⟨ih h.1 hu, ih' h.2 hv⟩
  | alt r s ih ih' =>
    rw [avoids, Bool.and_eq_true] at h
    exact hw.elim (ih h.1) (ih' h.2)
  | cap r ih => exact ih h hw

/-- Every word has a character. -/
def takes : Regex α → Bool
  | cls _ => true
  | rep _ lo _ => decide (0 < lo)
  | seq r s => r.takes || s.takes
  | alt r s => r.takes && s.takes
  | cap r => r.takes
  | eps | start | boundary _ => false

theorem takes_spec {r : Regex α} (h : r.takes = true) : ¬ r.Matches [] := by
  induction r with
  | eps | start | boundary word => cases h
  | cls p =>
    rintro ⟨c, hc, -⟩
    cases hc
  | rep p lo hi =>
    intro hw
    exact absurd hw.1 (Nat.not_le.2 (of_decide_eq_true h))
  | seq r s ih ih' =>
    rintro ⟨u, v, huv, hu, hv⟩
    obtain ⟨rfl, rfl⟩ := List.append_eq_nil_iff.1 huv.symm
    rw [takes, Bool.or_eq_true] at h
    exact h.elim (fun h => ih h hu) fun h => ih' h hv
  | alt r s ih ih' =>
    rw [takes, Bool.and_eq_true] at h
    exact fun hw => hw.elim (ih h.1) (ih' h.2)
  | cap r ih => exact ih h

theorem matches_lit [DecidableEq α] {l w : List α} : (lit l).Matches w ↔ w = l := by
  induction l generalizing w with
  | nil => rfl
  | cons c l ih =>
    cases l with
    | nil => simp [lit, spelt, Matches]
    | cons d l =>
      constructor
      · rintro ⟨u, v, rfl, ⟨c', rfl, hc⟩, hv⟩
        rw [ih.1 hv, of_decide_eq_true hc]
        rfl
      · rintro rfl
        exact ⟨[c], d :: l, rfl, ⟨c, rfl, decide_eq_true rfl⟩, ih.2 rfl⟩

theorem matches_seq {r s : Regex α} {w : List α} :
    (seq r s).Matches w ↔ ∃ u v, w = u ++ v ∧ r.Matches u ∧ s.Matches v := Iff.rfl

theorem matches_many {p : α → Bool} {w : List α} : (many p).Matches w ↔ ∀ c ∈ w, p c = true := by
  simp [many, Matches]

theorem matches_plus {p : α → Bool} {w : List α} :
    (plus p).Matches w ↔ w ≠ [] ∧ ∀ c ∈ w, p c = true := by
  simp [plus, Matches, Nat.one_le_iff_ne_zero]

theorem mem_of_matches_seq {r s : Regex α} {w : List α} (h : (seq r s).Matches w) {c : α}
    (hr : ∀ u, r.Matches u → c ∈ u) : c ∈ w := by
  obtain ⟨u, v, rfl, hu, -⟩ := h
  exact List.mem_append_left v (hr u hu)

/-- A word begins somewhere in the text. -/
def occurs (r : Regex α) (text : List α) : Bool := text.tails.any fun t => (r.find none t).isSome

theorem not_infix_of_occurs {r : Regex α} (hr : r.plain = true) {text w : List α}
    (h : r.occurs text = false) (hw : r.Matches w) : ¬ w <:+: text := by
  rintro ⟨a, b, rfl⟩
  have ht : w ++ b ∈ (a ++ w ++ b).tails := by
    rw [List.mem_tails, List.append_assoc]
    exact List.suffix_append a (w ++ b)
  have hfind : (r.find none (w ++ b)).isSome = false := by
    rw [occurs, List.any_eq_false] at h
    exact eq_false_of_ne_true (h _ ht)
  rw [Option.isSome_eq_false_iff, Option.isNone_iff_eq_none] at hfind
  exact (find_eq_none_iff hr).1 hfind w hw (List.prefix_append w b)

/-! ## Passes -/

/-- A part of a text: a character between the matches, or a match with its group. -/
inductive Piece (α : Type) where
  | char (c : α)
  | found (word group : List α)

/-- The text cut at its matches; `skip` characters belong to the match that has been found.
    This is for expressions without empty words. -/
def pieces (r : Regex α) : Option α → ℕ → List α → List (Piece α)
  | _, _, [] => []
  | _, skip + 1, c :: cs => r.pieces (some c) skip cs
  | prev, 0, c :: cs =>
    match r.find prev (c :: cs) with
    | none => .char c :: r.pieces (some c) 0 cs
    | some m => .found ((c :: cs).take m.length) m.group :: r.pieces (some c) (m.length - 1) cs

/-- `is_match` -/
def isMatch (r : Regex α) (text : List α) : Bool :=
  (r.pieces none 0 text).any fun
    | .found _ _ => true
    | .char _ => false

/-- The groups of `captures_iter`. -/
def captures (r : Regex α) (text : List α) : List (List α) :=
  (r.pieces none 0 text).filterMap fun
    | .found _ group => some group
    | .char _ => none

/-- `replace_all`, with the text for a match and its group. -/
def replaceAll (r : Regex α) (f : List α → List α → List α) (text : List α) : List α :=
  (r.pieces none 0 text).flatMap fun
    | .found word group => f word group
    | .char c => [c]

theorem pieces_skip (r : Regex α) (prev : Option α) (u cs : List α) :
    ∃ prev', r.pieces prev u.length (u ++ cs) = r.pieces prev' 0 cs := by
  induction u generalizing prev with
  | nil => exact ⟨prev, rfl⟩
  | cons c u ih => exact ih (some c)

/-- **What the pieces are**: a match begins where the search finds it, and goes on after
    it. -/
theorem pieces_induction {r : Regex α} (hr : r.takes = true) {P : List α → List (Piece α) → Prop}
    (nil : P [] [])
    (char : ∀ prev c cs ps, r.find prev (c :: cs) = none → P cs ps → P (c :: cs) (.char c :: ps))
    (found : ∀ prev u cs m ps, r.find prev (u ++ cs) = some m → m.length = u.length → r.Matches u →
      P cs ps → P (u ++ cs) (.found u m.group :: ps))
    (prev : Option α) (text : List α) : P text (r.pieces prev 0 text) := by
  induction h : text.length using Nat.strong_induction_on generalizing prev text with
  | _ n ih =>
    cases text with
    | nil => exact nil
    | cons c cs =>
      rw [pieces]
      split
      · next hnone => exact char prev c cs _ hnone (ih cs.length (by simp [← h]) _ cs rfl)
      · next m hsome =>
        obtain ⟨u, cs', hcs, hu, hlen, -⟩ := find_eq_some hsome
        obtain ⟨d, u, rfl⟩ : ∃ d u', u = d :: u' := by
          cases u with
          | nil => exact absurd hu (takes_spec hr)
          | cons d u => exact ⟨d, u, rfl⟩
        rw [List.cons_append, List.cons.injEq] at hcs
        obtain ⟨rfl, rfl⟩ := hcs
        obtain ⟨prev', hskip⟩ := pieces_skip r (some c) u cs'
        have htake : (c :: (u ++ cs')).take m.length = c :: u := by
          rw [hlen, ← List.cons_append, List.take_left]
        rw [htake, hlen, List.length_cons, Nat.add_sub_cancel, hskip]
        have hshort : cs'.length < n := by
          rw [← h, List.length_cons, List.length_append]
          omega
        exact found prev (c :: u) cs' m _ hsome hlen hu (ih cs'.length hshort prev' cs' rfl)

/-- **A pass** copies the characters at which nothing is found, and replaces what is. -/
theorem replaceAll_rewrites {r : Regex α} (hr : r.takes = true) {f : List α → List α → List α}
    {Kept : List α → Prop} {Cut : List α → List α → List α → Prop}
    (hkept : ∀ prev t, r.find prev t = none → Kept t)
    (hcut : ∀ prev u cs m out, r.find prev (u ++ cs) = some m → m.length = u.length →
      r.Matches u → Rewrites Kept Cut cs out → Rewrites Kept Cut (u ++ cs) (f u m.group ++ out))
    (text : List α) : Rewrites Kept Cut text (r.replaceAll f text) := by
  refine pieces_induction hr (P := fun text ps => Rewrites Kept Cut text (ps.flatMap _))
    .nil ?_ ?_ none text
  · intro prev c cs ps hnone h
    exact .keep (hkept prev _ hnone) h
  · intro prev u cs m ps hsome hlen hu h
    exact hcut prev u cs m _ hsome hlen hu h

/-- A pass that finds nothing changes nothing. -/
theorem replaceAll_of_not_isMatch {r : Regex α} (hr : r.takes = true) {text : List α}
    (h : r.isMatch text = false) (f : List α → List α → List α) : r.replaceAll f text = text := by
  revert h
  refine pieces_induction hr (P := fun text ps => (ps.any _) = false → ps.flatMap _ = text) ?_ ?_ ?_
    none text
  · exact fun _ => rfl
  · intro prev c cs ps _ ih h
    exact congrArg (c :: ·) (ih h)
  · intro prev u cs m ps _ _ _ _ h
    cases h

/-- A captured text is a part of the text, and one of those that the group can capture. -/
theorem infix_of_mem_captures {r : Regex α} (hr : r.takes = true) {text g : List α}
    (hg : g ∈ r.captures text) : g = [] ∨ g <:+: text ∧ r.Captures g := by
  have hpieces : ∀ u, Piece.found u g ∈ r.pieces none 0 text → g = [] ∨ g <:+: text ∧ r.Captures g := by
    refine pieces_induction hr
      (P := fun text ps => ∀ u, Piece.found u g ∈ ps → g = [] ∨ g <:+: text ∧ r.Captures g) ?_ ?_ ?_ none text
    · intro u hu
      exact absurd hu List.not_mem_nil
    · intro prev c cs ps _ ih u hu
      rcases List.mem_cons.1 hu with hu | hu
      · cases hu
      · exact (ih u hu).imp_right (And.imp_left fun h => h.trans (List.suffix_cons c cs).isInfix)
    · intro prev u' cs m ps hsome _ _ ih u hu
      rcases List.mem_cons.1 hu with hu | hu
      · cases hu
        obtain ⟨-, -, -, -, -, hgroup⟩ := find_eq_some hsome
        exact hgroup
      · exact (ih u hu).imp_right (And.imp_left fun h => h.trans (List.suffix_append u' cs).isInfix)
  obtain ⟨piece, hpiece, h⟩ := List.mem_filterMap.1 hg
  cases piece with
  | char c => cases h
  | found u group =>
    cases h
    exact hpieces u hpiece

/-- A group right after an assertion takes the start of the match. -/
theorem find_cap_first {word : α → Bool} {k r : Regex α} {prev : Option α} {input : List α}
    {m : Match α} (hr : ∀ g, ¬ r.Captures g) (h : (seq (boundary word) (seq (cap k) r)).find prev input = some m) :
    ∃ b cs, input = m.group ++ b ++ cs ∧ m.length = (m.group ++ b).length ∧ k.Matches m.group ∧
      r.Matches b := by
  simp only [find, run] at h
  split_ifs at h
  obtain ⟨g, s, hran, h⟩ := run_eq_some h
  obtain ⟨b, s', hran', h⟩ := run_eq_some h
  have htake : input.take (input.length - s.input.length) = g := by
    rw [show input = g ++ s.input from hran.input, List.length_append, Nat.add_sub_cancel,
      List.take_left]
  have hgroup : s'.group = some g := by
    rcases hran'.group with hg | ⟨g', -, -, hcap⟩
    · rw [hg]
      exact congrArg some htake
    · exact absurd hcap (hr g')
  have hinput : input = g ++ b ++ s'.input := by
    rw [show input = g ++ s.input from hran.input, show s.input = b ++ s'.input from hran'.input,
      List.append_assoc]
  cases h
  refine ⟨b, s'.input, ?_, ?_, ?_, hran'.word⟩
  · simpa [hgroup] using hinput
  · show input.length - s'.input.length = (s'.group.getD [] ++ b).length
    rw [hinput, hgroup, List.length_append, Nat.add_sub_cancel]
    rfl
  · simpa [hgroup] using hran.word

end Regex

end Cognis
