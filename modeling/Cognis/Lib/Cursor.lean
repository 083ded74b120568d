/-
  Scans of a text by positions: reading a character or a slice is partial, and a loop goes on
  while its position is below a bound. `none` stands for an access that is out of range, or
  for a loop that has not finished.

  * `advanceWhile_spec`, `retreatWhile_spec`: a run over the characters of a class;
  * `scan_rule`: a loop whose turns move on and keep an invariant finishes;
  * `At`: what the text is from a position on. `advanceWhile_at` and `retreatWhile_at` run a
    known text, and `scan_next` and `scan_skip` unroll a loop over it.
-/
import Mathlib.Data.List.Infix
import Mathlib.Tactic.Common

namespace Cognis.Cursor

variable {α σ ρ : Type}

/-! ## Accesses -/

/-- `text[start..stop]` -/
def slice (text : List α) (start stop : ℕ) : Option (List α) :=
  if start ≤ stop ∧ stop ≤ text.length then some ((text.take stop).drop start) else none

theorem slice_of_le {text : List α} {start stop : ℕ} (h : start ≤ stop) (hstop : stop ≤ text.length) :
    slice text start stop = some ((text.take stop).drop start) := if_pos ⟨h, hstop⟩

/-- `text[i]` for a position below `stop`, and a character of no meaning from there on. -/
def peek (text : List α) (blank : α) (stop i : ℕ) : Option α :=
  if i < stop then text[i]? else some blank

/-- A position below the length can be read. -/
theorem exists_getElem? {text : List α} {i : ℕ} (h : i < text.length) : ∃ c, text[i]? = some c :=
  ⟨_, List.getElem?_eq_getElem h⟩

theorem peek_spec {text : List α} {stop : ℕ} (hstop : stop ≤ text.length) (blank : α) (i : ℕ) :
    ∃ c, peek text blank stop i = some c ∧ (i < stop ∧ text[i]? = some c ∨ stop ≤ i ∧ c = blank) := by
  rw [peek]
  split_ifs with h
  · obtain ⟨c, hc⟩ := exists_getElem? (h.trans_le hstop)
    exact ⟨c, hc, .inl ⟨h, hc⟩⟩
  · exact ⟨blank, rfl, .inr ⟨Nat.le_of_not_lt h, rfl⟩⟩

/-- `while i < stop && p(text[i]) { i += 1 }`, by the number of turns left. -/
def advance (text : List α) (p : α → Bool) : ℕ → ℕ → Option ℕ
  | 0, i => some i
  | turns + 1, i => do
    let c ← text[i]?
    if p c then advance text p turns (i + 1) else some i

def advanceWhile (text : List α) (p : α → Bool) (stop i : ℕ) : Option ℕ :=
  advance text p (stop - i) i

/-- `while i > start && p(text[i]) { i -= 1 }` -/
def retreat (text : List α) (p : α → Bool) : ℕ → ℕ → Option ℕ
  | 0, i => some i
  | turns + 1, i => do
    let c ← text[i]?
    if p c then retreat text p turns (i - 1) else some i

def retreatWhile (text : List α) (p : α → Bool) (start i : ℕ) : Option ℕ :=
  retreat text p (i - start) i

/-- Where a run forward ends. -/
structure Advanced (text : List α) (p : α → Bool) (stop i j : ℕ) : Prop where
  le : i ≤ j
  le_stop : j ≤ max i stop
  inside : ∀ k, i ≤ k → k < j → ∃ c, text[k]? = some c ∧ p c = true
  ended : j < stop → ∃ c, text[j]? = some c ∧ p c = false

theorem advanceWhile_spec {text : List α} {p : α → Bool} {stop : ℕ} (hstop : stop ≤ text.length)
    (i : ℕ) : ∃ j, advanceWhile text p stop i = some j ∧ Advanced text p stop i j := by
  rw [advanceWhile]
  generalize hturns : stop - i = turns
  induction turns generalizing i with
  | zero =>
    refine ⟨i, rfl, le_rfl, le_max_left i stop, ?_, ?_⟩
    · intro k hk hki
      omega
    · intro hi
      omega
  | succ turns ih =>
    obtain ⟨c, hc⟩ := exists_getElem? (show i < text.length by omega)
    rw [advance, hc, Option.bind_eq_bind, Option.bind_some]
    split_ifs with hp
    · obtain ⟨j, hj, hadvanced⟩ := ih (i + 1) (by omega)
      have hle := hadvanced.le
      have hstop' := hadvanced.le_stop
      refine ⟨j, hj, by omega, by omega, ?_, hadvanced.ended⟩
      intro k hk hkj
      rcases Nat.eq_or_lt_of_le hk with rfl | hk
      · exact ⟨c, hc, hp⟩
      · exact hadvanced.inside k hk hkj
    · refine ⟨i, rfl, le_rfl, le_max_left i stop, ?_, fun _ => ⟨c, hc, eq_false_of_ne_true hp⟩⟩
      intro k hk hki
      omega

/-- Where a run backward ends. -/
structure Retreated (text : List α) (p : α → Bool) (start i j : ℕ) : Prop where
  le : j ≤ i
  start_le : min i start ≤ j
  ended : start < j → ∃ c, text[j]? = some c ∧ p c = false

theorem retreatWhile_spec {text : List α} {p : α → Bool} {i : ℕ} (hi : i < text.length)
    (start : ℕ) : ∃ j, retreatWhile text p start i = some j ∧ Retreated text p start i j := by
  rw [retreatWhile]
  generalize hturns : i - start = turns
  induction turns generalizing i with
  | zero =>
    refine ⟨i, rfl, le_rfl, min_le_left i start, ?_⟩
    intro hstart
    omega
  | succ turns ih =>
    obtain ⟨c, hc⟩ := exists_getElem? hi
    rw [retreat, hc, Option.bind_eq_bind, Option.bind_some]
    split_ifs with hp
    · have hlt : i - 1 < text.length := by omega
      obtain ⟨j, hj, hretreated⟩ := ih hlt (by omega)
      have hle := hretreated.le
      have hstart := hretreated.start_le
      exact ⟨j, hj, by omega, by omega, hretreated.ended⟩
    · refine ⟨i, rfl, le_rfl, min_le_left i start, fun _ => ⟨c, hc, eq_false_of_ne_true hp⟩⟩

/-! ## Loops -/

/-- What a turn of a loop decides: to go on from a position, or to stop. -/
inductive Move (σ ρ : Type) where
  | next (s : σ) (i : ℕ)
  | stop (r : ρ)

/-- A loop with the state `s` while the position `i` is below `bound`, for at most so many
    turns. -/
def scanLoop (bound : ℕ) (turn : σ → ℕ → Option (Move σ ρ)) (finish : σ → ℕ → ρ) :
    ℕ → σ → ℕ → Option ρ
  | 0, s, i => if i < bound then none else some (finish s i)
  | turns + 1, s, i =>
    if i < bound then
      match turn s i with
      | none => none
      | some (.next s i) => scanLoop bound turn finish turns s i
      | some (.stop r) => some r
    else some (finish s i)

/-- A loop from a position: it moves on in every turn. -/
def scan (bound : ℕ) (turn : σ → ℕ → Option (Move σ ρ)) (finish : σ → ℕ → ρ) (s : σ) (i : ℕ) :
    Option ρ := scanLoop bound turn finish (bound - i) s i

/-- A turn goes on to a later position where the invariant holds, or stops with a result. -/
inductive Move.Meets (I : σ → ℕ → Prop) (Q : ρ → Prop) (i : ℕ) : Move σ ρ → Prop
  | next {s j} : i < j → I s j → Move.Meets I Q i (.next s j)
  | stop {r} : Q r → Move.Meets I Q i (.stop r)

theorem scanLoop_rule {I : σ → ℕ → Prop} {Q : ρ → Prop} {bound : ℕ}
    {turn : σ → ℕ → Option (Move σ ρ)} {finish : σ → ℕ → ρ}
    (hturn : ∀ s i, i < bound → I s i → ∃ t, turn s i = some t ∧ t.Meets I Q i)
    (hfinish : ∀ s i, bound ≤ i → I s i → Q (finish s i)) {turns : ℕ} {s : σ} {i : ℕ}
    (hturns : bound ≤ i + turns) (h : I s i) :
    ∃ r, scanLoop bound turn finish turns s i = some r ∧ Q r := by
  induction turns generalizing s i with
  | zero =>
    rw [scanLoop, if_neg (by omega)]
    exact ⟨_, rfl, hfinish s i (by omega) h⟩
  | succ turns ih =>
    rw [scanLoop]
    split_ifs with hi
    · obtain ⟨t, ht, hmeets⟩ := hturn s i hi h
      rw [ht]
      cases hmeets with
      | next hlt hI => exact ih (by omega) hI
      | stop hQ => exact ⟨_, rfl, hQ⟩
    · exact ⟨_, rfl, hfinish s i (by omega) h⟩

/-- **Loop rule.** -/
theorem scan_rule {I : σ → ℕ → Prop} {Q : ρ → Prop} {bound : ℕ}
    {turn : σ → ℕ → Option (Move σ ρ)} {finish : σ → ℕ → ρ}
    (hturn : ∀ s i, i < bound → I s i → ∃ t, turn s i = some t ∧ t.Meets I Q i)
    (hfinish : ∀ s i, bound ≤ i → I s i → Q (finish s i)) {s : σ} {i : ℕ} (h : I s i) :
    ∃ r, scan bound turn finish s i = some r ∧ Q r :=
  scanLoop_rule hturn hfinish (by omega) h

/-! ## A known text -/

/-- From the position `i` on, the text is `rest`. -/
def At (text : List α) (i : ℕ) (rest : List α) : Prop :=
  ∃ front, text = front ++ rest ∧ front.length = i

section

variable {text run rest : List α} {c : α} {i : ℕ}

theorem at_zero (text : List α) : At text 0 text := ⟨[], rfl, rfl⟩

theorem At.skip (h : At text i (run ++ rest)) : At text (i + run.length) rest := by
  obtain ⟨front, rfl, rfl⟩ := h
  exact ⟨front ++ run, by rw [List.append_assoc], List.length_append⟩

theorem At.tail (h : At text i (c :: rest)) : At text (i + 1) rest :=
  At.skip (show At text i ([c] ++ rest) from h)

theorem At.le (h : At text i rest) : i ≤ text.length := by
  obtain ⟨front, rfl, rfl⟩ := h
  rw [List.length_append]
  exact Nat.le_add_right _ _

theorem At.le_of_append (h : At text i (run ++ rest)) : i + run.length ≤ text.length := h.skip.le

theorem At.lt (h : At text i (c :: rest)) : i < text.length := h.tail.le

theorem At.getElem? (h : At text i (c :: rest)) : text[i]? = some c := by
  obtain ⟨front, rfl, rfl⟩ := h
  rw [List.getElem?_append_right le_rfl, Nat.sub_self]
  rfl

theorem At.slice (h : At text i (run ++ rest)) : slice text i (i + run.length) = some run := by
  rw [slice_of_le (Nat.le_add_right _ _) h.le_of_append]
  obtain ⟨front, rfl, rfl⟩ := h
  rw [← List.append_assoc, List.take_left' List.length_append, List.drop_left]

theorem At.peek (h : At text i (c :: rest)) (blank : α) {stop : ℕ} (hstop : i < stop) :
    peek text blank stop i = some c := (if_pos hstop).trans h.getElem?

/-- A run over known characters of the class. -/
theorem advanceWhile_at {p : α → Bool} {stop : ℕ} (h : At text i (run ++ rest))
    (hrun : ∀ c ∈ run, p c = true) (hstop : i + run.length ≤ stop)
    (hend : i + run.length = stop ∨ ∃ c, rest.head? = some c ∧ p c = false) :
    advanceWhile text p stop i = some (i + run.length) := by
  induction run generalizing i with
  | nil =>
    rw [advanceWhile]
    rcases Nat.eq_zero_or_pos (stop - i) with hzero | hpos
    · rw [hzero]
      rfl
    · obtain ⟨n, hn⟩ := Nat.exists_eq_succ_of_ne_zero hpos.ne'
      rcases hend with hend | ⟨c, hc, hp⟩
      · rw [List.length_nil] at hend
        omega
      · obtain ⟨rest, rfl⟩ : ∃ tail, rest = c :: tail := List.head?_eq_some_iff.1 hc
        rw [hn, Nat.succ_eq_add_one, advance, h.getElem?, Option.bind_eq_bind, Option.bind_some, hp]
        rfl
  | cons c run ih =>
    rw [List.forall_mem_cons] at hrun
    rw [List.length_cons] at hstop hend ⊢
    have hturns : stop - i = (stop - (i + 1)) + 1 := by omega
    have htail := ih h.tail hrun.2 (by omega) (by rwa [Nat.add_assoc, Nat.add_comm 1])
    rw [advanceWhile] at htail ⊢
    rw [hturns, advance, At.getElem? h, Option.bind_eq_bind, Option.bind_some, hrun.1, if_pos rfl,
      htail]
    congr 1
    omega

/-- A run backward over known characters of the class, to one that is not. -/
theorem retreatWhile_at {p : α → Bool} {start : ℕ} (h : At text i (c :: (run ++ rest)))
    (hc : p c = false) (hrun : ∀ d ∈ run, p d = true) (hstart : start ≤ i) :
    retreatWhile text p start (i + run.length) = some i := by
  rw [retreatWhile]
  induction run using List.reverseRecOn generalizing rest with
  | nil =>
    rw [List.length_nil, Nat.add_zero]
    rcases Nat.eq_zero_or_pos (i - start) with hzero | hpos
    · rw [hzero]
      rfl
    · obtain ⟨n, hn⟩ := Nat.exists_eq_succ_of_ne_zero hpos.ne'
      rw [hn, Nat.succ_eq_add_one, retreat, h.getElem?, Option.bind_eq_bind, Option.bind_some, hc]
      rfl
  | append_singleton run d ih =>
    obtain ⟨hrun, hd⟩ := List.forall_mem_append.1 hrun
    have hturns : i + (run ++ [d]).length - start = (i + run.length - start) + 1 := by
      rw [List.length_append, List.length_singleton]
      omega
    have hfront : At text i ((c :: run) ++ (d :: rest)) := by simpa using h
    have hlast : text[i + (run ++ [d]).length]? = some d := by
      have hlength : i + (run ++ [d]).length = i + (c :: run).length := by simp
      rw [hlength]
      exact hfront.skip.getElem?
    have hback := ih (show At text i (c :: (run ++ (d :: rest))) from hfront) hrun
    rw [hturns, retreat, hlast, Option.bind_eq_bind, Option.bind_some, if_pos (hd d (by simp)), ← hback,
      List.length_append, List.length_singleton, ← Nat.add_assoc, Nat.add_sub_cancel]

end

section

variable {bound : ℕ} {turn : σ → ℕ → Option (Move σ ρ)} {finish : σ → ℕ → ρ} {s t : σ} {i j : ℕ}

theorem scan_finish (hi : bound ≤ i) : scan bound turn finish s i = some (finish s i) := by
  rw [scan, Nat.sub_eq_zero_of_le hi, scanLoop, if_neg (Nat.not_lt.2 hi)]

theorem scan_stop {r : ρ} (hi : i < bound) (h : turn s i = some (.stop r)) :
    scan bound turn finish s i = some r := by
  obtain ⟨n, hn⟩ := Nat.exists_eq_succ_of_ne_zero (Nat.sub_pos_of_lt hi).ne'
  rw [scan, hn, Nat.succ_eq_add_one, scanLoop, if_pos hi, h]

/-- Each turn moves on. -/
def Moving (bound : ℕ) (turn : σ → ℕ → Option (Move σ ρ)) : Prop :=
  ∀ s i s' j, i < bound → turn s i = some (.next s' j) → i < j

/-- The turns that are not needed do not count. -/
theorem scanLoop_congr (hmoving : Moving bound turn) {m n : ℕ} (hm : bound ≤ i + m)
    (hn : bound ≤ i + n) : scanLoop bound turn finish m s i = scanLoop bound turn finish n s i := by
  induction m generalizing s i n with
  | zero =>
    cases n with
    | zero => rfl
    | succ n => rw [scanLoop, scanLoop, if_neg (by omega), if_neg (by omega)]
  | succ m ih =>
    cases n with
    | zero => rw [scanLoop, scanLoop, if_neg (by omega), if_neg (by omega)]
    | succ n =>
      rw [scanLoop, scanLoop]
      by_cases hi : i < bound
      · rw [if_pos hi, if_pos hi]
        cases hturn : turn s i with
        | none => rfl
        | some move =>
          cases move with
          | stop r => rfl
          | next s' j =>
            have hlt := hmoving s i s' j hi hturn
            exact ih (by omega) (by omega)
      · rw [if_neg hi, if_neg hi]

/-- **A turn of a loop.** -/
theorem scan_next (hmoving : Moving bound turn) (hi : i < bound) (h : turn s i = some (.next t j)) :
    scan bound turn finish s i = scan bound turn finish t j := by
  have hlt := hmoving s i t j hi h
  obtain ⟨n, hn⟩ := Nat.exists_eq_succ_of_ne_zero (Nat.sub_pos_of_lt hi).ne'
  rw [scan, hn, Nat.succ_eq_add_one, scanLoop, if_pos hi, h]
  exact scanLoop_congr hmoving (by omega) (by omega)

/-- The turns over a known text that does not change the state. -/
theorem scan_skip (hmoving : Moving bound turn) {text run rest : List α} (h : At text i (run ++ rest))
    (hbound : i + run.length ≤ bound)
    (hturn : ∀ c ∈ run, ∀ k, text[k]? = some c → turn s k = some (.next s (k + 1))) :
    scan bound turn finish s i = scan bound turn finish s (i + run.length) := by
  induction run generalizing i with
  | nil => rfl
  | cons c run ih =>
    rw [List.forall_mem_cons] at hturn
    rw [List.length_cons] at hbound ⊢
    rw [scan_next hmoving (by omega) (hturn.1 i (At.getElem? h)),
      ih h.tail (by omega) hturn.2, Nat.add_assoc, Nat.add_comm 1]

end

end Cognis.Cursor
