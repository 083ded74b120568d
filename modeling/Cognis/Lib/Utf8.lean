/-
  Decoding bytes as UTF-8, strictly (`str::from_utf8`) and lossily
  (`String::from_utf8_lossy`).

  Both read one sequence at a time (`Utf8.next`). Where the bytes are no character, the
  lossy decoder consumes the longest prefix that could have started one and puts a
  replacement character in its place; the strict one refuses.

  * `nul_notMem_fromUtf8Lossy`: only a NUL byte decodes to the NUL character.
  * `fromUtf8Lossy_encode`, `fromUtf8_encode`: what is encoded is read back.
-/
import Mathlib.Data.UInt
import Mathlib.Tactic.Common

namespace Cognis

namespace Utf8

/-- A continuation byte, `10xxxxxx`. -/
def isContinuation (b : UInt8) : Bool := 0x80 ≤ b.toNat && b.toNat ≤ 0xBF

/-- `utf8_char_width`; `0` for a byte that starts no character. -/
def charWidth (b : UInt8) : ℕ :=
  if b.toNat < 0x80 then 1
  else if 0xC2 ≤ b.toNat ∧ b.toNat ≤ 0xDF then 2
  else if 0xE0 ≤ b.toNat ∧ b.toNat ≤ 0xEF then 3
  else if 0xF0 ≤ b.toNat ∧ b.toNat ≤ 0xF4 then 4
  else 0

/-- The second byte that the first one allows: no overlong form, no surrogate, nothing past
    the last scalar value. -/
def secondOk (b₀ b₁ : UInt8) : Bool :=
  isContinuation b₁ && (b₀ != 0xE0 || 0xA0 ≤ b₁.toNat) && (b₀ != 0xED || b₁.toNat ≤ 0x9F) &&
    (b₀ != 0xF0 || 0x90 ≤ b₁.toNat) && (b₀ != 0xF4 || b₁.toNat ≤ 0x8F)

/-- The bits that a continuation byte carries. -/
def payload (b : UInt8) : ℕ := b.toNat - 0x80

/-- The character that starts with `b₀`, if there is one, and the number of the following
    bytes that are consumed with it. -/
def next (b₀ : UInt8) (bs : List UInt8) : Option Char × ℕ :=
  match charWidth b₀, bs with
  | 1, _ => (some (.ofNat b₀.toNat), 0)
  | 2, b₁ :: _ =>
    if secondOk b₀ b₁ then (some (.ofNat ((b₀.toNat - 0xC0) * 64 + payload b₁)), 1) else (none, 0)
  | 3, b₁ :: bs =>
    if secondOk b₀ b₁ then
      match bs with
      | b₂ :: _ =>
        if isContinuation b₂ then
          (some (.ofNat (((b₀.toNat - 0xE0) * 64 + payload b₁) * 64 + payload b₂)), 2)
        else (none, 1)
      | [] => (none, 1)
    else (none, 0)
  | 4, b₁ :: bs =>
    if secondOk b₀ b₁ then
      match bs with
      | b₂ :: bs =>
        if isContinuation b₂ then
          match bs with
          | b₃ :: _ =>
            if isContinuation b₃ then
              (some (.ofNat
                ((((b₀.toNat - 0xF0) * 64 + payload b₁) * 64 + payload b₂) * 64 + payload b₃)), 3)
            else (none, 2)
          | [] => (none, 2)
        else (none, 1)
      | [] => (none, 1)
    else (none, 0)
  | _, _ => (none, 0)

/-- The decoded sequences, after the `skip` bytes that the last one has consumed. -/
def sequences : ℕ → List UInt8 → List (Option Char)
  | _, [] => []
  | skip + 1, _ :: bs => sequences skip bs
  | 0, b :: bs => (next b bs).1 :: sequences (next b bs).2 bs

theorem isValidChar_iff {n : ℕ} :
    n.isValidChar ↔ n < 0xD800 ∨ 0xDFFF < n ∧ n < 0x110000 := Iff.rfl

theorem toNat_ofNat {n : ℕ} (h : n.isValidChar) : (Char.ofNat n).toNat = n := by
  rw [Char.ofNat, dif_pos h]
  rfl

theorem ofNat_ne_nul {n : ℕ} (hpos : 0 < n) (h : n.isValidChar) : Char.ofNat n ≠ '\x00' := by
  intro heq
  have := toNat_ofNat h
  rw [heq] at this
  change 0 = n at this
  omega

theorem charWidth_cases (b : UInt8) :
    charWidth b = 0 ∨ charWidth b = 1 ∧ b.toNat < 0x80 ∨
      charWidth b = 2 ∧ 0xC2 ≤ b.toNat ∧ b.toNat ≤ 0xDF ∨
      charWidth b = 3 ∧ 0xE0 ≤ b.toNat ∧ b.toNat ≤ 0xEF ∨
      charWidth b = 4 ∧ 0xF0 ≤ b.toNat ∧ b.toNat ≤ 0xF4 := by
  simp only [charWidth]
  split_ifs <;> omega

theorem secondOk_cases {b₀ b₁ : UInt8} (h : secondOk b₀ b₁) :
    0x80 ≤ b₁.toNat ∧ b₁.toNat ≤ 0xBF ∧ (b₀.toNat = 0xE0 → 0xA0 ≤ b₁.toNat) ∧
      (b₀.toNat = 0xED → b₁.toNat ≤ 0x9F) ∧ (b₀.toNat = 0xF0 → 0x90 ≤ b₁.toNat) ∧
      (b₀.toNat = 0xF4 → b₁.toNat ≤ 0x8F) := by
  simp only [secondOk, isContinuation, Bool.and_eq_true, Bool.or_eq_true, bne_iff_ne, ne_eq,
    decide_eq_true_eq, ← UInt8.toNat_inj] at h
  obtain ⟨⟨⟨⟨⟨h₁, h₂⟩, hE0⟩, hED⟩, hF0⟩, hF4⟩ := h
  exact ⟨h₁, h₂, hE0.resolve_left ∘ not_not.2, hED.resolve_left ∘ not_not.2,
    hF0.resolve_left ∘ not_not.2, hF4.resolve_left ∘ not_not.2⟩

theorem isContinuation_iff {b : UInt8} : isContinuation b ↔ 0x80 ≤ b.toNat ∧ b.toNat ≤ 0xBF := by
  simp only [isContinuation, Bool.and_eq_true, decide_eq_true_eq]

/-- A sequence of several bytes is never NUL, since overlong forms are refused. -/
theorem next_ne_nul {b : UInt8} (bs : List UInt8) (hb : b ≠ 0) : (next b bs).1 ≠ some '\x00' := by
  have hpos : 0 < b.toNat := Nat.pos_of_ne_zero fun h => hb (UInt8.toNat_inj.1 h)
  have hsome : ∀ n : ℕ, 0 < n → n.isValidChar → (some (Char.ofNat n)) ≠ some '\x00' :=
    fun n h hv heq => ofNat_ne_nul h hv (Option.some.inj heq)
  rcases charWidth_cases b with hw | ⟨hw, hb⟩ | ⟨hw, hb, hb'⟩ | ⟨hw, hb, hb'⟩ | ⟨hw, hb, hb'⟩
  · simp [next, hw]
  · simp only [next, hw]
    exact hsome _ hpos (isValidChar_iff.2 (by omega))
  · rcases bs with - | ⟨b₁, bs⟩
    · simp [next, hw]
    simp only [next, hw]
    split_ifs with h₁
    · have := secondOk_cases h₁
      apply hsome
      · omega
      · rw [isValidChar_iff]; unfold payload; omega
    · simp
  · rcases bs with - | ⟨b₁, - | ⟨b₂, bs⟩⟩
    · simp [next, hw]
    · simp only [next, hw]
      split_ifs <;> simp
    simp only [next, hw]
    split_ifs with h₁ h₂
    · have := secondOk_cases h₁
      have := isContinuation_iff.1 h₂
      apply hsome
      · unfold payload; omega
      · rw [isValidChar_iff]; unfold payload; omega
    · simp
    · simp
  · rcases bs with - | ⟨b₁, - | ⟨b₂, - | ⟨b₃, bs⟩⟩⟩
    · simp [next, hw]
    · simp only [next, hw]
      split_ifs <;> simp
    · simp only [next, hw]
      split_ifs <;> simp
    simp only [next, hw]
    split_ifs with h₁ h₂ h₃
    · have := secondOk_cases h₁
      have := isContinuation_iff.1 h₂
      have := isContinuation_iff.1 h₃
      apply hsome
      · unfold payload; omega
      · rw [isValidChar_iff]; unfold payload; omega
    · simp
    · simp
    · simp

theorem nul_notMem_sequences {bytes : List UInt8} (h : 0 ∉ bytes) (skip : ℕ) :
    some '\x00' ∉ sequences skip bytes := by
  induction bytes generalizing skip with
  | nil => cases skip <;> simp [sequences]
  | cons b bs ih =>
    rw [List.mem_cons, not_or] at h
    cases skip with
    | zero =>
      rw [sequences, List.mem_cons, not_or]
      exact ⟨(next_ne_nul bs (Ne.symm h.1)).symm, ih h.2 _⟩
    | succ skip => exact ih h.2 skip

/-! ## Encoding -/

theorem secondOk_of {b₀ b₁ : UInt8} (h : 0x80 ≤ b₁.toNat ∧ b₁.toNat ≤ 0xBF)
    (hE0 : b₀.toNat = 0xE0 → 0xA0 ≤ b₁.toNat) (hED : b₀.toNat = 0xED → b₁.toNat ≤ 0x9F)
    (hF0 : b₀.toNat = 0xF0 → 0x90 ≤ b₁.toNat) (hF4 : b₀.toNat = 0xF4 → b₁.toNat ≤ 0x8F) :
    secondOk b₀ b₁ = true := by
  simp only [secondOk, isContinuation, Bool.and_eq_true, Bool.or_eq_true, bne_iff_ne, ne_eq,
    decide_eq_true_eq, ← UInt8.toNat_inj]
  exact ⟨⟨⟨⟨h, not_or_of_imp hE0⟩, not_or_of_imp hED⟩, not_or_of_imp hF0⟩, not_or_of_imp hF4⟩

/-- A byte by its value. -/
theorem exists_byte (n : ℕ) (h : n < 256) : ∃ b : UInt8, UInt8.ofNat n = b ∧ b.toNat = n :=
  ⟨_, rfl, by rw [UInt8.toNat_ofNat']; exact Nat.mod_eq_of_lt h⟩

/-- The bytes of a scalar value. -/
def scalarBytes (v : ℕ) : List UInt8 :=
  if v ≤ 0x7f then [.ofNat v]
  else if v ≤ 0x7ff then [.ofNat (v / 64 % 0x20 + 0xc0), .ofNat (v % 0x40 + 0x80)]
  else if v ≤ 0xffff then
    [.ofNat (v / 4096 % 0x10 + 0xe0), .ofNat (v / 64 % 0x40 + 0x80), .ofNat (v % 0x40 + 0x80)]
  else
    [.ofNat (v / 262144 % 0x08 + 0xf0), .ofNat (v / 4096 % 0x40 + 0x80),
      .ofNat (v / 64 % 0x40 + 0x80), .ofNat (v % 0x40 + 0x80)]

section
variable {b₀ b₁ b₂ b₃ : UInt8} (bs : List UInt8)

theorem next_one (h : charWidth b₀ = 1) : next b₀ bs = (some (.ofNat b₀.toNat), 0) := by
  unfold next
  rw [h]
  rfl

theorem next_two (h : charWidth b₀ = 2) (h₁ : secondOk b₀ b₁ = true) : next b₀ (b₁ :: bs) =
    (some (.ofNat ((b₀.toNat - 0xC0) * 64 + payload b₁)), 1) := by
  unfold next
  rw [h]
  exact if_pos h₁

theorem next_three (h : charWidth b₀ = 3) (h₁ : secondOk b₀ b₁ = true)
    (h₂ : isContinuation b₂ = true) : next b₀ (b₁ :: b₂ :: bs) =
      (some (.ofNat (((b₀.toNat - 0xE0) * 64 + payload b₁) * 64 + payload b₂)), 2) := by
  unfold next
  rw [h]
  exact (if_pos h₁).trans (if_pos h₂)

theorem next_four (h : charWidth b₀ = 4) (h₁ : secondOk b₀ b₁ = true)
    (h₂ : isContinuation b₂ = true) (h₃ : isContinuation b₃ = true) :
    next b₀ (b₁ :: b₂ :: b₃ :: bs) = (some (.ofNat
      ((((b₀.toNat - 0xF0) * 64 + payload b₁) * 64 + payload b₂) * 64 + payload b₃)), 3) := by
  unfold next
  rw [h]
  exact (if_pos h₁).trans ((if_pos h₂).trans (if_pos h₃))

end

theorem utf8EncodeChar_eq (c : Char) : String.utf8EncodeChar c = scalarBytes c.toNat := rfl

/-- **A character is read back** from its bytes, whatever comes after them. -/
theorem next_utf8EncodeChar (c : Char) (bs : List UInt8) : ∃ b rest,
    String.utf8EncodeChar c = b :: rest ∧ next b (rest ++ bs) = (some c, rest.length) := by
  have hvalid : c.toNat.isValidChar := c.valid
  have hc : Char.ofNat c.toNat = c := Char.ofNat_toNat c
  have hlt : c.toNat < 0x110000 := by
    rcases isValidChar_iff.1 hvalid with h | h <;> omega
  rw [utf8EncodeChar_eq]
  generalize c.toNat = v at *
  rw [← hc]
  unfold scalarBytes
  split_ifs with h1 h2 h3
  · obtain ⟨b₀, heq₀, hb₀⟩ := exists_byte v (by omega)
    refine ⟨b₀, [], by rw [heq₀], ?_⟩
    have hwidth : charWidth b₀ = 1 := by rw [charWidth, if_pos (by omega)]
    rw [next_one _ hwidth, hb₀]
    rfl
  · obtain ⟨b₀, heq₀, hb₀⟩ := exists_byte (v / 64 % 0x20 + 0xc0) (by omega)
    obtain ⟨b₁, heq₁, hb₁⟩ := exists_byte (v % 0x40 + 0x80) (by omega)
    refine ⟨b₀, [b₁], by rw [heq₀, heq₁], ?_⟩
    have hwidth : charWidth b₀ = 2 := by rw [charWidth, if_neg (by omega), if_pos (by omega)]
    have hsecond : secondOk b₀ b₁ = true :=
      secondOk_of (by omega) (by omega) (by omega) (by omega) (by omega)
    have hvalue : (b₀.toNat - 0xC0) * 64 + payload b₁ = v := by unfold payload; omega
    rw [List.cons_append, next_two _ hwidth hsecond, hvalue]
    rfl
  · rw [isValidChar_iff] at hvalid
    obtain ⟨b₀, heq₀, hb₀⟩ := exists_byte (v / 4096 % 0x10 + 0xe0) (by omega)
    obtain ⟨b₁, heq₁, hb₁⟩ := exists_byte (v / 64 % 0x40 + 0x80) (by omega)
    obtain ⟨b₂, heq₂, hb₂⟩ := exists_byte (v % 0x40 + 0x80) (by omega)
    refine ⟨b₀, [b₁, b₂], by rw [heq₀, heq₁, heq₂], ?_⟩
    have hwidth : charWidth b₀ = 3 := by
      rw [charWidth, if_neg (by omega), if_neg (by omega), if_pos (by omega)]
    have hsecond : secondOk b₀ b₁ = true :=
      secondOk_of (by omega) (by omega) (by omega) (by omega) (by omega)
    have hthird : isContinuation b₂ = true := isContinuation_iff.2 (by omega)
    have hvalue : ((b₀.toNat - 0xE0) * 64 + payload b₁) * 64 + payload b₂ = v := by
      unfold payload; omega
    rw [List.cons_append, List.cons_append, next_three _ hwidth hsecond hthird, hvalue]
    rfl
  · obtain ⟨b₀, heq₀, hb₀⟩ := exists_byte (v / 262144 % 0x08 + 0xf0) (by omega)
    obtain ⟨b₁, heq₁, hb₁⟩ := exists_byte (v / 4096 % 0x40 + 0x80) (by omega)
    obtain ⟨b₂, heq₂, hb₂⟩ := exists_byte (v / 64 % 0x40 + 0x80) (by omega)
    obtain ⟨b₃, heq₃, hb₃⟩ := exists_byte (v % 0x40 + 0x80) (by omega)
    refine ⟨b₀, [b₁, b₂, b₃], by rw [heq₀, heq₁, heq₂, heq₃], ?_⟩
    have hwidth : charWidth b₀ = 4 := by
      rw [charWidth, if_neg (by omega), if_neg (by omega), if_neg (by omega), if_pos (by omega)]
    have hsecond : secondOk b₀ b₁ = true :=
      secondOk_of (by omega) (by omega) (by omega) (by omega) (by omega)
    have hthird : isContinuation b₂ = true := isContinuation_iff.2 (by omega)
    have hfourth : isContinuation b₃ = true := isContinuation_iff.2 (by omega)
    have hvalue :
        (((b₀.toNat - 0xF0) * 64 + payload b₁) * 64 + payload b₂) * 64 + payload b₃ = v := by
      unfold payload; omega
    rw [List.cons_append, List.cons_append, List.cons_append,
      next_four _ hwidth hsecond hthird hfourth, hvalue]
    rfl

theorem sequences_skip (rest bs : List UInt8) :
    sequences rest.length (rest ++ bs) = sequences 0 bs := by
  induction rest with
  | nil => rfl
  | cons b rest ih => exact ih

/-- The bytes of a text. -/
def encode (text : List Char) : List UInt8 := text.flatMap String.utf8EncodeChar

theorem sequences_encode (text : List Char) : sequences 0 (encode text) = text.map some := by
  induction text with
  | nil => rfl
  | cons c text ih =>
    obtain ⟨b, rest, hencode, hnext⟩ := next_utf8EncodeChar c (encode text)
    have hcons : encode (c :: text) = b :: (rest ++ encode text) := by
      rw [encode, List.flatMap_cons, hencode]
      rfl
    rw [hcons, sequences, hnext, List.map_cons, sequences_skip, ih]

/-- A byte of ASCII stands for its character only. -/
theorem mem_utf8EncodeChar {c : Char} {b : UInt8} (hb : b.toNat < 0x80)
    (h : b ∈ String.utf8EncodeChar c) : c.toNat = b.toNat := by
  rw [utf8EncodeChar_eq] at h
  generalize c.toNat = v at *
  unfold scalarBytes at h
  split_ifs at h with h1 h2 h3
  all_goals
    simp only [List.mem_cons, List.not_mem_nil, or_false] at h
  · obtain ⟨b₀, heq₀, hb₀⟩ := exists_byte v (by omega)
    rw [h, heq₀, hb₀]
  all_goals
    -- the other bytes are past ASCII
    exfalso
  · obtain ⟨b₀, heq₀, hb₀⟩ := exists_byte (v / 64 % 0x20 + 0xc0) (by omega)
    obtain ⟨b₁, heq₁, hb₁⟩ := exists_byte (v % 0x40 + 0x80) (by omega)
    rw [heq₀, heq₁] at h
    rcases h with rfl | rfl <;> omega
  · obtain ⟨b₀, heq₀, hb₀⟩ := exists_byte (v / 4096 % 0x10 + 0xe0) (by omega)
    obtain ⟨b₁, heq₁, hb₁⟩ := exists_byte (v / 64 % 0x40 + 0x80) (by omega)
    obtain ⟨b₂, heq₂, hb₂⟩ := exists_byte (v % 0x40 + 0x80) (by omega)
    rw [heq₀, heq₁, heq₂] at h
    rcases h with rfl | rfl | rfl <;> omega
  · obtain ⟨b₀, heq₀, hb₀⟩ := exists_byte (v / 262144 % 0x08 + 0xf0) (by omega)
    obtain ⟨b₁, heq₁, hb₁⟩ := exists_byte (v / 4096 % 0x40 + 0x80) (by omega)
    obtain ⟨b₂, heq₂, hb₂⟩ := exists_byte (v / 64 % 0x40 + 0x80) (by omega)
    obtain ⟨b₃, heq₃, hb₃⟩ := exists_byte (v % 0x40 + 0x80) (by omega)
    rw [heq₀, heq₁, heq₂, heq₃] at h
    rcases h with rfl | rfl | rfl | rfl <;> omega

end Utf8

/-- `String::from_utf8_lossy` -/
def fromUtf8Lossy (bytes : List UInt8) : List Char :=
  (Utf8.sequences 0 bytes).map (·.getD '\uFFFD')

theorem nul_notMem_fromUtf8Lossy {bytes : List UInt8} (h : 0 ∉ bytes) :
    '\x00' ∉ fromUtf8Lossy bytes := by
  intro hmem
  obtain ⟨c, hc, heq⟩ := List.mem_map.1 hmem
  cases c with
  | none => exact absurd heq (by decide)
  | some c => exact Utf8.nul_notMem_sequences h 0 (heq ▸ hc)

/-- `str::from_utf8` -/
def fromUtf8 (bytes : List UInt8) : Option (List Char) := (Utf8.sequences 0 bytes).mapM id

theorem fromUtf8Lossy_encode (text : List Char) : fromUtf8Lossy (Utf8.encode text) = text := by
  rw [fromUtf8Lossy, Utf8.sequences_encode, List.map_map]
  exact List.map_id text

theorem fromUtf8_encode (text : List Char) : fromUtf8 (Utf8.encode text) = some text := by
  rw [fromUtf8, Utf8.sequences_encode]
  induction text with
  | nil => rfl
  | cons c text ih => simp [ih]

end Cognis
