/-
  The secrets in the leaves of YAML and TOML documents (`parser/artifact/yaml.rs`, then
  `enricher/secrets.rs`).

  A leaf is handed to the detector as its path, a blank and its bare value. The quotes and the
  sign of the assignment are gone, so the passwords are not found any more.

  * `redact_copies`: a value without quotes and without a known shape is copied.
  * `passwords_redacted`: a password assignment is redacted when the value has a known shape
    in it; a plain value is left as it is.
-/
import Cognis.Indexer.Enricher
import Cognis.Indexer.Toml

namespace Cognis

open Regex

/-! ## What the detector copies -/

/-- A value that no pass changes: it has no quotes, no known shape, and no end of a key
    header. -/
structure Plain (value : List Char) : Prop where
  unquoted : ∀ c ∈ value, isQuote c = false
  shapeless : ∀ w, KnownShape w → ¬ w <:+: value
  headerless : ¬ "KEY-----".toList <:+: value

/-- No word of a shape reaches into a blank and a plain value. -/
def StaysOutside (r : Regex Char) (value : List Char) : Prop :=
  ∀ w, r.Matches w → ¬ w <:+: ' ' :: value ∧ ∀ y, y ≠ [] → y <:+ w → ¬ y <+: ' ' :: value

theorem blank_mem_of_begins {y value : List Char} (hne : y ≠ []) (h : y <+: ' ' :: value) :
    ' ' ∈ y := by
  obtain ⟨c, y, rfl⟩ := List.exists_cons_of_ne_nil hne
  rw [(List.cons_prefix_cons.1 h).1]
  exact List.mem_cons_self

theorem staysOutside_of_avoids {r : Regex Char} (hr : r.takes = true) (hblank : r.avoids ' ' = true)
    {value : List Char} (hvalue : ∀ w, r.Matches w → ¬ w <:+: value) : StaysOutside r value := by
  intro w hw
  have hwblank := avoids_spec hblank hw
  refine ⟨fun h => ?_, fun y hne hy h => hwblank (hy.subset (blank_mem_of_begins hne h))⟩
  rcases List.infix_cons_iff.1 h with h | h
  · refine hwblank (blank_mem_of_begins ?_ h)
    rintro rfl
    exact takes_spec hr hw
  · exact hvalue w hw h

/-- A key header ends without a blank. -/
theorem staysOutside_pem {value : List Char} (hvalue : Plain value) :
    StaysOutside pemPrivateKeyHeader.regex value := by
  intro w hw
  have hshape : ¬ w <:+: value :=
    hvalue.shapeless w ⟨pemPrivateKeyHeader, by simp [patterns, tokenPatterns], hw⟩
  obtain ⟨u, v, rfl, hstart, x, z, rfl, -, hz⟩ := hw
  simp only [cat, exactly, matches_lit] at hstart hz
  subst hstart hz
  constructor
  · intro h
    rcases List.infix_cons_iff.1 h with h | h
    · exact absurd (List.cons_prefix_cons.1 h).1 (by decide)
    · exact hshape h
  · intro y hne hy h
    obtain ⟨c, y, rfl⟩ := List.exists_cons_of_ne_nil hne
    obtain ⟨rfl, hrest⟩ := List.cons_prefix_cons.1 h
    have hend : "KEY-----".toList <:+ "-----BEGIN ".toList ++ (x ++ "PRIVATE KEY-----".toList) :=
      ⟨"-----BEGIN ".toList ++ (x ++ "PRIVATE ".toList), by simp⟩
    rcases List.suffix_or_suffix_of_suffix hend hy with hin | hin
    · rcases List.suffix_cons_iff.1 hin with heq | hin
      · exact absurd (List.head_eq_of_cons_eq heq) (by decide)
      · exact hvalue.headerless (hin.isInfix.trans hrest.isInfix)
    · exact absurd (hin.subset List.mem_cons_self) (by decide)

theorem staysOutside_of_mem_patterns {p : SecretPattern} (hp : p ∈ patterns) {value : List Char}
    (hvalue : Plain value) : StaysOutside p.regex value := by
  have hblank : p.regex.avoids ' ' = true ∨ p = pemPrivateKeyHeader := by
    simp only [patterns, tokenPatterns, List.cons_append, List.nil_append, List.mem_cons,
      List.not_mem_nil, or_false] at hp
    rcases hp with rfl | rfl | rfl | rfl | rfl | rfl | rfl | rfl
    · exact .inl (by decide)
    · exact .inl (by decide)
    · exact .inl (by decide)
    · exact .inl (by decide)
    · exact .inl (by decide)
    · exact .inl (by decide)
    · exact .inr rfl
    · exact .inl (by decide)
  rcases hblank with hblank | rfl
  · exact staysOutside_of_avoids (takes_of_mem_patterns p hp) hblank fun w hw =>
      hvalue.shapeless w ⟨p, hp, hw⟩
  · exact staysOutside_pem hvalue

/-- The passes over the shapes copy it. -/
theorem foldl_redactPattern_copies {ps : List SecretPattern} (hps : ∀ p ∈ ps, p ∈ patterns)
    {value : List Char} (hvalue : Plain value) {r : Redaction} (h : ' ' :: value <:+ r.text) :
    ' ' :: value <:+ (ps.foldl redactPattern r).text := by
  induction ps generalizing r with
  | nil => exact h
  | cons p ps ih =>
    have hp := hps p List.mem_cons_self
    have houtside := staysOutside_of_mem_patterns hp hvalue
    refine ih (fun q hq => hps q (List.mem_cons_of_mem p hq)) ?_
    refine ((redactPattern_rewrites hp r).copies_suffix ?_ ?_).1 h
    · rintro a b m ⟨-, hb, -⟩
      exact (houtside b hb).1
    · rintro a b m y ⟨-, hb, -⟩
      exact (houtside b hb).2 y

/-- A part that ends with a quote does not reach into a text without quotes. -/
theorem copies_of_endsQuoted {Kept : List Char → Prop} {Cut : List Char → List Char → List Char → Prop}
    {input out v : List Char} (h : Rewrites Kept Cut input out) (hv : ∀ c ∈ v, isQuote c = false)
    (hcut : ∀ a b m, Cut a b m → ∃ c, b.getLast? = some c ∧ isQuote c = true)
    (hsuffix : v <:+ input) : v <:+ out := by
  refine (h.copies_suffix ?_ ?_).1 hsuffix
  · intro a b m hab hb
    obtain ⟨c, hc, hquote⟩ := hcut a b m hab
    rw [hv c (hb.subset (List.mem_of_getLast? hc))] at hquote
    cases hquote
  · intro a b m y hab hne hy hbegins
    obtain ⟨c, hc, hquote⟩ := hcut a b m hab
    obtain ⟨x, rfl⟩ := hy
    rw [List.getLast?_append_of_ne_nil x hne] at hc
    rw [hv c (hbegins.subset (List.mem_of_getLast? hc))] at hquote
    cases hquote

theorem endsQuoted_append {r s : List Char} (h : ∃ c, s.getLast? = some c ∧ isQuote c = true) :
    ∃ c, (r ++ s).getLast? = some c ∧ isQuote c = true := by
  obtain ⟨c, hc, hquote⟩ := h
  refine ⟨c, ?_, hquote⟩
  rw [List.getLast?_append_of_ne_nil r (by rintro rfl; cases hc), hc]

theorem passwordValue_endsQuoted {b : List Char} (hb : passwordValue.Matches b) :
    ∃ c, b.getLast? = some c ∧ isQuote c = true := by
  obtain ⟨_, _, rfl, -, _, _, rfl, -, _, _, rfl, -, _, _, rfl, -, _, _, rfl, -, c, rfl, hc⟩ := hb
  exact endsQuoted_append (endsQuoted_append (endsQuoted_append (endsQuoted_append
    (endsQuoted_append ⟨c, rfl, hc⟩))))

theorem quotedRe_endsQuoted {b : List Char} (hb : quotedRe.Matches b) :
    ∃ c, b.getLast? = some c ∧ isQuote c = true := by
  have hquoted : ∀ quote, isQuote quote = true → (quotedBy quote).Matches b →
      ∃ c, b.getLast? = some c ∧ isQuote c = true := by
    rintro quote hquote ⟨_, _, rfl, -, _, _, rfl, -, c, rfl, hc⟩
    refine endsQuoted_append (endsQuoted_append ⟨c, rfl, ?_⟩)
    rwa [of_decide_eq_true hc]
  rcases hb with hb | hb
  · exact hquoted '\'' rfl hb
  · exact hquoted '"' rfl hb

namespace SecretDetector

variable (d : SecretDetector)

/-- The quoted literals, with what they are. -/
def QuotedCut (a b _m : List Char) : Prop := a = [] ∧ quotedRe.Matches b

theorem redactEntropy_quoted (r : Redaction) :
    Rewrites (fun _ => True) QuotedCut r.text (d.redactEntropy r).text := by
  have htext : (d.redactEntropy r).text = quotedRe.replaceAll d.redactQuoted r.text := by
    rw [redactEntropy]
    split
    · exact record_text _ _
    · rfl
  rw [htext]
  refine replaceAll_rewrites (by decide) (fun _ _ _ => trivial) ?_ r.text
  intro prev u cs m out _ _ hu h
  exact .cut (a := []) (b := u) ⟨rfl, hu⟩ (fun _ _ _ => trivial) h

/-- **What `redact` copies**: a blank and a plain value at the end of the text. -/
theorem redact_copies (path : List Char) {value : List Char} (hvalue : Plain value) :
    ' ' :: value <:+ (d.redact (path ++ ' ' :: value)).text := by
  have hquotes : ∀ c ∈ ' ' :: value, isQuote c = false :=
    List.forall_mem_cons.2 ⟨rfl, hvalue.unquoted⟩
  rw [redact, if_neg (List.append_ne_nil_of_right_ne_nil _ (List.cons_ne_nil _ _))]
  refine copies_of_endsQuoted (d.redactEntropy_quoted _) hquotes ?_ ?_
  · rintro a b m ⟨-, hb⟩
    exact quotedRe_endsQuoted hb
  · refine copies_of_endsQuoted (d.redactPasswords_rewrites _) hquotes ?_ ?_
    · rintro a b m ⟨-, hb, -⟩
      exact passwordValue_endsQuoted hb
    · exact foldl_redactPattern_copies (fun _ => id) hvalue (List.suffix_append path _)

end SecretDetector

/-! ## Assignments -/

/-- The line assigns a quoted value to a keyword of the password rule. -/
structure AssignsPassword (unicode : UnicodeTables) (line value : List Char) : Prop where
  long : 4 ≤ value.length
  inside : ∀ c ∈ value, isQuote c = false ∧ c ≠ '\n'
  matched : ∃ before keyword spaces sign spaces' opening closing after,
    line = before ++ (keyword ++ (spaces ++ sign :: (spaces' ++ opening :: (value ++ closing :: after)))) ∧
      before.getLast?.any unicode.isWord ≠ keyword.head?.any unicode.isWord ∧
      passwordKeyword.Matches keyword ∧ (∀ c ∈ spaces, isWhitespace c) ∧ (sign = ':' ∨ sign = '=') ∧
      (∀ c ∈ spaces', isWhitespace c) ∧ isQuote opening ∧ isQuote closing

/-- The value has one of the other shapes in it. -/
def Shaped (value : List Char) : Prop :=
  ∃ w, KnownShape w ∧ w <:+: value ∧ ¬ (dsnWithCredentials.regex.Matches w ∧ Marked w)

namespace Artifact

namespace Yaml

/-- The line that a leaf begins on. -/
def sourceLine (source : List Char) (leaf : Leaf) : List Char :=
  (Text.splitOn '\n' source).getD (leaf.lineStart.toNat - 1) []

section

variable (e : Enricher) (sha256 : List UInt8 → List UInt8) (kind : ArtifactKind)
  (filePath source : List Char)

/-- A leaf of the document that is the value of a password assignment on its line, and whose
    symbol is extracted. -/
structure PasswordLeaf (leaf : Leaf) : Prop where
  mem : leaf ∈ leaves kind source
  extracted : leafSymbol sha256 (leafLabel kind) filePath leaf ∈
    (extract sha256 kind filePath source).symbols
  assigned : AssignsPassword e.secrets.unicode (sourceLine source leaf) leaf.value

/-- The values of password assignments are in no text of the enriched symbols. -/
def PasswordsRedacted : Prop :=
  ∀ leaf, PasswordLeaf e sha256 kind filePath source leaf →
    ∀ text ∈ (e.enrich (leafSymbol sha256 (leafLabel kind) filePath leaf)).symbol.writtenTexts,
      ¬ leaf.value <:+: text

variable {e sha256 kind filePath source}

theorem redacted_of_shaped {s : Symbol} {value : List Char} (h : Shaped value) :
    ∀ text ∈ (e.enrich s).symbol.writtenTexts, ¬ value <:+: text := by
  intro text htext hvalue
  obtain ⟨w, hw, hwithin, hunmarked⟩ := h
  obtain ⟨t₀, -, rfl⟩ := Enricher.mem_writtenTexts_enrich htext
  exact hunmarked (e.secrets.redact_clean t₀ hw (hwithin.trans hvalue))

/-- A plain value ends the body of the enriched symbol. -/
theorem kept_of_plain {label : List Char} {leaf : Leaf} (hne : leaf.value ≠ [])
    (hlen : leaf.value.length ≤ textLimit) (hplain : Plain leaf.value) :
    ∃ text ∈ (e.enrich (leafSymbol sha256 label filePath leaf)).symbol.writtenTexts,
      leaf.value <:+: text := by
  have htext : leafText leaf = leaf.path ++ ' ' :: leaf.value := by
    rw [leafText, truncateText, List.take_of_length_le hlen]
    exact if_neg hne
  have hkept := e.secrets.redact_copies leaf.path hplain
  refine ⟨_, Symbol.mem_writtenTexts.2 ⟨_, List.mem_cons_of_mem _ (List.mem_cons_of_mem _
    List.mem_cons_self), ?_⟩, ((List.suffix_cons ' ' leaf.value).trans hkept).isInfix⟩
  simp only [Enricher.enrich, leafSymbol, buildSymbol, SecretDetector.redactField, Option.map_some,
    String.toList_ofList, htext]

end

/-- **Where passwords are redacted**: a value is redacted if it has a known shape in it, and
    it is not if it is plain. -/
theorem passwords_redacted (e : Enricher) (sha256 : List UInt8 → List UInt8) (kind : ArtifactKind)
    (filePath source : List Char) :
    ((∀ leaf, PasswordLeaf e sha256 kind filePath source leaf → Shaped leaf.value) →
      PasswordsRedacted e sha256 kind filePath source) ∧
    (PasswordsRedacted e sha256 kind filePath source →
      ∀ leaf, PasswordLeaf e sha256 kind filePath source leaf →
        leaf.value.length ≤ textLimit → ¬ Plain leaf.value) := by
  constructor
  · intro h leaf hleaf
    exact redacted_of_shaped (h leaf hleaf)
  · intro h leaf hleaf hlen hplain
    have hne : leaf.value ≠ [] := by
      intro hnil
      have hlong := hleaf.assigned.long
      rw [hnil] at hlong
      exact absurd hlong (by decide)
    obtain ⟨text, htext, hwithin⟩ := kept_of_plain hne hlen hplain
    exact h leaf hleaf text htext hwithin

/-- One password in quotes. -/
def passwordFile : List Char := "password: \"hunter2\"\n".toList

def passwordLeaf : Leaf := ⟨"password".toList, "hunter2".toList, 1, 1⟩

/-- Passwords are redacted in every document. -/
def AlwaysRedacted : Prop :=
  ∀ (e : Enricher) (sha256 : List UInt8 → List UInt8) (kind : ArtifactKind)
    (filePath source : List Char), PasswordsRedacted e sha256 kind filePath source

theorem assigns_passwordFile :
    AssignsPassword Enricher.ascii.secrets.unicode (sourceLine passwordFile passwordLeaf)
      passwordLeaf.value where
  long := by decide
  inside := by decide
  matched := by
    refine ⟨[], "password".toList, [], ':', [' '], '"', '"', [], by decide +kernel, by decide +kernel,
      .inl ?_, by decide, .inl rfl, by decide, rfl, rfl⟩
    exact ⟨['p'], _, rfl, ⟨_, rfl, rfl⟩, ['a'], _, rfl, ⟨_, rfl, rfl⟩, ['s'], _, rfl, ⟨_, rfl, rfl⟩,
      ['s'], _, rfl, ⟨_, rfl, rfl⟩, ['w'], _, rfl, ⟨_, rfl, rfl⟩, ['o'], _, rfl, ⟨_, rfl, rfl⟩,
      ['r'], _, rfl, ⟨_, rfl, rfl⟩, _, rfl, rfl⟩

/-- In the line itself the password is redacted; in the leaf it is not. -/
theorem not_alwaysRedacted : ¬ AlwaysRedacted ∧
    ¬ passwordLeaf.value <:+: (Enricher.ascii.secrets.redact passwordFile).text := by
  refine ⟨fun h => ?_, by decide +kernel⟩
  have hleaves : leaves .yaml passwordFile = [passwordLeaf] := by decide +kernel
  have hextract : (extract (fun _ => []) .yaml [] passwordFile).symbols =
      [leafSymbol (fun _ => []) (leafLabel .yaml) [] passwordLeaf] := by
    rw [extract, hleaves]
    rfl
  have hleaf : PasswordLeaf Enricher.ascii (fun _ => []) .yaml [] passwordFile passwordLeaf :=
    ⟨by rw [hleaves]; exact List.mem_singleton_self _,
      by rw [hextract]; exact List.mem_singleton_self _, assigns_passwordFile⟩
  have hkept : passwordLeaf.value <:+:
      (Enricher.ascii.secrets.redact (leafText passwordLeaf)).text := by decide +kernel
  refine h Enricher.ascii (fun _ => []) .yaml [] passwordFile passwordLeaf hleaf _ ?_ hkept
  refine Symbol.mem_writtenTexts.2 ⟨_, List.mem_cons_of_mem _ (List.mem_cons_of_mem _
    List.mem_cons_self), ?_⟩
  simp only [Enricher.enrich, leafSymbol, buildSymbol, SecretDetector.redactField, Option.map_some,
    String.toList_ofList]

end Yaml

end Artifact

end Cognis
