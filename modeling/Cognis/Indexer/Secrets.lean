/-
  The secret detector of the enricher (`enricher/secrets.rs`).

  The known shapes are replaced one after another, each over the running text; then come the
  values of password assignments, and the quoted literals of high entropy.
-/
import Cognis.Lib.Regex
import Cognis.Indexer.Text

namespace Cognis

open Regex

section
variable {P : Char → Prop} [DecidablePred P]

/-- By the characters of the list, not by all characters. -/
instance (priority := 2000) decidableForallMemChar (l : List Char) : Decidable (∀ c ∈ l, P c) :=
  List.decidableBAll P l

instance (priority := 2000) decidableExistsMemChar (c? : Option Char) : Decidable (∃ c ∈ c?, P c) :=
  Option.decidableExistsMem c?

end

/-- A literal under `(?i)`: the letters `s` and `k` have a third form. -/
def sameFolded (c d : Char) : Bool :=
  d.toLower = c || (c = 's' && d.toNat = 0x17F) || (c = 'k' && d.toNat = 0x212A)

/-- A literal of an expression. -/
def exactly (s : String) : Regex Char := lit s.toList

/-- A lower-case literal under `(?i)`. -/
def anyCase (s : String) : Regex Char := spelt sameFolded s.toList

/-- `["']` -/
def isQuote (c : Char) : Bool := c = '"' || c = '\''

/-! ## The shapes -/

/-- An entry of `patterns`. -/
structure SecretPattern where
  regex : Regex Char
  label : String

def awsAccessKey : SecretPattern where
  regex := cat [exactly "AKIA", times 16 fun c => c.isDigit || c.isUpper]
  label := "aws-access-key"

def githubPat : SecretPattern where
  regex := cat [exactly "ghp_", times 36 Char.isAlphanum]
  label := "github-pat"

def slackToken : SecretPattern where
  regex := cat [exactly "xox", cls fun c => "baprs".toList.contains c, exactly "-",
    rep (fun c => c.isAlphanum || c = '-') 10 none]
  label := "slack-token"

def googleApiKey : SecretPattern where
  regex := cat [exactly "AIza", times 35 fun c => c.isAlphanum || c = '-' || c = '_']
  label := "google-api-key"

def openaiKey : SecretPattern where
  regex := cat [exactly "sk-", opt (exactly "proj-"), rep Char.isAlphanum 20 none]
  label := "openai-key"

/-- `[A-Za-z0-9_=-]` -/
def isJwtChar (c : Char) : Bool := c.isAlphanum || c = '_' || c = '=' || c = '-'

/-- `[A-Za-z0-9_.+/=-]` -/
def isJwtTail (c : Char) : Bool := isJwtChar c || c = '.' || c = '+' || c = '/'

def jwt : SecretPattern where
  regex := cat [exactly "eyJ", plus isJwtChar, exactly ".", plus isJwtChar, opt (exactly "."),
    many isJwtTail]
  label := "jwt"

def pemPrivateKeyHeader : SecretPattern where
  regex := cat [exactly "-----BEGIN ", plus fun c => c.isUpper || c = ' ',
    exactly "PRIVATE KEY-----"]
  label := "pem-private-key-header"

/-- `[a-zA-Z0-9+.\-]` -/
def isSchemeChar (c : Char) : Bool := c.isAlphanum || c = '+' || c = '.' || c = '-'

/-- `[^/\s:@]` -/
def isCredential (c : Char) : Bool := !(c = '/' || isWhitespace c || c = ':' || c = '@')

/-- `[^\s'"#]` -/
def isHostChar (c : Char) : Bool := !(isWhitespace c || isQuote c || c = '#')

/-- `[a-zA-Z][a-zA-Z0-9+.\-]*://` -/
def dsnScheme : Regex Char := cat [cls Char.isAlpha, many isSchemeChar, exactly "://"]

def dsnWithCredentials : SecretPattern where
  regex := seq dsnScheme
    (cat [many isCredential, exactly ":", plus isCredential, exactly "@", plus isHostChar])
  label := "dsn-with-credentials"

/-- The patterns but for the last one. -/
def tokenPatterns : List SecretPattern :=
  [awsAccessKey, githubPat, slackToken, googleApiKey, openaiKey, jwt, pemPrivateKeyHeader]

def patterns : List SecretPattern := tokenPatterns ++ [dsnWithCredentials]

/-- The text matches one of the known shapes. -/
def KnownShape (w : List Char) : Prop := ∃ p ∈ patterns, p.regex.Matches w

/-! ## The detector -/

/-- `[REDACTED:<label>]` -/
def redactedMark (label : String) : List Char := "[REDACTED:".toList ++ label.toList ++ [']']

/-- `="[REDACTED:password-assignment]"` -/
def passwordMark : List Char := '=' :: '"' :: redactedMark "password-assignment" ++ ['"']

/-- `[REDACTED:high-entropy]` in its quotes. -/
def entropyMark (quote : Char) : List Char := quote :: redactedMark "high-entropy" ++ [quote]

/-- The text so far, with the labels that have been found. -/
structure Redaction where
  text : List Char
  found : List String := []

/-- `record` -/
def Redaction.record (label : String) (r : Redaction) : Redaction :=
  if label ∈ r.found then r else { r with found := r.found ++ [label] }

theorem record_text (label : String) (r : Redaction) : (r.record label).text = r.text := by
  rw [Redaction.record]
  split
  · rfl
  · rfl

/-- One pass over the running text. -/
def redactPattern (r : Redaction) (p : SecretPattern) : Redaction :=
  if p.regex.isMatch r.text then
    { r.record p.label with text := p.regex.replaceAll (fun _ _ => redactedMark p.label) r.text }
  else r

/-- The keywords of `password_re`. -/
def passwordKeyword : Regex Char :=
  any [anyCase "password", anyCase "passwd", anyCase "pwd", anyCase "secret",
    cat [anyCase "api", opt (cls fun c => c = '_' || c = '-'), anyCase "key"], anyCase "token"]

/-- `\s*[:=]\s*["']([^"'\n]{4,})["']` -/
def passwordValue : Regex Char :=
  cat [many isWhitespace, cls fun c => c = ':' || c = '=', many isWhitespace, cls isQuote,
    rep (fun c => !(isQuote c || c = '\n')) 4 none, cls isQuote]

/-- `password_re`, with the keyword as its group. -/
def passwordRe (unicode : UnicodeTables) : Regex Char :=
  seq (boundary unicode.isWord) (seq (cap passwordKeyword) passwordValue)

/-- One of the two kinds of quoted literals. -/
def quotedBy (quote : Char) : Regex Char :=
  cat [cls (· = quote), cap (rep (fun c => !(c = quote || c = '\n')) 16 none), cls (· = quote)]

/-- `quoted_re` -/
def quotedRe : Regex Char := alt (quotedBy '\'') (quotedBy '"')

/-- `SecretDetector`, with the part of `is_high_entropy` that is in floating point. -/
structure SecretDetector where
  unicode : UnicodeTables
  /-- `shannon_entropy(value) >= ENTROPY_THRESHOLD` -/
  entropyReached : List Char → Bool

namespace SecretDetector

variable (d : SecretDetector)

/-- `is_high_entropy` -/
def isHighEntropy (value : List Char) : Bool := 16 ≤ value.length && d.entropyReached value

/-- What stands for a quoted literal. -/
def redactQuoted (literal value : List Char) : List Char :=
  match literal with
  | quote :: _ => if d.isHighEntropy value then entropyMark quote else literal
  | [] => literal

/-- The password assignments: the keyword is kept. -/
def redactPasswords (r : Redaction) : Redaction :=
  if (passwordRe d.unicode).isMatch r.text then
    { r.record "password-assignment" with
      text := (passwordRe d.unicode).replaceAll (fun _ keyword => keyword ++ passwordMark) r.text }
  else r

/-- The entropy scan. -/
def redactEntropy (r : Redaction) : Redaction :=
  let out := { r with text := quotedRe.replaceAll d.redactQuoted r.text }
  if (quotedRe.captures r.text).any d.isHighEntropy then out.record "high-entropy" else out

/-- `redact` -/
def redact (text : List Char) : Redaction :=
  if text = [] then { text } else
    d.redactEntropy (d.redactPasswords (patterns.foldl redactPattern { text }))

end SecretDetector

/-! ## Words of the shapes -/

theorem mem_tokenPatterns {p : SecretPattern} (hp : p ∈ tokenPatterns) : p ∈ patterns :=
  List.mem_append_left _ hp

theorem plain_of_mem_patterns : ∀ p ∈ patterns, p.regex.plain = true := by decide

theorem takes_of_mem_patterns : ∀ p ∈ patterns, p.regex.takes = true := by decide

/-- The tokens have neither brackets nor quotes. -/
theorem avoids_of_mem_tokenPatterns :
    ∀ p ∈ tokenPatterns, ∀ c ∈ ['[', ']', '"', '\''], p.regex.avoids c = true := by decide

theorem not_mem_token {p : SecretPattern} (hp : p ∈ tokenPatterns) {c : Char}
    (hc : c ∈ ['[', ']', '"', '\'']) {w : List Char} (hw : p.regex.Matches w) : c ∉ w :=
  avoids_spec (avoids_of_mem_tokenPatterns p hp c hc) hw

theorem dsn_iff {w : List Char} : dsnWithCredentials.regex.Matches w ↔ ∃ s u p r,
    w = s ++ (u ++ (':' :: (p ++ ('@' :: r)))) ∧ dsnScheme.Matches s ∧ (∀ c ∈ u, isCredential c = true) ∧
      (p ≠ [] ∧ ∀ c ∈ p, isCredential c = true) ∧ r ≠ [] ∧ ∀ c ∈ r, isHostChar c = true := by
  simp only [dsnWithCredentials, cat, matches_seq, exactly, matches_lit, matches_many, matches_plus]
  constructor
  · rintro ⟨s, -, rfl, hs, u, -, rfl, hu, -, -, rfl, rfl, p, -, rfl, hp, -, r, rfl, rfl, hr⟩
    exact ⟨s, u, p, r, rfl, hs, hu, hp, hr⟩
  · rintro ⟨s, u, p, r, rfl, hs, hu, hp, hr⟩
    exact ⟨s, _, rfl, hs, u, _, rfl, hu, _, _, rfl, rfl, p, _, rfl, hp, _, r, rfl, rfl, hr⟩

/-- The last `=` of a web token. -/
theorem jwt_of_concat {u : List Char} (h : jwt.regex.Matches (u ++ ['='])) (hu : u.getLast? ≠ some '.') :
    jwt.regex.Matches u := by
  simp only [jwt, cat, matches_seq, exactly, matches_lit, matches_many, matches_plus] at h
  obtain ⟨-, -, hw, rfl, x, -, rfl, hx, -, -, rfl, rfl, y, -, rfl, hy, dot, tail, rfl, hdot, htail⟩ := h
  have hword : ∀ y' dot' tail', (y' ≠ [] ∧ ∀ c ∈ y', isJwtChar c = true) →
      (opt (lit ".".toList)).Matches dot' → (∀ c ∈ tail', isJwtTail c = true) →
      jwt.regex.Matches ("eyJ".toList ++ (x ++ (".".toList ++ (y' ++ (dot' ++ tail'))))) := by
    intro y' dot' tail' hy' hdot' htail'
    simp only [jwt, cat, matches_seq, exactly, matches_lit, matches_many, matches_plus]
    exact ⟨_, _, rfl, rfl, x, _, rfl, hx, _, _, rfl, rfl, y', _, rfl, hy', dot', tail', rfl, hdot', htail'⟩
  rcases List.eq_nil_or_concat' tail with rfl | ⟨tail, c, rfl⟩
  · rcases hdot with hdot | hdot
    · -- the token ends with its second dot
      rw [matches_lit.1 hdot] at hw
      have hsplit : u ++ ['='] = ("eyJ".toList ++ (x ++ (".".toList ++ y))) ++ ['.'] := by simpa using hw
      cases (List.append_inj' hsplit rfl).2
    · obtain rfl : dot = [] := hdot
      rcases List.eq_nil_or_concat' y with rfl | ⟨y, c, rfl⟩
      · exact absurd rfl hy.1
      · have hsplit : u ++ ['='] = ("eyJ".toList ++ (x ++ (".".toList ++ y))) ++ [c] := by simpa using hw
        have hu' := (List.append_inj' hsplit rfl).1
        cases y with
        | nil =>
          rw [hu', ← List.append_assoc, List.append_nil,
            List.getLast?_append_of_ne_nil _ (show ".".toList ≠ [] by decide)] at hu
          exact absurd rfl hu
        | cons d y =>
          have := hword (d :: y) [] [] ⟨List.cons_ne_nil d y, fun e he => hy.2 e (List.mem_append_left [c] he)⟩
            (.inr rfl) (fun e he => absurd he List.not_mem_nil)
          rwa [List.append_nil, List.append_nil, ← hu'] at this
  · have hsplit : u ++ ['='] =
        ("eyJ".toList ++ (x ++ (".".toList ++ (y ++ (dot ++ tail))))) ++ [c] := by simpa using hw
    rw [(List.append_inj' hsplit rfl).1]
    exact hword y dot tail hy hdot fun e he => htail e (List.mem_append_left [c] he)

/-- A known shape has one of these characters. -/
def shapeMarks : List Char := ['K', 'I', 'J', '_', '-', '/']

theorem exists_shapeMark {w : List Char} (h : KnownShape w) : ∃ c ∈ shapeMarks, c ∈ w := by
  obtain ⟨p, hp, hw⟩ := h
  have hstart : ∀ {s : String} {r : Regex Char} {c : Char}, c ∈ s.toList → c ∈ shapeMarks →
      (seq (exactly s) r).Matches w → ∃ c ∈ shapeMarks, c ∈ w := by
    intro s r c hs hc hw
    refine ⟨c, hc, mem_of_matches_seq hw fun u hu => ?_⟩
    rwa [matches_lit.1 hu]
  simp only [patterns, tokenPatterns, List.cons_append, List.nil_append, List.mem_cons, List.not_mem_nil,
    or_false] at hp
  rcases hp with rfl | rfl | rfl | rfl | rfl | rfl | rfl | rfl
  · exact hstart (c := 'K') (by decide) (by decide) hw
  · exact hstart (c := '_') (by decide) (by decide) hw
  · obtain ⟨u, v, rfl, -, ⟨x, v, rfl, -, ⟨y, v, rfl, hy, -⟩⟩⟩ := hw
    refine ⟨'-', by decide, ?_⟩
    rw [matches_lit.1 hy]
    simp
  · exact hstart (c := 'I') (by decide) (by decide) hw
  · exact hstart (c := '-') (by decide) (by decide) hw
  · exact hstart (c := 'J') (by decide) (by decide) hw
  · exact hstart (c := '-') (by decide) (by decide) hw
  · refine ⟨'/', by decide, mem_of_matches_seq hw ?_⟩
    rintro _ ⟨u, v, rfl, -, ⟨x, y, rfl, -, hy⟩⟩
    rw [matches_lit.1 hy]
    simp

/-- Where a connection string is cut: the `@` is still to come, or the cut is in the host. -/
theorem dsn_cut {u v : List Char} {c : Char} (hc : c ≠ '@')
    (h : dsnWithCredentials.regex.Matches (u ++ c :: v)) :
    '@' ∈ v ∨ isHostChar c = true ∧ (dsnWithCredentials.regex.Matches u ∨
      u.getLast? = some '@' ∧ ∀ x, isHostChar x = true → dsnWithCredentials.regex.Matches (u ++ [x])) := by
  obtain ⟨s, us, p, r, hw, hs, hus, hp, hr⟩ := dsn_iff.1 h
  have hsplit : u ++ c :: v = (s ++ us ++ ':' :: p ++ ['@']) ++ r := by simpa using hw
  have hword : ∀ r', r' ≠ [] → (∀ x ∈ r', isHostChar x = true) →
      dsnWithCredentials.regex.Matches ((s ++ us ++ ':' :: p ++ ['@']) ++ r') := by
    intro r' hne hr'
    exact dsn_iff.2 ⟨s, us, p, r', by simp, hs, hus, hp, hne, hr'⟩
  have hend : (s ++ us ++ ':' :: p ++ ['@']).getLast? = some '@' := List.getLast?_concat
  generalize s ++ us ++ ':' :: p ++ ['@'] = front at hsplit hword hend
  rcases List.append_eq_append_iff.1 hsplit with ⟨a, rfl, ha⟩ | ⟨a, rfl, ha⟩
  · -- the cut is not after the `@`
    cases a with
    | nil =>
      rw [List.append_nil] at hword hend
      have hcr : c ∈ r := by
        rw [← List.nil_append r, ← ha]
        exact List.mem_cons_self
      refine .inr ⟨hr.2 c hcr, .inr ⟨hend, fun x hx => hword [x] ?_ ?_⟩⟩
      · exact List.cons_ne_nil x []
      · intro y hy
        rwa [List.mem_singleton.1 hy]
    | cons d a =>
      obtain ⟨rfl, rfl⟩ := List.cons.inj ha
      cases a with
      | nil =>
        rw [List.getLast?_concat] at hend
        exact absurd (Option.some.inj hend) hc
      | cons e a =>
        rw [List.getLast?_append_of_ne_nil _ (List.cons_ne_nil _ _), List.getLast?_cons_cons] at hend
        exact .inl (List.mem_append_left r (List.mem_of_getLast? hend))
  · -- the cut is in the host
    have hhost : ∀ x ∈ a ++ c :: v, isHostChar x = true := ha ▸ hr.2
    refine .inr ⟨hhost c (List.mem_append_right a List.mem_cons_self), ?_⟩
    cases a with
    | nil =>
      rw [List.append_nil]
      refine .inr ⟨hend, fun x hx => hword [x] (List.cons_ne_nil x []) ?_⟩
      intro y hy
      rwa [List.mem_singleton.1 hy]
    | cons d a =>
      exact .inl (hword (d :: a) (List.cons_ne_nil d a) fun x hx =>
        hhost x (List.mem_append_left (c :: v) hx))

theorem isHostChar_of_isAlpha {c : Char} (h : c.isAlpha = true) : isHostChar c = true := by
  have hn : (65 ≤ c.toNat ∧ c.toNat ≤ 90) ∨ (97 ≤ c.toNat ∧ c.toNat ≤ 122) := by
    unfold Char.isAlpha Char.isUpper Char.isLower at h
    simpa [UInt32.le_iff_toNat_le] using h
  have hspace : isWhitespace c = false := by
    rw [isWhitespace, decide_eq_false_iff_not]
    omega
  have hne : ∀ e : Char, e.toNat < 65 → c ≠ e := by
    rintro e he rfl
    omega
  simp [isHostChar, isQuote, hspace, hne '"' (by decide), hne '\'' (by decide), hne '#' (by decide)]

theorem passwordValue_captures (g : List Char) : ¬ passwordValue.Captures g := by
  simp [passwordValue, cat, many, Captures]

/-- A quoted literal starts with its quote. -/
theorem quoted_cons {w : List Char} (h : quotedRe.Matches w) :
    ∃ quote w', w = quote :: w' ∧ isQuote quote = true := by
  have hquoted : ∀ quote, (quotedBy quote).Matches w → ∃ w', w = quote :: w' := by
    rintro quote ⟨-, v, rfl, ⟨c, rfl, hc⟩, -⟩
    exact ⟨v, by rw [← of_decide_eq_true hc]; rfl⟩
  rcases h with h | h
  · obtain ⟨w', hw⟩ := hquoted '\'' h
    exact ⟨'\'', w', hw, rfl⟩
  · obtain ⟨w', hw⟩ := hquoted '"' h
    exact ⟨'"', w', hw, rfl⟩

/-! ## What a pass leaves -/

/-- The marks of all passes. -/
def redactionMarks : List (List Char) :=
  patterns.map (fun p => redactedMark p.label) ++ [passwordMark, entropyMark '\'', entropyMark '"']

theorem mark_mem {p : SecretPattern} (hp : p ∈ patterns) : redactedMark p.label ∈ redactionMarks :=
  List.mem_append_left _ (List.mem_map_of_mem hp)

theorem passwordMark_mem : passwordMark ∈ redactionMarks := by decide

theorem entropyMark_mem {quote : Char} (h : isQuote quote = true) :
    entropyMark quote ∈ redactionMarks := by
  obtain rfl | rfl : quote = '"' ∨ quote = '\'' := by simpa [isQuote] using h
  · decide
  · decide

/-- The text contains the start of a mark. -/
def Marked (text : List Char) : Prop := "[REDACTED:".toList <:+: text

theorem redactionMarks_spec : ∀ m ∈ redactionMarks,
    Marked m ∧ '@' ∉ m ∧ (∃ c ∈ m.getLast?, c ∈ [']', '"', '\''] ∧ dsnScheme.avoids c = true) := by
  unfold Marked
  decide +kernel

theorem token_not_infix_mark {p : SecretPattern} (hp : p ∈ tokenPatterns) {m : List Char}
    (hm : m ∈ redactionMarks) {w : List Char} (hw : p.regex.Matches w) : ¬ w <:+: m := by
  have hoccurs : ∀ p ∈ tokenPatterns, ∀ m ∈ redactionMarks, p.regex.occurs m = false := by
    decide +kernel
  exact not_infix_of_occurs (plain_of_mem_patterns p (mem_tokenPatterns hp)) (hoccurs p hp m hm) hw

theorem dsnScheme_not_infix_mark {m : List Char} (hm : m ∈ redactionMarks) {w : List Char}
    (hw : dsnScheme.Matches w) : ¬ w <:+: m := by
  have hoccurs : ∀ m ∈ redactionMarks, dsnScheme.occurs m = false := by decide +kernel
  exact not_infix_of_occurs (by decide) (hoccurs m hm) hw

/-- A connection string into which no mark has been written. -/
def UnmarkedDsn (w : List Char) : Prop := dsnWithCredentials.regex.Matches w ∧ ¬ Marked w

theorem Marked.of_concat {u : List Char} {x : Char} (h : Marked (u ++ [x]))
    (hu : u.getLast? = some '@') : Marked u := by
  rcases List.infix_concat_iff.1 h with h | h
  · obtain ⟨l, hl⟩ := h
    have hsplit : (l ++ "[REDACTED".toList) ++ [':'] = u ++ [x] := by simpa using hl
    rw [← (List.append_inj' hsplit rfl).1, List.getLast?_append_of_ne_nil l (by decide)] at hu
    exact absurd hu (by decide)
  · exact h

/-- None of these words is in the text. -/
def Clean (W : List Char → Prop) (text : List Char) : Prop := ∀ w, W w → ¬ w <:+: text

section
variable {Kept : List Char → Prop} {Cut : List Char → List Char → List Char → Prop}
  {input out : List Char}

theorem Clean.kept {W : List Char → Prop} (h : Clean W input) (hr : Rewrites Kept Cut input out) :
    Rewrites (fun t => ∀ w, W w → ¬ w <+: t) Cut input out :=
  hr.of_suffix fun _ ht w hw hstart => h w hw (hstart.isInfix.trans ht.isInfix)

/-- A pass leaves no token, if the tokens do not have the first character of its marks. -/
theorem token_clean {p : SecretPattern} (hp : p ∈ tokenPatterns)
    (h : Rewrites (fun t => ∀ w, p.regex.Matches w → ¬ w <+: t) Cut input out)
    (hmark : ∀ a b m, Cut a b m → m ∈ redactionMarks)
    (hopen : ∀ a b m, Cut a b m → ∃ c, m.head? = some c ∧ p.regex.avoids c = true) :
    Clean p.regex.Matches out := by
  intro w hw
  refine h.clean_of_brackets (fun t w ht => ht w) ?_ ?_ ?_
    (takes_spec (takes_of_mem_patterns p (mem_tokenPatterns hp))) hw
  · intro a b m w hcut hw
    obtain ⟨c, hc, havoids⟩ := hopen a b m hcut
    exact ⟨c, hc, avoids_spec havoids hw⟩
  · intro a b m w hcut hw
    obtain ⟨-, -, c, hc, hlast, -⟩ := redactionMarks_spec m (hmark a b m hcut)
    exact ⟨c, hc, not_mem_token hp (List.mem_cons_of_mem '[' hlast) hw⟩
  · intro a b m w hcut hw
    exact token_not_infix_mark hp (hmark a b m hcut) hw

/-- A pass leaves no unmarked connection string: one that ran into a mark would have the
    whole mark before its `@`, or be there already without it. -/
theorem dsn_clean (h : Rewrites (fun t => ∀ w, UnmarkedDsn w → ¬ w <+: t) Cut input out)
    (hmark : ∀ a b m, Cut a b m → m ∈ redactionMarks)
    (hhost : ∀ a b m u, Cut a b m → u ≠ [] → a <:+ u ∨ u <:+ a → u.getLast? = some '@' →
      (∃ c, m.head? = some c ∧ isHostChar c = true) → ∃ x, b.head? = some x ∧ isHostChar x = true) :
    Clean UnmarkedDsn out := by
  intro w hw
  refine h.clean (fun t w ht => ht w) ?_ ?_ ?_ hw
  · rintro a b m y z w hcut hy hsuffix ⟨hw, -⟩ hstart
    obtain ⟨-, -, c, hc, -, havoids⟩ := redactionMarks_spec m (hmark a b m hcut)
    obtain ⟨s, us, p, r, rfl, hs, -⟩ := dsn_iff.1 hw
    exact dsnScheme_not_infix_mark (hmark a b m hcut) hs (Rewrites.infix_of_prefix_mark hc hy hsuffix
      ((List.prefix_append s _).trans hstart) (avoids_spec havoids hs))
  · rintro a b m u v z hcut hu ha hv hvm ⟨hw, hmarked⟩
    obtain ⟨hm, hat, -⟩ := redactionMarks_spec m (hmark a b m hcut)
    obtain ⟨c, v, rfl⟩ := List.exists_cons_of_ne_nil hv
    obtain ⟨m, rfl⟩ : ∃ m', m = c :: m' := by
      cases m with
      | nil => exact absurd (List.infix_nil.1 hm) (by decide)
      | cons d m =>
        obtain ⟨rfl, -⟩ := List.cons_prefix_cons.1 hvm
        exact ⟨m, rfl⟩
    have hunmarked : ∀ u', u' <+: u → ¬ Marked u' := by
      intro u' hu' h
      exact hmarked (h.trans (hu'.trans (List.prefix_append u _)).isInfix)
    rcases dsn_cut (List.ne_of_not_mem_cons hat).symm hw with hv | ⟨hc, hw | ⟨hlast, hw⟩⟩
    · -- the whole mark is before the `@`
      have hvm' : v <+: m ++ z := (List.cons_prefix_cons.1 hvm).2
      rcases List.prefix_or_prefix_of_prefix hvm' (List.prefix_append m z) with h | h
      · exact absurd (List.mem_cons_of_mem c (h.subset hv)) hat
      · refine absurd (hm.trans ?_) hmarked
        exact ((List.cons_prefix_cons.2 ⟨rfl, h⟩).isInfix).trans (List.suffix_append u _).isInfix
    · exact ⟨u, ⟨hw, hunmarked u (List.prefix_refl u)⟩, List.prefix_append u b⟩
    · obtain ⟨x, hx, hhost⟩ := hhost a b (c :: m) u hcut hu ha hlast ⟨c, rfl, hc⟩
      obtain ⟨b, rfl⟩ := List.head?_eq_some_iff.1 hx
      exact ⟨u ++ [x], ⟨hw x hhost, fun h => hunmarked u (List.prefix_refl u) (h.of_concat hlast)⟩,
        b, by simp⟩
  · rintro ⟨hw, -⟩
    exact takes_spec (takes_of_mem_patterns dsnWithCredentials (by simp [patterns])) hw

end

/-! ## The passes -/

/-- What a pass over a shape cuts out. -/
def ShapeCut (p : SecretPattern) (a b m : List Char) : Prop :=
  a = [] ∧ p.regex.Matches b ∧ m = redactedMark p.label

theorem redactPattern_text {p : SecretPattern} (hp : p ∈ patterns) (r : Redaction) :
    (redactPattern r p).text = p.regex.replaceAll (fun _ _ => redactedMark p.label) r.text := by
  rw [redactPattern]
  split
  · rfl
  · next h => exact (replaceAll_of_not_isMatch (takes_of_mem_patterns p hp) (eq_false_of_ne_true h) _).symm

theorem redactPattern_rewrites {p : SecretPattern} (hp : p ∈ patterns) (r : Redaction) :
    Rewrites (fun t => ∀ w, p.regex.Matches w → ¬ w <+: t) (ShapeCut p) r.text (redactPattern r p).text := by
  rw [redactPattern_text hp]
  refine replaceAll_rewrites (takes_of_mem_patterns p hp) ?_ ?_ r.text
  · intro prev t hnone
    exact (find_eq_none_iff (plain_of_mem_patterns p hp)).1 hnone
  · intro prev u cs m out _ _ hu h
    refine .cut (a := []) (b := u) ⟨rfl, hu, rfl⟩ ?_ h
    intro a ha hne
    exact absurd (List.suffix_nil.1 ha) hne

theorem shapeCut_mark {p : SecretPattern} (hp : p ∈ patterns) {a b m : List Char}
    (h : ShapeCut p a b m) : m ∈ redactionMarks ∧ m.head? = some '[' := by
  obtain ⟨-, -, rfl⟩ := h
  exact ⟨mark_mem hp, rfl⟩

/-- A pass over another shape keeps the text free of a token. -/
theorem redactPattern_keeps {p q : SecretPattern} (hp : p ∈ tokenPatterns) (hq : q ∈ patterns)
    {r : Redaction} (h : Clean p.regex.Matches r.text) : Clean p.regex.Matches (redactPattern r q).text :=
  token_clean hp (h.kept (redactPattern_rewrites hq r)) (fun _ _ _ hcut => (shapeCut_mark hq hcut).1)
    fun _ _ _ hcut => ⟨'[', (shapeCut_mark hq hcut).2, avoids_of_mem_tokenPatterns p hp '[' (by decide)⟩

theorem redactPattern_clean {p : SecretPattern} (hp : p ∈ tokenPatterns) (r : Redaction) :
    Clean p.regex.Matches (redactPattern r p).text :=
  token_clean hp (redactPattern_rewrites (mem_tokenPatterns hp) r)
    (fun _ _ _ hcut => (shapeCut_mark (mem_tokenPatterns hp) hcut).1)
    fun _ _ _ hcut => ⟨'[', (shapeCut_mark (mem_tokenPatterns hp) hcut).2,
      avoids_of_mem_tokenPatterns p hp '[' (by decide)⟩

theorem dsn_mem : dsnWithCredentials ∈ patterns := List.mem_append_right _ List.mem_cons_self

/-- A connection string that is cut out starts with a letter, which may stand in a host. -/
theorem redactPattern_dsn (r : Redaction) : Clean UnmarkedDsn (redactPattern r dsnWithCredentials).text := by
  have hrewrites := redactPattern_rewrites dsn_mem r
  refine dsn_clean (hrewrites.mono fun t ht w hw => ht w hw.1)
    (fun _ _ _ hcut => (shapeCut_mark dsn_mem hcut).1) ?_
  rintro a b m u ⟨-, hb, -⟩ - - - -
  obtain ⟨s, us, p, h, rfl, ⟨x, rest, rfl, ⟨c, rfl, hc⟩, -⟩, -⟩ := dsn_iff.1 hb
  exact ⟨c, rfl, isHostChar_of_isAlpha hc⟩

/-- **All passes over the shapes.** -/
theorem foldl_redactPattern_clean {p : SecretPattern} (hp : p ∈ tokenPatterns) {ps : List SecretPattern}
    (hps : ∀ q ∈ ps, q ∈ patterns) {r : Redaction} (h : p ∈ ps ∨ Clean p.regex.Matches r.text) :
    Clean p.regex.Matches (ps.foldl redactPattern r).text := by
  induction ps generalizing r with
  | nil => exact h.resolve_left List.not_mem_nil
  | cons q ps ih =>
    refine ih (fun q' hq' => hps q' (List.mem_cons_of_mem q hq')) ?_
    rcases h with h | h
    · rcases List.mem_cons.1 h with rfl | h
      · exact .inr (redactPattern_clean hp r)
      · exact .inl h
    · exact .inr (redactPattern_keeps hp (hps q List.mem_cons_self) h)

theorem foldl_patterns_dsn (r : Redaction) : Clean UnmarkedDsn (patterns.foldl redactPattern r).text := by
  rw [patterns, List.foldl_append, List.foldl_cons, List.foldl_nil]
  exact redactPattern_dsn (tokenPatterns.foldl redactPattern r)

namespace SecretDetector

variable (d : SecretDetector)

/-- What the pass over the password assignments cuts out, after the keyword. -/
def PasswordCut (a b m : List Char) : Prop :=
  passwordKeyword.Matches a ∧ passwordValue.Matches b ∧ m = passwordMark

theorem passwordRe_takes : (passwordRe d.unicode).takes = true := rfl

theorem redactPasswords_rewrites (r : Redaction) :
    Rewrites (fun _ => True) PasswordCut r.text (d.redactPasswords r).text := by
  have htext : (d.redactPasswords r).text =
      (passwordRe d.unicode).replaceAll (fun _ keyword => keyword ++ passwordMark) r.text := by
    rw [redactPasswords]
    split
    · rfl
    · next h => exact (replaceAll_of_not_isMatch d.passwordRe_takes (eq_false_of_ne_true h) _).symm
  rw [htext]
  refine replaceAll_rewrites d.passwordRe_takes (fun _ _ _ => trivial) ?_ r.text
  intro prev u cs m out hfind hlen _ h
  obtain ⟨b, cs', hinput, hlen', hk, hb⟩ := find_cap_first passwordValue_captures hfind
  obtain ⟨rfl, rfl⟩ := List.append_inj hinput (hlen.symm.trans hlen')
  exact .cut ⟨hk, hb, rfl⟩ (fun _ _ _ => trivial) h

/-- What the entropy scan cuts out. -/
def EntropyCut (a _b m : List Char) : Prop := a = [] ∧ ∃ quote, isQuote quote = true ∧ m = entropyMark quote

theorem redactEntropy_rewrites (r : Redaction) :
    Rewrites (fun _ => True) EntropyCut r.text (d.redactEntropy r).text := by
  have htext : (d.redactEntropy r).text = quotedRe.replaceAll d.redactQuoted r.text := by
    rw [redactEntropy]
    split
    · exact record_text _ _
    · rfl
  rw [htext]
  refine replaceAll_rewrites (by decide) (fun _ _ _ => trivial) ?_ r.text
  intro prev u cs m out _ _ hu h
  obtain ⟨quote, u, rfl, hquote⟩ := quoted_cons hu
  rw [redactQuoted]
  split_ifs
  · exact .cut (a := []) ⟨rfl, quote, hquote, rfl⟩ (fun _ _ _ => trivial) h
  · exact h.append

/-- The keyword that is kept ends neither like a web token nor like the credentials of a
    connection string. -/
theorem getLast?_keyword {a u : List Char} (ha : passwordKeyword.Matches a) (hu : u ≠ [])
    (h : a <:+ u ∨ u <:+ a) {c : Char} (hc : passwordKeyword.avoids c = true) : u.getLast? ≠ some c := by
  intro hlast
  refine avoids_spec hc ha ?_
  rcases h with h | h
  · have hne : a ≠ [] := by
      rintro rfl
      exact takes_spec (by decide) ha
    obtain ⟨l, rfl⟩ := h
    rw [List.getLast?_append_of_ne_nil l hne] at hlast
    exact List.mem_of_getLast? hlast
  · exact h.subset (List.mem_of_getLast? hlast)

theorem redactPasswords_token {p : SecretPattern} (hp : p ∈ tokenPatterns) {r : Redaction}
    (h : Clean p.regex.Matches r.text) : Clean p.regex.Matches (d.redactPasswords r).text := by
  have hmark : ∀ a b m, PasswordCut a b m → m ∈ redactionMarks := by
    rintro a b m ⟨-, -, rfl⟩
    exact passwordMark_mem
  have hequals : p.regex.avoids '=' = true ∨ p = jwt := by
    simp only [tokenPatterns, List.mem_cons, List.not_mem_nil, or_false] at hp
    rcases hp with rfl | rfl | rfl | rfl | rfl | rfl | rfl
    · exact .inl (by decide)
    · exact .inl (by decide)
    · exact .inl (by decide)
    · exact .inl (by decide)
    · exact .inl (by decide)
    · exact .inr rfl
    · exact .inl (by decide)
  have hrewrites := h.kept (d.redactPasswords_rewrites r)
  rcases hequals with hequals | rfl
  · refine token_clean hp hrewrites hmark ?_
    rintro a b m ⟨-, -, rfl⟩
    exact ⟨'=', rfl, hequals⟩
  · -- a web token can end with the `=` of the mark, and is one without it
    intro w hw
    refine hrewrites.clean (fun t w ht => ht w) ?_ ?_ (takes_spec (by decide)) hw
    · rintro a b m y z w ⟨-, -, rfl⟩ hy hsuffix hw hstart
      exact token_not_infix_mark hp passwordMark_mem hw (Rewrites.infix_of_prefix_mark (c := '"') (by decide)
        hy hsuffix hstart (not_mem_token hp (by decide) hw))
    · rintro a b m u v z ⟨ha, -, rfl⟩ hu hau hv hvm hw
      have hquote : '"' ∉ u ++ v := not_mem_token hp (by decide) hw
      obtain ⟨c, v, rfl⟩ := List.exists_cons_of_ne_nil hv
      obtain ⟨rfl, htail⟩ := List.cons_prefix_cons.1 hvm
      cases v with
      | nil => exact ⟨u, jwt_of_concat hw (getLast?_keyword ha hu hau (by decide)), List.prefix_append u b⟩
      | cons e v =>
        obtain ⟨rfl, -⟩ := List.cons_prefix_cons.1 htail
        exact absurd (List.mem_append_right u (List.mem_cons_of_mem _ List.mem_cons_self)) hquote

theorem redactPasswords_dsn {r : Redaction} (h : Clean UnmarkedDsn r.text) :
    Clean UnmarkedDsn (d.redactPasswords r).text := by
  refine dsn_clean (h.kept (d.redactPasswords_rewrites r)) ?_ ?_
  · rintro a b m ⟨-, -, rfl⟩
    exact passwordMark_mem
  · rintro a b m u ⟨ha, -, -⟩ hu hau hlast -
    exact absurd hlast (getLast?_keyword ha hu hau (by decide))

theorem redactEntropy_token {p : SecretPattern} (hp : p ∈ tokenPatterns) {r : Redaction}
    (h : Clean p.regex.Matches r.text) : Clean p.regex.Matches (d.redactEntropy r).text := by
  refine token_clean hp (h.kept (d.redactEntropy_rewrites r)) ?_ ?_
  · rintro a b m ⟨-, quote, hquote, rfl⟩
    exact entropyMark_mem hquote
  · rintro a b m ⟨-, quote, hquote, rfl⟩
    obtain rfl | rfl : quote = '"' ∨ quote = '\'' := by simpa [isQuote] using hquote
    · exact ⟨'"', rfl, avoids_of_mem_tokenPatterns p hp _ (by decide)⟩
    · exact ⟨'\'', rfl, avoids_of_mem_tokenPatterns p hp _ (by decide)⟩

/-- The mark starts with a quote, which no host has. -/
theorem redactEntropy_dsn {r : Redaction} (h : Clean UnmarkedDsn r.text) :
    Clean UnmarkedDsn (d.redactEntropy r).text := by
  refine dsn_clean (h.kept (d.redactEntropy_rewrites r)) ?_ ?_
  · rintro a b m ⟨-, quote, hquote, rfl⟩
    exact entropyMark_mem hquote
  · rintro a b m u ⟨-, quote, hquote, rfl⟩ - - - ⟨c, hc, hhost⟩
    obtain rfl := Option.some.inj hc
    simp [isHostChar, hquote] at hhost

/-- **What `redact` returns**: no token, and no connection string but one with a mark. -/
theorem redact_clean (text : List Char) {w : List Char} (hw : KnownShape w) (hwithin : w <:+: (d.redact text).text) :
    dsnWithCredentials.regex.Matches w ∧ Marked w := by
  obtain ⟨p, hp, hw⟩ := hw
  rw [redact] at hwithin
  split_ifs at hwithin with hnil
  · rw [hnil] at hwithin
    rw [List.infix_nil.1 hwithin] at hw
    exact absurd hw (takes_spec (takes_of_mem_patterns p hp))
  rcases List.mem_append.1 hp with hp | hp
  · have hclean := foldl_redactPattern_clean hp (fun _ => id) (r := { text }) (.inl (mem_tokenPatterns hp))
    exact absurd hwithin (d.redactEntropy_token hp (d.redactPasswords_token hp hclean) w hw)
  · obtain rfl := List.mem_singleton.1 hp
    refine ⟨hw, ?_⟩
    by_contra hmarked
    exact d.redactEntropy_dsn (d.redactPasswords_dsn (foldl_patterns_dsn _)) w ⟨hw, hmarked⟩ hwithin

end SecretDetector

end Cognis
