/-
  The attributes of a symbol (`enricher/attributes.rs`): the tables, routes, environment
  variables and external calls that its body names.

  * `mem_extract`: an attribute is one of the captured texts, or an external call;
  * `externalCalls_clean`: no external call has a known shape in it.
-/
import Cognis.Indexer.Secrets

namespace Cognis

open Regex

/-- `ExtractedAttribute` -/
structure ExtractedAttribute where
  key : String
  value : String
  deriving DecidableEq, Repr

/-- `SQL_RESERVED` -/
def sqlReserved : List String :=
  ["SET", "WHERE", "VALUES", "SELECT", "AND", "OR", "ON", "AS", "IN", "BY", "NULL"]

/-- `['"/]` -/
def isPathStart (c : Char) : Bool := isQuote c || c = '/'

/-- `[^'"\)\s]` -/
def isPathChar (c : Char) : Bool := !(isQuote c || c = ')' || isWhitespace c)

/-- `\s*\(\s*['"/]([^'"\)\s]+)` -/
def routePath : Regex Char :=
  cat [many isWhitespace, exactly "(", many isWhitespace, cls isPathStart, cap (plus isPathChar)]

def httpRouteRe : Regex Char :=
  seq (any (["get", "post", "put", "patch", "delete", "head", "options"].map anyCase)) routePath

/-- `http_decorator_re`, of which the second group is read. -/
def httpDecoratorRe : Regex Char :=
  cat [exactly ".", any (["get", "post", "put", "patch", "delete", "head", "options", "route"].map anyCase),
    routePath]

/-- `[A-Za-z_][A-Za-z0-9_]*` -/
def identifier : Regex Char := seq (cls Text.isIdentStart) (many Text.isIdentChar)

/-- A group in quotes. -/
def inQuotes (r : Regex Char) : Regex Char := cat [cls isQuote, cap r, cls isQuote]

/-- An entry of `external_call_specs`; the group, if there is one, is put in lower case. -/
structure ExternalCallSpec where
  regex : Regex Char
  valuePrefix : String
  lowerGroup : Bool

/-- The value for a match. -/
def ExternalCallSpec.value (spec : ExternalCallSpec) (group : List Char) : List Char :=
  if spec.lowerGroup then spec.valuePrefix.toList ++ '.' :: Text.toAsciiLowercase group
  else spec.valuePrefix.toList

namespace UnicodeTables

variable (u : UnicodeTables)

def sqlKeywordRe : Regex Char :=
  cat [any (["from", "join", "into", "update", "table"].map anyCase), plus isWhitespace, cap (plus u.isWord)]

def envPatterns : List (Regex Char) :=
  [cat [exactly "os.environ[", inQuotes (plus u.isWord), exactly "]"],
    cat [exactly "os.getenv(", many isWhitespace, inQuotes (plus u.isWord), many isWhitespace,
      cls fun c => c = ',' || c = ')'],
    cat [exactly "os.environ.get(", many isWhitespace, inQuotes (plus u.isWord), many isWhitespace,
      cls fun c => c = ',' || c = ')'],
    cat [exactly "process.env.", cap identifier],
    cat [exactly "process.env[", inQuotes identifier, exactly "]"],
    cat [exactly "os.Getenv(", many isWhitespace, inQuotes identifier, many isWhitespace, exactly ")"]]

/-- `(?:^|[^\w])` -/
def callStart : Regex Char := alt start (cls fun c => !u.isWord c)

/-- `<client>\.(<methods>)\s*` and one of the characters that may follow. -/
def clientCall (client : String) (methods : List String) (follow : List Char) : ExternalCallSpec where
  regex := cat [u.callStart, anyCase client, exactly ".", cap (any (methods.map anyCase)),
    many isWhitespace, cls fun c => follow.contains c]
  valuePrefix := client
  lowerGroup := true

def externalCallSpecs : List ExternalCallSpec :=
  [u.clientCall "requests" ["get", "post", "put", "delete", "head", "patch", "request"] ['('],
    u.clientCall "httpx" ["get", "post", "put", "delete", "head", "patch", "request", "asyncclient",
      "client"] ['(', '.'],
    ⟨cat [u.callStart, exactly "fetch", many isWhitespace, exactly "("], "fetch", false⟩,
    u.clientCall "axios" ["get", "post", "put", "delete", "patch", "create", "request"] ['(', '.'],
    ⟨cat [u.callStart, exactly "http.Get", many isWhitespace, exactly "("], "http.Get", false⟩,
    ⟨cat [u.callStart, exactly "http.Post", many isWhitespace, exactly "("], "http.Post", false⟩,
    ⟨cat [u.callStart, exactly "http.Client", boundary u.isWord], "http.Client", false⟩]

/-! ## Extraction -/

/-- The names after the SQL keywords. -/
def dbTables (body : List Char) : List (List Char) :=
  (u.sqlKeywordRe.captures body).filter fun table =>
    String.ofList (Text.toAsciiUppercase table) ∉ sqlReserved

/-- The paths of the routes, method first and then in decorators. -/
def httpRoutes (body : List Char) : List (List Char) :=
  (httpRouteRe.captures body ++ httpDecoratorRe.captures body).filter fun path => path.head? = some '/'

def envVars (body : List Char) : List (List Char) := u.envPatterns.flatMap fun re => re.captures body

def externalCalls (body : List Char) : List (List Char) :=
  u.externalCallSpecs.flatMap fun spec => (spec.regex.captures body).map spec.value

/-- `add` -/
def addAttribute (out : List ExtractedAttribute) (a : ExtractedAttribute) : List ExtractedAttribute :=
  if a ∈ out then out else out ++ [a]

/-- `AttributeExtractor::extract` -/
def extract (body : List Char) : List ExtractedAttribute :=
  if body = [] then [] else
    let attributes key (values : List (List Char)) :=
      values.map fun value => (⟨key, String.ofList value⟩ : ExtractedAttribute)
    (attributes "db_table" (u.dbTables body) ++ attributes "http_route" (httpRoutes body) ++
      attributes "env_var" (u.envVars body) ++ attributes "external_call" (u.externalCalls body)).foldl
        addAttribute []

/-- The texts that the patterns for tables, routes and environment variables capture. -/
def capturedTexts (body : List Char) : List (List Char) := u.dbTables body ++ httpRoutes body ++ u.envVars body

/-! ## What is extracted -/

theorem mem_foldl_addAttribute {out l : List ExtractedAttribute} {a : ExtractedAttribute} :
    a ∈ l.foldl addAttribute out ↔ a ∈ out ∨ a ∈ l := by
  induction l generalizing out with
  | nil => simp
  | cons b l ih =>
    rw [List.foldl_cons, ih, addAttribute, List.mem_cons]
    split_ifs with hb
    · constructor
      · exact Or.imp_right .inr
      · rintro (h | rfl | h)
        · exact .inl h
        · exact .inl hb
        · exact .inr h
    · rw [List.mem_append, List.mem_singleton, or_assoc]

/-- The values are the captured texts and the external calls. -/
theorem exists_extract_iff {body v : List Char} : (∃ a ∈ u.extract body, a.value.toList = v) ↔
    v ∈ u.capturedTexts body ∨ v ∈ u.externalCalls body := by
  rw [extract]
  split_ifs with hnil
  · subst hnil
    simp [capturedTexts, dbTables, httpRoutes, envVars, externalCalls, captures, pieces]
  · simp only [mem_foldl_addAttribute, List.not_mem_nil, false_or, capturedTexts, List.mem_append,
      List.mem_map]
    constructor
    · rintro ⟨a, ((⟨w, hw, rfl⟩ | ⟨w, hw, rfl⟩) | ⟨w, hw, rfl⟩) | ⟨w, hw, rfl⟩, rfl⟩
      · exact .inl (.inl (.inl (by simpa using hw)))
      · exact .inl (.inl (.inr (by simpa using hw)))
      · exact .inl (.inr (by simpa using hw))
      · exact .inr (by simpa using hw)
    · rintro (((hv | hv) | hv) | hv)
      · exact ⟨_, .inl (.inl (.inl ⟨v, hv, rfl⟩)), String.toList_ofList⟩
      · exact ⟨_, .inl (.inl (.inr ⟨v, hv, rfl⟩)), String.toList_ofList⟩
      · exact ⟨_, .inl (.inr ⟨v, hv, rfl⟩), String.toList_ofList⟩
      · exact ⟨_, .inr ⟨v, hv, rfl⟩, String.toList_ofList⟩

theorem infix_of_mem_capturedTexts {body v : List Char} (h : v ∈ u.capturedTexts body) : v <:+: body := by
  have hcaptures : ∀ re : Regex Char, re.takes = true → v ∈ re.captures body → v <:+: body := by
    intro re hre hv
    rcases infix_of_mem_captures hre hv with rfl | ⟨hwithin, -⟩
    · exact List.nil_infix
    · exact hwithin
  rcases List.mem_append.1 h with h | h
  · rcases List.mem_append.1 h with h | h
    · exact hcaptures u.sqlKeywordRe rfl (List.mem_of_mem_filter h)
    · rcases List.mem_append.1 (List.mem_of_mem_filter h) with h | h
      · exact hcaptures httpRouteRe (by decide) h
      · exact hcaptures httpDecoratorRe (by decide) h
  · obtain ⟨re, hre, hv⟩ := List.mem_flatMap.1 h
    have htakes : u.envPatterns.all takes = true := rfl
    exact hcaptures re (List.all_eq_true.1 htakes re hre) hv

/-- A method in lower case has none of the characters of a known shape. -/
theorem clientCall_value {client : String} {methods : List String} {follow g : List Char}
    (hclient : ∀ c ∈ shapeMarks, c ∉ client.toList)
    (hmethods : ∀ c ∈ ['_', '-', '/'], (any (methods.map anyCase)).avoids c = true)
    (hg : g = [] ∨ (u.clientCall client methods follow).regex.Captures g) :
    ∀ c ∈ shapeMarks, c ∉ (u.clientCall client methods follow).value g := by
  have hgroup : ∀ c ∈ ['_', '-', '/'], c ∉ g := by
    rcases hg with rfl | hg
    · exact fun c _ => List.not_mem_nil
    · have hword : (any (methods.map anyCase)).Matches g := by
        simpa [clientCall, cat, callStart, anyCase, exactly, lit, many, Captures, not_captures_spelt] using hg
      exact fun c hc => avoids_spec (hmethods c hc) hword
  intro c hc hv
  have hvalue : c ∈ client.toList ++ '.' :: Text.toAsciiLowercase g := hv
  rw [List.mem_append, List.mem_cons, or_iff_right (hclient c hc), or_iff_right] at hvalue
  · obtain ⟨x, hx, hlower⟩ := List.mem_map.1 hvalue
    -- no letter in lower case is one of the marks, and the others are mapped from themselves
    have hfixed : ∀ c ∈ shapeMarks, c.val.toNat < 97 ∧ (c.toLower = c → c ∈ ['_', '-', '/']) := by decide
    obtain ⟨hlow, hself⟩ := hfixed c hc
    obtain rfl : x = c := eq_of_toLower_eq hlower hlow
    exact hgroup x (hself hlower) hx
  · rintro rfl
    exact absurd hc (by decide)

theorem externalCalls_shapeMarks {body v : List Char} (h : v ∈ u.externalCalls body) :
    ∀ c ∈ shapeMarks, c ∉ v := by
  obtain ⟨spec, hspec, hv⟩ := List.mem_flatMap.1 h
  obtain ⟨g, hg, rfl⟩ := List.mem_map.1 hv
  have htakes : u.externalCallSpecs.all (fun spec => spec.regex.takes) = true := rfl
  have hcaptures := (infix_of_mem_captures (List.all_eq_true.1 htakes spec hspec) hg).imp_right And.right
  have hplain : ∀ client ∈ ["fetch", "http.Get", "http.Post", "http.Client"],
      ∀ c ∈ shapeMarks, c ∉ client.toList := by decide
  simp only [externalCallSpecs, List.mem_cons, List.not_mem_nil, or_false] at hspec
  rcases hspec with rfl | rfl | rfl | rfl | rfl | rfl | rfl
  · exact u.clientCall_value (by decide) (by decide) hcaptures
  · exact u.clientCall_value (by decide) (by decide) hcaptures
  · exact hplain "fetch" (by decide)
  · exact u.clientCall_value (by decide) (by decide) hcaptures
  · exact hplain "http.Get" (by decide)
  · exact hplain "http.Post" (by decide)
  · exact hplain "http.Client" (by decide)

/-- **No external call has a known shape in it.** -/
theorem externalCalls_clean {body v w : List Char} (h : v ∈ u.externalCalls body) (hw : KnownShape w) :
    ¬ w <:+: v := by
  intro hwithin
  obtain ⟨c, hc, hcw⟩ := exists_shapeMark hw
  exact u.externalCalls_shapeMarks h c hc (hwithin.subset hcw)

end UnicodeTables

end Cognis
