/-
  The HTTP gate (`http.rs`): what a connection has to present before its body reaches the
  JSON-RPC dispatcher.

  The request line and the header lines are read one after the other. Several header names
  write to the same slot, and a later line overwrites an earlier one.

  * `readHeaders_eq_some_iff`: the header loop folds the lines up to the first blank one.
  * `Presented.foldl_credential`: a slot holds what the last line for it has presented.
  * `gate_sound`: the dispatcher is reached only by an authorised request; every other one
    is answered with 401, 403 or 405, or closed, and leaves the server as it was.
-/
import Cognis.Core.Identity

namespace Cognis

open Text

/-! ## Text -/

/-- `str::split_once` -/
def splitOnce (sep : Char) (text : List Char) : Option (List Char × List Char) :=
  match text.dropWhile (· != sep) with
  | _ :: value => some (text.takeWhile (· != sep), value)
  | [] => none

/-- `str::strip_prefix` -/
def stripPrefix (pre text : List Char) : Option (List Char) :=
  if pre <+: text then some (text.drop pre.length) else none

/-- `str::eq_ignore_ascii_case` -/
def eqIgnoreAsciiCase (a b : List Char) : Bool := toAsciiLowercase a == toAsciiLowercase b

/-- `split_whitespace().next()` -/
def firstWord (text : List Char) : List Char :=
  (text.dropWhile isWhitespace).takeWhile (!isWhitespace ·)

/-- `str::parse::<usize>` -/
def parseUsize (text : List Char) : Option ℕ :=
  let digits := (stripPrefix ['+'] text).getD text
  if digits ≠ [] ∧ digits.all Char.isDigit then
    let n := digits.foldl (fun n c => n * 10 + (c.toNat - 48)) 0
    if n < 2 ^ 64 then some n else none
  else none

/-! ## The connection -/

/-- What a client sends before the connection ends, at its end or in an error (a reset or a
    timeout). -/
structure ByteStream where
  bytes : List UInt8
  fails : Bool

namespace ByteStream

/-- `BufRead::read_line`: the text up to the next line feed, which it includes, and nothing
    at the end of the stream; `none` for an error. -/
def readLine (s : ByteStream) : Option (List Char × ByteStream) :=
  let line := s.bytes.takeWhile (· != 0x0A)
  match s.bytes.dropWhile (· != 0x0A) with
  | lf :: rest => (fromUtf8 (line ++ [lf])).map fun text => (text, { s with bytes := rest })
  | [] => if s.fails then none else (fromUtf8 line).map fun text => (text, { s with bytes := [] })

/-- `Read::read_exact` -/
def readExact (s : ByteStream) (n : ℕ) : Option (List UInt8) :=
  if n ≤ s.bytes.length then some (s.bytes.take n) else none

end ByteStream

def contentLengthHeader : List Char := "content-length".toList

def authorizationHeader : List Char := "authorization".toList

def routeCredentialHeader : List Char := "X-Cognis-Route-Token".toList

def repoIdentityHeader : List Char := "X-Cognis-Repo-Key".toList

def modelFingerprintHeader : List Char := "X-Cognis-Model-Fingerprint".toList

def maxBodyBytes : ℕ := 4 * 1024 * 1024

/-- The token of `Bearer <token>`. -/
def bearerToken (value : List Char) : Option (List Char) :=
  ((stripPrefix "Bearer ".toList value).orElse fun _ => stripPrefix "bearer ".toList value).map trim

/-- What the headers have presented so far. -/
structure Presented where
  contentLength : ℕ := 0
  credential : Option (List Char) := none
  repoKey : Option (List Char) := none
  fingerprint : Option (List Char) := none
deriving DecidableEq

/-- One turn of the header loop. -/
def Presented.readHeader (p : Presented) (header : List Char) : Presented :=
  match splitOnce ':' header with
  | none => p
  | some (name, value) =>
    let name := trim name
    let value := trim value
    if eqIgnoreAsciiCase name contentLengthHeader then
      { p with contentLength := min ((parseUsize value).getD 0) maxBodyBytes }
    else if eqIgnoreAsciiCase name authorizationHeader then
      match bearerToken value with
      | some token => { p with credential := some token }
      | none => p
    else if eqIgnoreAsciiCase name routeCredentialHeader then { p with credential := some value }
    else if eqIgnoreAsciiCase name repoIdentityHeader then { p with repoKey := some value }
    else if eqIgnoreAsciiCase name modelFingerprintHeader then
      { p with fingerprint := some value }
    else p

/-- The header loop, for at most `fuel` turns. -/
def readHeaders : ℕ → ByteStream → Presented → Option (Presented × ByteStream)
  | 0, _, _ => none
  | fuel + 1, s, p =>
    match s.readLine with
    | none => none
    | some (header, s) =>
      if trim header = [] then some (p, s) else readHeaders fuel s (p.readHeader header)

/-! ## The checks -/

/-- `constant_time_eq` -/
def constantTimeEq (a b : List UInt8) : Bool :=
  (List.range (max a.length b.length)).foldl (fun diff i => diff ||| (a.getD i 0 ^^^ b.getD i 0))
    (if a.length = b.length then 0 else 1) = 0

/-- `MIN_CREDENTIAL_LEN` -/
def minCredentialLen : ℕ := 16

/-- A route credential: no shorter token is one. -/
structure RouteCredential where
  token : String
  long : minCredentialLen ≤ (asBytes token).length

namespace RouteCredential

def fromToken (token : String) : Option RouteCredential :=
  let trimmed := String.ofList (trim token.toList)
  if h : minCredentialLen ≤ (asBytes trimmed).length then some ⟨trimmed, h⟩ else none

def matchesPresented (credential : RouteCredential) (presented : List Char) : Bool :=
  constantTimeEq (asBytes credential.token) (asBytes (.ofList presented))

end RouteCredential

structure ModelFingerprint where
  digest : List Char

namespace ModelFingerprint

def fromDigest (digest : List Char) : ModelFingerprint := ⟨foldPresented digest⟩

def allowsSessionReuse (owner other : ModelFingerprint) : Bool :=
  owner.digest ≠ [] ∧ other.digest ≠ [] ∧ owner.digest = other.digest

end ModelFingerprint

/-- What the owner requires of an attachment. -/
structure GateConfig where
  routeCredential : RouteCredential
  repoIdentity : Option RepoIdentity
  modelFingerprint : Option ModelFingerprint

/-! ## Answers -/

structure HttpResponse where
  status : String
  contentType : String
  body : String
  extraHeaders : List (String × String)
deriving DecidableEq

namespace HttpResponse

def unauthorized : HttpResponse where
  status := "401 Unauthorized"
  contentType := "application/json"
  body := "\x7b\"error\":\x7b\"code\":\"UNAUTHORIZED\",\"message\":\"missing or invalid MCP route credential; present Authorization: Bearer <token> or X-Cognis-Route-Token\",\"retryable\":false\x7d\x7d"
  extraHeaders := [("WWW-Authenticate", "Bearer"), ("X-Cognis-Auth", "route-credential-required")]

def crossRepository : HttpResponse where
  status := "403 Forbidden"
  contentType := "application/json"
  body := "\x7b\"error\":\x7b\"code\":\"CROSS_REPOSITORY\",\"message\":\"repository identity mismatch; cross-repository access is rejected (present matching X-Cognis-Repo-Key)\",\"retryable\":false\x7d\x7d"
  extraHeaders := [("X-Cognis-Isolation", "repo-identity-rejected")]

def modelFingerprintMismatch : HttpResponse where
  status := "403 Forbidden"
  contentType := "application/json"
  body := "\x7b\"error\":\x7b\"code\":\"MODEL_FINGERPRINT_MISMATCH\",\"message\":\"model fingerprint mismatch; session reuse refused (present matching X-Cognis-Model-Fingerprint)\",\"retryable\":false\x7d\x7d"
  extraHeaders := [("X-Cognis-Isolation", "model-fingerprint-rejected")]

def methodNotAllowed : HttpResponse where
  status := "405 Method Not Allowed"
  contentType := "text/plain"
  body := "MCP over HTTP: POST JSON-RPC to /mcp"
  extraHeaders := [("Allow", "POST")]

/-- The answer to a dispatched body: a payload, or nothing to send. -/
def ofDispatched : Option String → HttpResponse
  | some json =>
    { status := "200 OK", contentType := "application/json", body := json, extraHeaders := [] }
  | none =>
    { status := "202 Accepted", contentType := "application/json", body := "", extraHeaders := [] }

end HttpResponse

/-- How a connection ends: closed without an answer, or after a response. -/
inductive Answer
  | closed
  | response (r : HttpResponse)
deriving DecidableEq

/-! ## The gate -/

/-- The first check that fails, by its response. -/
def refusal (sha256 : List UInt8 → List UInt8) (cfg : GateConfig) (p : Presented)
    (method : List Char) : Option HttpResponse :=
  if !(p.credential.any cfg.routeCredential.matchesPresented) then some .unauthorized
  else if !(cfg.repoIdentity.all fun owner =>
      (verifyRepoWireKey sha256 owner (p.repoKey.getD [])).isAllowed) then
    some .crossRepository
  else if !(cfg.modelFingerprint.all fun owner =>
      owner.allowsSessionReuse (.fromDigest (p.fingerprint.getD []))) then
    some .modelFingerprintMismatch
  else if !eqIgnoreAsciiCase method "POST".toList then some .methodNotAllowed
  else none

/-- Everything that `handle_connection` does before it dispatches: the body to dispatch, or
    the answer that it gives instead. -/
def gate (sha256 : List UInt8 → List UInt8) (cfg : GateConfig) (stream : ByteStream) :
    Except Answer (List Char) :=
  match stream.readLine with
  | none => .error .closed
  | some (requestLine, s) =>
    if requestLine = [] then .error .closed
    else
      match readHeaders (s.bytes.length + 1) s {} with
      | none => .error .closed
      | some (p, s) =>
        match refusal sha256 cfg p (firstWord requestLine) with
        | some r => .error (.response r)
        | none =>
          match s.readExact p.contentLength with
          | none => .error .closed
          | some body => .ok (fromUtf8Lossy body)

/-- `handle_connection`, on a server whose dispatcher is `dispatch`. -/
def handleConnection {σ : Type} (sha256 : List UInt8 → List UInt8)
    (dispatch : σ → List Char → σ × Option String) (server : σ) (cfg : GateConfig)
    (stream : ByteStream) : σ × Answer :=
  match gate sha256 cfg stream with
  | .error answer => (server, answer)
  | .ok body =>
    let (server, dispatched) := dispatch server body
    (server, .response (.ofDispatched dispatched))

/-! ## What the header loop reads -/

/-- The stream goes on with these header lines and a blank one, after which `rest` is left. -/
inductive HeaderLines : ByteStream → List (List Char) → ByteStream → Prop
  | done {s rest line} : s.readLine = some (line, rest) → trim line = [] → HeaderLines s [] rest
  | line {s s' header headers rest} : s.readLine = some (header, s') → trim header ≠ [] →
      HeaderLines s' headers rest → HeaderLines s (header :: headers) rest

theorem readLine_length {s s' : ByteStream} {line : List Char}
    (h : s.readLine = some (line, s')) :
    s'.bytes = s.bytes ∧ s.bytes = [] ∨ s'.bytes.length < s.bytes.length := by
  rw [ByteStream.readLine] at h
  split at h
  · next lf rest hdrop =>
    obtain ⟨text, -, heq⟩ := Option.map_eq_some_iff.1 h
    cases heq
    right
    have := (List.dropWhile_suffix (l := s.bytes) (· != 0x0A)).length_le
    rw [hdrop] at this
    exact Nat.lt_of_succ_le this
  · split_ifs at h
    obtain ⟨text, -, heq⟩ := Option.map_eq_some_iff.1 h
    cases heq
    rcases Nat.eq_zero_or_pos s.bytes.length with h0 | hpos
    · exact .inl ⟨(List.length_eq_zero_iff.1 h0).symm, List.length_eq_zero_iff.1 h0⟩
    · exact .inr hpos

/-- At the end of the stream the line is empty. -/
theorem readLine_of_empty {s s' : ByteStream} {line : List Char} (hs : s.bytes = [])
    (h : s.readLine = some (line, s')) : line = [] := by
  rw [ByteStream.readLine, hs] at h
  simp only [List.dropWhile_nil] at h
  split_ifs at h
  obtain ⟨text, htext, heq⟩ := Option.map_eq_some_iff.1 h
  cases heq
  cases htext
  rfl

/-- A line that is not blank takes bytes. -/
theorem length_lt_of_readLine {s s' : ByteStream} {line : List Char}
    (h : s.readLine = some (line, s')) (hblank : trim line ≠ []) :
    s'.bytes.length < s.bytes.length := by
  rcases readLine_length h with ⟨-, hs⟩ | hlt
  · rw [readLine_of_empty hs h] at hblank
    exact absurd rfl hblank
  · exact hlt

/-- A loop over the header lines that keeps an `α`, for at most `fuel` turns: what it has kept
    and what it leaves, or the stream that it cannot read on. -/
def headerLoop {α : Type} (readHeader : α → List Char → α) :
    ℕ → ByteStream → α → Except ByteStream (α × ByteStream)
  | 0, s, _ => .error s
  | fuel + 1, s, a =>
    match s.readLine with
    | none => .error s
    | some (header, rest) =>
      if trim header = [] then .ok (a, rest)
      else headerLoop readHeader fuel rest (readHeader a header)

/-- The loop folds over the header lines; one turn more than there are bytes is enough. -/
theorem headerLoop_eq_ok_iff {α : Type} {readHeader : α → List Char → α} {fuel : ℕ}
    {s s' : ByteStream} {a a' : α} (hfuel : s.bytes.length < fuel) :
    headerLoop readHeader fuel s a = .ok (a', s') ↔
      ∃ headers, HeaderLines s headers s' ∧ a' = headers.foldl readHeader a := by
  induction fuel generalizing s a with
  | zero => exact absurd hfuel (Nat.not_lt_zero _)
  | succ fuel ih =>
    rw [headerLoop]
    cases hread : s.readLine with
    | none =>
      refine ⟨fun h => absurd h (by simp), ?_⟩
      rintro ⟨headers, hlines, -⟩
      cases hlines with
      | done h => rw [hread] at h; cases h
      | line h => rw [hread] at h; cases h
    | some read =>
      obtain ⟨header, s₁⟩ := read
      dsimp only
      split_ifs with hblank
      · constructor
        · intro h
          cases h
          exact ⟨[], .done hread hblank, rfl⟩
        · rintro ⟨headers, hlines, rfl⟩
          cases hlines with
          | done h => rw [hread] at h; cases h; rfl
          | line h hne => rw [hread] at h; cases h; exact absurd hblank hne
      · have hlt := length_lt_of_readLine hread hblank
        rw [ih (by omega)]
        constructor
        · rintro ⟨headers, hlines, rfl⟩
          exact ⟨header :: headers, .line hread hblank hlines, rfl⟩
        · rintro ⟨headers, hlines, rfl⟩
          cases hlines with
          | done h hb => rw [hread] at h; cases h; exact absurd hb hblank
          | line h _ hlines => rw [hread] at h; cases h; exact ⟨_, hlines, rfl⟩

theorem readHeaders_eq (fuel : ℕ) (s : ByteStream) (p : Presented) :
    readHeaders fuel s p = (headerLoop Presented.readHeader fuel s p).toOption := by
  induction fuel generalizing s p with
  | zero => rfl
  | succ fuel ih =>
    rw [readHeaders, headerLoop]
    cases s.readLine with
    | none => rfl
    | some read =>
      dsimp only
      split_ifs
      · rfl
      · exact ih _ _

theorem readHeaders_eq_some_iff {fuel : ℕ} {s s' : ByteStream} {p p' : Presented}
    (hfuel : s.bytes.length < fuel) :
    readHeaders fuel s p = some (p', s') ↔
      ∃ headers, HeaderLines s headers s' ∧ p' = headers.foldl Presented.readHeader p := by
  rw [readHeaders_eq, ← headerLoop_eq_ok_iff hfuel]
  cases headerLoop Presented.readHeader fuel s p with
  | error _ => simp [Except.toOption]
  | ok _ => simp [Except.toOption]

/-! ## What the headers present -/

/-- The value of a header line that has this name, in any letter case. -/
def headerValue (name header : List Char) : Option (List Char) :=
  match splitOnce ':' header with
  | some (key, value) => if eqIgnoreAsciiCase (trim key) name then some (trim value) else none
  | none => none

/-- The credential that a header line presents: a bearer token or a route token. -/
def credentialOf (header : List Char) : Option (List Char) :=
  ((headerValue authorizationHeader header).bind bearerToken).or
    (headerValue routeCredentialHeader header)

theorem eqIgnoreAsciiCase_iff {a b : List Char} :
    eqIgnoreAsciiCase a b ↔ toAsciiLowercase a = toAsciiLowercase b := beq_iff_eq

/-- A name that is one of two is not the other. -/
theorem not_eqIgnoreAsciiCase {key a b : List Char} (hab : toAsciiLowercase a ≠ toAsciiLowercase b)
    (ha : eqIgnoreAsciiCase key a) : ¬ eqIgnoreAsciiCase key b := by
  rw [eqIgnoreAsciiCase_iff] at *
  exact fun hb => hab (ha.symm.trans hb)

/-- What one header line does to the slots. -/
theorem readHeader_slots (p : Presented) (header : List Char) :
    (p.readHeader header).credential = (credentialOf header).or p.credential ∧
      (p.readHeader header).repoKey = (headerValue repoIdentityHeader header).or p.repoKey ∧
      (p.readHeader header).fingerprint =
        (headerValue modelFingerprintHeader header).or p.fingerprint := by
  simp only [Presented.readHeader, credentialOf, headerValue]
  cases splitOnce ':' header with
  | none => simp
  | some split =>
    obtain ⟨name, value⟩ := split
    dsimp only
    generalize trim name = key
    -- the names differ, so a line writes to one slot only
    by_cases hlen : eqIgnoreAsciiCase key contentLengthHeader
    · have hauth := not_eqIgnoreAsciiCase (b := authorizationHeader) (by decide) hlen
      have hroute := not_eqIgnoreAsciiCase (b := routeCredentialHeader) (by decide) hlen
      have hrepo := not_eqIgnoreAsciiCase (b := repoIdentityHeader) (by decide) hlen
      have hmodel := not_eqIgnoreAsciiCase (b := modelFingerprintHeader) (by decide) hlen
      simp [hlen, hauth, hroute, hrepo, hmodel]
    by_cases hauth : eqIgnoreAsciiCase key authorizationHeader
    · have hroute := not_eqIgnoreAsciiCase (b := routeCredentialHeader) (by decide) hauth
      have hrepo := not_eqIgnoreAsciiCase (b := repoIdentityHeader) (by decide) hauth
      have hmodel := not_eqIgnoreAsciiCase (b := modelFingerprintHeader) (by decide) hauth
      cases hb : bearerToken (trim value) <;> simp [hlen, hauth, hroute, hrepo, hmodel, hb]
    by_cases hroute : eqIgnoreAsciiCase key routeCredentialHeader
    · have hrepo := not_eqIgnoreAsciiCase (b := repoIdentityHeader) (by decide) hroute
      have hmodel := not_eqIgnoreAsciiCase (b := modelFingerprintHeader) (by decide) hroute
      simp [hlen, hauth, hroute, hrepo, hmodel]
    by_cases hrepo : eqIgnoreAsciiCase key repoIdentityHeader
    · have hmodel := not_eqIgnoreAsciiCase (b := modelFingerprintHeader) (by decide) hrepo
      simp [hlen, hauth, hroute, hrepo, hmodel]
    by_cases hmodel : eqIgnoreAsciiCase key modelFingerprintHeader <;>
      simp [hlen, hauth, hroute, hrepo, hmodel]

/-- A slot that every step overwrites or keeps holds the last thing written. -/
theorem foldl_slot {α β γ : Type} {read : β → α → β} {slot : β → Option γ} {of : α → Option γ}
    (h : ∀ b a, slot (read b a) = (of a).or (slot b)) (as : List α) (b : β) :
    slot (as.foldl read b) = (as.filterMap of).getLast?.or (slot b) := by
  induction as using List.reverseRecOn with
  | nil => rfl
  | append_singleton as a ih =>
    rw [List.foldl_concat, h, ih, List.filterMap_append, List.getLast?_append, Option.or_assoc]
    cases hof : of a <;> simp [hof]

theorem foldl_credential (headers : List (List Char)) :
    (headers.foldl Presented.readHeader {}).credential =
      (headers.filterMap credentialOf).getLast? :=
  (foldl_slot (fun p header => (readHeader_slots p header).1) headers {}).trans Option.or_none

theorem foldl_repoKey (headers : List (List Char)) :
    (headers.foldl Presented.readHeader {}).repoKey =
      (headers.filterMap (headerValue repoIdentityHeader)).getLast? :=
  (foldl_slot (fun p header => (readHeader_slots p header).2.1) headers {}).trans Option.or_none

theorem foldl_fingerprint (headers : List (List Char)) :
    (headers.foldl Presented.readHeader {}).fingerprint =
      (headers.filterMap (headerValue modelFingerprintHeader)).getLast? :=
  (foldl_slot (fun p header => (readHeader_slots p header).2.2) headers {}).trans Option.or_none

/-! ## What the checks compare -/

theorem constantTimeEq_iff {a b : List UInt8} : constantTimeEq a b ↔ a = b := by
  have hfold : ∀ (is : List ℕ) (diff : UInt8),
      is.foldl (fun diff i => diff ||| (a.getD i 0 ^^^ b.getD i 0)) diff = 0 ↔
        diff = 0 ∧ ∀ i ∈ is, a.getD i 0 = b.getD i 0 := by
    intro is
    induction is with
    | nil => simp
    | cons i is ih =>
      intro diff
      rw [List.foldl_cons, ih, UInt8.or_eq_zero_iff, UInt8.xor_eq_zero_iff, List.forall_mem_cons,
        and_assoc]
  rw [constantTimeEq, decide_eq_true_iff, hfold]
  constructor
  · rintro ⟨hlen, hall⟩
    split_ifs at hlen with hlen'
    · refine List.ext_getElem hlen' fun i hi hi' => ?_
      have := hall i (List.mem_range.2 (lt_max_of_lt_left hi))
      simpa [List.getD, hi, hi'] using this
    · exact absurd hlen (by decide)
  · rintro rfl
    exact ⟨if_pos rfl, fun _ _ => rfl⟩

theorem matchesPresented_iff {credential : RouteCredential} {presented : List Char} :
    credential.matchesPresented presented ↔ presented = credential.token.toList := by
  rw [RouteCredential.matchesPresented, constantTimeEq_iff]
  constructor
  · intro h
    rw [asBytes_inj h, String.toList_ofList]
  · rintro rfl
    rw [String.ofList_toList]

/-- The value that the last of the header lines presents. -/
def lastPresented (of : List Char → Option (List Char)) (headers : List (List Char)) :
    Option (List Char) := (headers.filterMap of).getLast?

/-- The request presents what the owner requires, `same` telling when a presented name is
    the required one: the last credential is the route credential, the last repository key
    the owner's wire key, the last fingerprint the owner's and not empty, and the method is
    POST. -/
structure Authorized (same : List Char → List Char → Prop) (sha256 : List UInt8 → List UInt8)
    (cfg : GateConfig) (requestLine : List Char) (headers : List (List Char)) : Prop where
  credential : lastPresented credentialOf headers = some cfg.routeCredential.token.toList
  repoKey : ∀ owner, cfg.repoIdentity = some owner →
    ∃ key, lastPresented (headerValue repoIdentityHeader) headers = some key ∧
      same key (owner.wireKey sha256).toList
  fingerprint : ∀ owner, cfg.modelFingerprint = some owner →
    ∃ digest, lastPresented (headerValue modelFingerprintHeader) headers = some digest ∧
      digest ≠ [] ∧ same digest owner.digest
  method : same (firstWord requestLine) "POST".toList

/-- Equal but for ASCII letter case. -/
def SameIgnoringCase (a b : List Char) : Prop := eqIgnoreAsciiCase a b

/-- The answers of a gate that does not let a request through. -/
def Answer.IsRefusal : Answer → Prop
  | closed => True
  | response r => r = .unauthorized ∨ r = .crossRepository ∨ r = .modelFingerprintMismatch ∨
    r = .methodNotAllowed

/-- What the gate is for: it lets a body through only if the request is authorised, and
    otherwise refuses and leaves the server, whatever it is, as it was. -/
structure GateSound (same : List Char → List Char → Prop) (sha256 : List UInt8 → List UInt8)
    (cfg : GateConfig) (stream : ByteStream) : Prop where
  reached : ∀ body, gate sha256 cfg stream = .ok body → ∃ requestLine s headers rest,
    stream.readLine = some (requestLine, s) ∧ HeaderLines s headers rest ∧
      Authorized same sha256 cfg requestLine headers
  refused : ∀ answer, gate sha256 cfg stream = .error answer → answer.IsRefusal ∧
    ∀ (σ : Type) (dispatch : σ → List Char → σ × Option String) (server : σ),
      handleConnection sha256 dispatch server cfg stream = (server, answer)

theorem trim_trim (text : List Char) : trim (trim text) = trim text := by
  have htrim : ∀ s, trim s = (s.dropWhile isWhitespace).rdropWhile isWhitespace := fun _ => rfl
  rw [htrim, htrim, List.dropWhile_eq_self_iff.2, List.rdropWhile_idempotent]
  intro hpos hws
  have hpre := List.rdropWhile_prefix isWhitespace (text.dropWhile isWhitespace)
  rw [hpre.getElem hpos] at hws
  exact List.dropWhile_get_zero_not _ _ (hpos.trans_le hpre.length_le) hws

theorem headerValue_trim {name header value : List Char}
    (h : headerValue name header = some value) : trim value = value := by
  rw [headerValue] at h
  split at h
  · split_ifs at h
    cases h
    exact trim_trim _
  · cases h

theorem sameIgnoringCase_of_fold {presented owner : List Char} (htrim : trim presented = presented)
    (h : foldPresented presented = owner) : SameIgnoringCase presented owner := by
  rw [SameIgnoringCase, eqIgnoreAsciiCase_iff, ← h, foldPresented, htrim, toAsciiLowercase,
    toAsciiLowercase, List.map_map]
  congr 1
  funext c
  exact (toLower_toLower c).symm

theorem verifyRepoWireKey_isAllowed {sha256 : List UInt8 → List UInt8} {owner : RepoIdentity}
    {presented : List Char} (h : (verifyRepoWireKey sha256 owner presented).isAllowed) :
    foldPresented presented ≠ [] ∧ foldPresented presented = (owner.wireKey sha256).toList := by
  simp only [verifyRepoWireKey] at h
  split_ifs at h with hkey
  · refine ⟨fun h => hkey.1 (by rw [h]), ?_⟩
    rw [← hkey.2, String.toList_ofList]
  · cases h

theorem fold_nil : foldPresented [] = [] := rfl

/-- A request that fails no check is authorised, up to the case of letters. -/
theorem authorized_of_refusal_eq_none {sha256 : List UInt8 → List UInt8} {cfg : GateConfig}
    {requestLine : List Char} {headers : List (List Char)}
    (h : refusal sha256 cfg (headers.foldl Presented.readHeader {}) (firstWord requestLine) =
      none) :
    Authorized SameIgnoringCase sha256 cfg requestLine headers := by
  rw [refusal] at h
  split_ifs at h with hcred hrepo hfp hmethod
  simp only [Bool.not_eq_true', Bool.not_eq_false] at hcred hrepo hfp hmethod
  rw [foldl_credential] at hcred
  rw [foldl_repoKey] at hrepo
  rw [foldl_fingerprint] at hfp
  refine ⟨?_, ?_, ?_, hmethod⟩
  · cases hlast : (headers.filterMap credentialOf).getLast? with
    | none => rw [hlast] at hcred; cases hcred
    | some presented =>
      rw [hlast, Option.any_some, matchesPresented_iff] at hcred
      rw [lastPresented, hlast, hcred]
  · intro owner howner
    rw [howner, Option.all_some] at hrepo
    obtain ⟨hne, heq⟩ := verifyRepoWireKey_isAllowed hrepo
    cases hkey : (headers.filterMap (headerValue repoIdentityHeader)).getLast? with
    | none =>
      rw [hkey] at hne
      exact absurd fold_nil hne
    | some key =>
      rw [hkey] at heq
      obtain ⟨header, -, hvalue⟩ := List.mem_filterMap.1 (List.mem_of_getLast? hkey)
      exact ⟨key, hkey, sameIgnoringCase_of_fold (headerValue_trim hvalue) heq⟩
  · intro owner howner
    rw [howner, Option.all_some, ModelFingerprint.allowsSessionReuse, decide_eq_true_iff] at hfp
    obtain ⟨-, hne, heq⟩ := hfp
    cases hdigest : (headers.filterMap (headerValue modelFingerprintHeader)).getLast? with
    | none =>
      rw [hdigest] at hne
      exact absurd fold_nil hne
    | some digest =>
      rw [hdigest] at heq hne
      obtain ⟨header, -, hvalue⟩ := List.mem_filterMap.1 (List.mem_of_getLast? hdigest)
      refine ⟨digest, hdigest, ?_, sameIgnoringCase_of_fold (headerValue_trim hvalue) heq.symm⟩
      rintro rfl
      exact hne fold_nil

/-- The gate lets a body through only if the request is authorised, and otherwise answers
    401, 403 or 405 or closes the connection, with no call to the dispatcher. -/
theorem gate_sound (sha256 : List UInt8 → List UInt8) (cfg : GateConfig) (stream : ByteStream) :
    GateSound SameIgnoringCase sha256 cfg stream where
  reached body h := by
    rw [gate] at h
    split at h
    · cases h
    next requestLine s hread =>
    split_ifs at h
    split at h
    · cases h
    next p s' hheaders =>
    obtain ⟨headers, hlines, rfl⟩ := (readHeaders_eq_some_iff (Nat.lt_succ_self _)).1 hheaders
    split at h
    · cases h
    next hrefusal =>
    exact ⟨requestLine, s, headers, s', hread, hlines, authorized_of_refusal_eq_none hrefusal⟩
  refused answer h := by
    refine ⟨?_, fun σ dispatch server => by rw [handleConnection, h]⟩
    rw [gate] at h
    split at h
    · cases h; trivial
    split_ifs at h
    · cases h; trivial
    split at h
    · cases h; trivial
    split at h
    · next r hrefusal =>
      cases h
      rw [refusal] at hrefusal
      split_ifs at hrefusal <;> cases hrefusal <;> simp [Answer.IsRefusal]
    split at h
    · cases h; trivial
    · cases h

/-! A request with a lower-case method. -/

def sampleConfig : GateConfig where
  routeCredential := ⟨"0123456789abcdef", by decide +kernel⟩
  repoIdentity := none
  modelFingerprint := none

def lowerCasePost : ByteStream where
  bytes := asBytes "post /mcp HTTP/1.1\r\nX-Cognis-Route-Token: 0123456789abcdef\r\n\r\n"
  fails := false

/-- Compared as texts, the method that the gate lets through need not be `POST`. -/
theorem not_gateSound_eq : ¬ ∀ sha256 cfg stream, GateSound (· = ·) sha256 cfg stream := by
  intro h
  have hgate : gate id sampleConfig lowerCasePost = .ok [] := by decide +kernel
  obtain ⟨requestLine, s, headers, rest, hread, -, hauth⟩ :=
    (h id sampleConfig lowerCasePost).reached [] hgate
  have hline : lowerCasePost.readLine.map (fun r => firstWord r.1) = some "post".toList := by
    decide +kernel
  rw [hread] at hline
  have heq := hauth.method.symm.trans (Option.some.inj hline)
  exact absurd heq (by decide)

end Cognis
