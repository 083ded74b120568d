/-
  The stdio proxy (`proxy.rs`): every line that the editor sends is posted to the HTTP server
  of the daemon, and what the daemon answers is written out as a line.

  The daemon is a parameter, a machine that may do anything with a request: refuse the
  connection, break it off, or answer with any bytes.

  * `ends_iff`: how an exchange ends, read off the bytes of the answer.
  * `answersEvery_iff`: every request gets one line with its id, and every notification none,
    exactly when no request is answered in silence, every payload is one line with the id of
    its request, and a notification is answered in silence.
-/
import Cognis.Mcp.HttpGate
import Cognis.Mcp.JsonRpc

namespace Cognis

open Text

/-! ## The request -/

/-- The daemon of a proxy session. -/
structure ProxyTarget where
  host : List Char
  port : ℕ
  credential : List Char
  modelFingerprint : List Char

/-- What the process knows on its own: the route credential of its environment, or nothing,
    the identity of its repository and its own model fingerprint. -/
structure ProxyEnv where
  credential : List Char
  identity : RepoIdentity
  modelFingerprint : List Char

def crlf : List Char := ['\r', '\n']

/-- One header line, and the end of the line. -/
def headerLine (name value : List Char) : List Char := name ++ ": ".toList ++ value ++ crlf

/-- The text that is posted. -/
def proxyRequest (sha256 : List UInt8 → List UInt8) (env : ProxyEnv) (target : ProxyTarget)
    (body : List Char) : List Char :=
  let credential := if target.credential ≠ [] then target.credential else env.credential
  let authHeader :=
    if credential = [] then []
    else headerLine "Authorization".toList ("Bearer ".toList ++ credential)
  let fingerprint :=
    if target.modelFingerprint ≠ [] then target.modelFingerprint else env.modelFingerprint
  "POST /mcp HTTP/1.1".toList ++ crlf ++
    headerLine "Host".toList (target.host ++ ':' :: (Nat.repr target.port).toList) ++
    headerLine "Content-Type".toList "application/json".toList ++ authHeader ++
    headerLine repoIdentityHeader (env.identity.wireKey sha256).toList ++
    headerLine modelFingerprintHeader fingerprint ++
    headerLine "Content-Length".toList (Nat.repr (asBytes (.ofList body)).length).toList ++
    headerLine "Connection".toList "close".toList ++ crlf ++ body

/-! ## The answer -/

/-- What comes of posting a request: an error before there is anything to read, or the answer
    of the daemon, with the error in which it ends if it does. -/
inductive Exchange
  | failed (e : String)
  | answered (stream : ByteStream) (broken : String)

/-- What `forward_jsonrpc` returns; it panics where the buffer for a payload cannot be. -/
inductive Forwarded
  | response (text : Option (List Char))
  | error (e : String)
  | panicked
deriving DecidableEq

/-- The error of a line that cannot be read. -/
def lineError (s : ByteStream) (broken : String) : String :=
  if s.fails ∧ 0x0A ∉ s.bytes then broken else "stream did not contain valid UTF-8"

/-- The error of a payload that is cut off. -/
def payloadError (s : ByteStream) (broken : String) : String :=
  if s.fails then broken else "failed to fill whole buffer"

/-- The test for a status code. -/
def hasStatus (code statusLine : List Char) : Bool :=
  decide (' ' :: code ++ [' '] <:+: statusLine) ||
    decide ("HTTP/1.1 ".toList ++ code <+: statusLine) ||
    decide ("HTTP/1.0 ".toList ++ code <+: statusLine)

/-- The content length after a header line. -/
def lengthHeader (contentLength : ℕ) (header : List Char) : ℕ :=
  match splitOnce ':' header with
  | some (name, value) =>
    if eqIgnoreAsciiCase (trim name) contentLengthHeader then (parseUsize (trim value)).getD 0
    else contentLength
  | none => contentLength

/-- `vec![0u8; len]` panics from here on. -/
def capacityLimit : ℕ := 2 ^ 63

/-- The payload of an answer, whose bytes go on with `s`. -/
def readPayload (s : ByteStream) (contentLength : ℕ) (broken : String) : Forwarded :=
  if capacityLimit ≤ contentLength then .panicked
  else
    match s.readExact contentLength with
    | none => .error (payloadError s broken)
    | some buf =>
      let text := fromUtf8Lossy buf
      if trim text = [] then .response none else .response (some text)

/-- What the status and the content length decide. -/
def readBody (statusLine : List Char) (contentLength : ℕ) (s : ByteStream) (broken : String) :
    Forwarded :=
  if hasStatus "202".toList statusLine ∨ contentLength = 0 then .response none
  else if ¬ hasStatus "200".toList statusLine then
    .error ("heavy daemon returned status: " ++ .ofList (trim statusLine))
  else readPayload s contentLength broken

def readResponse (s : ByteStream) (broken : String) : Forwarded :=
  match s.readLine with
  | none => .error (lineError s broken)
  | some (statusLine, s) =>
    if statusLine = [] then .response none
    else
      match headerLoop lengthHeader (s.bytes.length + 1) s 0 with
      | .error s => .error (lineError s broken)
      | .ok (contentLength, s) => readBody statusLine contentLength s broken

/-- `forward_jsonrpc`, after the request is sent. -/
def forwardJsonrpc : Exchange → Forwarded
  | .failed e => .error e
  | .answered stream broken => readResponse stream broken

/-! ## The loop -/

/-- `serde_json`, both ways. -/
structure SerdeText extends SerdeJson where
  toStr : Json → Except String (List Char)

/-- `extract_id` -/
def extractId (serde : SerdeText) (line : List Char) : Option Json :=
  match serde.fromStr line with
  | .ok value => value.get "id"
  | .error _ => none

/-- The error that stands in for an answer. -/
def forwardFailed (id : Json) (e : String) : Json :=
  .object [("jsonrpc", .string "2.0"), ("id", id),
    ("error", .object [("code", .number "-32603"),
      ("message", .string ("thin-proxy forward failed: " ++ e))])]

def proxyError : List Char :=
  "\x7b\"jsonrpc\":\"2.0\",\"id\":null,\"error\":\x7b\"code\":-32603,\"message\":\"proxy error\"\x7d\x7d".toList

/-- A text with an end of line. -/
def endLine (text : List Char) : List Char :=
  if text.getLast? = some '\n' then text else text ++ ['\n']

/-- What the loop writes for a line; nothing, and nothing any more, after a panic. -/
def writeForwarded (serde : SerdeText) (line : List Char) : Forwarded → Option (List Char)
  | .response (some text) => some (endLine text)
  | .response none => some []
  | .error e =>
    let body := forwardFailed ((extractId serde line).getD .null) e
    some ((serde.toStr body).toOption.getD proxyError ++ ['\n'])
  | .panicked => none

/-- A daemon with states `σ`: what it does with the text that is posted. -/
structure Daemon (σ : Type) where
  post : σ → List Char → σ × Exchange

/-- A line of the editor, what came of posting it, and what is written for it. A blank line is
    not posted, and neither is a line after a panic. -/
structure Turn where
  line : List Char
  exchange : Option Exchange
  written : List Char

variable {σ : Type}

/-- The loop over the lines of the editor; what it writes is the texts of its turns, one after
    the other. -/
def serveProxy (sha256 : List UInt8 → List UInt8) (serde : SerdeText) (env : ProxyEnv)
    (target : ProxyTarget) (daemon : Daemon σ) : σ → List (List Char) → List Turn
  | _, [] => []
  | server, line :: lines =>
    if trim line = [] then
      ⟨line, none, []⟩ :: serveProxy sha256 serde env target daemon server lines
    else
      let posted := daemon.post server (proxyRequest sha256 env target (trim line))
      match writeForwarded serde (trim line) (forwardJsonrpc posted.2) with
      | some written =>
        ⟨line, some posted.2, written⟩ ::
          serveProxy sha256 serde env target daemon posted.1 lines
      | none => ⟨line, some posted.2, []⟩ :: lines.map fun line => ⟨line, none, []⟩

/-! ## What a line is owed -/

/-- The request on a line: an object that decodes to one. -/
def requestOn (serde : SerdeText) (line : List Char) : Option Request :=
  if trim line = [] then none
  else
    match serde.fromStr (trim line) with
    | .ok (.object entries) => (serde.fromValue (.object entries)).toOption
    | _ => none

/-- A text of a value: one that is read as it, or that is written for it. -/
def SerdeText.IsTextOf (serde : SerdeText) (value : Json) (text : List Char) : Prop :=
  serde.fromStr text = .ok value ∨ serde.toStr value = .ok text

/-- A line without its end, with a value that has this id. -/
def CarriesId (serde : SerdeText) (id : Json) (line : List Char) : Prop :=
  '\n' ∉ line ∧ ∃ value, serde.IsTextOf value line ∧ value.get "id" = some id

/-- One line, with this id. -/
def ResponseLine (serde : SerdeText) (id : Json) (written : List Char) : Prop :=
  ∃ line, written = line ++ ['\n'] ∧ CarriesId serde id line

/-- A request with an id gets one line, which carries it; a notification gets none. -/
structure Turn.Answers (serde : SerdeText) (turn : Turn) : Prop where
  request : ∀ req id, requestOn serde turn.line = some req → req.id = some id →
    ResponseLine serde id turn.written
  notification : ∀ req, requestOn serde turn.line = some req → req.isNotification →
    turn.written = []

/-- Every line has its turn, in order, and is answered in it. -/
structure AnswersEvery (serde : SerdeText) (lines : List (List Char)) (turns : List Turn) :
    Prop where
  inOrder : turns.map Turn.line = lines
  answers : ∀ turn ∈ turns, turn.Answers serde

/-! ## How an exchange ends -/

/-- The header lines end in one that cannot be read, which `rest` begins with. -/
inductive HeaderBreak : ByteStream → ByteStream → Prop
  | here {s} : s.readLine = none → HeaderBreak s s
  | line {s s' header rest} : s.readLine = some (header, s') → trim header ≠ [] →
      HeaderBreak s' rest → HeaderBreak s rest

/-- The answer has this status line and header lines that announce this many bytes, and goes
    on with `rest`. -/
structure Heads (stream : ByteStream) (statusLine : List Char) (contentLength : ℕ)
    (rest : ByteStream) : Prop where
  ne_nil : statusLine ≠ []
  headers : ∃ s headers, stream.readLine = some (statusLine, s) ∧ HeaderLines s headers rest ∧
    contentLength = headers.foldl lengthHeader 0

/-- The answer announces a payload with the status `200`. -/
structure Announces (stream : ByteStream) (contentLength : ℕ) (rest : ByteStream) : Prop where
  ne_zero : contentLength ≠ 0
  heads : ∃ statusLine, Heads stream statusLine contentLength rest ∧
    hasStatus "202".toList statusLine = false ∧ hasStatus "200".toList statusLine

/-- How an exchange ends. -/
inductive Ends : Exchange → Forwarded → Prop
  | failed {e} : Ends (.failed e) (.error e)
  | unreadable {stream broken} : stream.readLine = none →
      Ends (.answered stream broken) (.error (lineError stream broken))
  | closed {stream s broken} : stream.readLine = some ([], s) →
      Ends (.answered stream broken) (.response none)
  | headers {stream s rest statusLine broken} : stream.readLine = some (statusLine, s) →
      statusLine ≠ [] → HeaderBreak s rest →
      Ends (.answered stream broken) (.error (lineError rest broken))
  | accepted {stream rest statusLine contentLength broken} :
      Heads stream statusLine contentLength rest →
      hasStatus "202".toList statusLine ∨ contentLength = 0 →
      Ends (.answered stream broken) (.response none)
  | refused {stream rest statusLine contentLength broken} :
      Heads stream statusLine contentLength rest →
      hasStatus "202".toList statusLine = false → contentLength ≠ 0 →
      hasStatus "200".toList statusLine = false →
      Ends (.answered stream broken)
        (.error ("heavy daemon returned status: " ++ .ofList (trim statusLine)))
  | huge {stream rest contentLength broken} : Announces stream contentLength rest →
      capacityLimit ≤ contentLength → Ends (.answered stream broken) .panicked
  | truncated {stream rest contentLength broken} : Announces stream contentLength rest →
      contentLength < capacityLimit → rest.bytes.length < contentLength →
      Ends (.answered stream broken) (.error (payloadError rest broken))
  | blank {stream rest contentLength broken} : Announces stream contentLength rest →
      contentLength < capacityLimit → contentLength ≤ rest.bytes.length →
      trim (fromUtf8Lossy (rest.bytes.take contentLength)) = [] →
      Ends (.answered stream broken) (.response none)
  | payload {stream rest contentLength broken} : Announces stream contentLength rest →
      contentLength < capacityLimit → contentLength ≤ rest.bytes.length →
      trim (fromUtf8Lossy (rest.bytes.take contentLength)) ≠ [] →
      Ends (.answered stream broken)
        (.response (some (fromUtf8Lossy (rest.bytes.take contentLength))))

theorem headerLoop_eq_error_iff {α : Type} {readHeader : α → List Char → α} {fuel : ℕ}
    {s s' : ByteStream} {a : α} (hfuel : s.bytes.length < fuel) :
    headerLoop readHeader fuel s a = .error s' ↔ HeaderBreak s s' := by
  induction fuel generalizing s a with
  | zero => exact absurd hfuel (Nat.not_lt_zero _)
  | succ fuel ih =>
    rw [headerLoop]
    cases hread : s.readLine with
    | none =>
      constructor
      · intro h
        cases h
        exact .here hread
      · intro h
        cases h with
        | here => rfl
        | line h => rw [hread] at h; cases h
    | some read =>
      obtain ⟨header, s₁⟩ := read
      dsimp only
      split_ifs with hblank
      · refine ⟨fun h => absurd h (by simp), fun h => ?_⟩
        cases h with
        | here h => rw [hread] at h; cases h
        | line h hne => rw [hread] at h; cases h; exact absurd hblank hne
      · have hlt := length_lt_of_readLine hread hblank
        rw [ih (by omega)]
        refine ⟨fun h => .line hread hblank h, fun h => ?_⟩
        cases h with
        | here h => rw [hread] at h; cases h
        | line h _ hbreak => rw [hread] at h; cases h; exact hbreak

theorem Heads.readResponse_eq {stream rest : ByteStream} {statusLine : List Char}
    {contentLength : ℕ} (h : Heads stream statusLine contentLength rest) (broken : String) :
    readResponse stream broken = readBody statusLine contentLength rest broken := by
  obtain ⟨s, headers, hline, hheaders, hlength⟩ := h.headers
  have hloop := (headerLoop_eq_ok_iff (Nat.lt_succ_self _)).2 ⟨headers, hheaders, hlength⟩
  simp only [readResponse, hline, if_neg h.ne_nil]
  rw [hloop]

theorem Announces.readResponse_eq {stream rest : ByteStream} {contentLength : ℕ}
    (h : Announces stream contentLength rest) (broken : String) :
    readResponse stream broken = readPayload rest contentLength broken := by
  obtain ⟨statusLine, hheads, haccepted, hok⟩ := h.heads
  rw [hheads.readResponse_eq, readBody, if_neg, if_neg]
  · exact not_not_intro hok
  · rw [haccepted]
    exact not_or.2 ⟨by decide, h.ne_zero⟩

theorem Ends.forwardJsonrpc_eq {x : Exchange} {f : Forwarded} (h : Ends x f) :
    forwardJsonrpc x = f := by
  cases h with
  | failed => rfl
  | unreadable h => simp only [forwardJsonrpc, readResponse, h]
  | closed h => simp only [forwardJsonrpc, readResponse, h, if_true]
  | @headers _ s rest _ _ h hne hbreak =>
    have hloop : headerLoop lengthHeader (s.bytes.length + 1) s 0 = .error rest :=
      (headerLoop_eq_error_iff (Nat.lt_succ_self _)).2 hbreak
    simp only [forwardJsonrpc, readResponse, h, if_neg hne]
    rw [hloop]
  | accepted hheads h => rw [forwardJsonrpc, hheads.readResponse_eq, readBody, if_pos h]
  | refused hheads haccepted hne hstatus =>
    rw [forwardJsonrpc, hheads.readResponse_eq, readBody, if_neg, if_pos]
    · rw [hstatus]
      decide
    · rw [haccepted]
      exact not_or.2 ⟨by decide, hne⟩
  | huge h hcap => rw [forwardJsonrpc, h.readResponse_eq, readPayload, if_pos hcap]
  | truncated h hcap hlen =>
    rw [forwardJsonrpc, h.readResponse_eq, readPayload, if_neg (Nat.not_le_of_lt hcap),
      ByteStream.readExact, if_neg (Nat.not_le_of_lt hlen)]
  | blank h hcap hlen hblank =>
    rw [forwardJsonrpc, h.readResponse_eq, readPayload, if_neg (Nat.not_le_of_lt hcap),
      ByteStream.readExact, if_pos hlen]
    exact if_pos hblank
  | payload h hcap hlen hblank =>
    rw [forwardJsonrpc, h.readResponse_eq, readPayload, if_neg (Nat.not_le_of_lt hcap),
      ByteStream.readExact, if_pos hlen]
    exact if_neg hblank

theorem ends_readPayload {stream rest : ByteStream} {contentLength : ℕ}
    (h : Announces stream contentLength rest) (broken : String) :
    Ends (.answered stream broken) (readPayload rest contentLength broken) := by
  rw [readPayload]
  split_ifs with hcap
  · exact .huge h hcap
  · rw [ByteStream.readExact]
    split_ifs with hlen
    · dsimp only
      split_ifs with hblank
      · exact .blank h (Nat.lt_of_not_le hcap) hlen hblank
      · exact .payload h (Nat.lt_of_not_le hcap) hlen hblank
    · exact .truncated h (Nat.lt_of_not_le hcap) (Nat.lt_of_not_le hlen)

theorem ends_forwardJsonrpc (x : Exchange) : Ends x (forwardJsonrpc x) := by
  cases x with
  | failed e => exact .failed
  | answered stream broken =>
    rw [forwardJsonrpc, readResponse]
    cases hline : stream.readLine with
    | none => exact .unreadable hline
    | some read =>
      obtain ⟨statusLine, s⟩ := read
      dsimp only
      split_ifs with hnil
      · exact .closed (hnil ▸ hline)
      · cases hloop : headerLoop lengthHeader (s.bytes.length + 1) s 0 with
        | error rest =>
          exact .headers hline hnil ((headerLoop_eq_error_iff (Nat.lt_succ_self _)).1 hloop)
        | ok kept =>
          obtain ⟨contentLength, rest⟩ := kept
          obtain ⟨headers, hheaders, hlength⟩ :=
            (headerLoop_eq_ok_iff (Nat.lt_succ_self _)).1 hloop
          have hheads : Heads stream statusLine contentLength rest :=
            ⟨hnil, s, headers, hline, hheaders, hlength⟩
          dsimp only
          rw [readBody]
          split_ifs with hdone hstatus
          · exact .accepted hheads hdone
          · obtain ⟨haccepted, hne⟩ := not_or.1 hdone
            exact ends_readPayload
              ⟨hne, statusLine, hheads, Bool.eq_false_of_not_eq_true haccepted, hstatus⟩ broken
          · obtain ⟨haccepted, hne⟩ := not_or.1 hdone
            exact .refused hheads (Bool.eq_false_of_not_eq_true haccepted) hne
              (Bool.eq_false_of_not_eq_true hstatus)

/-- How an exchange ends is what the proxy makes of it. -/
theorem ends_iff {x : Exchange} {f : Forwarded} : Ends x f ↔ forwardJsonrpc x = f :=
  ⟨Ends.forwardJsonrpc_eq, fun h => h ▸ ends_forwardJsonrpc x⟩

/-! ## One turn -/

/-- Writing a value gives one line. -/
def SerdeText.WritesLines (serde : SerdeText) : Prop :=
  ∀ value, ∃ text, serde.toStr value = .ok text ∧ '\n' ∉ text

/-- The exchange of a request leaves one line with its id: it ends in an error, or in a
    payload of one line that carries the id. -/
def Exchange.Settles (serde : SerdeText) (id : Json) (x : Exchange) : Prop :=
  (∃ e, Ends x (.error e)) ∨ ∃ text line, Ends x (.response (some text)) ∧
    (text = line ∨ text = line ++ ['\n']) ∧ CarriesId serde id line

/-- The exchange leaves nothing to write. -/
def Exchange.Quiet (x : Exchange) : Prop := Ends x (.response none) ∨ Ends x .panicked

/-- A request is posted, and its exchange leaves its line; that of a notification is quiet. -/
structure Turn.Fits (serde : SerdeText) (turn : Turn) : Prop where
  request : ∀ req id, requestOn serde turn.line = some req → req.id = some id →
    ∃ x, turn.exchange = some x ∧ x.Settles serde id
  notification : ∀ req, requestOn serde turn.line = some req → req.isNotification →
    ∀ x, turn.exchange = some x → x.Quiet

/-- What is written after an exchange, or without one. -/
def writtenAfter (serde : SerdeText) (line : List Char) (exchange : Option Exchange) : List Char :=
  (exchange.bind fun x => writeForwarded serde (trim line) (forwardJsonrpc x)).getD []

theorem nonNull_eq_some {v id : Json} (h : v.nonNull = some id) : v = id := by
  cases v with
  | null => cases h
  | _ => exact Option.some.inj h

theorem extractId_of_requestOn {serde : SerdeText} {line : List Char} {req : Request} {id : Json}
    (h : requestOn serde line = some req) (hid : req.id = some id) :
    extractId serde (trim line) = some id := by
  rw [requestOn] at h
  split_ifs at h
  split at h
  · next entries hline =>
    obtain ⟨r, hr⟩ : ∃ r, serde.fromValue (.object entries) = .ok r := by
      cases hdecoded : serde.fromValue (.object entries) with
      | error e => rw [hdecoded] at h; cases h
      | ok r => exact ⟨r, rfl⟩
    rw [hr] at h
    cases h
    have hmember := fromValue_id hr
    rw [hid] at hmember
    obtain ⟨v, hget, hv⟩ := Option.bind_eq_some_iff.1 hmember.symm
    rw [extractId, hline]
    exact hget.trans (congrArg some (nonNull_eq_some hv))
  · cases h

theorem endLine_eq_iff {text line : List Char} (hline : '\n' ∉ line) :
    endLine text = line ++ ['\n'] ↔ text = line ∨ text = line ++ ['\n'] := by
  rw [endLine]
  split_ifs with hlast
  · refine ⟨.inr, fun h => h.resolve_left ?_⟩
    rintro rfl
    exact hline (List.mem_of_getLast? hlast)
  · rw [List.append_cancel_right_eq]
    refine ⟨.inl, fun h => h.resolve_right ?_⟩
    rintro rfl
    exact hlast List.getLast?_concat

theorem endLine_ne_nil (text : List Char) : endLine text ≠ [] := by
  rw [endLine]
  split_ifs with hlast
  · rintro rfl
    cases hlast
  · exact List.append_ne_nil_of_right_ne_nil _ (List.cons_ne_nil _ _)

theorem not_responseLine_nil {serde : SerdeText} {id : Json} : ¬ ResponseLine serde id [] := by
  rintro ⟨line, hnil, -⟩
  exact List.append_ne_nil_of_right_ne_nil _ (List.cons_ne_nil _ _) hnil.symm

/-- A payload is a response when it is one line with the id. -/
theorem responseLine_endLine_iff {serde : SerdeText} {id : Json} {text : List Char} :
    ResponseLine serde id (endLine text) ↔
      ∃ line, (text = line ∨ text = line ++ ['\n']) ∧ CarriesId serde id line := by
  constructor
  · rintro ⟨line, htext, hcarries⟩
    exact ⟨line, (endLine_eq_iff hcarries.1).1 htext, hcarries⟩
  · rintro ⟨line, htext, hcarries⟩
    exact ⟨line, (endLine_eq_iff hcarries.1).2 htext, hcarries⟩

/-- An error is answered in one line with the id. -/
theorem responseLine_error {serde : SerdeText} (hserde : serde.WritesLines) {line : List Char}
    {id : Json} (hid : extractId serde line = some id) (e : String) :
    ∃ written, writeForwarded serde line (.error e) = some written ∧
      ResponseLine serde id written := by
  obtain ⟨text, htext, hline⟩ := hserde (forwardFailed id e)
  refine ⟨text ++ ['\n'], ?_, text, rfl, hline, forwardFailed id e, .inr htext, rfl⟩
  simp only [writeForwarded, hid, Option.getD_some, htext]
  rfl

theorem responseLine_writtenAfter_iff {serde : SerdeText} (hserde : serde.WritesLines)
    {line : List Char} {id : Json} (hid : extractId serde (trim line) = some id)
    (exchange : Option Exchange) :
    ResponseLine serde id (writtenAfter serde line exchange) ↔
      ∃ x, exchange = some x ∧ x.Settles serde id := by
  cases exchange with
  | none =>
    refine ⟨fun h => absurd h not_responseLine_nil, ?_⟩
    rintro ⟨x, hx, -⟩
    cases hx
  | some x =>
    have hends := ends_forwardJsonrpc x
    simp only [Option.some.injEq, exists_eq_left', writtenAfter, Option.bind_some,
      Exchange.Settles, ends_iff]
    cases hf : forwardJsonrpc x with
    | error e =>
      obtain ⟨written, hwritten, hresponse⟩ := responseLine_error hserde hid e
      rw [hwritten]
      exact ⟨fun _ => .inl ⟨e, rfl⟩, fun _ => hresponse⟩
    | panicked =>
      refine ⟨fun h => absurd h not_responseLine_nil, ?_⟩
      rintro (⟨e, he⟩ | ⟨text, -, he, -⟩) <;> cases he
    | response text =>
      cases text with
      | none =>
        refine ⟨fun h => absurd h not_responseLine_nil, ?_⟩
        rintro (⟨e, he⟩ | ⟨text, -, he, -⟩) <;> cases he
      | some text =>
        refine responseLine_endLine_iff.trans ⟨?_, ?_⟩
        · rintro ⟨l, htext, hcarries⟩
          exact .inr ⟨text, l, rfl, htext, hcarries⟩
        · rintro (⟨e, he⟩ | ⟨t, l, he, htext, hcarries⟩)
          · cases he
          · cases he
            exact ⟨l, htext, hcarries⟩

theorem writtenAfter_eq_nil_iff (serde : SerdeText) (line : List Char)
    (exchange : Option Exchange) :
    writtenAfter serde line exchange = [] ↔ ∀ x, exchange = some x → x.Quiet := by
  cases exchange with
  | none => simp [writtenAfter]
  | some x =>
    simp only [Option.some.injEq, forall_eq', writtenAfter, Option.bind_some, Exchange.Quiet,
      ends_iff]
    cases forwardJsonrpc x with
    | error e =>
      simp [writeForwarded]
    | panicked => simp [writeForwarded]
    | response text =>
      cases text with
      | none => simp [writeForwarded]
      | some text => simp [writeForwarded, endLine_ne_nil]

/-- Whether a line is answered is decided by its exchange. -/
theorem Turn.answers_iff {serde : SerdeText} (hserde : serde.WritesLines) {turn : Turn}
    (hwritten : turn.written = writtenAfter serde turn.line turn.exchange) :
    turn.Answers serde ↔ turn.Fits serde := by
  constructor
  · intro h
    refine ⟨fun req id hreq hid => ?_, fun req hreq hnotification => ?_⟩
    · refine (responseLine_writtenAfter_iff hserde (extractId_of_requestOn hreq hid) _).1 ?_
      rw [← hwritten]
      exact h.request req id hreq hid
    · refine (writtenAfter_eq_nil_iff serde turn.line turn.exchange).1 ?_
      exact hwritten.symm.trans (h.notification req hreq hnotification)
  · intro h
    refine ⟨fun req id hreq hid => ?_, fun req hreq hnotification => ?_⟩
    · rw [hwritten]
      exact (responseLine_writtenAfter_iff hserde (extractId_of_requestOn hreq hid) _).2
        (h.request req id hreq hid)
    · rw [hwritten]
      exact (writtenAfter_eq_nil_iff serde turn.line turn.exchange).2 (h.notification req hreq hnotification)

/-! ## The session -/

section Session

variable (sha256 : List UInt8 → List UInt8) (serde : SerdeText) (env : ProxyEnv)
  (target : ProxyTarget) (daemon : Daemon σ)

/-- What a turn writes follows from its line and its exchange. -/
theorem written_eq (server : σ) (lines : List (List Char)) :
    ∀ turn ∈ serveProxy sha256 serde env target daemon server lines,
      turn.written = writtenAfter serde turn.line turn.exchange := by
  induction lines generalizing server with
  | nil =>
    intro turn hturn
    cases hturn
  | cons line lines ih =>
    rw [serveProxy]
    split_ifs with hblank
    · exact List.forall_mem_cons.2 ⟨rfl, ih server⟩
    · dsimp only
      split
      · next written hwritten =>
        refine List.forall_mem_cons.2 ⟨?_, ih _⟩
        rw [writtenAfter, Option.bind_some, hwritten]
        rfl
      · next hwritten =>
        refine List.forall_mem_cons.2 ⟨?_, ?_⟩
        · rw [writtenAfter, Option.bind_some, hwritten]
          rfl
        · intro turn hturn
          obtain ⟨l, -, rfl⟩ := List.mem_map.1 hturn
          rfl

/-- Every line has its turn. -/
theorem serveProxy_lines (server : σ) (lines : List (List Char)) :
    (serveProxy sha256 serde env target daemon server lines).map Turn.line = lines := by
  induction lines generalizing server with
  | nil => rfl
  | cons line lines ih =>
    rw [serveProxy]
    split_ifs
    · exact congrArg (line :: ·) (ih server)
    · dsimp only
      split
      · exact congrArg (line :: ·) (ih _)
      · rw [List.map_cons, List.map_map]
        exact congrArg (line :: ·) (List.map_id lines)

variable {serde}

/-- **When the proxy answers every line**: exactly when every exchange fits its line. -/
theorem answersEvery_iff (hserde : serde.WritesLines) (server : σ) (lines : List (List Char)) :
    AnswersEvery serde lines (serveProxy sha256 serde env target daemon server lines) ↔
      ∀ turn ∈ serveProxy sha256 serde env target daemon server lines, turn.Fits serde := by
  have hwritten := written_eq sha256 serde env target daemon server lines
  constructor
  · intro h turn hturn
    exact (Turn.answers_iff hserde (hwritten turn hturn)).1 (h.answers turn hturn)
  · intro h
    refine ⟨serveProxy_lines sha256 serde env target daemon server lines, fun turn hturn => ?_⟩
    exact (Turn.answers_iff hserde (hwritten turn hturn)).2 (h turn hturn)

end Session

/-! A ping, as `serde_json` decodes it, and the daemon refuses the connection. -/

def pingLine : List Char := "\x7b\"jsonrpc\":\"2.0\",\"id\":1,\"method\":\"ping\"\x7d\n".toList

def refusedMessage : String := "Connection refused (os error 111)"

def refusedText : List Char :=
  ("\x7b\"error\":\x7b\"code\":-32603,\"message\":\"thin-proxy forward failed: " ++ refusedMessage ++
    "\"\x7d,\"id\":1,\"jsonrpc\":\"2.0\"\x7d").toList

def proxySerde : SerdeText where
  fromStr _ := .ok (.object
    [("id", .number "1"), ("jsonrpc", .string "2.0"), ("method", .string "ping")])
  refusedBecause _ := "missing field"
  toStr _ := .ok refusedText

def proxyEnv : ProxyEnv where
  credential := []
  identity := ⟨"/repo", "/repo/.cognis/uckg.db", "/repo\x00/repo/.cognis/uckg.db"⟩
  modelFingerprint := "f".toList

def proxyTarget : ProxyTarget where
  host := "127.0.0.1".toList
  port := 7464
  credential := "0123456789abcdef".toList
  modelFingerprint := "f".toList

/-- A daemon that does the same with every request. -/
def constantly (x : Exchange) : Daemon Unit where
  post server _ := (server, x)

theorem writesLines_proxySerde : proxySerde.WritesLines :=
  fun _ => ⟨refusedText, rfl, by decide +kernel⟩

/-- The session of one ping. -/
def pingSession (x : Exchange) : List Turn :=
  serveProxy (fun _ => []) proxySerde proxyEnv proxyTarget (constantly x) () [pingLine]

/-- A refused connection is answered with an error. -/
theorem answersEvery_iff_refused :
    AnswersEvery proxySerde [pingLine] (pingSession (.failed refusedMessage)) := by
  refine (answersEvery_iff (fun _ => []) proxyEnv proxyTarget (constantly (.failed refusedMessage))
    writesLines_proxySerde () [pingLine]).2 ?_
  refine List.forall_mem_singleton.2 ⟨fun _ _ _ _ => ⟨_, rfl, .inl ⟨_, .failed⟩⟩, ?_⟩
  intro req hreq hnotification
  cases hreq
  cases hnotification

/-- An answer without a content length. -/
def noLength : Exchange :=
  .answered ⟨"HTTP/1.1 200 OK\r\n\r\n".toUTF8.data.toList, false⟩ ""

/-- The proxy answers every line of every session. -/
def AlwaysAnswers : Prop :=
  ∀ (sha256 : List UInt8 → List UInt8) (serde : SerdeText), serde.WritesLines →
    ∀ (env : ProxyEnv) (target : ProxyTarget) (daemon : Daemon Unit) (lines : List (List Char)),
      AnswersEvery serde lines (serveProxy sha256 serde env target daemon () lines)

/-- A request is left without an answer where the daemon gives no content length. -/
theorem not_alwaysAnswers : ¬ AlwaysAnswers := by
  intro h
  have hsession := h (fun _ => []) proxySerde writesLines_proxySerde proxyEnv proxyTarget
    (constantly noLength) [pingLine]
  have hturns : pingSession noLength = [⟨pingLine, some noLength, []⟩] := by
    have hforward : forwardJsonrpc noLength = .response none := by decide +kernel
    have hline : trim pingLine ≠ [] := by decide
    rw [pingSession, serveProxy, if_neg hline]
    simp only [constantly, hforward, writeForwarded, serveProxy]
  have hturn := hsession.answers ⟨pingLine, some noLength, []⟩ (by
    rw [pingSession] at hturns
    rw [hturns]
    exact List.mem_singleton_self _)
  exact not_responseLine_nil (hturn.request _ (.number "1") rfl rfl)

end Cognis
