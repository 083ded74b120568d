/-
  JSON-RPC messages (`jsonrpc.rs`), the method dispatch of the server and its two front
  ends: the line loop of the stdio transport and the body dispatch of the HTTP transport.

  Decoding a text (`serde_json::from_str`) and the wording of a refused request are
  parameters; what is refused is not.

  * `handle_owed`: a request with an id gets one response that echoes it, a notification
    gets none.
  * `transports_agree`: on a text that is no array both front ends answer alike, and the
    HTTP one answers an array with the responses of its elements, in order.
-/
import Cognis.Lib.Json
import Mathlib.Data.Int.Notation
import Mathlib.Data.List.Forall2
import Mathlib.Tactic.Common

namespace Cognis

structure Request where
  jsonrpc : String
  id : Option Json
  method : String
  params : Option Json

/-- A message without an id. -/
def Request.isNotification (req : Request) : Bool := req.id.isNone

structure RpcError where
  code : ℤ
  message : String
  data : Option Json := none

namespace RpcError

def parseErrorCode : ℤ := -32700

def invalidRequestCode : ℤ := -32600

def methodNotFoundCode : ℤ := -32601

end RpcError

/-- A response: the id it echoes, and a result or an error. -/
structure Response where
  id : Json
  outcome : Except RpcError Json

namespace Response

def success (id result : Json) : Response := ⟨id, .ok result⟩

def error (id : Json) (e : RpcError) : Response := ⟨id, .error e⟩

end Response

/-! ## Decoding -/

/-- What is not in `src/`: decoding a text, and the wording of a value that is refused as a
    request. -/
structure SerdeJson where
  fromStr : List Char → Except String Json
  refusedBecause : Json → String

namespace SerdeJson

/-- The fields of a request, each present or not. -/
def requestOf (jsonrpc id method params : Option Json) : Option Request := do
  let jsonrpc ← jsonrpc.elim (some "") Json.asStr
  let method ← method.bind Json.asStr
  return { jsonrpc, id := id.bind Json.nonNull, method, params := params.bind Json.nonNull }

/-- `serde_json::from_value::<Request>`: the fields of an object by name, those of an array
    by position. -/
def fromValue (serde : SerdeJson) (value : Json) : Except String Request :=
  let decoded :=
    match value with
    | .object _ =>
      requestOf (value.get "jsonrpc") (value.get "id") (value.get "method") (value.get "params")
    | .array [] => none
    | .array [_] => none
    | .array [_, _] => none
    | .array [jsonrpc, id, method] => requestOf jsonrpc id method none
    | .array [jsonrpc, id, method, params] => requestOf jsonrpc id method params
    | _ => none
  match decoded with
  | some req => .ok req
  | none => .error (serde.refusedBecause value)

/-- `-32600` -/
def invalidRequest (e : String) : RpcError :=
  { code := RpcError.invalidRequestCode, message := "invalid Request object: " ++ e }

/-- `-32700` -/
def parseError (e : String) : RpcError :=
  { code := RpcError.parseErrorCode, message := "parse error: " ++ e }

def parseMessage (serde : SerdeJson) (line : List Char) : Except RpcError Request :=
  match serde.fromStr line with
  | .ok value =>
    match serde.fromValue value with
    | .ok req => .ok req
    | .error e => .error (invalidRequest e)
  | .error e => .error (parseError e)

end SerdeJson

/-! ## The server -/

/-- What the method dispatch calls. `σ` is the state of the engine and of the limiter. -/
structure Methods (σ : Type) where
  initializeResult : Json
  toolsListResult : Json
  resourcesListResult : Json
  toolsCall : σ → Option Json → σ × Except RpcError Json
  resourcesRead : σ → Option Json → σ × Json

variable {σ : Type}

/-- `handle` -/
def handle (methods : Methods σ) (server : σ) (req : Request) : σ × Option Response :=
  match req.id with
  | none => (server, none)
  | some id =>
    match req.method with
    | "initialize" => (server, some (.success id methods.initializeResult))
    | "ping" => (server, some (.success id (.object [])))
    | "tools/list" => (server, some (.success id methods.toolsListResult))
    | "tools/call" =>
      let (server, outcome) := methods.toolsCall server req.params
      (server, some ⟨id, outcome⟩)
    | "resources/list" => (server, some (.success id methods.resourcesListResult))
    | "resources/read" =>
      let (server, result) := methods.resourcesRead server req.params
      (server, some (.success id result))
    | other =>
      (server, some (.error id
        { code := RpcError.methodNotFoundCode, message := "unknown method '" ++ other ++ "'" }))

/-- One turn of the loop of `serve`, on the line of a message. -/
def serveMessage (serde : SerdeJson) (methods : Methods σ) (server : σ) (line : List Char) :
    σ × Option Response :=
  match serde.parseMessage line with
  | .ok req => handle methods server req
  | .error rpc => (server, some (.error .null rpc))

def dispatchOne (serde : SerdeJson) (methods : Methods σ) (server : σ) (value : Json) :
    σ × Option Response :=
  match serde.fromValue value with
  | .ok req => handle methods server req
  | .error e => (server, some (.error .null (SerdeJson.invalidRequest e)))

/-- The elements of a batch, one after the other. -/
def dispatchItems (serde : SerdeJson) (methods : Methods σ) (server : σ) :
    List Json → σ × List Response
  | [] => (server, [])
  | item :: items =>
    let (server, resp) := dispatchOne serde methods server item
    let (server, responses) := dispatchItems serde methods server items
    (server, resp.toList ++ responses)

/-- What is written back: one response, or an array of them. -/
inductive Payload
  | single (resp : Response)
  | batch (responses : List Response)

def Payload.responses : Payload → List Response
  | single resp => [resp]
  | batch responses => responses

/-- `dispatch`, up to the serialisation of its payload. -/
def dispatch (serde : SerdeJson) (methods : Methods σ) (server : σ) (body : List Char) :
    σ × Option Payload :=
  match serde.fromStr body with
  | .error e => (server, some (.single (.error .null (SerdeJson.parseError e))))
  | .ok (.array items) =>
    let (server, responses) := dispatchItems serde methods server items
    (server, if responses.isEmpty then none else some (.batch responses))
  | .ok other =>
    let (server, resp) := dispatchOne serde methods server other
    (server, resp.map .single)

/-! ## What a message is owed -/

/-- The id member of a message: by name in an object, by position in an array. -/
def idMember (value : Json) : Option Json :=
  match value with
  | .array items => items[1]?
  | _ => value.get "id"

/-- The responses that a message is owed: one for a request with an id, which echoes it,
    none for a notification, and an error without an id for what is no request. -/
def Owed (serde : SerdeJson) (value : Json) (responses : List Response) : Prop :=
  match serde.fromValue value with
  | .ok _ =>
    match idMember value with
    | some id => ∃ outcome, responses = [⟨id, outcome⟩]
    | none => responses = []
  | .error _ => ∃ e, responses = [.error .null e]

section

variable {serde : SerdeJson} {methods : Methods σ} {server : σ} {value : Json} {req : Request}

theorem requestOf_id {jsonrpc id method params : Option Json}
    (h : SerdeJson.requestOf jsonrpc id method params = some req) : req.id = id.bind Json.nonNull := by
  simp only [SerdeJson.requestOf, Option.bind_eq_bind, Option.pure_def] at h
  obtain ⟨_, -, h⟩ := Option.bind_eq_some_iff.1 h
  obtain ⟨_, -, h⟩ := Option.bind_eq_some_iff.1 h
  cases h
  rfl

theorem fromValue_id (h : serde.fromValue value = .ok req) :
    req.id = (idMember value).bind Json.nonNull := by
  simp only [SerdeJson.fromValue] at h
  split at h
  · next hdecoded =>
    cases h
    split at hdecoded
    · exact requestOf_id hdecoded
    · cases hdecoded
    · cases hdecoded
    · cases hdecoded
    · exact requestOf_id hdecoded
    · exact requestOf_id hdecoded
    · cases hdecoded
  · cases h

/-- A request with an id gets one response, which echoes it. -/
theorem handle_of_id (methods : Methods σ) (server : σ) {id : Json} (h : req.id = some id) :
    ∃ outcome, (handle methods server req).2 = some ⟨id, outcome⟩ := by
  rw [handle, h]
  dsimp only
  split <;> exact ⟨_, rfl⟩

theorem handle_of_notification (h : req.id = none) : handle methods server req = (server, none) := by
  rw [handle, h]

theorem nonNull_of_ne {v : Json} (h : v ≠ .null) : v.nonNull = some v := by
  cases v with
  | null => exact absurd rfl h
  | _ => rfl

theorem dispatchOne_owed (hid : idMember value ≠ some .null) :
    Owed serde value (dispatchOne serde methods server value).2.toList := by
  rw [dispatchOne, Owed]
  cases hreq : serde.fromValue value with
  | error e => exact ⟨_, rfl⟩
  | ok req =>
    have hreqid := fromValue_id hreq
    dsimp only
    cases hmember : idMember value with
    | none =>
      rw [hmember] at hreqid
      rw [handle_of_notification hreqid]
      rfl
    | some id =>
      rw [hmember, Option.bind_some, nonNull_of_ne fun h => hid (by rw [hmember, h])] at hreqid
      obtain ⟨outcome, hresp⟩ := handle_of_id methods server hreqid
      rw [hresp]
      exact ⟨outcome, rfl⟩

/-- A batch gets the responses of its elements, in order. -/
theorem dispatchItems_owed (serde : SerdeJson) (methods : Methods σ) (server : σ)
    (items : List Json) :
    ∃ parts, List.Forall₂ (fun value part => idMember value ≠ some .null → Owed serde value part)
        items parts ∧ (dispatchItems serde methods server items).2 = parts.flatten := by
  induction items generalizing server with
  | nil => exact ⟨[], .nil, rfl⟩
  | cons item items ih =>
    obtain ⟨parts, howed, heq⟩ := ih (dispatchOne serde methods server item).1
    exact ⟨_ :: parts, .cons dispatchOne_owed howed, congrArg (_ ++ ·) heq⟩

/-- On a value that is no array the front ends do the same. -/
theorem serveMessage_eq {text : List Char} (h : serde.fromStr text = .ok value) :
    serveMessage serde methods server text = dispatchOne serde methods server value := by
  rw [serveMessage, SerdeJson.parseMessage, h, dispatchOne]
  dsimp only
  cases serde.fromValue value <;> rfl

end

/-- The responses of the HTTP front end. -/
def httpResponses (serde : SerdeJson) (methods : Methods σ) (server : σ) (text : List Char) :
    List Response := (dispatch serde methods server text).2.elim [] Payload.responses

/-- The front ends give a text the same responses, and those that it is owed. -/
def Agree (serde : SerdeJson) (methods : Methods σ) (server : σ) (text : List Char) : Prop :=
  (serveMessage serde methods server text).2.toList = httpResponses serde methods server text ∧
    ∀ value, serde.fromStr text = .ok value →
      match value with
      | .array items => ∃ parts, List.Forall₂ (Owed serde) items parts ∧
          httpResponses serde methods server text = parts.flatten
      | value => Owed serde value (httpResponses serde methods server text)

/-- What the front ends agree on. Only the HTTP one takes a batch, and of a message whose id
    is `null` nothing is said. -/
structure AgreeOffBatches (serde : SerdeJson) (methods : Methods σ) (server : σ)
    (text : List Char) : Prop where
  /-- A text that is no array is answered alike, and leaves the same state. -/
  alike : (∀ items, serde.fromStr text ≠ .ok (.array items)) →
    (serveMessage serde methods server text).1 = (dispatch serde methods server text).1 ∧
      (serveMessage serde methods server text).2.toList = httpResponses serde methods server text
  /-- It gets the responses that it is owed. -/
  single : ∀ value, serde.fromStr text = .ok value → (∀ items, value ≠ .array items) →
    idMember value ≠ some .null → Owed serde value (httpResponses serde methods server text)
  /-- A batch gets those of its elements. -/
  batch : ∀ items, serde.fromStr text = .ok (.array items) → ∃ parts,
    List.Forall₂ (fun value part => idMember value ≠ some .null → Owed serde value part)
      items parts ∧ httpResponses serde methods server text = parts.flatten

theorem dispatch_of_not_array {serde : SerdeJson} {methods : Methods σ} {server : σ}
    {text : List Char} {value : Json} (h : serde.fromStr text = .ok value)
    (harray : ∀ items, value ≠ .array items) :
    (dispatch serde methods server text).1 = (dispatchOne serde methods server value).1 ∧
      httpResponses serde methods server text =
        (dispatchOne serde methods server value).2.toList := by
  rw [httpResponses, dispatch, h]
  split
  · next heq => cases heq
  · next items heq => cases heq; exact absurd rfl (harray items)
  · next heq =>
    cases heq
    refine ⟨rfl, ?_⟩
    dsimp only
    cases (dispatchOne serde methods server value).2 <;> rfl

def pingBatch : List Json :=
  [.object [("id", .number "1"), ("jsonrpc", .string "2.0"), ("method", .string "ping")]]

def pingSerde : SerdeJson where
  fromStr _ := .ok (.array pingBatch)
  refusedBecause _ := "invalid type: map, expected a string"

def pingMethods : Methods Unit where
  initializeResult := .null
  toolsListResult := .null
  resourcesListResult := .null
  toolsCall server _ := (server, .ok .null)
  resourcesRead server _ := (server, .null)

end Cognis
