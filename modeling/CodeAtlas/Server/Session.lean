import CodeAtlas.Action
import CodeAtlas.Json.Parser
import CodeAtlas.Json.Spelling
import CodeAtlas.Location

namespace CodeAtlas.Server

inductive Event where
  /-- The connection is closed by the other side. -/
  | closed
  | message (value : Json)
  /-- A message as a text that has still to be read. -/
  | text (raw : String)
  /-- The other side failed over its answer. -/
  | failure (fault : Fault)

/-- The other side: which attempts to connect it accepts, what it has sent that is still to be
received, and what it sends when a message reaches it. Attempts beyond the list are accepted. -/
structure Peer where
  accepts : List Bool := []
  incoming : List Event := []
  reply : Json → List Event := fun _ => []
  /-- Does the other side stay when it is left? -/
  stays : Bool := false

inductive Socket where
  | absent
  | live
  | closed
  deriving DecidableEq, Repr

inductive Traffic where
  | connect (address : String) (accepted : Bool)
  | send (message : Json)
  | close

/-- The number of a message, which may be any value. As keys, equal numbers may be written
differently. -/
structure MessageId where
  value : Json

instance : BEq MessageId := ⟨fun a b => a.value.same b.value⟩

/-- Lists and objects cannot number a message. -/
def MessageId.isValid (id : MessageId) : Bool :=
  id.value.isKey

structure Session where
  rootUri : Json
  host : Json := .str "localhost"
  portNumber : Json := .int 5000
  name : Json := .str ""
  /-- How often a connection is tried again. -/
  retryLimit : Json := .int 3
  lastId : Int := 0
  /-- Messages that answered nothing when they arrived. -/
  unmatched : Assoc MessageId Json := []
  socket : Socket := .absent
  peer : Peer := {}
  traffic : List Traffic := []
  notes : List String := []
  /-- Pauses, in seconds. -/
  pauses : List Nat := []
  /-- Log messages of the server, as they are shown. -/
  shown : List String := []

namespace Session

def query (s : Session) : String :=
  if s.name.isVoid then "" else "?name=" ++ s.name.spelling

def address (s : Session) : String :=
  "ws://" ++ s.host.spelling ++ ":" ++ s.portNumber.spelling ++ s.query

def note (s : Session) (line : String) : Session :=
  { s with notes := s.notes ++ [line] }

def record (s : Session) (t : Traffic) : Session :=
  { s with traffic := s.traffic ++ [t] }

/-- An attempt to connect that the other side refuses. -/
def refused (tries : Json) : Action Session Unit := do
  modify fun s => (s.record (.connect s.address false)).note ("Connection refused to " ++ s.address)
  let tries ← Action.ofExcept tries.spelled
  modify fun s => s.note ("Retrying " ++ tries ++ "/" ++ s.retryLimit.spelling)

/-- Tries to connect, as the other side answers the attempts. After a refusal there is a pause and
another attempt, unless there have been enough; then the old socket stays. -/
def dial (tries : Json) : List Bool → Action Session Unit
  | [] => modify fun s => { s.record (.connect s.address true) with socket := .live }
  | true :: rest =>
    modify fun s =>
      { s.record (.connect s.address true) with
        socket := .live
        peer := { s.peer with accepts := rest } }
  | false :: rest => do
    modify fun s => { s with peer := { s.peer with accepts := rest } }
    refused tries
    if ← Action.ofExcept (tries.lt (← get).retryLimit) then
      modify fun s => { s with pauses := s.pauses ++ [1] }
      dial (← Action.ofExcept tries.successor) rest

def connectFrom (tries : Json) : Action Session Unit := do
  dial tries (← get).peer.accepts

def connect : Action Session Unit :=
  connectFrom (.int 0)

def send (message : Json) : Action Session Unit := do
  let s ← get
  match s.socket with
  | .absent => throw .notConnected
  | .closed => throw .connectionClosed
  | .live =>
    let s := s.record (.send message)
    set { s with peer := { s.peer with incoming := s.peer.incoming ++ s.peer.reply message } }

def display (message : Json) (s : Session) : Session :=
  { s with shown := s.shown ++ [message.indented] }

inductive Received where
  | answer (message : Json)
  | closed
  | failed (fault : Fault)

/-- What a message means to someone who waits for the answer `id`: log messages are shown, and a
message with another number is put by. -/
def sort (id : MessageId) (message : Json) (s : Session) : Option Received × Session :=
  match message with
  | .obj _ =>
    let s := match message.member? "method" with
      | some (.str "window/logMessage") => s.display message
      | _ => s
    let own : MessageId := ⟨(message.member? "id").getD .null⟩
    if own.value.agrees id.value then (some (.answer message), s)
    else if own.isValid then
      (none, { s with unmatched := Assoc.insert s.unmatched own message })
    else (some (.failed .wrongType), s)
  | _ => (some (.failed .noMembers), s)

def receive (id : MessageId) : List Event → Session → Received × Session
  | [], s => (.failed .nothingToReceive, { s with peer := { s.peer with incoming := [] } })
  | event :: rest, s =>
    let s := { s with peer := { s.peer with incoming := rest } }
    match event with
    | .closed => (.closed, { s with socket := .closed })
    | .failure fault => (.failed fault, s)
    | .message m =>
      match sort id m s with
      | (some received, s) => (received, s)
      | (none, s) => receive id rest s
    | .text raw =>
      match Json.parse raw with
      | .error fault => (.failed fault, s)
      | .ok m =>
        match sort id m s with
        | (some received, s) => (received, s)
        | (none, s) => receive id rest s

/-- Waits for an answer, on a connection that was opened and has been lost `lost` times. It may be
lost `losses` times more, the last time for good; the request is sent again on each new
connection. -/
def await (id : MessageId) (request : Json) (lost : Nat) : Nat → Action Session (Option Json)
  | 0 => pure none
  | losses + 1 => do
    let s ← get
    if s.socket = .absent then throw .notConnected
    let (received, s) := receive id s.peer.incoming s
    set s
    match received with
    | .answer message => pure (some message)
    | .failed fault => throw fault
    | .closed =>
      set (s.note ("Connection lost. Retrying (" ++ toString (lost + 1) ++ "/" ++
        s.retryLimit.spelling ++ ")..."))
      connect
      send request
      if losses = 0 then throw .retriesExhausted
      await id request (lost + 1) losses

/-- How often the connection may be lost, the last time for good, under a limit of retries. Without
a bound it may be lost once for each event that is still to be received. -/
def lossesUnder (limit : Json) (events : Nat) : Except Fault Nat :=
  match limit with
  | .real (.infinite false) => .ok (events + 1)
  | .real (.infinite true) => .ok 0
  | .real .undefined => .ok 0
  | .real x => .ok (x.floor + 1).toNat
  | limit => do pure ((← limit.toInt) + 1).toNat

/-- The answer to a request, from those put by or from the connection. With a negative limit of
retries there is none. -/
def respond (id : MessageId) (request : Json) : Action Session (Option Json) := do
  let s ← get
  if !id.isValid then throw .wrongType
  match Assoc.get? s.unmatched id with
  | some message =>
    set { s with unmatched := Assoc.erase s.unmatched id }
    pure (some message)
  | none => do
    await id request 0 (← Action.ofExcept (lossesUnder s.retryLimit s.peer.incoming.length))

/-- Sends a request, which must have a number, and waits for the answer. -/
def sendRequest (request : Json) : Action Session (Option Json) := do
  let id : MessageId := ⟨← Action.ofExcept (request.field "id")⟩
  send request
  respond id request

def nextId : Action Session Int :=
  modifyGet fun s => (s.lastId + 1, { s with lastId := s.lastId + 1 })

def request (id : Int) (method : String) (params : Json) : Json :=
  .obj [("jsonrpc", .str "2.0"), ("id", .int id), ("method", .str method), ("params", params)]

def call (method : String) (params : Json) : Action Session (Option Json) := do
  sendRequest (request (← nextId) method params)

def ask (method : String) (params : Json) : Action Session Json := do
  match ← call method params with
  | some answer => pure ((answer.member? "result").getD .null)
  | none => throw .noMembers

def disabled (names : List String) : Json :=
  .obj (names.map fun n => (.text n, .bool false))

/-- Diagnostics are asked for on opening only. -/
def initializationOptions : Json :=
  .obj [
    ("completion", .obj [("disableSnippets", .bool false), ("resolveEagerly", .bool false),
      ("ignorePatterns", .arr [])]),
    ("diagnostics", .obj [("enable", .bool false), ("didOpen", .bool true),
      ("didChange", .bool false), ("didSave", .bool false)]),
    ("hover", disabled ["enable"])]

def startUp : Action Session Unit := do
  let s ← get
  let _ ← call "initialize" (.obj [("processId", .null), ("rootUri", s.rootUri),
    ("capabilities", .obj []), ("initializationOptions", initializationOptions)])

def documentParams (uri : Json) : Json.Members :=
  [("textDocument", .obj [("uri", uri)])]

def placeParams (uri position : Json) : Json.Members :=
  documentParams uri ++ ([("position", position)] : Json.Members)

def documentSymbols (uri : Json) : Action Session Json :=
  ask "textDocument/documentSymbol" (.obj (documentParams uri))

def documentLinks (uri : Json) : Action Session Json :=
  ask "textDocument/documentLink" (.obj (documentParams uri))

def selectionRange (uri position : Json) : Action Session Json :=
  ask "textDocument/selectionRange" (.obj (placeParams uri position))

def references (uri position : Json) : Action Session Json :=
  let more : Json.Members :=
    [("context", disabled ["includeDeclaration"]), ("workDoneToken", .int 1)]
  ask "textDocument/references" (.obj (placeParams uri position ++ more))

/-- The first of the results, or null if there are none. -/
def first (result : Json) : Except Fault Json :=
  if result.isVoid then .ok .null else result.first

def definition (uri position : Json) : Action Session Json := do
  Action.ofExcept (first (← ask "textDocument/definition" (.obj (placeParams uri position))))

def declaration (uri position : Json) : Action Session Json := do
  Action.ofExcept (first (← ask "textDocument/declaration" (.obj (placeParams uri position))))

/-- The language of a document, as it is told to the server. A list or an object is no
extension. -/
def languageId : Json → Except Fault String
  | .str ".tsx" => .ok "typescriptreact"
  | .str ".ts" => .ok "typescript"
  | .str ".jsx" => .ok "javascriptreact"
  | extension => if extension.isKey then .ok "javascript" else .error .wrongType

/-- The number that all messages on opened documents carry. -/
def openingId : Int := 400

def opening (uri text : Json) (languageId : String) : Json :=
  request openingId "textDocument/didOpen" (.obj [("textDocument", .obj [("uri", uri),
    ("languageId", .str languageId), ("version", .int 1), ("text", text)])])

/-- Tells the server of a document. No answer is waited for. -/
def didOpen (uri text extension : Json) : Action Session Unit := do
  send (opening uri text (← Action.ofExcept (languageId extension)))

def shutdown : Action Session Unit := do
  let _ ← call "shutdown" .null

def exit : Action Session Unit :=
  send (.obj [("jsonrpc", .str "2.0"), ("method", .str "exit")])

def close : Action Session Unit := do
  let s ← get
  match s.socket with
  | .absent => throw .notConnected
  | socket => set { s.record .close with socket := if s.peer.stays then socket else .closed }

/-- Ends the session. Faults on the way are noted at most. -/
def shutdownExitClose : Action Session Unit := do
  match ← (do shutdown; exit; close : Action Session Unit).outcome with
  | .ok () => pure ()
  | .error .connectionClosed => pure ()
  | .error _ => modify (·.note "Error closing connection")

/-- The place of a reference without its other members. -/
def placeOf (reference : Json) : Except Fault Json := do
  pure (.obj [("uri", ← reference.field "uri"), ("range", ← reference.field "range")])

def sent (s : Session) : List Json :=
  s.traffic.filterMap fun
    | .send message => some message
    | _ => none

end Session
end CodeAtlas.Server
