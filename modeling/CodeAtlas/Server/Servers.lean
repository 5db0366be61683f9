import CodeAtlas.Graph.NodeTable
import CodeAtlas.Language
import CodeAtlas.Project.Walk
import CodeAtlas.Server.Session

namespace CodeAtlas.Server

inductive ServerName where
  | jedi
  | typescript
  | solargraph
  deriving DecidableEq, Repr

namespace ServerName

def all : List ServerName := [jedi, typescript, solargraph]

def text : ServerName → String
  | jedi => "jedi-language-server"
  | typescript => "typescript-language-server"
  | solargraph => "solargraph"

def ofLanguage : Language → ServerName
  | .python => jedi
  | .javascript => typescript
  | .typescript => typescript
  | .ruby => solargraph

def byExtension : Assoc String ServerName :=
  Language.all.foldl
    (fun m l => l.extensions.foldl (fun m e => Assoc.insert m e (ofLanguage l)) m) []

def ofExtension (extension : String) : Except Fault ServerName :=
  match Assoc.get? byExtension extension with
  | some name => .ok name
  | none => .error (.extensionNotSupported extension)

/-- The server for a value that should be an extension. A list or an object cannot be one. -/
def ofJson : Json → Except Fault ServerName
  | .str extension => ofExtension extension
  | other => .error (if other.isKey then .extensionNotSupported other.spelling else .wrongType)

end ServerName

/-- The sessions, and what went over the connections of all of them, in order. -/
structure Servers where
  sessions : Assoc ServerName Session
  journal : List (ServerName × Traffic) := []

namespace Servers

/-- Sessions that are not yet connected. A server stays for those who come back. -/
def make (rootUri host portNumber : Json) (reply : Json → List Event) : Servers :=
  { sessions := ServerName.all.map fun name =>
      (name, { rootUri, host, portNumber, name := .str name.text
               peer := { reply, stays := true } }) }

def within (name : ServerName) (act : Action Session α) : Action Servers α := do
  let servers ← get
  let before ← Action.ofOption (.keyNotFound name.text) (Assoc.get? servers.sessions name)
  let (result, after) := act.perform before
  let added := (after.traffic.drop before.traffic.length).map fun traffic => (name, traffic)
  set (⟨Assoc.insert servers.sessions name after, servers.journal ++ added⟩ : Servers)
  Action.ofExcept result

/-- Connects and initialises the sessions, one after the other. -/
def start : Action Servers Unit :=
  ServerName.all.forM fun name => within name do
    Session.connect
    Session.startUp

/-- The text of a document. What is not text is told as empty. -/
def documentText (d : Disk) (path : String) : Except Fault String :=
  match d.readText path with
  | .error .textMalformed => .ok ""
  | other => other

def announce (d : Disk) (file : ProjectFile) : Action Servers Unit := do
  let name ← Action.ofExcept (ServerName.ofExtension file.extension)
  let text ← Action.ofExcept (documentText d file.path)
  within name (Session.didOpen (.str file.uri) (.str text) (.str file.extension))

/-- The places that refer to a node, as its server knows them. -/
def referencesTo (n : Node) (nameRange : Place) : Action Servers (List Place) := do
  let name ← Action.ofExcept (ServerName.ofExtension n.extension)
  let found ← within name (Session.references (.str n.path) nameRange.extent.start.toJson)
  if found.isVoid then pure []
  else Action.ofExcept (do (← found.items).mapM Place.ofJson)

/-- The file in which that which stands at a place is defined, or an empty text. -/
def definitionPath (place : Place) : Action Servers Json := do
  let name ← Action.ofExcept (ServerName.ofExtension ".py")
  let found ← within name (Session.definition (.str place.uri) place.extent.start.toJson)
  if found.isVoid then pure (.str "")
  else Action.ofExcept (found.field "uri")

def shutdownExitClose : Action Servers Unit :=
  ServerName.all.forM fun name => within name Session.shutdownExitClose

/-- The messages that were sent, each with its server, in order. -/
def sent (s : Servers) : List (ServerName × Json) :=
  s.journal.filterMap fun (name, traffic) =>
    match traffic with
    | .send message => some (name, message)
    | _ => none

def opened (s : Servers) : List (ServerName × Json) :=
  s.sent.filterMap fun (name, message) =>
    match message.member? "method", message.member? "params" with
    | some (.str "textDocument/didOpen"), some params =>
      (params.member? "textDocument").map fun document => (name, document)
    | _, _ => none

/-- The names of the methods of what was sent in a session, each with their number. -/
def methodCounts (s : Session) : Assoc String Nat :=
  (s.sent.filterMap (fun m => m.member? "method")).foldl (fun counts method =>
    match method with
    | .str method => Assoc.insert counts method ((Assoc.get? counts method).getD 0 + 1)
    | _ => counts) []

end Servers
end CodeAtlas.Server
