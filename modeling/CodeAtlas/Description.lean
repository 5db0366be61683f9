import CodeAtlas.Build.Change
import CodeAtlas.Database.Store
import CodeAtlas.Hierarchy
import CodeAtlas.Server.Answers

namespace CodeAtlas.Description
open Source Server

def value (j : Json) (key : String) : Json :=
  (j.member? key).getD .null

def has (j : Json) (key : String) : Bool :=
  (j.member? key).isSome

def asText : Json → String
  | .str s => s
  | _ => ""

def asInt : Json → Int
  | .int n => n
  | .bool b => if b then 1 else 0
  | _ => 0

def asList : Json → List Json
  | .arr items => items
  | _ => []

def text (j : Json) (key : String) : String :=
  asText (value j key)

def text? (j : Json) (key : String) : Option String :=
  match value j key with
  | .str s => some s
  | _ => none

def int (j : Json) (key : String) : Int :=
  asInt (value j key)

def list (j : Json) (key : String) : List Json :=
  asList (value j key)

def texts (j : Json) (key : String) : List String :=
  (list j key).map asText

/-- Is there a value that is not void? -/
def flag (j : Json) (key : String) : Bool :=
  !(value j key).isVoid

mutual
/-- A syntax tree: a text, or an object with the kind of the node and its parts. -/
def piece : Json → Piece
  | .str s => .text s
  | .obj members =>
    .node (text (.obj members) "type") (text? (.obj members) "field")
      (!flag (.obj members) "anon") (parts members)
  | _ => .text ""

def parts : Json.Members → List Piece
  | [] => []
  | (key, .arr items) :: members => if key = "parts" then pieces items else parts members
  | _ :: members => parts members

def pieces : List Json → List Piece
  | [] => []
  | item :: items => piece item :: pieces items
end

def tree? (file : Json) : Option Piece :=
  if has file "tree" then some (piece (value file "tree")) else none

def hexBytes : List Char → List UInt8
  | high :: low :: rest =>
    let digit (c : Char) : Nat := (Text.Percent.hexDigit? c).getD 0
    UInt8.ofNat (16 * digit high + digit low) :: hexBytes rest
  | _ => []

/-- The bytes of a file: as they are, from a text, or from a syntax tree. -/
def bytes (file : Json) : List UInt8 :=
  match text? file "hex", text? file "content", tree? file with
  | some hex, _, _ => hexBytes hex.toList
  | none, some content, _ => Text.Utf8.bytes content
  | none, none, some tree => Text.Utf8.bytes tree.source
  | none, none, none => []

def blob (file : Json) : Blob :=
  let bytes := bytes file
  ⟨bytes, if has file "size" then int file "size" else bytes.length, flag file "broken"⟩

def disk (j : Json) : Disk :=
  (list j "files").foldl (fun d file => d.addFile (text file "path") (blob file))
    ((texts j "dirs").foldl Disk.addDirectory {})

def workspace (j : Json) : Workspace :=
  ⟨disk j, .ofPieces ((list j "files").filterMap tree?)⟩

/-- All of these must be there. -/
def need (keys : List String) (j : Json) : Except Fault Unit :=
  keys.forM fun key => do let _ ← j.field key

/-- The items under a key. There are none if the key is missing. -/
def itemsUnder (key : String) (j : Json) : Except Fault (List Json) :=
  ((j.member? key).getD (.arr [])).items

/-- A row of answers. A list or an object is at no place. -/
def answerRow (j : Json) : Except Fault AnswerRow := do
  let uri ← j.field "uri"
  let line ← j.field "line"
  let character ← j.field "character"
  let result ← j.field "result"
  if uri.isKey && line.isKey && character.isKey then pure ⟨uri, ⟨line, character⟩, result⟩
  else .error .wrongType

def answers (j : Json) : Except Fault Answers := do
  let references ← (← itemsUnder "references" j).mapM answerRow
  let definitions ← (← itemsUnder "definitions" j).mapM answerRow
  pure ⟨references, definitions⟩

/-- An environment. Null is none, and anything else must have members. -/
def environment : Json → Except Fault (Option Environment)
  | .null => .ok none
  | j => do
    pure (some ⟨← j.fieldOrNull "environment", ← j.fieldOrNull "diff_identifier",
      ← j.fieldOrNull "root_path"⟩)

/-- The extent between two marks, each by its line and its character. -/
def extent (j : Json) : Except Fault Extent :=
  match j with
  | .obj _ => .error (.keyNotFound "0")
  | _ => do
    match ← j.items with
    | a :: b :: c :: d :: _ => pure ⟨⟨a, b⟩, ⟨c, d⟩⟩
    | _ => .error .itemNotFound

def beginning : Json :=
  .arr [.int 0, .int 0, .int 0, .int 0]

def placeAt (path j : Json) : Except Fault Place := do
  Place.make (← extent j) path

def placeUnder (key : String) (j : Json) : Except Fault Place := do
  Place.make (← extent (← j.field "range")) (← j.field key)

/-- A place, of an unknown file if none is named. -/
def place (j : Json) : Except Fault Place := do
  Place.make (← extent (← j.field "range")) ((j.member? "uri").getD (.str "file:///x"))

def placeInRow (j : Json) : Except Fault Place := do
  let extent ← extent j
  Place.make extent (← Json.itemAt (← j.items) (.int 4))

/-- Where the code of a node at a path stands, and where its name does. What has no place is at the
beginning, and a name without a place of its own stands where the code does. -/
def places (path j : Json) : Except Fault (Place × Place) := do
  let range := (j.member? "range").getD beginning
  let own ← placeAt path range
  pure (own, ← placeAt path ((j.member? "definition").getD range))

def level (j : Json) : Json :=
  (j.member? "level").getD (.int 0)

def projectFile (j : Json) : Except Fault ProjectFile := do
  let name ← j.field "name"
  let folder ← j.field "root_path"
  pure ⟨← name.toText, ← folder.toText, int j "level"⟩

def listOr (j : Json) : Json :=
  if j.isVoid then .arr [] else j

/-- The rules of a walk. The ignore file is read, if one is named. -/
def rules (d : Disk) (ignoreFile j : Json) : Except Fault WalkRules :=
  WalkRules.ignoring d
    { root := value j "root", pathsToSkip := listOr (value j "paths_to_skip")
      namesToSkip := listOr (value j "names_to_skip")
      largest := (j.member? "max_mb").getD (.int 10) } ignoreFile

def host (j : Json) : Json :=
  if flag j "host" then value j "host" else .str "localhost"

def portNumber (j : Json) : Json :=
  if flag j "port" then value j "port" else .int 5000

def change (j : Json) : Except Fault FileChange := do
  let path ← j.field "path"
  let type ← ChangeType.ofJson (← j.field "change_type")
  pure ⟨path, (j.member? "diff_text").getD (.str ""), type⟩

def changes (j : Json) : Except Fault (List FileChange) := do
  (← itemsUnder "diffs" j).mapM change

def updates (j : Json) : Except Fault (List Json) := do
  (← j.field "updated").items

def credentials (settings : Json) : Credentials :=
  ⟨text? settings "NEO4J_URI", text? settings "NEO4J_USERNAME", text? settings "NEO4J_PASSWORD"⟩

def event : Json → Event
  | .str _ => .closed
  | j => match value j "raw" with
    | .str raw => .text raw
    | _ => .message (value j "json")

/-- Whose graph is stored. What is not named has a default. -/
def owner (j : Json) : Owner :=
  let or (key : String) (default : Json) : Json :=
    match value j key with
    | .null => default
    | named => named
  ⟨or "repoId" (.str "default_repo"), or "entityId" (.str "default_user")⟩

end CodeAtlas.Description
