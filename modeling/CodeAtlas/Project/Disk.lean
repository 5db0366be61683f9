import CodeAtlas.Assoc
import CodeAtlas.Fault
import CodeAtlas.Path
import CodeAtlas.Text.Lines
import CodeAtlas.Text.Utf8

namespace CodeAtlas

structure Blob where
  bytes : List UInt8
  /-- The reported size. -/
  size : Int
  dangling : Bool := false

/-- Does a directory stand where it is listed, is it linked to from there, or can what is in it not
be listed? -/
inductive Access where
  | own
  | linked
  | unreadable
  deriving DecidableEq, Repr

/-- What is known of a directory without what is in it. -/
structure Stand where
  /-- The reported size. -/
  size : Int := 4096
  access : Access := .own
  deriving DecidableEq, Repr

/-- Is a directory gone into? -/
def Stand.isOpen (s : Stand) : Bool :=
  s.access = .own

inductive Entry where
  | file (blob : Blob)
  | directory (stand : Stand) (entries : List (String × Entry))

namespace Entry

def isDirectory : Entry → Bool
  | directory _ _ => true
  | file _ => false

/-- The reported size. A dangling link has none. -/
def size : Entry → Except Fault Int
  | directory stand _ => .ok stand.size
  | file blob => if blob.dangling then .error .fileNotFound else .ok blob.size

def followed : Entry → Entry
  | directory ⟨size, .linked⟩ entries => directory ⟨size, .own⟩ entries
  | entry => entry

def find? : List String → Entry → Option Entry
  | [], e => some e
  | name :: rest, directory _ entries =>
    match Assoc.get? entries name with
    | some e => find? rest e
    | none => none
  | _ :: _, file _ => none

end Entry

structure Disk where
  entries : List (String × Entry) := []

namespace Disk

/-- Puts an entry at the end of a way and makes the directories on it. -/
def place (entry : Entry) : List String → List (String × Entry) → List (String × Entry)
  | [], entries => entries
  | [name], entries => Assoc.insert entries name entry
  | name :: rest, entries =>
    match Assoc.get? entries name with
    | some (.directory stand inside) =>
      Assoc.insert entries name (.directory stand (place entry rest inside))
    | _ => Assoc.insert entries name (.directory {} (place entry rest []))

def addFile (d : Disk) (path : String) (blob : Blob) : Disk :=
  ⟨place (.file blob) (Path.absoluteComponents path) d.entries⟩

def top (d : Disk) : Entry :=
  .directory {} d.entries

/-- The entry at a path, for a link the directory it leads to. The empty path names nothing. -/
def lookUp (d : Disk) (path : String) : Option Entry :=
  if path.isEmpty then none
  else (d.top.find? (Path.absoluteComponents path)).map Entry.followed

def addDirectory (d : Disk) (path : String) : Disk :=
  match d.lookUp path with
  | some (.directory _ _) => d
  | _ => ⟨place (.directory {} []) (Path.absoluteComponents path) d.entries⟩

def exists? (d : Disk) (path : String) : Bool :=
  match d.lookUp path with
  | some (.file blob) => !blob.dangling
  | some (.directory _ _) => true
  | none => false

def sizeOf (d : Disk) (path : String) : Except Fault Int :=
  match d.lookUp path with
  | some entry => entry.size
  | none => .error .fileNotFound

def readBytes (d : Disk) (path : String) : Except Fault (List UInt8) :=
  match d.lookUp path with
  | some (.file blob) => if blob.dangling then .error .fileNotFound else .ok blob.bytes
  | some (.directory _ _) => .error .fileIsDirectory
  | none => .error .fileNotFound

def readText (d : Disk) (path : String) : Except Fault String := do
  match Text.Utf8.decode? (← d.readBytes path) with
  | some cs => pure (String.ofList (Text.foldNewlines cs))
  | none => .error .textMalformed

/-- Gives an entry of a list another name in its place. An entry that has the name goes. -/
def renameIn (old new : String) (entries : List (String × Entry)) : List (String × Entry) :=
  (Assoc.erase entries new).map (fun e => if e.1 = old then (new, e.2) else e)

def renameAt (new : String) : List String → List (String × Entry) → List (String × Entry)
  | [], entries => entries
  | [name], entries => renameIn name new entries
  | name :: rest, entries =>
    match Assoc.get? entries name with
    | some (.directory stand inside) =>
      Assoc.insert entries name (.directory stand (renameAt new rest inside))
    | _ => entries

/-- Gives the entry at a path the name at the end of another path. It stays in its directory. -/
def rename (d : Disk) (old new : String) : Disk :=
  match (Path.absoluteComponents new).getLast? with
  | some name => ⟨renameAt name (Path.absoluteComponents old) d.entries⟩
  | none => d

/-- Sets a file aside, if it exists, under its path with `.deleted` at the end. -/
def setAside (d : Disk) (folder name : String) : Disk :=
  let path := Path.join folder name
  if d.exists? path then d.rename path (path ++ ".deleted") else d

end Disk

/-- A directory with the names of the directories and of the files in it. -/
structure Listing where
  path : String
  directories : List String
  files : List String

mutual
/-- The directories at and below an entry that are gone into, each before those in it. -/
def Entry.listings (path : String) : Entry → List Listing
  | .file _ => []
  | .directory stand entries =>
    if stand.isOpen then
      ⟨path, (entries.filter (·.2.isDirectory)).map Prod.fst,
        (entries.filter (!·.2.isDirectory)).map Prod.fst⟩ :: listingsIn path entries
    else []

def listingsIn (path : String) : List (String × Entry) → List Listing
  | [] => []
  | (name, entry) :: entries =>
    entry.listings (Path.join path name) ++ listingsIn path entries
end

def Disk.listings (d : Disk) (path : String) : List Listing :=
  match d.lookUp path with
  | some entry => entry.listings path
  | none => []

end CodeAtlas
