import CodeAtlas.Json.Access
import CodeAtlas.Project.Disk
import CodeAtlas.Text.Blank

namespace CodeAtlas

structure ProjectFile where
  name : String
  folder : String
  level : Int
  deriving DecidableEq, Repr

namespace ProjectFile

def path (f : ProjectFile) : String :=
  Path.join f.folder f.name

def uri (f : ProjectFile) : String :=
  Path.toUri f.path

def extension (f : ProjectFile) : String :=
  Path.extension f.name

/-- A file has no description. -/
def describe (_ : ProjectFile) : Except Fault String :=
  .error .noDescription

end ProjectFile

structure Subfolder where
  name : String
  path : String
  level : Int
  deriving DecidableEq, Repr

def Subfolder.uri (f : Subfolder) : String :=
  Path.toUri f.path

def Subfolder.describe (f : Subfolder) : String :=
  f.path ++ "\n"

structure Folder where
  name : String
  path : String
  level : Int
  files : List ProjectFile
  folders : List Subfolder
  deriving DecidableEq, Repr

namespace Folder

def uri (f : Folder) : String :=
  Path.toUri f.path

def announced (f : Folder) : Subfolder :=
  ⟨f.name, f.path, f.level⟩

def describe (f : Folder) : Except Fault String := do
  let files ← f.files.mapM ProjectFile.describe
  pure (f.path ++ "\n" ++ String.join (files.map (fun s => "\t" ++ s ++ "\n")) ++
    String.join (f.folders.map (fun s => "\t" ++ s.describe ++ "\n")))

end Folder

/-- What a walk starts from and what it passes over. Only a text is a root to start from. -/
structure WalkRules where
  root : Json
  /-- What stands at the beginning of the paths that are passed over. -/
  pathsToSkip : Json := .arr []
  /-- What holds the names that are passed over. -/
  namesToSkip : Json := .arr []
  /-- The size in units of `2 ^ 20` bytes beyond which an entry is passed over. -/
  largest : Json := .int 10

namespace WalkRules

/-- The names in an ignore file, one in each line. -/
def readNames (d : Disk) (path : String) : Except Fault (List String) := do
  pure ((Text.lines (← d.readText path)).map Text.trim)

/-- The rules with the names of an ignore file, if one is named. Only a list takes them in. -/
def ignoring (d : Disk) (r : WalkRules) (file : Json) : Except Fault WalkRules := do
  if file.isVoid then pure r
  else match r.namesToSkip with
    | .arr names => do
      let more ← readNames d (← file.toText)
      pure { r with namesToSkip := .arr (names ++ more.map .str) }
    | _ => .error .noMembers

/-- Is a number of bytes beyond the largest size? That size must be a number. -/
def isLarge (r : WalkRules) (bytes : Int) : Except Fault Bool :=
  match r.largest with
  | .real limit => .ok ((limit.scale 20).order? (.ofInt bytes) == some .lt)
  | limit => do pure (Nat.pow 2 20 * (← limit.toInt) < bytes)

/-- Does a path begin with one of the values, which must be texts? The first that fits counts. -/
def isBelow (path : String) : List Json → Except Fault Bool
  | [] => .ok false
  | start :: starts => do
    if Text.startsWith path (← start.toText) then pure true else isBelow path starts

/-- Is an entry passed over? Its size is asked for in any case. -/
def skips (r : WalkRules) (path : String) (entry : Entry) : Except Fault Bool := do
  let named ← r.namesToSkip.holds (.str (Path.baseName path))
  let below ← isBelow path (← r.pathsToSkip.items)
  let large ← r.isLarge (← entry.size)
  pure (named || below || large)

def rootText (r : WalkRules) : String :=
  match r.root with
  | .str root => root
  | _ => ""

def levelOf (r : WalkRules) (path : String) : Int :=
  Text.count '/' path - Text.count '/' r.rootText

/-- The last component, also of a path that ends in slashes. -/
def nameOf (path : String) : String :=
  Path.baseName (String.ofList (Text.dropEnd (· = '/') path.toList))

/-- The entries of a directory that are not passed over. -/
def kept (r : WalkRules) (path : String) :
    List (String × Entry) → Except Fault (List (String × Entry))
  | [] => .ok []
  | (name, entry) :: rest => do
    let skip ← r.skips (Path.join path name) entry
    let others ← r.kept path rest
    pure (if skip then others else (name, entry) :: others)

/-- The folder of a directory, and whether it is itself passed over. Subdirectories are asked
about before files. -/
def folder (r : WalkRules) (path : String) (stand : Stand) (entries : List (String × Entry)) :
    Except Fault (Folder × Bool) := do
  let dirs ← r.kept path (entries.filter (fun e => e.2.isDirectory))
  let level := r.levelOf path
  let files ← r.kept path (entries.filter (fun e => !e.2.isDirectory))
  let skip ← r.skips path (.directory stand entries)
  pure (⟨nameOf path, path, level,
    files.map (fun e => ⟨e.1, path, level + 1⟩),
    dirs.map (fun e => ⟨e.1, Path.join path e.1, level + 1⟩)⟩, skip)

end WalkRules

/-- The folders of a walk in order, and the fault that ended it, if any. -/
structure Walk where
  folders : List Folder := []
  fault : Option Fault := none

namespace Walk

/-- Goes on with a second walk, unless the first was ended by a fault. -/
def andThen (first second : Walk) : Walk :=
  if first.fault.isSome then first
  else ⟨first.folders ++ second.folders, second.fault⟩

mutual
/-- Walks from an entry at a path. A file gives nothing, nor does a directory that is not gone
into. -/
def visit (r : WalkRules) (path : String) : Entry → Walk
  | .file _ => {}
  | .directory stand entries =>
    if stand.isOpen then
      match r.folder path stand entries with
      | .error fault => ⟨[], some fault⟩
      | .ok (folder, skip) =>
        andThen ⟨if skip then [] else [folder], none⟩ (visitAll r path entries)
    else {}

/-- Walks through the subdirectories that are not passed over. -/
def visitAll (r : WalkRules) (path : String) : List (String × Entry) → Walk
  | [] => {}
  | (name, entry) :: rest =>
    match entry.isDirectory, r.skips (Path.join path name) entry with
    | true, .ok false => andThen (visit r (Path.join path name) entry) (visitAll r path rest)
    | _, _ => visitAll r path rest
end

/-- The walk from the root. A root that is missing gives nothing. -/
def of (d : Disk) (r : WalkRules) : Walk :=
  match r.root with
  | .str root =>
    match d.lookUp root with
    | some entry => visit r root entry
    | none => {}
  | _ => ⟨[], some .wrongType⟩

/-- All folders, if the walk came to its end. -/
def toList (w : Walk) : Except Fault (List Folder) :=
  match w.fault with
  | none => .ok w.folders
  | some fault => .error fault

end Walk
end CodeAtlas
