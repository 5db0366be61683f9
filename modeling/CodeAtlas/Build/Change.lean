import CodeAtlas.Environment
import CodeAtlas.Label
import CodeAtlas.Location

namespace CodeAtlas

inductive ChangeType where
  | added
  | modified
  | deleted
  deriving DecidableEq, Repr

namespace ChangeType

def name : ChangeType → String
  | added => "ADDED"
  | modified => "MODIFIED"
  | deleted => "DELETED"

/-- The type of a name. Any other value names none. -/
def ofJson (value : Json) : Except Fault ChangeType :=
  match [added, modified, deleted].find? (fun t => value.agrees (.str t.name)) with
  | some type => .ok type
  | none => .error (.changeTypeUnknown value.written)

end ChangeType

structure FileChange where
  /-- The path. Only a text names a file. -/
  path : Json
  text : Json
  type : ChangeType

namespace FileChange

def ofUpdate (path : Json) : FileChange :=
  ⟨path, .str "", .added⟩

def paths (changes : List FileChange) (type : ChangeType) : List Json :=
  (changes.filter (fun c => c.type = type)).map FileChange.path

/-- The paths of files that are there after the changes: first the new ones. -/
def remaining (changes : List FileChange) : List Json :=
  paths changes .added ++ paths changes .modified

def ofPath (changes : List FileChange) (path : Json) : Except Fault FileChange :=
  match changes.find? (fun c => path.agrees c.path) with
  | some change => .ok change
  | none => .error (.changeNotFound path.spelling)

def untouched (changes : List FileChange) (candidates : List Json) : List Json :=
  candidates.filter (fun path => !(remaining changes).any path.same)

end FileChange

def withoutNames (names places : List Place) : List Place :=
  places.filter (fun place => !names.any place.agrees)

namespace Path

/-- How many steps upward are taken at most, beyond the first. -/
def highestClimb : Nat := 100000

def checkClimb (steps path : Json) : Except Fault Unit := do
  if ← Json.lt (.int highestClimb) steps then .error (.endlessParents path.spelling) else pure ()

/-- Climbs while the root occurs in the path, and gathers the parents, which stand in reverse. The
number counts the steps that are left. -/
def climbFrom (root : String) : Nat → String → List String → Except Fault (List String)
  | 0, path, gathered =>
    if Text.contains root path then .error (.endlessParents (parent path))
    else .ok gathered.reverse
  | left + 1, path, gathered =>
    if Text.contains root path then climbFrom root left (parent path) (parent path :: gathered)
    else .ok gathered.reverse

/-- The folders above a path up to the one above the root. The root is looked for anywhere in the
path. -/
def above (root path : String) : Except Fault (List String) :=
  climbFrom root (highestClimb + 1) path []

end Path

namespace Environment

/-- The folders above a path, as far as the root of the environment reaches. What does not hold the
root has none; of what holds it, only a text has folders above it. -/
def parentsOf (e : Option Environment) (path : Json) : Except Fault (List String) := do
  match e with
  | none => .error .noEnvironment
  | some e =>
    if ← path.holds e.root then
      match path, e.root with
      | .str path, .str root => Path.above root path
      | _, _ => .error .noMembers
    else pure []

def parentsOfAll (e : Option Environment) (paths : List Json) : Except Fault (List String) := do
  pure (← paths.mapM (parentsOf e)).flatten

def idOfFile (e : Option Environment) (path : Json) (strays : List Char := []) :
    Except Fault String := do
  match e with
  | none => .error .noEnvironment
  | some e =>
    let below ← e.belowRoot path
    Digest.check strays (fileId e.stage e.change below)
    pure (hashedFileId e.stage e.change below)

end Environment
end CodeAtlas
