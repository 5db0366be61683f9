import CodeAtlas.Digest
import CodeAtlas.Fault
import CodeAtlas.Json.Access
import CodeAtlas.Json.Spelling
import CodeAtlas.Path

namespace CodeAtlas

/-- The stage that is described, the change that is under review, and the root of the project.
Each may be any value, but only a text can be a root. -/
structure Environment where
  stage : Json
  change : Json
  root : Json

namespace Environment

def spelling (e : Environment) : String :=
  "/" ++ e.stage.spelling ++ "/" ++ e.change.spelling

/-- The identifier of a file: stage, change and path, with one slash before the path. -/
def fileId (stage change : Json) (path : String) : String :=
  let bare := match path.toList with
    | '/' :: rest => String.ofList rest
    | _ => path
  "/" ++ stage.spelling ++ "/" ++ change.spelling ++ "/" ++ bare

def hashedFileId (stage change : Json) (path : String) : String :=
  Digest.hex (fileId stage change path)

/-- The path of a file below the root, with the name of the root in front. A void value is no
path. -/
def belowRoot (e : Environment) (path : Json) : Except Fault String := do
  let root ← e.root.toText
  if path.isVoid then .error .noPath
  else match Path.belowHome? (← path.toText) root with
    | some below => pure below
    | none => .error .noPath

end Environment
end CodeAtlas
