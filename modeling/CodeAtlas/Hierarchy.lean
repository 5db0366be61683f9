import CodeAtlas.Graph.Skeleton
import CodeAtlas.Outline
import CodeAtlas.Project.Walk
import CodeAtlas.Source.Grammar

namespace CodeAtlas
open Source

structure Workspace where
  disk : Disk := {}
  grammar : Grammar := []

namespace Hierarchy

def placeOf (range : Range) (uri : String) : Except Fault Place :=
  Place.make (.ofRange range) (.str uri)

mutual
/-- Adds the nodes of an outline below a node, each before its members. -/
def plant (uri : String) (e : Option Environment) (parent : NodeKey) (o : Outline) :
    Action NodeTable (List NodeKey) :=
  match o with
  | .of s members => do
    let nameRange ← Action.ofExcept (placeOf s.nameRange uri)
    let range ← Action.ofExcept (placeOf s.cursor.node.range uri)
    let level ← Action.ofExcept (← Action.ofExcept ((← get).node parent)).level.successor
    let key ← NodeTable.insert (.definition (s.definition nameRange range)) uri (.str s.name) level
      (some parent) e
    modify (fun t => t.appendMembers parent [key])
    pure (key :: (← plantAll uri e key members))

def plantAll (uri : String) (e : Option Environment) (parent : NodeKey) (os : List Outline) :
    Action NodeTable (List NodeKey) :=
  match os with
  | [] => pure []
  | o :: os => do
    let first ← plant uri e parent o
    pure (first ++ (← plantAll uri e parent os))
end

/-- Adds what was read of a syntax tree, also if the reading came to a fault. Definitions need a
node to stand below. -/
def plantReading (uri : String) (e : Option Environment) (parent : Option NodeKey)
    (reading : Outline.Reading) : Action NodeTable (List NodeKey) := do
  let keys ← match parent, reading.members with
    | _, [] => pure []
    | none, _ => throw .itemNotFound
    | some parent, members => plantAll uri e parent members
  match reading.fault with
  | some fault => throw fault
  | none => pure keys

def isReadBy (l : Language) (file : ProjectFile) : Bool :=
  l.extensions.any (Text.endsWith file.uri)

/-- The text of a source file. A file that is not text reads as empty. -/
def sourceText (d : Disk) (file : ProjectFile) : Except Fault String :=
  match d.readText file.path with
  | .error .textMalformed => .ok ""
  | other => other

/-- Adds the node of a file that has no outline. -/
def plantPlainFile (e : Option Environment) (parent : Option NodeKey) (file : ProjectFile)
    (level : Json) : Action NodeTable (List NodeKey) := do
  let range ← Action.ofExcept (placeOf .zero file.uri)
  let key ← NodeTable.insert (.definition ⟨.file, range, range, .str "", none, none, [], []⟩)
    file.uri (.str file.name) level parent e
  pure [key]

/-- Adds the nodes of a file: its own at a level, and in preorder those of its definitions. -/
def plantFile (w : Workspace) (l : Option Language) (e : Option Environment)
    (parent : Option NodeKey) (file : ProjectFile) (level : Json) :
    Action NodeTable (List NodeKey) := do
  match l.filter (isReadBy · file) with
  | none => plantPlainFile e parent file level
  | some l =>
    let text ← Action.ofExcept (sourceText w.disk file)
    if !l.extensions.contains file.extension then throw (.keyNotFound file.extension)
    let root := w.grammar.parse l file.extension text
    let range ← Action.ofExcept (placeOf root.range file.uri)
    let key ← NodeTable.insert
      (.definition ⟨.file, range, range, .str text, some root, some (.root root), [], []⟩) file.uri
      (.str file.name) level parent e
    let below ← plantReading file.uri e (some key) (Outline.read l [] root)
    pure (key :: below)

def snippet (text : String) (node : SyntaxNode) : String :=
  let lines := Text.split '\n' text
  "\n".intercalate ((lines.take (node.stop.row + 1)).drop node.start.row)

def identifiers (t : NodeTable) (key : NodeKey) : Except Fault (List Place) := do
  let n ← t.node key
  match (← t.definition key).cursor with
  | none => .error .noSyntaxTree
  | some c =>
    (c.node.preorder.filter (fun s => s.kind == "identifier")).mapM
      (fun s => placeOf s.range n.path)

end Hierarchy
end CodeAtlas
