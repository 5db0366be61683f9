import CodeAtlas.Environment
import CodeAtlas.Source.SyntaxTree

namespace CodeAtlas

abbrev NodeKey := Nat

/-- The place of a list of members. A node and its snapshots share one list. -/
abbrev GroupKey := Nat

inductive Segment where
  | named (mark : String) (name : Json)
  /-- The part of a node without identifier. -/
  | unnamed
  /-- The part of a deleted file, which its path and environment give. -/
  | removed (key : NodeKey)

/-- What is defined: a file as a whole, a class or a function. -/
inductive Scope where
  | file
  | class_
  | function
  deriving DecidableEq, Repr

namespace Scope

def label : Scope → Label
  | file => .file
  | class_ => .class_
  | function => .function

def mark : Scope → String
  | file => "/"
  | class_ => "#"
  | function => "."

def className : Scope → String
  | file => "FileNode"
  | class_ => "ClassNode"
  | function => "FunctionNode"

def ofLabel (label : Option Label) : Except Fault Scope :=
  match label with
  | some .class_ => .ok class_
  | some .function => .ok function
  | other => .error (.kindNotSupported other)

end Scope

/-- The code of a node: where it stands and where its name stands, its text and syntax, and what
a review adds to it. -/
structure Definition where
  scope : Scope
  nameRange : Place
  range : Place
  text : Json
  body : Option Source.SyntaxNode
  cursor : Option Source.Cursor
  extraLabels : List Json := []
  /-- Attributes by any key. -/
  extraAttributes : Assoc Json Json := []

inductive Content where
  | bare (label : Label)
  | deleted (label : Label)
  | folder
  | definition (d : Definition)

structure Node where
  content : Content
  /-- The URI of the file or folder. -/
  path : String
  /-- The name. Only a text can stand in an identifier. -/
  name : Json
  level : Json
  parent : Option NodeKey
  /-- The parts of the identifier, from the outermost enclosing node to this one. -/
  trail : List Segment
  environment : Option Environment
  /-- The folders and files in a folder, or the definitions in a definition. -/
  members : GroupKey

namespace Node

def label (n : Node) : Label :=
  match n.content with
  | .bare label => label
  | .deleted label => label
  | .folder => .folder
  | .definition d => d.scope.label

def className (n : Node) : String :=
  match n.content with
  | .bare _ => "Node"
  | .deleted _ => "DeletedNode"
  | .folder => "FolderNode"
  | .definition d => d.scope.className

def purePath (n : Node) : String :=
  Path.ofUri n.path

def extension (n : Node) : String :=
  Path.extension n.purePath

def definition? (n : Node) : Option Definition :=
  match n.content with
  | .definition d => some d
  | _ => none

def updateDefinition (f : Definition → Definition) (n : Node) : Node :=
  match n.content with
  | .definition d => { n with content := .definition (f d) }
  | _ => n

/-- Folders hold folders and files. -/
def containable (n : Node) : Bool :=
  match n.content with
  | .folder => true
  | .definition d => d.scope == .file
  | _ => false

end Node

structure NodeRecord where
  label : Label
  extraLabels : List Json
  attributes : Json.Members

def NodeRecord.toJson (r : NodeRecord) : Json :=
  .obj [("type", .str r.label.name), ("extra_labels", .arr r.extraLabels),
    ("attributes", .obj r.attributes)]

end CodeAtlas
