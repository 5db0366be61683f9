namespace CodeAtlas

inductive Label where
  | folder
  | file
  | function
  | class_
  | method
  | module_
  | deleted
  deriving DecidableEq, Repr

def Label.all : List Label :=
  [.folder, .file, .function, .class_, .method, .module_, .deleted]

def Label.name : Label → String
  | .folder => "FOLDER"
  | .file => "FILE"
  | .function => "FUNCTION"
  | .class_ => "CLASS"
  | .method => "METHOD"
  | .module_ => "MODULE"
  | .deleted => "DELETED"

def Label.ofName? (name : String) : Option Label :=
  Label.all.find? (fun l => l.name == name)

/-- The first three join a node to what stands in it, the last three a changed file to its older
state, and the others a place in the code to the definition that it refers to. -/
inductive RelationType where
  | contains
  | functionDefinition
  | classDefinition
  | imports
  | calls
  | inherits
  | instantiates
  | types
  | assigns
  | uses
  | modified
  | deleted
  | added
  deriving DecidableEq, Repr

def RelationType.all : List RelationType :=
  [.contains, .functionDefinition, .classDefinition, .imports, .calls, .inherits, .instantiates,
   .types, .assigns, .uses, .modified, .deleted, .added]

def RelationType.name : RelationType → String
  | .contains => "CONTAINS"
  | .functionDefinition => "FUNCTION_DEFINITION"
  | .classDefinition => "CLASS_DEFINITION"
  | .imports => "IMPORTS"
  | .calls => "CALLS"
  | .inherits => "INHERITS"
  | .instantiates => "INSTANTIATES"
  | .types => "TYPES"
  | .assigns => "ASSIGNS"
  | .uses => "USES"
  | .modified => "MODIFIED"
  | .deleted => "DELETED"
  | .added => "ADDED"

def RelationType.ofName? (name : String) : Option RelationType :=
  RelationType.all.find? (fun t => t.name == name)

end CodeAtlas
