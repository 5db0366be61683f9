import CodeAtlas.Source.SyntaxTree

namespace CodeAtlas

inductive Language where
  | python
  | javascript
  | typescript
  | ruby
  deriving DecidableEq, Repr

namespace Language
open Source

def name : Language → String
  | python => "python"
  | javascript => "javascript"
  | typescript => "typescript"
  | ruby => "ruby"

def extensions : Language → List String
  | python => [".py"]
  | javascript => [".js", ".jsx"]
  | typescript => [".js", ".jsx", ".ts", ".tsx"]
  | ruby => [".rb"]

def all : List Language := [python, javascript, typescript, ruby]

/-- The language in which a file of this extension is read, the first that lists it. -/
def ofExtension? (extension : String) : Option Language :=
  all.find? (fun l => l.extensions.contains extension)

def rootKind : Language → String
  | python => "module"
  | _ => "program"

def isArrowFunction (n : SyntaxNode) : Bool :=
  n.kind == "variable_declarator" &&
    (n.child? "value").any (fun value => value.kind == "arrow_function")

def definitionKinds : Language → List String
  | python => ["class_definition", "function_definition"]
  | javascript | typescript => ["class_declaration", "function_declaration", "method_definition"]
  | ruby => ["class", "method", "singleton_method"]

def isDefinition (l : Language) (n : SyntaxNode) : Bool :=
  match l with
  | javascript | typescript =>
    if n.kind == "variable_declarator" then isArrowFunction n
    else l.definitionKinds.contains n.kind
  | _ => l.definitionKinds.contains n.kind

def nameNode (n : SyntaxNode) : Except Fault SyntaxNode :=
  match n.child? "name" with
  | some child => .ok child
  | none => .error (.nameNodeNotFound n.kind n.start n.stop)

def bodyField (n : SyntaxNode) : Except Fault SyntaxNode :=
  match n.child? "body" with
  | some child => .ok child
  | none => .error (.bodyNodeNotFound n.kind n.start n.stop)

/-- The code block of a definition. The block of an arrow function may be missing. -/
def bodyNode (l : Language) (n : SyntaxNode) : Except Fault (Option SyntaxNode) :=
  match l with
  | javascript | typescript =>
    if isArrowFunction n then .ok ((n.child? "value").bind (·.child? "body"))
    else (bodyField n).map some
  | _ => (bodyField n).map some

def labelOf (l : Language) (kind : String) : Except Fault (Option Label) :=
  match l, kind with
  | python, "class_definition" => .ok (some .class_)
  | python, "function_definition" => .ok (some .function)
  | javascript, "class_declaration" | typescript, "class_declaration" => .ok (some .class_)
  | javascript, "variable_declarator" | typescript, "variable_declarator"
  | javascript, "function_declaration" | typescript, "function_declaration"
  | javascript, "method_definition" | typescript, "method_definition" => .ok (some .function)
  | ruby, "class" => .ok (some .class_)
  | ruby, "method" | ruby, "singleton_method" => .ok (some .function)
  | ruby, _ => .ok none
  | _, _ => .error (.keyNotFound kind)

/-- What a use inside a node of a syntax kind means for a definition with the given label. -/
def relationTable (l : Language) (label : Label) : Option (Assoc String RelationType) :=
  match l, label with
  | python, .class_ =>
    some [("import_from_statement", .imports), ("superclasses", .inherits), ("call", .instantiates),
      ("typing", .types), ("assignment", .types)]
  | python, .function =>
    some [("call", .calls), ("interpolation", .calls), ("import_from_statement", .imports),
      ("assignment", .assigns)]
  | javascript, .class_ | typescript, .class_ =>
    some [("import_specifier", .imports), ("import_clause", .imports),
      ("new_expression", .instantiates), ("class_heritage", .inherits),
      ("variable_declarator", .assigns)]
  | javascript, .function | typescript, .function =>
    some [("import_specifier", .imports), ("import_clause", .imports), ("call_expression", .calls),
      ("variable_declarator", .assigns)]
  | ruby, .class_ => some [("superclass", .inherits)]
  | ruby, .function => some [("call", .calls)]
  | _, _ => none

/-- The meaning of a use inside one node, by the table alone. -/
def lookUp (table : Assoc String RelationType) (n : SyntaxNode) : Option RelationType :=
  Assoc.get? table n.kind

def callsNew (n : SyntaxNode) : Except Fault Bool :=
  match n.child? "method" with
  | some method => .ok (method.text == "new")
  | none => .error .callWithoutMethod

/-- Does a node make an object of a definition with the given label? Only of a call for a class is
the method asked for. -/
def makesObject (label : Label) (n : SyntaxNode) : Except Fault Bool :=
  if n.kind == "call" && label == .class_ then callsNew n else .ok false

/-- How a definition is used at a place: the relationship and the node that shows it. -/
structure Usage where
  type : RelationType
  scope : Option SyntaxNode

/-- Goes up a chain of nodes to the first of a kind that the table lists. -/
def climb (table : Assoc String RelationType) : List SyntaxNode → Option Usage
  | [] => none
  | n :: above =>
    match lookUp table n with
    | some type => some ⟨type, some n⟩
    | none => climb table above

/-- What the first row of a table for the kind of a node says. -/
def firstRow? (table : Assoc String RelationType) (n : SyntaxNode) : Option Usage :=
  (table.find? fun row => n.kind == row.1).map fun row => ⟨row.2, some n⟩

/-- Ruby goes up a chain as long as nothing is found. A call of `new` and an assignment end the
climb at once. What the table gives is kept for the next round, which is then the last; labels
without a table are refused. -/
def climbRuby (label : Label) : Option Usage → List SyntaxNode → Except Fault (Option Usage)
  | found, [] => .ok found
  | some found, _ :: _ => .ok (some found)
  | none, n :: above => do
    if ← makesObject label n then pure (some ⟨.instantiates, some n⟩)
    else if n.kind == "assignment" then pure (some ⟨.assigns, some n⟩)
    else match ruby.relationTable label with
      | some table => climbRuby label (firstRow? table n) above
      | none => .error (.keyNotFound label.name)

def usage? (l : Language) (label : Label) (chain : List SyntaxNode) : Except Fault (Option Usage) :=
  match l with
  | ruby => climbRuby label none chain
  | _ => .ok (climb ((l.relationTable label).getD []) chain)

end Language
end CodeAtlas
