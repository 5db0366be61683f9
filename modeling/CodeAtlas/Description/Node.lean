import CodeAtlas.Description
import CodeAtlas.Graph.Graph

namespace CodeAtlas.Description

/-- What a table has for a name. Only a text is a name. -/
def named (of? : String → Option α) (name : Json) : Except Fault α := do
  match (← name.toKey).bind of? with
  | some x => .ok x
  | none => .error (.keyNotFound name.spelling)

def label (j : Json) (key : String) : Except Fault Label := do
  named Label.ofName? (← j.field key)

/-- Who encloses a node, and the environment of a node that names none. -/
structure Surroundings where
  parent : Option NodeKey
  environment : Option Environment

/-- The surroundings of a described node. The parent is looked up before the environment is read. -/
def surroundings (default : Option Environment) (find : Json → Except Fault NodeKey) (j : Json) :
    Except Fault Surroundings := do
  let parent ← match value j "parent" with
    | .null => pure none
    | name => some <$> find name
  let environment ← match j.member? "env" with
    | some e => environment e
    | none => pure default
  pure ⟨parent, environment⟩

/-- Adds a node with code: one of a label, or of a whole file if there is none. The label and the
path are read first, then the surroundings, the places and the name; only then must the label be one
of code. -/
def addDefinition (label : Except Fault (Option Label)) (around : Except Fault Surroundings)
    (j : Json) : Action Atlas NodeKey := do
  let label ← Action.ofExcept label
  let path ← Action.ofExcept (j.field "path")
  let s ← Action.ofExcept around
  let (own, ofName) ← Action.ofExcept (places path j)
  let name ← Action.ofExcept (j.field "name")
  let scope ← Action.ofExcept (match label with
    | none => .ok .file
    | some label => Scope.ofLabel label)
  let path ← Action.ofExcept path.textItself
  let code := (j.member? "text").getD (.str "")
  Atlas.onTable (NodeTable.insert (.definition ⟨scope, ofName, own, code, none, none, [], []⟩)
    path name (level j) s.parent s.environment)

/-- Adds a folder. Its name and its path are there before its surroundings are read. -/
def addFolder (around : Except Fault Surroundings) (j : Json) : Action Atlas NodeKey := do
  let name ← Action.ofExcept (j.field "name")
  let path ← Action.ofExcept (j.field "path")
  let s ← Action.ofExcept around
  let path ← Action.ofExcept path.toText
  Atlas.onTable (NodeTable.insert .folder (Path.toUri path) name (level j) s.parent s.environment)

def addDeleted (environment : Option Environment) (j : Json) : Action Atlas NodeKey := do
  let label ← Action.ofExcept (if has j "label" then label j "label" else .ok .deleted)
  let path ← Action.ofExcept do (← j.field "path").textItself
  Atlas.onTable
    (NodeTable.insert (.deleted label) path (.str "DELETED") (.int 0) none environment)

/-- Adds a node that has nothing but a label, a path and a name. -/
def addBare (j : Json) : Action Atlas NodeKey := do
  let label ← Action.ofExcept (label j "label")
  let path ← Action.ofExcept (j.field "path")
  let name ← Action.ofExcept (j.field "name")
  let path ← Action.ofExcept path.textItself
  Atlas.onTable (NodeTable.insert (.bare label) path name (.int 0) none none)

/-- Adds the node of a description of some kind. Any other kind is a second node beside one that is
named. -/
def addNode (kind : String) (default : Option Environment)
    (find : Json → Except Fault NodeKey) (j : Json) : Action Atlas NodeKey :=
  let around := surroundings default find j
  match kind with
  | "folder" => addFolder around j
  | "file" => addDefinition (.ok none) around j
  | "definition" => addDefinition (some <$> label j "kind") around j
  | "deleted" => addDeleted default j
  | "plain" => addBare j
  | _ => do Atlas.onTable (NodeTable.snapshot (← Action.ofExcept (find (value j "node"))))

end CodeAtlas.Description
