import CodeAtlas.Graph.Family
import CodeAtlas.Graph.Relationship

namespace CodeAtlas

structure Graph where
  nodes : Assoc String NodeKey := []
  byPath : Assoc String (List NodeKey) := []
  byLabel : Assoc Label (List NodeKey) := []
  files : Assoc String NodeKey := []
  folders : Assoc String NodeKey := []
  references : List Relationship := []

namespace Graph

/-- Adds a node to the list under a key, unless it stands there. -/
def addTo [BEq α] (index : Assoc α (List NodeKey)) (at_ : α) (key : NodeKey) :
    Assoc α (List NodeKey) :=
  let old := (Assoc.get? index at_).getD []
  Assoc.insert index at_ (if old.contains key then old else old ++ [key])

/-- Adds a node under its present identifier. An earlier node of that identifier leaves the
table of nodes, but not the other indexes. -/
def add (t : NodeTable) (g : Graph) (key : NodeKey) : Except Fault Graph := do
  let n ← t.node key
  let id ← t.id key
  pure { g with
    nodes := Assoc.insert g.nodes id key
    byPath := addTo g.byPath n.path key
    byLabel := addTo g.byLabel n.label key
    files := if n.label = .file then Assoc.insert g.files n.path key else g.files
    folders := if n.label = .folder then Assoc.insert g.folders n.path key else g.folders }

def nodesAt (g : Graph) (path : String) : List NodeKey :=
  (Assoc.get? g.byPath path).getD []

def nodesLabelled (g : Graph) (label : Label) : List NodeKey :=
  (Assoc.get? g.byLabel label).getD []

def fileAt? (g : Graph) (path : String) : Option NodeKey :=
  Assoc.get? g.files path

def hasFolderAt (g : Graph) (path : String) : Bool :=
  Assoc.contains g.folders path

def folderAt (g : Graph) (path : String) : Except Fault NodeKey :=
  match Assoc.get? g.folders path with
  | some key => .ok key
  | none => .error (.keyNotFound path)

def nodeWithId (g : Graph) (id : String) : Except Fault NodeKey :=
  match Assoc.get? g.nodes id with
  | some key => .ok key
  | none => .error (.keyNotFound id)

def addReferences (g : Graph) (added : List Relationship) : Graph :=
  { g with references := g.references ++ added }

/-- The stored forms of all nodes, in the order of the graph. -/
def nodeRecords (t : NodeTable) (g : Graph) : Except Fault (List NodeRecord) :=
  (Assoc.values g.nodes).mapM t.record

def relationships (t : NodeTable) (g : Graph) : Except Fault (List Relationship) := do
  let inner ← (Assoc.values g.nodes).mapM t.relationships
  pure (inner.flatten ++ g.references)

def edgeRecords (t : NodeTable) (g : Graph) : Except Fault (List EdgeRecord) := do
  (← g.relationships t).mapM (Relationship.record t)

/-- One line for each node and for each reference. -/
def describe (t : NodeTable) (g : Graph) : Except Fault (List String) := do
  let nodes ← (Assoc.values g.nodes).mapM t.identifier
  let references ← g.references.mapM (Relationship.describe t)
  pure (nodes ++ references)

end Graph

/-- A graph with the nodes it is made of, and its relationships to other graphs. -/
structure Atlas where
  table : NodeTable := {}
  graph : Graph := {}
  external : List ExternalRelationship := []

namespace Atlas

def onTable (act : Action NodeTable α) : Action Atlas α :=
  act.zoom Atlas.table (fun a table => { a with table })

def addNode (key : NodeKey) : Action Atlas Unit := do
  let a ← get
  let graph ← Action.ofExcept (a.graph.add a.table key)
  set { a with graph }

def addNodes (keys : List NodeKey) : Action Atlas Unit :=
  keys.forM addNode

def define (key : NodeKey) (members : List NodeKey) : Action Atlas Unit := do
  let a ← get
  let _ ← Action.ofExcept (a.table.definition key)
  set { a with table := a.table.appendMembers key members }

/-- Adds a member, which must be a folder or a file. -/
def containOne (key member : NodeKey) : Action Atlas Unit := do
  let a ← get
  let n := a.table.get? member
  if !n.any Node.containable then
    throw (.notContainable ((n.map Node.className).getD "NoneType"))
  set { a with table := a.table.appendMembers key [member] }

/-- Adds members to a folder, one after the other. -/
def contain (key : NodeKey) (members : List NodeKey) : Action Atlas Unit := do
  let _ ← Action.ofExcept ((← get).table.folder key)
  members.forM (containOne key)

/-- Adds the nodes at the given paths to a new graph, node by node, pruning each before. -/
def keepNodes (paths : Json) : List NodeKey → Graph → Action Atlas Graph
  | [], kept => pure kept
  | key :: keys, kept => do
    if ← Action.ofExcept ((← get).table.standsAt paths key) then
      onTable (NodeTable.keepMembersAt paths key)
      let kept ← Action.ofExcept (kept.add (← get).table key)
      keepNodes paths keys kept
    else keepNodes paths keys kept

def touches (t : NodeTable) (paths : Json) (r : Relationship) : Except Fault Bool := do
  if ← t.standsAt paths r.start then pure true else t.standsAt paths r.stop

/-- Keeps the nodes at the given paths, and the references that touch one of them. -/
def filter (paths : Json) : Action Atlas Unit := do
  let before ← get
  let kept ← keepNodes paths (Assoc.values before.graph.nodes) {}
  let a ← get
  let references ← Action.ofExcept (a.graph.references.filterM (touches a.table paths))
  set { a with graph := kept.addReferences references }

end Atlas
end CodeAtlas
