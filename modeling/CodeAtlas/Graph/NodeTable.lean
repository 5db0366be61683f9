import CodeAtlas.Action
import CodeAtlas.Graph.Node

namespace CodeAtlas

structure NodeTable where
  nodes : Array Node := #[]
  groups : Array (List NodeKey) := #[]
  /-- The characters that stand for bytes of names that are no text. -/
  strays : List Char := []

namespace NodeTable

def get? (t : NodeTable) (key : NodeKey) : Option Node :=
  t.nodes[key]?

/-- The node at a place. Of a place without a node nothing can be asked. -/
def node (t : NodeTable) (key : NodeKey) : Except Fault Node :=
  match t.get? key with
  | some n => .ok n
  | none => .error .noMembers

def members (t : NodeTable) (key : NodeKey) : List NodeKey :=
  match t.get? key with
  | some n => (t.groups[n.members]?).getD []
  | none => []

def modify (t : NodeTable) (key : NodeKey) (f : Node → Node) : NodeTable :=
  { t with nodes := t.nodes.modify key f }

/-- Adds members to the list of a node, also for the nodes that share it. -/
def appendMembers (t : NodeTable) (key : NodeKey) (added : List NodeKey) : NodeTable :=
  match t.get? key with
  | some n => { t with groups := t.groups.modify n.members (· ++ added) }
  | none => t

def replaceMembers (t : NodeTable) (key : NodeKey) (list : List NodeKey) : NodeTable :=
  { t.modify key (fun n => { n with members := t.groups.size }) with
    groups := t.groups.push list }

def trailBelow (t : NodeTable) (parent : Option NodeKey) (own : Segment) : List Segment :=
  ((parent.bind t.get?).map Node.trail).getD [] ++ [own]

/-- Adds a node with an empty member list. Its path must be a URI. -/
def insert (content : Content) (path : String) (name level : Json) (parent : Option NodeKey)
    (environment : Option Environment) : Action NodeTable NodeKey := do
  if !Path.isUri path then throw (.pathNotUri path)
  let t ← get
  let key := t.nodes.size
  let trail := match content with
    | .bare _ => t.trailBelow parent .unnamed
    | .deleted _ => [.removed key]
    | .folder => t.trailBelow parent (.named "/" name)
    | .definition d => t.trailBelow parent (.named d.scope.mark name)
  set ({ t with
    nodes := t.nodes.push
      { content, path, name, level, parent, trail, environment, members := t.groups.size }
    groups := t.groups.push [] } : NodeTable)
  pure key

/-- A second node with the same attributes, which shares the member list. -/
def snapshot (key : NodeKey) : Action NodeTable NodeKey := do
  let t ← get
  let n ← Action.ofExcept (t.node key)
  let trail := match n.content with
    | .deleted _ => [.removed t.nodes.size]
    | _ => n.trail
  set ({ t with nodes := t.nodes.push { n with trail } } : NodeTable)
  pure t.nodes.size

def segmentText (t : NodeTable) : Segment → Except Fault String
  | .named mark name => do pure (mark ++ (← name.toText))
  | .unnamed => .error .noIdentifier
  | .removed key => do
    let n ← t.node key
    match n.environment with
    | some e => e.belowRoot (.str n.purePath)
    | none => .error .noEnvironment

/-- The names from the outermost enclosing node to this one, however many nodes enclose it. -/
def identifier (t : NodeTable) (key : NodeKey) : Except Fault String := do
  let n ← t.node key
  let texts ← n.trail.mapM t.segmentText
  pure (String.join texts)

/-- The identifier with the environment in front, if there is one. -/
def id (t : NodeTable) (key : NodeKey) : Except Fault String := do
  let n ← t.node key
  let own ← t.identifier key
  pure ((n.environment.map Environment.spelling).getD "" ++ own)

def hashedId (t : NodeTable) (key : NodeKey) : Except Fault String := do
  let id ← t.id key
  Digest.check t.strays id
  pure (Digest.hex id)

def definition (t : NodeTable) (key : NodeKey) : Except Fault Definition := do
  let n ← t.node key
  match n.content with
  | .definition d => pure d
  | _ => .error .notDefinition

def folder (t : NodeTable) (key : NodeKey) : Except Fault Node := do
  let n ← t.node key
  match n.content with
  | .folder => pure n
  | _ => .error .notFolder

def definitionAttributes (d : Definition) (attributes : Json.Members) : Json.Members :=
  let merged := d.extraAttributes.foldl (fun m e => Assoc.insert m e.1.keyName e.2) attributes
  let lined := match d.scope with
    | .file => merged
    | _ => Assoc.insert (Assoc.insert merged "start_line" d.range.extent.start.line)
        "end_line" d.range.extent.stop.line
  Assoc.insert lined "text" d.text

def record (t : NodeTable) (key : NodeKey) : Except Fault NodeRecord := do
  let n ← t.node key
  let hash ← t.hashedId key
  let id ← t.id key
  let environment ← match n.environment with
    | some e => Except.ok e
    | none => Except.error Fault.noEnvironment
  let attributes : Json.Members :=
    [("label", .str n.label.name), ("path", .str n.path), ("node_id", .str hash),
     ("node_path", .str id), ("name", n.name), ("level", n.level),
     ("hashed_id", .str hash), ("diff_identifier", environment.change)]
  match n.content with
  | .definition d => pure ⟨n.label, d.extraLabels, definitionAttributes d attributes⟩
  | _ => pure ⟨n.label, [], attributes⟩

end NodeTable
end CodeAtlas
