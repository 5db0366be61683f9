import CodeAtlas.Graph.NodeTable

namespace CodeAtlas

/-- A relationship as it is stored. Between two graphs it has no text. -/
structure EdgeRecord where
  source : Json
  target : Json
  type : RelationType
  text : Option Json

def EdgeRecord.toJson (r : EdgeRecord) : Json :=
  let ends : Json.Members :=
    [("sourceId", r.source), ("targetId", r.target), ("type", .str r.type.name)]
  let text : Json.Members := match r.text with
    | some text => [("scopeText", text)]
    | none => []
  .obj (ends ++ text)

/-- A relationship, with the text of the code that shows it, if it is known. -/
structure Relationship where
  start : NodeKey
  stop : NodeKey
  type : RelationType
  text : Json := .str ""

namespace Relationship

def record (t : NodeTable) (r : Relationship) : Except Fault EdgeRecord := do
  let source ← t.hashedId r.start
  let target ← t.hashedId r.stop
  pure ⟨.str source, .str target, r.type, some r.text⟩

/-- The identifier of one end. An end without a node is named so. -/
def endText (t : NodeTable) (key : NodeKey) : Except Fault String :=
  if (t.get? key).isSome then t.identifier key else .ok "None"

def describe (t : NodeTable) (r : Relationship) : Except Fault String := do
  let start ← endText t r.start
  let stop ← endText t r.stop
  pure (start ++ " --[RelationshipType." ++ r.type.name ++ "]-> " ++ stop)

def defines (t : NodeTable) (key member : NodeKey) : Except Fault Relationship := do
  match (← t.node member).label with
  | .function => pure ⟨key, member, .functionDefinition, .str ""⟩
  | .class_ => pure ⟨key, member, .classDefinition, .str ""⟩
  | other => .error (.notDefinable other)

def contains (key member : NodeKey) : Relationship :=
  ⟨key, member, .contains, .str ""⟩

end Relationship

def NodeTable.relationships (t : NodeTable) (key : NodeKey) : Except Fault (List Relationship) := do
  match (← t.node key).content with
  | .folder => pure ((t.members key).map (Relationship.contains key))
  | .definition _ => (t.members key).mapM (Relationship.defines t key)
  | _ => pure []

structure ExternalRelationship where
  source : Json
  target : Json
  type : RelationType

def ExternalRelationship.record (r : ExternalRelationship) : EdgeRecord :=
  ⟨r.source, r.target, r.type, none⟩

end CodeAtlas
