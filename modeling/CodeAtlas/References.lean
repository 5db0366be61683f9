import CodeAtlas.Graph.Graph
import CodeAtlas.Hierarchy

namespace CodeAtlas.References
open Source

/-- How the definition `key` is used at an extent of the definition `user`. A use that the
language does not classify is a plain use. -/
def usageAt (l : Option Language) (t : NodeTable) (key : NodeKey) (e : Extent)
    (user : NodeKey) : Except Fault Language.Usage := do
  match (← t.definition user).cursor with
  | none => .error .noSyntaxTree
  | some c =>
    let n ← t.node key
    let at_ ← c.locate e
    let found ← match l with
      | some l => l.usage? n.label at_.chain
      | none => pure none
    pure (found.getD ⟨.uses, none⟩)

/-- The relationship that one place gives rise to. Places outside the project and in the
definition itself give none. -/
def relationshipAt (l : Option Language) (t : NodeTable) (g : Graph) (key : NodeKey)
    (place : Place) : Except Fault (Option Relationship) := do
  match g.fileAt? place.uri with
  | none => pure none
  | some file =>
    let user ← t.referenceSearch place.extent file
    if (← t.id key) == (← t.id user) then pure none
    else
      let usage ← usageAt l t key place.extent user
      pure (some ⟨user, key, usage.type, .str ((usage.scope.map SyntaxNode.text).getD "")⟩)

/-- The relationships to a definition from all places that refer to it, in their order. -/
def relationshipsTo (l : Option Language) (t : NodeTable) (g : Graph) (key : NodeKey)
    (places : List Place) : Except Fault (List Relationship) := do
  pure ((← places.mapM (relationshipAt l t g key)).filterMap (fun r => r))

end CodeAtlas.References
