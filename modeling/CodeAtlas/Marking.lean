import CodeAtlas.Action
import CodeAtlas.Json.Access
import CodeAtlas.Json.Spelling
import CodeAtlas.Text.Replacement

namespace CodeAtlas.Marking
open Text

/-- The expression of the uses of a name. The name is not taken literally: it is an expression
itself. -/
def useOf (name : String) : String :=
  "\\b" ++ name ++ "\\b(?=\\s*\\(|\\s*\\.|\\s*:)"

def markOf (name : String) : String :=
  "<<<" ++ name ++ ">>>"

/-- Marks the uses of a name in a text. The name is read in its expression and in its mark before
the text is looked at. -/
def markName (name : String) (text : Json) : Except Fault String := do
  let e ← Expression.ofText (useOf name)
  let mark ← Replacement.ofText e (markOf name)
  match text with
  | .str text => e.replaceAll mark text
  | _ => .error .wrongType

def nameOf (node : Json) : Except Fault String := do
  pure (← (← node.field "attributes").field "name").spelling

def markNode (name : String) (text node : Json) : Except Fault Json := do
  let text ← markName name text
  match node with
  | .obj members =>
    match Assoc.get? members "attributes" with
    | some (.obj attributes) =>
      pure (.obj (Assoc.insert members "attributes"
        (.obj (Assoc.insert attributes "text" (.str text)))))
    | _ => .error .noMembers
  | _ => .error .noMembers

/-- Marks names one after the other, and counts how often a node had no text to mark. A fault
leaves the node as it was marked before. -/
def markNames (node : Json) (missing : Nat) : List String → Json × Nat × Option Fault
  | [] => (node, missing, none)
  | name :: names =>
    match (node.member? "attributes").bind (Json.member? "text") with
    | none => markNames node (missing + 1) names
    | some text =>
      if text.isVoid then markNames node (missing + 1) names
      else match markNode name text node with
        | .ok node => markNames node missing names
        | .error fault => (node, missing, some fault)

/-- Marks names in the nodes one after the other. A fault leaves the nodes behind it untouched. -/
def markNodes (names : List String) : List Json → Nat → List Json × Nat × Option Fault
  | [], missing => ([], missing, none)
  | node :: nodes, missing =>
    match markNames node missing names with
    | (node, missing, some fault) => (node :: nodes, missing, some fault)
    | (node, missing, none) =>
      let (nodes, missing, fault) := markNodes names nodes missing
      (node :: nodes, missing, fault)

/-- What marking has come to: the nodes, the lines that were printed, and the fault that ended it,
if any. -/
structure Marked where
  nodes : List Json
  printed : List String
  fault : Option Fault

/-- Marks the names of all nodes in the texts of all nodes. -/
def markAll (nodes : List Json) : Marked :=
  match nodes.mapM nameOf with
  | .error fault => ⟨nodes, [], some fault⟩
  | .ok names =>
    let (nodes, missing, fault) := markNodes names nodes 0
    ⟨nodes, List.replicate missing "Node does not have attributes or text", fault⟩

end CodeAtlas.Marking
