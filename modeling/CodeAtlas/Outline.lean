import CodeAtlas.Graph.Node
import CodeAtlas.Language

namespace CodeAtlas
open Source

structure Sketch where
  scope : Scope
  name : String
  nameRange : Range
  cursor : Cursor
  body : Option SyntaxNode

def Sketch.definition (s : Sketch) (nameRange range : Place) : Definition :=
  { scope := s.scope
    nameRange
    range
    text := .str s.cursor.node.text
    body := s.body
    cursor := some s.cursor }

inductive Outline where
  | of (sketch : Sketch) (members : List Outline)

namespace Outline

def bodyOf (l : Language) (n : SyntaxNode) : Option SyntaxNode :=
  match l.bodyNode n with
  | .ok body => body
  | .error _ => none

/-- Reads a definition. It must have a name. -/
def sketch (l : Language) (c : Cursor) : Except Fault Sketch := do
  let name ← Language.nameNode c.node
  let scope ← Scope.ofLabel (← l.labelOf c.node.kind)
  pure ⟨scope, name.text, name.range, c, bodyOf l c.node⟩

/-- The definitions that were read, and the fault that ended the reading, if any. -/
structure Reading where
  members : List Outline := []
  fault : Option Fault := none

mutual
/-- Reads the definitions at and below a node, through its named children. Unlike in values and in
expressions, nothing bounds how deep they lie in each other. -/
def read (l : Language) (above : List SyntaxNode) : SyntaxNode → Reading
  | .mk kind field named start stop text children =>
    let node := SyntaxNode.mk kind field named start stop text children
    if l.isDefinition node then
      match sketch l ⟨node, above⟩ with
      | .error fault => ⟨[], some fault⟩
      | .ok s =>
        let below := readAll l (node :: above) children
        ⟨[.of s below.members], below.fault⟩
    else readAll l (node :: above) children

def readAll (l : Language) (above : List SyntaxNode) : List SyntaxNode → Reading
  | [] => {}
  | n :: ns =>
    let first := if n.named then read l above n else {}
    if first.fault.isSome then first
    else
      let rest := readAll l above ns
      ⟨first.members ++ rest.members, rest.fault⟩
end

end Outline
end CodeAtlas
