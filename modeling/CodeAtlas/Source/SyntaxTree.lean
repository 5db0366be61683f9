import CodeAtlas.Location
import CodeAtlas.Text.Utf8

namespace CodeAtlas.Source

/-- A written tree: text, or a node with its pieces. A child may be unnamed and may have a field. -/
inductive Piece where
  | text (content : String)
  | node (kind : String) (field : Option String) (named : Bool) (pieces : List Piece)

inductive SyntaxNode where
  | mk (kind : String) (field : Option String) (named : Bool) (start stop : Spot) (text : String)
    (children : List SyntaxNode)

namespace SyntaxNode

def kind : SyntaxNode → String
  | mk kind .. => kind

def field : SyntaxNode → Option String
  | mk _ field .. => field

def named : SyntaxNode → Bool
  | mk _ _ named .. => named

def start : SyntaxNode → Spot
  | mk _ _ _ start .. => start

def stop : SyntaxNode → Spot
  | mk _ _ _ _ stop .. => stop

def text : SyntaxNode → String
  | mk _ _ _ _ _ text _ => text

def children : SyntaxNode → List SyntaxNode
  | mk _ _ _ _ _ _ children => children

def namedChildren (n : SyntaxNode) : List SyntaxNode :=
  n.children.filter named

def child? (n : SyntaxNode) (field : String) : Option SyntaxNode :=
  n.children.find? (fun c => c.field == some field)

mutual
/-- The node and all below it, each before its children. -/
def preorder : SyntaxNode → List SyntaxNode
  | mk kind field named start stop text children =>
    mk kind field named start stop text children :: preorderAll children

def preorderAll : List SyntaxNode → List SyntaxNode
  | [] => []
  | n :: ns => preorder n ++ preorderAll ns
end

end SyntaxNode

def Spot.point (s : Spot) : Point :=
  ⟨s.row, s.column⟩

def SyntaxNode.range (n : SyntaxNode) : Range :=
  ⟨n.start.point, n.stop.point⟩

mutual
def Piece.source : Piece → String
  | .text content => content
  | .node _ _ _ pieces => sourceAll pieces

def sourceAll : List Piece → String
  | [] => ""
  | piece :: pieces => piece.source ++ sourceAll pieces
end

mutual
/-- Lays out a piece from the given place on: plain text gives no node. -/
def Piece.layOut (start : Spot) : Piece → List SyntaxNode
  | .text _ => []
  | .node kind field named pieces =>
    let text := sourceAll pieces
    [.mk kind field named start (start.after text) text (layOutAll start pieces)]

def layOutAll (start : Spot) : List Piece → List SyntaxNode
  | [] => []
  | piece :: pieces => piece.layOut start ++ layOutAll (start.after piece.source) pieces
end

/-- A node and the nodes that enclose it, the nearest first. -/
structure Cursor where
  node : SyntaxNode
  above : List SyntaxNode

namespace Cursor

def chain (c : Cursor) : List SyntaxNode :=
  c.node :: c.above

def root (node : SyntaxNode) : Cursor :=
  ⟨node, []⟩

/-- The children of the node, each with the node above it. -/
def children (c : Cursor) : List Cursor :=
  c.node.children.map (fun n => ⟨n, c.node :: c.above⟩)

end Cursor

def Spot.mark (s : Spot) : Mark :=
  .ofPoint s.point

mutual
/-- The smallest node around an extent: goes into the first child that ends after the start of the
extent and not before its end, unless that child begins after the start. -/
def SyntaxNode.locate (e : Extent) (above : List SyntaxNode) : SyntaxNode → Except Fault Cursor
  | .mk kind field named start stop text children =>
    locateIn e (.mk kind field named start stop text children) above children

def locateIn (e : Extent) (node : SyntaxNode) (above : List SyntaxNode) :
    List SyntaxNode → Except Fault Cursor
  | [] => .ok ⟨node, above⟩
  | child :: others => do
    let short ← child.stop.mark.lt e.stop
    let passed ← if short then pure true else child.stop.mark.le e.start
    if passed then locateIn e node above others
    else if ← e.start.lt child.start.mark then pure ⟨node, above⟩
    else child.locate e (node :: above)
end

/-- The smallest node around an extent at or below the cursor. -/
def Cursor.locate (e : Extent) (c : Cursor) : Except Fault Cursor :=
  c.node.locate e c.above

end CodeAtlas.Source
