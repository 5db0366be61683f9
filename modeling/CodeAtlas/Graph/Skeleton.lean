import CodeAtlas.Graph.Family

namespace CodeAtlas

/-- Where the body of a member stands in the source, and what takes its place. -/
structure Cut where
  start : Nat
  stop : Nat
  line : List UInt8

def dropNewline : List UInt8 → List UInt8
  | 10 :: rest => rest
  | bytes => bytes

/-- Makes the cuts one after the other. The offset leads from places in the source to places in
the text that is left, which begins one byte late; a cut takes one more byte on each side. -/
def cutOut (text : List UInt8) (offset : Int) : List Cut → List UInt8
  | [] => text
  | c :: cs =>
    let first := c.start + offset - 1
    let last := c.stop + offset + 1
    let rest := dropNewline (Text.dropTo last text)
    cutOut (Text.takeTo first text ++ c.line ++ rest)
      (offset + (c.line.length - (last - first))) cs

def skeletonText (node : Source.SyntaxNode) (cuts : List Cut) : String :=
  String.ofList (Text.Utf8.decodeKnown
    (cutOut (Text.Utf8.bytes node.text) (-(node.start.byte : Int) - 1) cuts))

def skeletonLine (hashedId : String) : String :=
  "# Code replaced for brevity, see node: " ++ hashedId ++ "\n"

namespace NodeTable

/-- The cut for a member, if it has a body. -/
def cut? (t : NodeTable) (key : NodeKey) : Except Fault (Option Cut) := do
  match (← t.definition key).body with
  | none => pure none
  | some body =>
    let hash ← t.hashedId key
    pure (some ⟨body.start.byte, body.stop.byte, Text.Utf8.bytes (skeletonLine hash)⟩)

def hasBody (t : NodeTable) (key : NodeKey) : Bool :=
  ((t.get? key).bind Node.definition?).any (fun d => d.body.isSome)

/-- Replaces the texts of a definition and of the definitions below it by their skeletons. A text
without bodies in it stays as it is, and what has no syntax tree has no skeleton. -/
def skeletonizeFrom : Nat → NodeKey → Action NodeTable Unit
  | 0, _ => throw .endlessMembers
  | depth + 1, key => do
    let t ← get
    match (← Action.ofExcept (t.definition key)).cursor with
    | none => pure ()
    | some cursor =>
      let members := t.members key
      let cuts := (← Action.ofExcept (members.mapM t.cut?)).filterMap (fun c => c)
      if !cuts.isEmpty then
        updateDefinition (fun d => { d with text := .str (skeletonText cursor.node cuts) }) key
      (members.filter t.hasBody).forM (skeletonizeFrom depth)

def skeletonize (key : NodeKey) : Action NodeTable Unit := do
  skeletonizeFrom (← get).depth key

end NodeTable
end CodeAtlas
