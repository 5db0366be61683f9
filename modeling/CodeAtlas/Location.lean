import CodeAtlas.Json.Access
import CodeAtlas.Text.Percent

namespace CodeAtlas

structure Point where
  line : Int
  character : Int
  deriving DecidableEq, Repr

structure Range where
  start : Point
  stop : Point
  deriving DecidableEq, Repr

def Range.zero : Range := ⟨⟨0, 0⟩, ⟨0, 0⟩⟩

/-- A point with any values for its line and its character. -/
structure Mark where
  line : Json
  character : Json

namespace Mark

def ofPoint (p : Point) : Mark :=
  ⟨.int p.line, .int p.character⟩

def toJson (m : Mark) : Json :=
  .obj [("line", m.line), ("character", m.character)]

def agrees (a b : Mark) : Bool :=
  a.line.agrees b.line && a.character.agrees b.character

/-- Are two marks the same as keys of a table? -/
def same (a b : Mark) : Bool :=
  a.line.same b.line && a.character.same b.character

/-- Compares by lines, and within a line by characters, as far as these can be compared. -/
def lt (a b : Mark) : Except Fault Bool :=
  if !a.line.same b.line then a.line.lt b.line
  else if !a.character.same b.character then a.character.lt b.character
  else .ok false

def le (a b : Mark) : Except Fault Bool :=
  if !a.line.same b.line then a.line.le b.line
  else if !a.character.same b.character then a.character.le b.character
  else .ok true

def ofJson (range : Json) (side : String) : Except Fault Mark := do
  let line ← (← range.field side).field "line"
  let character ← (← range.field side).field "character"
  pure ⟨line, character⟩

end Mark

structure Extent where
  start : Mark
  stop : Mark

def Extent.ofRange (r : Range) : Extent :=
  ⟨.ofPoint r.start, .ofPoint r.stop⟩

def Extent.agrees (a b : Extent) : Bool :=
  a.start.agrees b.start && a.stop.agrees b.stop

def Extent.zero : Extent := .ofRange .zero

def Extent.holdsLines (outer inner : Extent) : Except Fault Bool := do
  if ← outer.start.line.le inner.start.line then inner.stop.line.le outer.stop.line
  else pure false

/-- An extent of a file. The URI is kept percent-decoded. -/
structure Place where
  extent : Extent
  uri : String

namespace Place

def agrees (a b : Place) : Bool :=
  a.extent.agrees b.extent && a.uri == b.uri

/-- Decodes the name of a file, which must be a text. -/
def decodeUri : Json → Except Fault String
  | .str uri => .ok (Text.Percent.decode uri)
  | .arr names => .error (if names.any (Json.agrees (.str "%")) then .wrongType else .noMembers)
  | .obj members => .error (if Assoc.contains members "%" then .wrongType else .noMembers)
  | _ => .error .wrongType

/-- The place of an extent. The file must be named. -/
def make (extent : Extent) (uri : Json) : Except Fault Place := do
  if uri.isVoid then .error .noLocation else pure ⟨extent, ← decodeUri uri⟩

/-- Reads a place that a server answered. A void answer has no place. -/
def ofJson (value : Json) : Except Fault Place := do
  if value.isVoid then .error .noLocation
  else
    let range ← value.field "range"
    let start ← Mark.ofJson range "start"
    let stop ← Mark.ofJson range "end"
    pure ⟨⟨start, stop⟩, ← decodeUri (← value.field "uri")⟩

end Place
end CodeAtlas
