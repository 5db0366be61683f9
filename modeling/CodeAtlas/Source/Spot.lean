namespace CodeAtlas.Source

/-- The offset of a place, the number of line feeds before it, and the number of bytes between the
last of them and the place. -/
structure Spot where
  byte : Nat
  row : Nat
  column : Nat
  deriving DecidableEq, Repr

namespace Spot

def zero : Spot := ⟨0, 0, 0⟩

def afterChar (s : Spot) (c : Char) : Spot :=
  if c = '\n' then ⟨s.byte + 1, s.row + 1, 0⟩
  else ⟨s.byte + c.utf8Size, s.row, s.column + c.utf8Size⟩

def after (s : Spot) (text : String) : Spot :=
  text.toList.foldl afterChar s

def describe (s : Spot) : String :=
  "Point(row=" ++ toString s.row ++ ", column=" ++ toString s.column ++ ")"

end Spot
end CodeAtlas.Source
