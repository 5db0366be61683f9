import CodeAtlas.Text.Expression
import CodeAtlas.Text.Pattern.Match

namespace CodeAtlas.Text

inductive Part where
  | char (c : Char)
  /-- The text of a group. Group zero is all that is replaced. -/
  | group (n : Nat)
  deriving DecidableEq, Repr

abbrev Replacement := List Part

namespace Replacement
open Expression

def groupOf (e : Expression) (name : String) : Except Fault Nat :=
  if isIdentifier name then
    match Assoc.get? e.names name with
    | some n => .ok n
    | none => .error (.groupNotFound name)
  else
    match wholeNumber? name with
    | some n => if n ≤ e.groups then .ok n else flaw
    | none => flaw

/-- The part that an escape stands for after its backslash, and what follows it. What is neither
letter nor digit keeps the backslash. -/
def escape (e : Expression) (c : Char) (rest : List Char) :
    Except Fault (Replacement × List Char) :=
  if c = 'g' then
    match rest with
    | '<' :: rest => do
      let (name, rest) ← orFlaw (Reading.upTo? '>' rest)
      pure ([.group (← groupOf e name)], rest)
    | _ => flaw
  else if c.isDigit then
    match numeral? c rest with
    | some (.char d, rest) => .ok ([.char d], rest)
    | some (.group n, rest) => if n ≤ e.groups then .ok ([.group n], rest) else flaw
    | none => flaw
  else if c = 'b' then .ok ([.char '\x08'], rest)
  else
    match control? c with
    | some d => .ok ([.char d], rest)
    | none => if c.isAlpha then flaw else .ok ([.char '\\', .char c], rest)

/-- Reads on, in at most as many steps as there are characters. -/
def read (e : Expression) : Nat → List Char → Except Fault Replacement
  | _, [] => .ok []
  | left + 1, '\\' :: c :: rest => do
    let (parts, rest) ← escape e c rest
    pure (parts ++ (← read e left rest))
  | left + 1, c :: rest => if c = '\\' then flaw else do pure (.char c :: (← read e left rest))
  | 0, _ => flaw

def ofText (e : Expression) (text : String) : Except Fault Replacement :=
  read e text.length text.toList

def hasGroup (r : Replacement) : Bool :=
  r.any fun
    | .char _ => false
    | .group _ => true

/-- Does a group end before it begins? -/
def isMisplaced (groups : Nat) (m : Marks) : Bool :=
  (List.range groups).any fun i => (m.span? (i + 1)).any fun (start, stop) => stop < start

/-- The text of a part that takes the place of a fit. A group without a text gives nothing. -/
def textOf (start stop : Cursor) : Part → List Char
  | .char c => [c]
  | .group 0 => start.rest.take (stop.index - start.index)
  | .group n => (stop.groupText? n).getD []

/-- What stands for a piece of a text. If groups are asked for, they must be in order. -/
def fill (groups : Nat) (r : Replacement) : Pattern.Span → Except Fault (List Char)
  | .kept c => .ok [c]
  | .found start stop =>
    if r.hasGroup && isMisplaced groups stop.marks then .error .groupMisplaced
    else .ok (r.flatMap (textOf start stop))

end Replacement

/-- Puts a replacement in the place of all that an expression fits. -/
def Expression.replaceAll (e : Expression) (r : Replacement) (text : String) :
    Except Fault String := do
  let pieces ← (e.pattern.spans text.toList).mapM (r.fill e.groups)
  pure (String.ofList pieces.flatten)

end CodeAtlas.Text
