import CodeAtlas.Text.Expression.Escape

namespace CodeAtlas.Text.Expression

structure Flags where
  ignoreCase : Bool := false
  asciiOnly : Bool := false
  /-- Every line has its own beginning and end. -/
  manyLines : Bool := false
  /-- A period stands for a line break too. -/
  dotAll : Bool := false
  /-- White space and comments stand for nothing. -/
  spaced : Bool := false
  deriving DecidableEq, Repr

namespace Flags

def likeness (f : Flags) : Likeness :=
  if !f.ignoreCase then .exact else if f.asciiOnly then .ascii else .full

def put (on : Bool) (f : Flags) : Char → Flags
  | 'i' => { f with ignoreCase := on }
  | 'a' => { f with asciiOnly := on }
  | 'u' => { f with asciiOnly := !on }
  | 'm' => { f with manyLines := on }
  | 's' => { f with dotAll := on }
  | 'x' => { f with spaced := on }
  | _ => f

end Flags

/-- The first member between square brackets, and what follows it. -/
def member? (asciiOnly : Bool) : List Char → Option (Member × List Char)
  | [] => none
  | '\\' :: c :: rest =>
    if c = 'b' then some (.range '\x08' '\x08', rest)
    else if isOctal c then
      let (digits, rest) := octalRest rest
      (octal? (c :: digits)).map fun d => (.range d d, rest)
    else
      match kind? c with
      | some (k, wanted) => some (.kind k asciiOnly wanted, rest)
      | none => (escaped? c rest).map fun (d, rest) => (.range d d, rest)
  | c :: rest => some (.range c c, rest)

/-- The members between square brackets, and what follows them, in a number of steps. A bracket that
closes at once stands for itself, and a hyphen between two characters gives a range. -/
def readMembers (asciiOnly : Bool) :
    Nat → List Char → List Member → Option (List Member × List Char)
  | 0, _, _ => none
  | left + 1, text, members =>
    if text.head? = some ']' && !members.isEmpty then some (members.reverse, text.tail)
    else do
      let (m, rest) ← member? asciiOnly text
      match rest with
      | '-' :: ']' :: rest => some ((.range '-' '-' :: m :: members).reverse, rest)
      | '-' :: rest => do
        let (n, rest) ← member? asciiOnly rest
        match m, n with
        | .range first _, .range last _ =>
          if last < first then none
          else readMembers asciiOnly left rest (.range first last :: members)
        | _, _ => none
      | rest => readMembers asciiOnly left rest (m :: members)

/-- The set after an opening bracket, and what follows it. -/
def set? (f : Flags) (text : List Char) : Option (CharSet × List Char) :=
  let (among, text) := match text with
    | '^' :: rest => (false, rest)
    | text => (true, text)
  (readMembers f.asciiOnly text.length text []).map fun (members, rest) =>
    (⟨members, among, f.likeness⟩, rest)

end CodeAtlas.Text.Expression
