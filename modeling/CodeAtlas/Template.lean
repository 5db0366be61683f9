import CodeAtlas.Json.Access

namespace CodeAtlas.Template

/-- What fills a template: a value that is used once. In a list or an object a value may be looked
up for each place. -/
structure Filling where
  value : Json
  table : Option Json
  used : Bool := false

namespace Filling

def of (value : Json) : Filling :=
  match value with
  | .arr _ | .obj _ => ⟨value, some value, false⟩
  | _ => ⟨value, none, false⟩

/-- The value, if it is still unused. -/
def take (f : Filling) : Except Fault (Json × Filling) :=
  if f.used then .error .wrongType else .ok (f.value, { f with used := true })

/-- Is all used that must be? -/
def isComplete (f : Filling) : Bool :=
  f.used || f.table.isSome

end Filling

/-- The key up to its closing parenthesis, and what follows it. Parentheses in it are balanced. -/
def key? : Nat → List Char → List Char → Option (String × List Char)
  | _, _, [] => none
  | 0, got, ')' :: rest => some (String.ofList got.reverse, rest)
  | depth + 1, got, ')' :: rest => key? depth (')' :: got) rest
  | depth, got, '(' :: rest => key? (depth + 1) ('(' :: got) rest
  | depth, got, c :: rest => key? depth (c :: got) rest

def atKey (f : Filling) : List Char → Except Fault (Filling × List Char)
  | '(' :: rest =>
    match f.table, key? 0 [] rest with
    | none, _ => .error .wrongType
    | _, none => .error (.templateMalformed .keyUnfinished)
    | some table, some (key, rest) => do
      pure ({ f with value := ← table.field key, used := false }, rest)
  | rest => .ok (f, rest)

def digitsValue (digits : List Char) : Nat :=
  digits.foldl (fun n c => 10 * n + (c.toNat - 48)) 0

/-- Reads a number below a bound, which is a flaw to reach. A star takes the number from the value
and leaves none of it. -/
def places (bound : Nat) (flaw : TemplateFlaw) (f : Filling) :
    List Char → Except Fault (Nat × Filling × List Char)
  | '*' :: rest => do
    let (value, f) ← f.take
    let n ← value.toInt
    if -(bound : Int) ≤ n && n < bound then pure (0, f, rest) else .error .numberTooLarge
  | rest =>
    let n := digitsValue (rest.takeWhile Char.isDigit)
    if n < bound then .ok (n, f, rest.dropWhile Char.isDigit)
    else .error (.templateMalformed flaw)

def width (f : Filling) (rest : List Char) : Except Fault (Nat × Filling × List Char) :=
  places (Nat.pow 2 63) .widthTooBig f rest

def precision (f : Filling) : List Char → Except Fault (Nat × Filling × List Char)
  | '.' :: rest => places (Nat.pow 2 31) .precisionTooBig f rest
  | rest => .ok (0, f, rest)

def isFlag (c : Char) : Bool :=
  ['-', '+', ' ', '#', '0'].contains c

/-- Passes over a letter that says how long a number is. -/
def dropLength : List Char → List Char
  | 'h' :: rest | 'l' :: rest | 'L' :: rest => rest
  | rest => rest

/-- Is the value a whole number, or one that can be cut to one? -/
def checkCut : Json → Except Fault Unit
  | .real (.infinite _) => .error .numberTooLarge
  | .real .undefined => .error (.templateMalformed .noNumber)
  | .real _ => .ok ()
  | value => do let _ ← value.toInt

def checkCharacter : Json → Except Fault Unit
  | .str s => if s.length = 1 then .ok () else .error .wrongType
  | value => do
    let n ← value.toInt
    if 0 ≤ n && n < 0x110000 then pure () else .error .numberTooLarge

def mostDigits : Nat := Nat.pow 2 31 - 4

def checkDigits (digits : Nat) : Except Fault Unit :=
  if digits ≤ mostDigits then .ok () else .error .numberTooLarge

/-- There is no room for a place that is as wide as this. -/
def unboundedWidth : Nat := Nat.pow 2 36

def checkRoom (width : Nat) : Except Fault Unit :=
  if width < unboundedWidth then .ok () else .error .outOfMemory

/-- Is the value of the kind that the letter at an index asks for? -/
def check (letter : Char) (index digits : Nat) (value : Json) : Except Fault Unit :=
  if ['s', 'r', 'a'].contains letter then .ok ()
  else if ['d', 'i', 'u'].contains letter then do
    checkCut value
    checkDigits digits
  else if ['o', 'x', 'X'].contains letter then do
    let _ ← value.toInt
    checkDigits digits
  else if ['e', 'E', 'f', 'F', 'g', 'G'].contains letter then do let _ ← value.toNumber
  else if letter = 'c' then checkCharacter value
  else .error (.templateMalformed (.letter letter index))

/-- Fills in the rest of a template of some length, in as many steps as it has characters. Two
percent signs stand for one. -/
def fillFrom (length : Nat) : Nat → Filling → List Char → Except Fault Filling
  | left + 1, f, '%' :: '%' :: rest => fillFrom length left f rest
  | left + 1, f, '%' :: rest => do
    let (f, rest) ← atKey f rest
    let (width, f, rest) ← width f (rest.dropWhile isFlag)
    let (digits, f, rest) ← precision f rest
    match dropLength rest with
    | [] => .error (.templateMalformed .unfinished)
    | letter :: rest => do
      let (value, f) ← f.take
      check letter (length - rest.length - 1) digits value
      checkRoom width
      fillFrom length left f rest
  | left + 1, f, _ :: rest => fillFrom length left f rest
  | _, f, _ => .ok f

/-- Can a value fill a template? It must be used, unless values can be looked up in it. -/
def fill (template : String) (value : Json) : Except Fault Unit := do
  let f ← fillFrom template.length template.length (.of value) template.toList
  if f.isComplete then pure () else .error .wrongType

end CodeAtlas.Template
