import CodeAtlas.Text.Pattern

namespace CodeAtlas.Text.Expression

def isOctal (c : Char) : Bool :=
  '0' ≤ c && c ≤ '7'

/-- The value of a digit of ASCII, also of one beyond nine. -/
def hexDigit? (c : Char) : Option Nat :=
  if c.isDigit then some (c.toNat - 48)
  else if 'a' ≤ c && c ≤ 'f' then some (c.toNat - 87)
  else if 'A' ≤ c && c ≤ 'F' then some (c.toNat - 55)
  else none

def valueIn (base : Nat) (digits : List Char) : Nat :=
  digits.foldl (fun n c => base * n + (hexDigit? c).getD 0) 0

/-- The character of a number of hexadecimal digits, and what follows them. -/
def coded? (width : Nat) (text : List Char) : Option (Char × List Char) :=
  let digits := text.take width
  let code := valueIn 16 digits
  if digits.length = width && digits.all (fun c => (hexDigit? c).isSome) && code.isValidChar then
    some (Char.ofNat code, text.drop width)
  else none

/-- The character of octal digits. Three of them may be too many. -/
def octal? (digits : List Char) : Option Char :=
  let code := valueIn 8 digits
  if code < 256 then some (Char.ofNat code) else none

def octalRest (text : List Char) : List Char × List Char :=
  let digits := (text.take 2).takeWhile isOctal
  (digits, text.drop digits.length)

def control? : Char → Option Char
  | 'a' => some '\x07'
  | 'f' => some '\x0c'
  | 'n' => some '\n'
  | 'r' => some '\r'
  | 't' => some '\t'
  | 'v' => some '\x0b'
  | '\\' => some '\\'
  | _ => none

/-- What digits after a backslash stand for. -/
inductive Numeral where
  | char (c : Char)
  | group (n : Nat)
  deriving DecidableEq, Repr

/-- What a digit and those after it stand for, and what follows them. A zero, or three octal digits,
give a character; else one or two digits number a group. -/
def numeral? (c : Char) (text : List Char) : Option (Numeral × List Char) :=
  let three := (c :: text).take 3
  if c = '0' then
    let (digits, rest) := octalRest text
    (octal? digits).map (.char ·, rest)
  else if three.length = 3 && three.all isOctal then (octal? three).map (.char ·, text.drop 2)
  else
    let second := (text.take 1).takeWhile Char.isDigit
    some (.group (valueIn 10 (c :: second)), text.drop second.length)

/-- The kind of characters that a letter stands for, and whether they are wanted. -/
def kind? : Char → Option (Kind × Bool)
  | 'd' => some (.digit, true)
  | 'D' => some (.digit, false)
  | 's' => some (.blank, true)
  | 'S' => some (.blank, false)
  | 'w' => some (.word, true)
  | 'W' => some (.word, false)
  | _ => none

/-- The character that an escape stands for, and what follows it. Other letters give no escape, and
what is neither letter nor digit stands for itself. -/
def escaped? (c : Char) (rest : List Char) : Option (Char × List Char) :=
  match control? c with
  | some d => some (d, rest)
  | none =>
    match c with
    | 'x' => coded? 2 rest
    | 'u' => coded? 4 rest
    | 'U' => coded? 8 rest
    | c => if c.isAlphanum then none else some (c, rest)

end CodeAtlas.Text.Expression
