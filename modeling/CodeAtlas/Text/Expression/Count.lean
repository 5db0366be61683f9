import CodeAtlas.Fault
import CodeAtlas.Text.Expression.Escape

namespace CodeAtlas.Text.Expression

def orFlaw (read : Option α) : Except Fault α :=
  match read with
  | some a => .ok a
  | none => .error .patternMalformed

def flaw : Except Fault α :=
  .error .patternMalformed

/-- The bounds after an opening brace, as digits, and what follows them. Between the braces stands a
number, or two with a comma between them of which each may be missing. -/
def bounds? (text : List Char) : Option (List Char × List Char × List Char) :=
  let (low, rest) := text.span Char.isDigit
  match rest with
  | '\x7d' :: rest => if low.isEmpty then none else some (low, low, rest)
  | ',' :: rest =>
    let (high, rest) := rest.span Char.isDigit
    match rest with
    | '\x7d' :: rest => some (low, high, rest)
    | _ => none
  | _ => none

/-- Numbers of times from here on are too large. -/
def tooOften : Nat := 4294967295

/-- The number of times that digits stand for, if there are any. -/
def timesOf (digits : List Char) : Except Fault (Option Nat) :=
  if digits.isEmpty then .ok none
  else if mostDigits < digits.length then .error (.tooManyDigits mostDigits digits.length)
  else
    let n := valueIn 10 digits
    if tooOften ≤ n then .error .repeatTooLarge else .ok (some n)

/-- How often a part may stand, if this is said at the beginning of a text, and what follows. -/
def count? : List Char → Option (Except Fault (Nat × Option Nat) × List Char)
  | '?' :: rest => some (.ok (0, some 1), rest)
  | '*' :: rest => some (.ok (0, none), rest)
  | '+' :: rest => some (.ok (1, none), rest)
  | '\x7b' :: rest => (bounds? rest).map fun (low, high, rest) =>
    (do
      let least := (← timesOf low).getD 0
      let most ← timesOf high
      if most.any (· < least) then flaw else pure (least, most), rest)
  | _ => none

/-- What is tried first, and what follows. -/
def manner : List Char → Manner × List Char
  | '?' :: rest => (.fewestFirst, rest)
  | '+' :: rest => (.mostOnly, rest)
  | rest => (.mostFirst, rest)

end CodeAtlas.Text.Expression
