import CodeAtlas.Number

namespace CodeAtlas.Number

structure Quotient where
  numerator : Nat
  denominator : Nat

namespace Quotient

def ofBinary (mantissa : Nat) (exponent : Int) : Quotient :=
  if exponent < 0 then ⟨mantissa, Nat.pow 2 (-exponent).toNat⟩
  else ⟨mantissa * Nat.pow 2 exponent.toNat, 1⟩

def ofDecimal (digits : Nat) (power : Int) : Quotient :=
  if power < 0 then ⟨digits, Nat.pow 10 (-power).toNat⟩
  else ⟨digits * Nat.pow 10 power.toNat, 1⟩

def lt (a b : Quotient) : Bool :=
  a.numerator * b.denominator < b.numerator * a.denominator

def le (a b : Quotient) : Bool :=
  a.numerator * b.denominator ≤ b.numerator * a.denominator

def wholeUnits (q : Quotient) (power : Int) : Nat :=
  if power < 0 then q.numerator * Nat.pow 10 (-power).toNat / q.denominator
  else q.numerator / (q.denominator * Nat.pow 10 power.toNat)

end Quotient

/-- The values that are nearer to a number than to its neighbours, with the ends if the mantissa is
even. Below a power of two the neighbour is only half as far. -/
structure Surroundings where
  low : Quotient
  high : Quotient
  closed : Bool

def surroundings (mantissa : Nat) (exponent : Int) : Surroundings :=
  let low :=
    if mantissa = Nat.pow 2 52 && exponent > leastExponent then
      Quotient.ofBinary (4 * mantissa - 1) (exponent - 2)
    else Quotient.ofBinary (2 * mantissa - 1) (exponent - 1)
  ⟨low, Quotient.ofBinary (2 * mantissa + 1) (exponent - 1), mantissa % 2 = 0⟩

def Surroundings.contains (s : Surroundings) (q : Quotient) : Bool :=
  if s.closed then s.low.le q && q.le s.high else s.low.lt q && q.lt s.high

def leadingPower (value : Quotient) (mantissa : Nat) (exponent : Int) : Int :=
  let guess := (((mantissa.log2 : Int) + exponent) * 30103).fdiv 100000
  if value.lt (.ofDecimal 1 guess) then guess - 1
  else if (Quotient.ofDecimal 1 (guess + 1)).le value then guess + 1
  else guess

/-- Digits and the power of ten of the last of them. -/
abbrev Decimal := Nat × Int

/-- Of the two decimals around a value in units of a power of ten, the nearer one that reads
back, if any does. -/
def decimalAt? (value : Quotient) (s : Surroundings) (power : Int) : Option Decimal :=
  let below := value.wholeUnits power
  let fits (digits : Nat) : Bool := s.contains (.ofDecimal digits power)
  let middle := Quotient.ofDecimal (10 * below + 5) (power - 1)
  let nearer := if value.lt middle || (value.le middle && below % 2 = 0) then below else below + 1
  let farther := if nearer = below then below + 1 else below
  if fits nearer then some (nearer, power)
  else if fits farther then some (farther, power)
  else none

/-- The first decimal that reads back, with one digit more at each step. -/
def firstDecimal (value : Quotient) (s : Surroundings) (first : Int) : Nat → Decimal
  | 0 => (value.wholeUnits (first - 16), first - 16)
  | left + 1 =>
    match decimalAt? value s (first - (16 - left)) with
    | some decimal => decimal
    | none => firstDecimal value s first left

def shortest (mantissa : Nat) (exponent : Int) : Decimal :=
  let value := Quotient.ofBinary mantissa exponent
  firstDecimal value (surroundings mantissa exponent) (leadingPower value mantissa exponent) 17

def dropZeros (digits : List Char) : List Char :=
  (digits.reverse.dropWhile (· == '0')).reverse

def zeros (n : Nat) : List Char :=
  List.replicate n '0'

/-- The power of ten as it is written after the mark, with a sign and at least two digits. -/
def powerText (power : Int) : List Char :=
  let digits := (toString power.natAbs).toList
  (if power < 0 then '-' else '+') :: (zeros (2 - digits.length) ++ digits)

/-- Lays out digits, of which `point` stand before the point. Numbers from `10 ^ 16` on and below
`10 ^ -4` have a power of ten. -/
def layOut (digits : List Char) (point : Int) : List Char :=
  if point > 16 || point ≤ -4 then
    let rest := digits.drop 1
    digits.take 1 ++ (if rest.isEmpty then [] else '.' :: rest) ++ 'e' :: powerText (point - 1)
  else if point ≤ 0 then '0' :: '.' :: (zeros (-point).toNat ++ digits)
  else
    let whole := digits.take point.toNat ++ zeros (point.toNat - digits.length)
    let rest := digits.drop point.toNat
    whole ++ '.' :: (if rest.isEmpty then ['0'] else rest)

structure Words where
  undefined : String
  infinite : String

def text (words : Words) : Number → String
  | .undefined => words.undefined
  | .infinite negative => (if negative then "-" else "") ++ words.infinite
  | .finite negative mantissa exponent =>
    let size :=
      if mantissa = 0 then ['0', '.', '0']
      else
        let (digits, power) := shortest mantissa exponent
        let written := (toString digits).toList
        layOut (dropZeros written) (power + written.length)
    (if negative then "-" else "") ++ String.ofList size

end CodeAtlas.Number
