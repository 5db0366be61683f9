namespace CodeAtlas

/-- A number with a sign, of the size `mantissa * 2 ^ exponent`; an infinity; or no number. -/
inductive Number where
  | finite (negative : Bool) (mantissa : Nat) (exponent : Int)
  | infinite (negative : Bool)
  | undefined
  deriving DecidableEq, Repr

namespace Number

/-- The quotient to the nearest whole number, a half to the even one. -/
def nearestQuotient (numerator denominator : Nat) : Nat :=
  let whole := numerator / denominator
  match compare (2 * (numerator % denominator)) denominator with
  | .lt => whole
  | .gt => whole + 1
  | .eq => whole + whole % 2

def ofInt (n : Int) : Number :=
  .finite (n < 0) n.natAbs 0

def leastExponent : Int := -1074

def greatestExponent : Int := 971

/-- A quotient in units of a power of two, to the nearest whole number. -/
def inUnits (numerator denominator : Nat) (exponent : Int) : Nat :=
  if exponent < 0 then nearestQuotient (numerator * Nat.pow 2 (-exponent).toNat) denominator
  else nearestQuotient numerator (denominator * Nat.pow 2 exponent.toNat)

/-- A number of 53 bits or one more. What is too large is infinite. -/
def settle (negative : Bool) (mantissa : Nat) (exponent : Int) : Number :=
  let carried := mantissa ≥ Nat.pow 2 53
  let exponent := if carried then exponent + 1 else exponent
  if exponent > greatestExponent then .infinite negative
  else .finite negative (if carried then mantissa / 2 else mantissa) exponent

def ofQuotient (negative : Bool) (numerator denominator : Nat) : Number :=
  if numerator = 0 then .finite negative 0 leastExponent
  else
    let high : Int := (numerator.log2 : Int) - denominator.log2
    let units (exponent : Int) : Bool :=
      if exponent < 0 then numerator * Nat.pow 2 (-exponent).toNat < denominator * Nat.pow 2 53
      else numerator < denominator * Nat.pow 2 exponent.toNat * Nat.pow 2 53
    let exponent := if units (high - 53) then high - 53 else high - 52
    let exponent := max exponent leastExponent
    settle negative (inUnits numerator denominator exponent) exponent

/-- The rounded number that is nearest to `digits * 10 ^ power`. Powers that are out of reach are
not computed. -/
def ofDecimal (negative : Bool) (digits : Nat) (power : Int) : Number :=
  if digits = 0 then .finite negative 0 leastExponent
  else if power ≥ 0 then
    if digits.log2 + 3 * power > 1024 then .infinite negative
    else ofQuotient negative (digits * Nat.pow 10 power.toNat) 1
  else if digits.log2 + 1 + 3 * power < leastExponent - 1 then .finite negative 0 leastExponent
  else ofQuotient negative digits (Nat.pow 10 (-power).toNat)

def scale (power : Nat) : Number → Number
  | .finite negative mantissa exponent =>
    if mantissa.log2 + exponent + power ≥ 1024 then .infinite negative
    else .finite negative mantissa (exponent + power)
  | other => other

def isZero : Number → Bool
  | .finite _ mantissa _ => mantissa == 0
  | _ => false

def unitsOf (negative : Bool) (mantissa : Nat) (exponent least : Int) : Int :=
  let size : Int := mantissa * Nat.pow 2 (exponent - least).toNat
  if negative then -size else size

/-- The greatest whole number that is not above a finite number. -/
def floor : Number → Int
  | .finite negative mantissa exponent =>
    unitsOf negative mantissa exponent (min exponent 0) / Nat.pow 2 (-exponent).toNat
  | _ => 0

def successor : Number → Number
  | .finite negative mantissa exponent =>
    let least := min exponent 0
    let sum := unitsOf negative mantissa exponent least + unitsOf false 1 0 least
    ofQuotient (sum < 0) sum.natAbs (Nat.pow 2 (-least).toNat)
  | other => other

/-- Is a number a whole multiple of another that is not zero? -/
def isMultiple : Number → Number → Bool
  | .finite s m e, .finite t n f => unitsOf s m e (min e f) % unitsOf t n f (min e f) == 0
  | .finite _ m _, .infinite _ => m == 0
  | _, _ => false

/-- The order of two numbers by value. What is no number is in no order. -/
def order? : Number → Number → Option Ordering
  | .undefined, _ => none
  | _, .undefined => none
  | .infinite a, .infinite b => some (compare b.toNat a.toNat)
  | .infinite negative, .finite .. => some (if negative then .lt else .gt)
  | .finite .., .infinite negative => some (if negative then .gt else .lt)
  | .finite s m e, .finite t n f =>
    some (compare (unitsOf s m e (min e f)) (unitsOf t n f (min e f)))

end Number
end CodeAtlas
