import CodeAtlas.Template

namespace CodeAtlas.Build

/-- Is the item at an index reported on, if every `interval`-th is? A text is a template, which the
interval fills in, and is never due. -/
def isDue (index interval : Json) : Except Fault Bool :=
  match index, interval with
  | .str template, _ => do
    Template.fill template interval
    pure false
  | .real _, _ | _, .real _ => do
    let x ← index.toNumber
    let y ← interval.toNumber
    if y.isZero then .error .divisionByZero else pure (x.isMultiple y)
  | _, _ => do
    let n ← index.toInt
    let m ← interval.toInt
    if m = 0 then .error .divisionByZero else pure (n % m == 0)

/-- About ten reports in all, or one for each of fewer items. -/
def reportInterval (total : Nat) : Nat :=
  max 1 (total / 10)

/-- The quotient to the nearest whole number, a half to the even one. -/
def nearest (numerator denominator : Nat) : Nat :=
  let whole := numerator / denominator
  match compare (2 * (numerator % denominator)) denominator with
  | .lt => whole
  | .gt => whole + 1
  | .eq => whole + whole % 2

def percentage (part whole : Nat) : String :=
  let hundredths := nearest (10000 * part) whole
  let places := hundredths % 100
  toString (hundredths / 100) ++ "." ++ (if places < 10 then "0" else "") ++ toString places ++ "%"

def fileReport (name : String) (index total : Nat) : String :=
  "Processing file " ++ name ++ ": " ++ toString (index + 1) ++ "/" ++ toString total ++ " -- " ++
    percentage index total

/-- The line after a file. No time is measured. -/
def timeReport (name : String) (count : Nat) : String :=
  "Execution time for " ++ name ++ ": 0.00 seconds, relationship count: " ++ toString count

end CodeAtlas.Build
