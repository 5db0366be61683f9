import CodeAtlas.Fault
import CodeAtlas.Json
import CodeAtlas.Text.Digit

namespace CodeAtlas.Json
namespace Reading

def skipBlank (cs : List Char) : List Char :=
  cs.dropWhile (fun c => c = ' ' || c = '\t' || c = '\n' || c = '\r')

def hexValue? (c : Char) : Option Nat :=
  if '0' ≤ c && c ≤ '9' then some (c.toNat - 48)
  else if 'a' ≤ c && c ≤ 'f' then some (c.toNat - 87)
  else if 'A' ≤ c && c ≤ 'F' then some (c.toNat - 55)
  else none

def unit? : List Char → Option (Nat × List Char)
  | a :: b :: c :: d :: rest => do
    let a ← hexValue? a
    let b ← hexValue? b
    let c ← hexValue? c
    let d ← hexValue? d
    pure (((a * 16 + b) * 16 + c) * 16 + d, rest)
  | _ => none

/-- The code point of a unit escape, whose second half may be needed to complete it. A half may
stand alone. -/
def escaped? (cs : List Char) : Option (Nat × List Char) := do
  let (high, rest) ← unit? cs
  if 0xD800 ≤ high && high < 0xDC00 then
    match rest with
    | '\\' :: 'u' :: more =>
      let (low, rest') ← unit? more
      if 0xDC00 ≤ low && low < 0xE000 then
        pure (0x10000 + (high - 0xD800) * 1024 + (low - 0xDC00), rest')
      else pure (high, rest)
    | _ => pure (high, rest)
  else pure (high, rest)

def escapeValue? : Char → Option Char
  | '"' => some '"'
  | '\\' => some '\\'
  | '/' => some '/'
  | 'b' => some '\x08'
  | 'f' => some '\x0c'
  | 'n' => some '\n'
  | 'r' => some '\r'
  | 't' => some '\t'
  | _ => none

/-- The code points of a text after its opening quote; `got` holds what was read in reverse. -/
def string? : Nat → List Nat → List Char → Option (List Nat × List Char)
  | 0, _, _ => none
  | fuel + 1, got, cs =>
    match cs with
    | [] => none
    | '"' :: rest => some (got.reverse, rest)
    | '\\' :: 'u' :: rest => do
      let (code, rest) ← escaped? rest
      string? fuel (code :: got) rest
    | '\\' :: e :: rest => do
      let c ← escapeValue? e
      string? fuel (c.toNat :: got) rest
    | c :: rest =>
      if c.toNat < 0x20 || c = '\\' then none else string? fuel (c.toNat :: got) rest

def keyOf (codes : List Nat) : Key :=
  if codes.any isHalf then .ragged codes else .text (String.ofList (codes.map Char.ofNat))

def isDigit (c : Char) : Bool :=
  '0' ≤ c && c ≤ '9'

def digitsValue (cs : List Char) : Nat :=
  cs.foldl (fun n c => 10 * n + (c.toNat - 48)) 0

/-- The digits of a whole number: a zero alone, or no zero in front. -/
def whole? : List Char → Option (List Char × List Char)
  | '0' :: rest => some (['0'], rest)
  | c :: rest => if isDigit c then some ((c :: rest).span isDigit) else none
  | [] => none

def fraction (cs : List Char) : List Char × List Char :=
  match cs with
  | '.' :: d :: rest => if isDigit d then (d :: rest).span isDigit else ([], cs)
  | _ => ([], cs)

def exponent (cs : List Char) : Option Int × List Char :=
  let digits (sign : Int) (rest : List Char) : Option Int × List Char :=
    match rest.span isDigit with
    | ([], _) => (none, cs)
    | (ds, rest) => (some (sign * digitsValue ds), rest)
  match cs with
  | e :: '-' :: rest => if e = 'e' || e = 'E' then digits (-1) rest else (none, cs)
  | e :: '+' :: rest => if e = 'e' || e = 'E' then digits 1 rest else (none, cs)
  | e :: rest => if e = 'e' || e = 'E' then digits 1 rest else (none, cs)
  | [] => (none, cs)

def orFlaw (read : Option α) : Except Fault α :=
  match read with
  | some a => .ok a
  | none => .error .messageMalformed

/-- How many lists and objects are read within each other. -/
def deepest : Nat := 984

def magnitude (negative : Bool) (cs : List Char) : Except Fault (Json × List Char) := do
  let (ws, rest) ← orFlaw (whole? cs)
  let (fs, rest) := fraction rest
  let (ex, rest) := exponent rest
  if fs.isEmpty && ex.isNone then
    if ws.length > Text.mostDigits then .error (.tooManyDigits Text.mostDigits ws.length)
    else
      let size : Int := digitsValue ws
      pure (.int (if negative then -size else size), rest)
  else pure (.real (.ofDecimal negative (digitsValue (ws ++ fs)) (ex.getD 0 - fs.length)), rest)

def number (cs : List Char) : Except Fault (Json × List Char) :=
  match cs with
  | '-' :: rest => magnitude true rest
  | _ => magnitude false cs

def words : List (List Char × Json) :=
  [("null".toList, .null), ("true".toList, .bool true), ("false".toList, .bool false),
   ("NaN".toList, .real .undefined), ("Infinity".toList, .real (.infinite false)),
   ("-Infinity".toList, .real (.infinite true))]

def word? (cs : List Char) : Option (Json × List Char) :=
  (words.find? (fun w => w.1.isPrefixOf cs)).map (fun w => (w.2, cs.drop w.1.length))

mutual
/-- The first value of a text. The first number bounds the reading, the second counts how many
lists and objects may still be opened within each other. -/
def value : Nat → Nat → List Char → Except Fault (Json × List Char)
  | 0, _, _ => .error .messageMalformed
  | fuel + 1, depth, cs =>
    match cs, depth with
    | '"' :: rest, _ => do
      let (codes, rest) ← orFlaw (string? fuel [] rest)
      pure (ofCodes codes, rest)
    | '[' :: _, 0 => .error .messageTooDeep
    | '\x7b' :: _, 0 => .error .messageTooDeep
    | '[' :: rest, depth + 1 =>
      match skipBlank rest with
      | ']' :: rest => .ok (.arr [], rest)
      | rest => items fuel depth [] rest
    | '\x7b' :: rest, depth + 1 =>
      match skipBlank rest with
      | '\x7d' :: rest => .ok (.obj [], rest)
      | rest => members fuel depth [] rest
    | _, _ =>
      match word? cs with
      | some read => .ok read
      | none => number cs

def items : Nat → Nat → List Json → List Char → Except Fault (Json × List Char)
  | 0, _, _, _ => .error .messageMalformed
  | fuel + 1, depth, got, cs => do
    let (item, rest) ← value fuel depth cs
    match skipBlank rest with
    | ']' :: rest => pure (.arr (item :: got).reverse, rest)
    | ',' :: rest => items fuel depth (item :: got) (skipBlank rest)
    | _ => .error .messageMalformed

def members : Nat → Nat → Members → List Char → Except Fault (Json × List Char)
  | 0, _, _, _ => .error .messageMalformed
  | fuel + 1, depth, got, cs =>
    match cs with
    | '"' :: rest => do
      let (key, rest) ← orFlaw (string? fuel [] rest)
      match skipBlank rest with
      | ':' :: rest =>
        let (read, rest) ← value fuel depth (skipBlank rest)
        let got := Assoc.insert got (keyOf key) read
        match skipBlank rest with
        | '\x7d' :: rest => pure (.obj got, rest)
        | ',' :: rest => members fuel depth got (skipBlank rest)
        | _ => .error .messageMalformed
      | _ => .error .messageMalformed
    | _ => .error .messageMalformed
end

end Reading

def parse (text : String) : Except Fault Json := do
  let cs := Reading.skipBlank text.toList
  let (read, rest) ← Reading.value (2 * cs.length + 1) Reading.deepest cs
  if (Reading.skipBlank rest).isEmpty then pure read else .error .messageMalformed

end CodeAtlas.Json
