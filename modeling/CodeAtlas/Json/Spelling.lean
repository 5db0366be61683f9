import CodeAtlas.Fault
import CodeAtlas.Json.Printer
import CodeAtlas.Text.Shown

namespace CodeAtlas.Json

/-- The last digits of a number in base sixteen. -/
def hexText (width n : Nat) : List Char :=
  let digits := Nat.toDigits 16 n
  List.replicate (width - digits.length) '0' ++ digits

def codeEscape (code : Nat) : List Char :=
  if code < 0x100 then '\\' :: 'x' :: hexText 2 code
  else if code < 0x10000 then '\\' :: 'u' :: hexText 4 code
  else '\\' :: 'U' :: hexText 8 code

def codeText (mark : Char) (code : Nat) : List Char :=
  let c := Char.ofNat code
  if isHalf code then codeEscape code
  else if c = mark || c = '\\' then ['\\', c]
  else if c = '\n' then ['\\', 'n']
  else if c = '\r' then ['\\', 'r']
  else if c = '\t' then ['\\', 't']
  else if Text.isShown c then [c]
  else codeEscape code

/-- A text in single quotes, or in double ones if it has only single quotes in it. -/
def quotedCodes (codes : List Nat) : String :=
  let mark := if codes.contains 0x27 && !codes.contains 0x22 then '"' else '\x27'
  String.ofList (mark :: (codes.flatMap (codeText mark) ++ [mark]))

def quotedText (s : String) : String :=
  quotedCodes (s.toList.map Char.toNat)

def quotedKey : Key → String
  | .text s => quotedText s
  | .ragged codes => quotedCodes codes

/-- The words for numbers without digits in a line of text. -/
def spokenWords : Number.Words := ⟨"nan", "inf"⟩

mutual
def written : Json → String
  | .null => "None"
  | .bool b => if b then "True" else "False"
  | .int n => toString n
  | .real x => x.text spokenWords
  | .str s => quotedText s
  | .ragged codes => quotedCodes codes
  | .arr items => "[" ++ ", ".intercalate (writtenItems items) ++ "]"
  | .obj members => "\x7b" ++ ", ".intercalate (writtenMembers members) ++ "\x7d"

def writtenItems : List Json → List String
  | [] => []
  | item :: items => written item :: writtenItems items

def writtenMembers : List (Key × Json) → List String
  | [] => []
  | (key, value) :: members => (quotedKey key ++ ": " ++ written value) :: writtenMembers members
end

/-- A value as it stands in a line of text, where a text has no quotes. -/
def spelling : Json → String
  | .str s => s
  | other => other.written

def mostSpelledDigits : Nat := 4300

/-- The value in a line of text, if it is not too long. No number is read that is too long; one
that was counted up may be. -/
def spelled (value : Json) : Except Fault String :=
  match value with
  | .int n =>
    if n.natAbs < Nat.pow 10 mostSpelledDigits then .ok value.spelling
    else .error (.numberTooLong mostSpelledDigits)
  | _ => .ok value.spelling

end CodeAtlas.Json
