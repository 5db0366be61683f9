import CodeAtlas.Json
import CodeAtlas.Number.Decimal

namespace CodeAtlas.Json

def hexDigits (n : Nat) : List Char :=
  [n / 4096 % 16, n / 256 % 16, n / 16 % 16, n % 16].map Nat.digitChar

def unitEscape (n : Nat) : List Char :=
  '\\' :: 'u' :: hexDigits n

def escapeChar (c : Char) : List Char :=
  if c = '"' then ['\\', '"']
  else if c = '\\' then ['\\', '\\']
  else if c = '\n' then ['\\', 'n']
  else if c = '\r' then ['\\', 'r']
  else if c = '\t' then ['\\', 't']
  else if c = '\x08' then ['\\', 'b']
  else if c = '\x0c' then ['\\', 'f']
  else if 0x20 ≤ c.toNat && c.toNat < 0x7F then [c]
  else if c.toNat < 0x10000 then unitEscape c.toNat
  else
    let n := c.toNat - 0x10000
    unitEscape (0xD800 + n / 1024) ++ unitEscape (0xDC00 + n % 1024)

def quote (s : String) : String :=
  "\"" ++ String.ofList (s.toList.flatMap escapeChar) ++ "\""

def quoteCodes (codes : List Nat) : String :=
  "\"" ++ String.ofList (codes.flatMap fun code =>
    if isHalf code then unitEscape code else escapeChar (Char.ofNat code)) ++ "\""

def quoteKey : Key → String
  | .text s => quote s
  | .ragged codes => quoteCodes codes

def numberWords : Number.Words := ⟨"NaN", "Infinity"⟩

mutual
def compact : Json → String
  | .null => "null"
  | .bool b => if b then "true" else "false"
  | .int n => toString n
  | .real x => x.text numberWords
  | .str s => quote s
  | .ragged codes => quoteCodes codes
  | .arr items => "[" ++ ", ".intercalate (compactItems items) ++ "]"
  | .obj members => "\x7b" ++ ", ".intercalate (compactMembers members) ++ "\x7d"

def compactItems : List Json → List String
  | [] => []
  | item :: items => compact item :: compactItems items

def compactMembers : List (Key × Json) → List String
  | [] => []
  | (key, value) :: members => (quoteKey key ++ ": " ++ compact value) :: compactMembers members
end

def newline (depth : Nat) : String :=
  "\n" ++ String.ofList (List.replicate (2 * depth) ' ')

mutual
def indentedAt (depth : Nat) : Json → String
  | .arr (item :: items) =>
    let rows := indentedItems (depth + 1) (item :: items)
    "[" ++ newline (depth + 1) ++ ("," ++ newline (depth + 1)).intercalate rows ++
      newline depth ++ "]"
  | .obj (member :: members) =>
    let rows := indentedMembers (depth + 1) (member :: members)
    "\x7b" ++ newline (depth + 1) ++ ("," ++ newline (depth + 1)).intercalate rows ++
      newline depth ++ "\x7d"
  | other => compact other

def indentedItems (depth : Nat) : List Json → List String
  | [] => []
  | item :: items => indentedAt depth item :: indentedItems depth items

def indentedMembers (depth : Nat) : List (Key × Json) → List String
  | [] => []
  | (key, value) :: members =>
    (quoteKey key ++ ": " ++ indentedAt depth value) :: indentedMembers depth members
end

def indented (value : Json) : String :=
  indentedAt 0 value

/-- The name under which a value is written as a key. What is no text is written out. -/
def keyName (value : Json) : Key :=
  value.key?.getD (.text value.compact)

end CodeAtlas.Json
