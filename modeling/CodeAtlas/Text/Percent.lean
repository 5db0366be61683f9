import CodeAtlas.Text.Utf8

namespace CodeAtlas.Text.Percent

def hexDigit? (c : Char) : Option Nat :=
  if '0' ≤ c && c ≤ '9' then some (c.toNat - 48)
  else if 'a' ≤ c && c ≤ 'f' then some (c.toNat - 87)
  else if 'A' ≤ c && c ≤ 'F' then some (c.toNat - 55)
  else none

/-- Resolves the escapes of a text. An escape without two hexadecimal digits stays as it is. -/
def unescape : List Char → List UInt8
  | [] => []
  | '%' :: a :: b :: r =>
    match hexDigit? a, hexDigit? b with
    | some x, some y => UInt8.ofNat (16 * x + y) :: unescape r
    | _, _ => 0x25 :: unescape (a :: b :: r)
  | c :: r => String.utf8EncodeChar c ++ unescape r

def isAscii (c : Char) : Bool :=
  c.toNat < 0x80

/-- Decodes run after run; `run` holds the pending ASCII characters in reverse. -/
def decodeFrom (run : List Char) : List Char → List Char
  | [] => Utf8.decodeMarked (unescape run.reverse)
  | c :: r =>
    if isAscii c then decodeFrom (c :: run) r
    else Utf8.decodeMarked (unescape run.reverse) ++ c :: decodeFrom [] r

def decode (s : String) : String :=
  String.ofList (decodeFrom [] s.toList)

end CodeAtlas.Text.Percent
