namespace CodeAtlas.Text.Utf8

def encode (cs : List Char) : List UInt8 :=
  cs.flatMap String.utf8EncodeChar

def bytes (s : String) : List UInt8 :=
  encode s.toList

/-- The bounds of the second byte and the number of bytes after the first, for a first byte that
begins a longer sequence. Overlong forms and surrogates have no admissible second byte. -/
def lead (a : UInt8) : Option (UInt8 × UInt8 × Nat) :=
  if a < 0xC2 then none
  else if a < 0xE0 then some (0x80, 0xBF, 1)
  else if a = 0xE0 then some (0xA0, 0xBF, 2)
  else if a = 0xED then some (0x80, 0x9F, 2)
  else if a < 0xF0 then some (0x80, 0xBF, 2)
  else if a = 0xF0 then some (0x90, 0xBF, 3)
  else if a < 0xF4 then some (0x80, 0xBF, 3)
  else if a = 0xF4 then some (0x80, 0x8F, 3)
  else none

def isTail (b : UInt8) : Bool :=
  0x80 ≤ b && b ≤ 0xBF

def payload (b : UInt8) : Nat :=
  b.toNat % 64

/-- One entry for each scalar value, and `none` for each longest stretch that begins a sequence
but does not complete it, or for a byte that begins none. -/
def scan : List UInt8 → List (Option Char)
  | [] => []
  | a :: r =>
    if a < 0x80 then some (Char.ofNat a.toNat) :: scan r
    else match lead a with
      | none => none :: scan r
      | some (low, high, more) =>
        match r with
        | [] => [none]
        | b :: r₁ =>
          if b < low || high < b then none :: scan (b :: r₁)
          else if more = 1 then
            some (Char.ofNat (a.toNat % 32 * 64 + payload b)) :: scan r₁
          else match r₁ with
            | [] => [none]
            | c :: r₂ =>
              if !isTail c then none :: scan (c :: r₂)
              else if more = 2 then
                some (Char.ofNat ((a.toNat % 16 * 64 + payload b) * 64 + payload c)) :: scan r₂
              else match r₂ with
                | [] => [none]
                | d :: r₃ =>
                  if !isTail d then none :: scan (d :: r₃)
                  else some (Char.ofNat
                    (((a.toNat % 8 * 64 + payload b) * 64 + payload c) * 64 + payload d)) :: scan r₃

/-- The text, if every byte belongs to a well-formed sequence. -/
def decode? (bs : List UInt8) : Option (List Char) :=
  (scan bs).mapM id

/-- The text without its ill-formed stretches. -/
def decodeKnown (bs : List UInt8) : List Char :=
  (scan bs).filterMap id

/-- The text with U+FFFD for each ill-formed stretch. -/
def decodeMarked (bs : List UInt8) : List Char :=
  (scan bs).map (·.getD '�')

end CodeAtlas.Text.Utf8
