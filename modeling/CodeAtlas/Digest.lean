import CodeAtlas.Fault
import CodeAtlas.Text.Utf8

namespace CodeAtlas.Digest

structure Words where
  a : UInt32
  b : UInt32
  c : UInt32
  d : UInt32

def Words.initial : Words :=
  ⟨0x67452301, 0xefcdab89, 0x98badcfe, 0x10325476⟩

def sines : List UInt32 :=
  [
   0xd76aa478, 0xe8c7b756, 0x242070db, 0xc1bdceee, 0xf57c0faf, 0x4787c62a,
   0xa8304613, 0xfd469501, 0x698098d8, 0x8b44f7af, 0xffff5bb1, 0x895cd7be,
   0x6b901122, 0xfd987193, 0xa679438e, 0x49b40821, 0xf61e2562, 0xc040b340,
   0x265e5a51, 0xe9b6c7aa, 0xd62f105d, 0x02441453, 0xd8a1e681, 0xe7d3fbc8,
   0x21e1cde6, 0xc33707d6, 0xf4d50d87, 0x455a14ed, 0xa9e3e905, 0xfcefa3f8,
   0x676f02d9, 0x8d2a4c8a, 0xfffa3942, 0x8771f681, 0x6d9d6122, 0xfde5380c,
   0xa4beea44, 0x4bdecfa9, 0xf6bb4b60, 0xbebfbc70, 0x289b7ec6, 0xeaa127fa,
   0xd4ef3085, 0x04881d05, 0xd9d4d039, 0xe6db99e5, 0x1fa27cf8, 0xc4ac5665,
   0xf4292244, 0x432aff97, 0xab9423a7, 0xfc93a039, 0x655b59c3, 0x8f0ccc92,
   0xffeff47d, 0x85845dd1, 0x6fa87e4f, 0xfe2ce6e0, 0xa3014314, 0x4e0811a1,
   0xf7537e82, 0xbd3af235, 0x2ad7d2bb, 0xeb86d391]

def turns : List UInt32 :=
  [[7, 12, 17, 22], [5, 9, 14, 20], [4, 11, 16, 23], [6, 10, 15, 21]].flatMap
    (fun turn => turn ++ turn ++ turn ++ turn)

def rotate (w n : UInt32) : UInt32 :=
  (w <<< n) ||| (w >>> (32 - n))

/-- The mixed word and the index of the block word that step `i` takes. -/
def mix (w : Words) (i : Nat) : UInt32 × Nat :=
  if i < 16 then ((w.b &&& w.c) ||| (~~~w.b &&& w.d), i)
  else if i < 32 then ((w.d &&& w.b) ||| (~~~w.d &&& w.c), (5 * i + 1) % 16)
  else if i < 48 then (w.b ^^^ w.c ^^^ w.d, (3 * i + 5) % 16)
  else (w.c ^^^ (w.b ||| ~~~w.d), 7 * i % 16)

def step (block : List UInt32) (w : Words) : (UInt32 × UInt32) × Nat → Words
  | ((sine, turn), i) =>
    let (f, g) := mix w i
    ⟨w.d, w.b + rotate (w.a + f + sine + block.getD g 0) turn, w.b, w.c⟩

def absorb (w : Words) (block : List UInt32) : Words :=
  let v := ((sines.zip turns).zipIdx).foldl (step block) w
  ⟨w.a + v.a, w.b + v.b, w.c + v.c, w.d + v.d⟩

/-- Little-endian bytes of a number, `width` of them. -/
def littleEndian : Nat → Nat → List UInt8
  | 0, _ => []
  | width + 1, n => UInt8.ofNat n :: littleEndian width (n / 256)

/-- The message, a one bit, zeros up to eight bytes before the end of a block, and the length of
the message in bits. -/
def padded (message : List UInt8) : List UInt8 :=
  let zeros := (119 - message.length % 64) % 64
  message ++ 0x80 :: List.replicate zeros 0 ++ littleEndian 8 (8 * message.length)

def toWords : List UInt8 → List UInt32
  | p :: q :: r :: s :: rest =>
    (p.toUInt32 ||| q.toUInt32 <<< 8 ||| r.toUInt32 <<< 16 ||| s.toUInt32 <<< 24) :: toWords rest
  | _ => []

def blocks (length : Nat) : Nat → List α → List (List α)
  | 0, _ => []
  | count + 1, xs => xs.take length :: blocks length count (xs.drop length)

def digest (message : List UInt8) : List UInt8 :=
  let words := toWords (padded message)
  let w := (blocks 16 (words.length / 16) words).foldl absorb Words.initial
  [w.a, w.b, w.c, w.d].flatMap (fun word => littleEndian 4 word.toNat)

def hexByte (b : UInt8) : List Char :=
  [Nat.digitChar (b.toNat / 16), Nat.digitChar (b.toNat % 16)]

def hex (s : String) : String :=
  String.ofList ((digest (Text.Utf8.bytes s)).flatMap hexByte)

/-- Only text has bytes to make a digest of. Characters that stand for something else, as for the
bytes of a name that is no text, are a fault. -/
def check (strays : List Char) (s : String) : Except Fault Unit :=
  if s.toList.any strays.contains then .error .textNotEncodable else pure ()

end CodeAtlas.Digest
