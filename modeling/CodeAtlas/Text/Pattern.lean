import CodeAtlas.Text.Blank
import CodeAtlas.Text.Case
import CodeAtlas.Text.Digit
import CodeAtlas.Text.Word

namespace CodeAtlas.Text

inductive Likeness where
  | exact
  /-- Letters of ASCII that differ in size alone are the same. -/
  | ascii
  /-- Letters that differ in size alone are the same. -/
  | full
  deriving DecidableEq, Repr

inductive Kind where
  | word
  | blank
  | digit
  deriving DecidableEq, Repr

inductive Member where
  | range (first last : Char)
  /-- The characters of a kind, or all others. Of ASCII alone, if this is said. -/
  | kind (k : Kind) (asciiOnly : Bool) (wanted : Bool)
  deriving DecidableEq, Repr

/-- The characters that a set has, or those that it has not. -/
structure CharSet where
  members : List Member
  among : Bool := true
  likeness : Likeness := .exact
  deriving DecidableEq, Repr

inductive Anchor where
  | textStart
  | textEnd
  | lineStart
  | lineEnd
  /-- The end of the text, or the place before a last line break. -/
  | lastEnd
  /-- The beginning or the end of a word, or any other place. -/
  | boundary (asciiOnly : Bool) (wanted : Bool)
  deriving DecidableEq, Repr

/-- In which order the numbers of times are tried that a part may stand. -/
inductive Manner where
  | mostFirst
  | fewestFirst
  /-- As often as it goes. Nothing that is taken is given back. -/
  | mostOnly
  deriving DecidableEq, Repr

structure Count where
  least : Nat
  most : Option Nat
  manner : Manner := .mostFirst
  deriving DecidableEq, Repr

/-- How often a part may stand after it stood as often as it must. -/
def Count.spare (c : Count) : Option Nat :=
  c.most.map (· - c.least)

inductive Pattern where
  | nothing
  | one (set : CharSet)
  | anchor (a : Anchor)
  | seq (p q : Pattern)
  | either (p q : Pattern)
  /-- A part that is remembered by its number. -/
  | group (n : Nat) (p : Pattern)
  | times (p : Pattern) (c : Count)
  /-- The first way only. -/
  | atomic (p : Pattern)
  /-- What begins here or some characters earlier, or what must not begin there. -/
  | look (back : Nat) (wanted : Bool) (p : Pattern)
  /-- The text of a group once more. -/
  | again (n : Nat) (likeness : Likeness)
  /-- One of two patterns: the first if a group has a text. -/
  | given (n : Nat) (p q : Pattern)
  deriving DecidableEq, Repr

/-- The characters that are the same as a character, and the character itself. -/
def Likeness.kin : Likeness → Char → List Char
  | exact, c => [c]
  | ascii, c => kinAscii c
  | full, c => Text.kin c

/-- One character for all that are the same. -/
def Likeness.key : Likeness → Char → Char
  | exact, c => c
  | ascii, c => c.toLower
  | full, c => lower c

def Kind.has : Kind → Char → Bool
  | word, c => isWord c
  | blank, c => isBlank c
  | digit, c => isDigit c

def isAscii (c : Char) : Bool :=
  c.toNat < 128

/-- Is a character of a kind? White space of ASCII is without the information separators. -/
def Kind.hasOf (asciiOnly : Bool) (k : Kind) (c : Char) : Bool :=
  k.has c && (!asciiOnly || isAscii c && !(0x1C ≤ c.toNat && c.toNat ≤ 0x1F))

def Member.has : Member → Char → Bool
  | range first last, c => first ≤ c && c ≤ last
  | kind k asciiOnly wanted, c => k.hasOf asciiOnly c == wanted

namespace CharSet

def takes (s : CharSet) (c : Char) : Bool :=
  (s.likeness.kin c).any (fun d => s.members.any (·.has d)) == s.among

def single (likeness : Likeness) (c : Char) : CharSet :=
  ⟨[.range c c], true, likeness⟩

def ofLine : CharSet := ⟨[.range '\n' '\n'], false, .exact⟩

def all : CharSet := ⟨[], false, .exact⟩

end CharSet

/-- Is an anchor between a character before it and a text after it? -/
def Anchor.holds (before : Option Char) (rest : List Char) : Anchor → Bool
  | textStart => before.isNone
  | textEnd => rest.isEmpty
  | lineStart => before.all (· == '\n')
  | lineEnd => rest.head?.all (· == '\n')
  | lastEnd => rest.isEmpty || rest == ['\n']
  | boundary asciiOnly wanted =>
    isBoundary (Kind.word.hasOf asciiOnly) before rest.head? == wanted

namespace Pattern

def all : List Pattern → Pattern
  | [] => nothing
  | [p] => p
  | p :: ps => seq p (all ps)

def any : List Pattern → Pattern
  | [] => nothing
  | [p] => p
  | p :: ps => either p (any ps)

/-- The members of a set that stands alone, if it takes what is among them. -/
def members? (likeness : Likeness) : Pattern → Option (List Member)
  | one set => if set.among && set.likeness = likeness then some set.members else none
  | _ => none

/-- More characters than any text has. -/
def endless : Nat := Nat.pow 2 64

/-- How many characters a pattern takes at least and at most, where it is known for the groups. -/
def width (ofGroup : Nat → Nat × Nat) : Pattern → Nat × Nat
  | nothing => (0, 0)
  | one _ => (1, 1)
  | anchor _ => (0, 0)
  | seq p q =>
    let (least, most) := width ofGroup p
    let (least', most') := width ofGroup q
    (least + least', most + most')
  | either p q =>
    let (least, most) := width ofGroup p
    let (least', most') := width ofGroup q
    (min least least', max most most')
  | group _ p => width ofGroup p
  | times p c =>
    let (least, most) := width ofGroup p
    (least * c.least, most * c.most.getD endless)
  | atomic p => width ofGroup p
  | look .. => (0, 0)
  | again n _ => ofGroup n
  | given _ p q =>
    let (least, most) := width ofGroup p
    let (least', most') := width ofGroup q
    (min least least', max most most')

end Pattern
end CodeAtlas.Text
