import CodeAtlas.Assoc
import CodeAtlas.Number

namespace CodeAtlas

/-- The name of a member: a text, or one with halves of UTF-16 pairs that stand alone, which is
given by its code points. -/
inductive Json.Key where
  | text (value : String)
  | ragged (codes : List Nat)
  deriving DecidableEq, Repr

instance : Coe String Json.Key := ⟨.text⟩

inductive Json where
  | null
  | bool (value : Bool)
  | int (value : Int)
  /-- A number that was written with a fraction or an exponent, or is none. -/
  | real (value : Number)
  | str (value : String)
  /-- A text with halves of UTF-16 pairs that stand alone, by its code points. -/
  | ragged (codes : List Nat)
  | arr (items : List Json)
  | obj (members : List (Json.Key × Json))
  deriving Inhabited

namespace Json

abbrev Members := Assoc Key Json

def number? : Json → Option Number
  | .bool b => some (.ofInt (if b then 1 else 0))
  | .int n => some (.ofInt n)
  | .real x => some x
  | _ => none

def isUndefined : Json → Bool
  | .real .undefined => true
  | _ => false

mutual
/-- Numbers agree by value, whatever their form; objects whatever the order of their members. What
is no number agrees with nothing, but within lists and objects it is the same as itself. -/
def agrees : Json → Json → Bool
  | .null, .null => true
  | .str a, .str b => a == b
  | .ragged a, .ragged b => a == b
  | .arr as, .arr bs => sameAll as bs
  | .obj as, .obj bs => as.length == bs.length && sameMembers as bs
  | a, b =>
    match a.number?, b.number? with
    | some x, some y => x.order? y == some .eq
    | _, _ => false

def sameAll : List Json → List Json → Bool
  | [], [] => true
  | a :: as, b :: bs => (a.isUndefined && b.isUndefined || agrees a b) && sameAll as bs
  | _, _ => false

def sameMembers : List (Key × Json) → List (Key × Json) → Bool
  | [], _ => true
  | (key, a) :: as, bs =>
    (match bs.find? (fun e => e.1 == key) with
      | some (_, b) => a.isUndefined && b.isUndefined || agrees a b
      | none => false) && sameMembers as bs
end

/-- Are two values the same as items of a list or as keys of a table? -/
def same (a b : Json) : Bool :=
  a.isUndefined && b.isUndefined || a.agrees b

instance : BEq Json := ⟨same⟩

def isVoid : Json → Bool
  | .null => true
  | .bool b => !b
  | .int n => n == 0
  | .real x => x.isZero
  | .str s => s.isEmpty
  | .ragged codes => codes.isEmpty
  | .arr items => items.isEmpty
  | .obj members => members.isEmpty

def member? (key : String) : Json → Option Json
  | .obj members => Assoc.get? members key
  | _ => none

def Key.toJson : Key → Json
  | .text s => .str s
  | .ragged codes => .ragged codes

def key? : Json → Option Key
  | .str s => some (.text s)
  | .ragged codes => some (.ragged codes)
  | _ => none

def isHalf (code : Nat) : Bool :=
  0xD800 ≤ code && code < 0xE000

def ofCodes (codes : List Nat) : Json :=
  if codes.any isHalf then .ragged codes else .str (String.ofList (codes.map Char.ofNat))

end Json
end CodeAtlas
