import CodeAtlas.Fault
import CodeAtlas.Json
import CodeAtlas.Text.Search

namespace CodeAtlas.Json

/-- The member of an object. Only objects have members. -/
def field (key : String) : Json → Except Fault Json
  | .obj members =>
    match Assoc.get? members key with
    | some value => .ok value
    | none => .error (.keyNotFound key)
  | _ => .error .wrongType

/-- The member of an object, or null if the object has none of this name. -/
def fieldOrNull (key : String) : Json → Except Fault Json
  | .obj members => .ok ((Assoc.get? members key).getD .null)
  | _ => .error .noMembers

def toInt : Json → Except Fault Int
  | .int n => .ok n
  | .bool b => .ok (if b then 1 else 0)
  | _ => .error .wrongType

def toNumber : Json → Except Fault Number
  | .real x => .ok x
  | value => do
    let n ← value.toInt
    match Number.ofQuotient (n < 0) n.natAbs 1 with
    | .infinite _ => .error .numberTooLarge
    | x => pure x

def toText : Json → Except Fault String
  | .str s => .ok s
  | _ => .error .wrongType

/-- The text, where something is asked of the text itself. -/
def textItself : Json → Except Fault String
  | .str s => .ok s
  | _ => .error .noMembers

/-- The characters of a text, each as a text. -/
def characters : Json → List Json
  | .str s => s.toList.map fun c => .str (String.ofList [c])
  | .ragged codes => codes.map fun code => ofCodes [code]
  | _ => []

/-- The items of a list. A text is a list of its characters, and an object of its keys. -/
def items : Json → Except Fault (List Json)
  | .arr items => .ok items
  | .obj members => .ok (members.map fun m => m.1.toJson)
  | .str s => .ok (Json.str s).characters
  | .ragged codes => .ok (Json.ragged codes).characters
  | _ => .error .wrongType

/-- The first item of a list or character of a text. Objects have no first member. -/
def first : Json → Except Fault Json
  | .obj _ => .error (.keyNotFound "0")
  | value => do
    match ← value.items with
    | item :: _ => .ok item
    | [] => .error .itemNotFound

/-- The item at an index. A negative index counts from the end. -/
def itemAt (items : List α) (index : Json) : Except Fault α := do
  let n ← index.toInt
  let place := if n < 0 then n + items.length else n
  match if place < 0 then none else items[place.toNat]? with
  | some item => .ok item
  | none => .error .itemNotFound

mutual
/-- The order of two numbers, of two texts, or of two lists. Other values are in no order. -/
def order : Json → Json → Except Fault (Option Ordering)
  | .str a, .str b => .ok (some (compare a b))
  | .arr as, .arr bs => orderAll as bs
  | a, b =>
    match a.number?, b.number? with
    | some x, some y => .ok (x.order? y)
    | _, _ => .error .wrongType

/-- Lists are in the order of their first items that differ. -/
def orderAll : List Json → List Json → Except Fault (Option Ordering)
  | [], [] => .ok (some .eq)
  | [], _ :: _ => .ok (some .lt)
  | _ :: _, [] => .ok (some .gt)
  | a :: as, b :: bs => if a.same b then orderAll as bs else order a b
end

def successor : Json → Except Fault Json
  | .real x => .ok (.real x.successor)
  | value => do pure (.int ((← value.toInt) + 1))

def lt (a b : Json) : Except Fault Bool := do
  pure ((← order a b) == some .lt)

def le (a b : Json) : Except Fault Bool := do
  let o ← order a b
  pure (o == some .lt || o == some .eq)

/-- Lists and objects cannot be keys. -/
def isKey : Json → Bool
  | .arr _ | .obj _ => false
  | _ => true

/-- The key under which a value is looked up in a table of texts. What is no text is in no such
table. -/
def toKey (value : Json) : Except Fault (Option String) :=
  match value with
  | .str key => .ok (some key)
  | other => if other.isKey then .ok none else .error .wrongType

/-- Is a value an item of a list, a part of a text or a key of an object? -/
def holds (container item : Json) : Except Fault Bool :=
  match container, item with
  | .arr items, _ => .ok (items.any (same item))
  | .str text, .str part => .ok (Text.contains part text)
  | .obj members, _ =>
    if item.isKey then .ok (item.key?.any (Assoc.contains members)) else .error .wrongType
  | _, _ => .error .wrongType

/-- Can each value be compared with the next one? -/
def inOrder : List Json → Except Fault Unit
  | a :: b :: rest => do
    let _ ← order a b
    inOrder (b :: rest)
  | _ => .ok ()

/-- Values in the order of their keys, which must be comparable. -/
def sortBy (key : α → Json) (values : List α) : Except Fault (List α) := do
  let sorted := values.mergeSort fun a b => ((key a).le (key b)).toOption.getD true
  inOrder (sorted.map key)
  pure sorted

end CodeAtlas.Json
