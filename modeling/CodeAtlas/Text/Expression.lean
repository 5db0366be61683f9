import CodeAtlas.Assoc
import CodeAtlas.Text.Expression.Count
import CodeAtlas.Text.Expression.Set
import CodeAtlas.Text.Identifier

namespace CodeAtlas.Text

/-- A pattern with the number and the names of its groups. -/
structure Expression where
  pattern : Pattern
  groups : Nat
  names : Assoc String Nat
  deriving DecidableEq, Repr

namespace Expression

/-- How a group was opened, which says what comes of it when it is closed. -/
inductive Opening where
  /-- The whole expression. -/
  | whole
  | plain
  | numbered (n : Nat)
  | atomic
  | ahead (wanted : Bool)
  | behind (wanted : Bool)
  | given (n : Nat)
  deriving DecidableEq, Repr

/-- A part of an alternative, and whether a count may follow it. -/
structure Piece where
  pattern : Pattern
  countable : Bool
  deriving DecidableEq, Repr

/-- A group that is not closed. Alternatives and pieces are in reverse order. -/
structure Frame where
  opening : Opening
  flags : Flags := {}
  /-- The number of groups where the outermost look behind began, within which this one stands. -/
  behindFrom : Option Nat := none
  others : List Pattern := []
  pieces : List Piece := []
  deriving DecidableEq, Repr

namespace Frame

def last (f : Frame) : Pattern :=
  Pattern.all (f.pieces.reverse.map (·.pattern))

/-- The alternatives. If each is one character of those that a set has, all are one set. -/
def pattern (f : Frame) : Pattern :=
  let ps := (f.last :: f.others).reverse
  match ps.mapM (Pattern.members? f.flags.likeness), ps with
  | some members, _ :: _ :: _ => .one ⟨members.flatten, true, f.flags.likeness⟩
  | _, ps => .any ps

end Frame

structure Reading where
  inner : Frame := { opening := .whole }
  outer : List Frame := []
  /-- How many characters each group takes. There is none for a group that is not closed. -/
  widths : List (Option (Nat × Nat)) := []
  names : Assoc String Nat := []
  /-- The groups that conditions ask for by number. -/
  asked : List Nat := []
  /-- Has there been a look behind of no fixed width? -/
  uneven : Bool := false
  deriving DecidableEq, Repr

namespace Reading

def groups (r : Reading) : Nat := r.widths.length

def flags (r : Reading) : Flags := r.inner.flags

def pushPiece (piece : Piece) (r : Reading) : Reading :=
  { r with inner := { r.inner with pieces := piece :: r.inner.pieces } }

def push (p : Pattern) (r : Reading) : Reading :=
  r.pushPiece ⟨p, true⟩

def pushChar (c : Char) (r : Reading) : Reading :=
  r.push (.one (CharSet.single r.flags.likeness c))

/-- Adds a place, which no count may follow. -/
def pushAnchor (a : Anchor) (r : Reading) : Reading :=
  r.pushPiece ⟨.anchor a, false⟩

def recount (c : Count) (r : Reading) : Option Reading :=
  match r.inner.pieces with
  | piece :: pieces =>
    if piece.countable then
      some { r with inner := { r.inner with pieces := ⟨.times piece.pattern c, false⟩ :: pieces } }
    else none
  | [] => none

/-- How wide a group is, if it is closed. -/
def width? (n : Nat) (r : Reading) : Option (Nat × Nat) :=
  if n = 0 then none else (r.widths[n - 1]?).join

/-- May a look behind ask for a group? Only for one that was closed before it began. -/
def behindKnows (n : Nat) (r : Reading) : Bool :=
  match r.inner.behindFrom with
  | none => true
  | some groups => (r.width? n).isSome && n ≤ groups

/-- Adds the text of a group once more. The group must be closed. -/
def pushAgain (n : Nat) (r : Reading) : Option Reading :=
  if (r.width? n).isSome && r.behindKnows n then some (r.push (.again n r.flags.likeness))
  else none

/-- How deep a group lies. A condition is less deep than another group. -/
def depth (r : Reading) : Nat :=
  (r.inner :: r.outer).foldl (fun deep f => match f.opening with
    | .whole => deep
    | .given _ => deep + 1
    | _ => deep + 2) 0

def deepest : Nat := 983

def enter (opening : Opening) (flags : Flags) (r : Reading) : Except Fault Reading :=
  let behindFrom := match r.inner.behindFrom, opening with
    | none, .behind _ => some r.groups
    | known, _ => known
  let r := { r with inner := { opening, flags, behindFrom }, outer := r.inner :: r.outer }
  if deepest < r.depth then .error .patternTooDeep else .ok r

def enterNumbered (name : Option String) (r : Reading) : Except Fault Reading :=
  let n := r.groups + 1
  let names := match name with
    | some name => Assoc.insert r.names name n
    | none => r.names
  { r with widths := r.widths ++ [none], names }.enter (.numbered n) r.flags

def widestLook : Nat := 4294967295

/-- Closes a group, which becomes a part of the group around it. -/
def leave (r : Reading) : Option Reading :=
  match r.outer with
  | [] => none
  | f :: outer =>
    let p := r.inner.pattern
    let (least, most) := p.width fun n => (r.width? n).getD (0, 0)
    let around := { r with inner := f, outer }
    match r.inner.opening with
    | .whole => none
    | .plain => some (around.push p)
    | .numbered n =>
      some ({ around with widths := r.widths.set (n - 1) (some (least, most)) }.push (.group n p))
    | .atomic => some (around.push (.atomic p))
    | .ahead wanted => some (around.push (.look 0 wanted p))
    | .behind wanted =>
      let uneven := least != most || widestLook < least
      some ({ around with uneven := r.uneven || uneven }.push (.look least wanted p))
    | .given n =>
      match (r.inner.last :: r.inner.others).reverse with
      | [p, q] => some (around.push (.given n p q))
      | _ => some (around.push (.given n p .nothing))

/-- Begins another alternative. A condition has two at most. -/
def bar (r : Reading) : Option Reading :=
  match r.inner.opening, r.inner.others with
  | .given _, _ :: _ => none
  | _, others =>
    some { r with inner := { r.inner with others := r.inner.last :: others, pieces := [] } }

def escape (r : Reading) : List Char → Option (Reading × List Char)
  | [] => none
  | c :: rest =>
    let ascii := r.flags.asciiOnly
    match c with
    | 'A' => some (r.pushAnchor .textStart, rest)
    | 'Z' => some (r.pushAnchor .textEnd, rest)
    | 'b' => some (r.pushAnchor (.boundary ascii true), rest)
    | 'B' => some (r.pushAnchor (.boundary ascii false), rest)
    | c =>
      match kind? c with
      | some (k, wanted) => some (r.push (.one ⟨[.kind k ascii wanted], true, .exact⟩), rest)
      | none =>
        if c.isDigit then
          match numeral? c rest with
          | some (.char d, rest) => some (r.pushChar d, rest)
          | some (.group n, rest) => (r.pushAgain n).map (·, rest)
          | none => none
        else (escaped? c rest).map fun (d, rest) => (r.pushChar d, rest)

/-- What stands before a character, and what follows it. -/
def upTo? (stop : Char) (text : List Char) : Option (String × List Char) :=
  let (name, rest) := text.span (· != stop)
  if rest.isEmpty then none else some (String.ofList name, rest.tail)

def letters (text : List Char) : List Char × List Char :=
  text.span fun c => ['i', 'L', 'm', 's', 'x', 'a', 't', 'u'].contains c

/-- The flags of a group: letters that are put on, a hyphen and letters that are put off, up to a
colon. What says of what characters kinds are can only be put on, and one way only. -/
def flagged? (f : Flags) (text : List Char) : Option (Flags × List Char) :=
  let (on, rest) := letters text
  let (off, rest, ended) := match rest with
    | ':' :: rest => ([], rest, !on.isEmpty)
    | '-' :: rest =>
      let (off, rest) := letters rest
      (off, rest.tail, !off.isEmpty && rest.head? == some ':')
    | rest => ([], rest, false)
  if !ended || (on ++ off).any ['L', 't'].contains || off.any ['a', 'u'].contains ||
      (on.contains 'a' && on.contains 'u') || on.any off.contains then none
  else some (off.foldl (Flags.put false) (on.foldl (Flags.put true) f), rest)

/-- What follows a comment. An escape in it does not end it. -/
def pastComment (stop : Char) : List Char → Option (List Char)
  | [] => none
  | '\\' :: _ :: rest => pastComment stop rest
  | c :: rest => if c = stop then some rest else pastComment stop rest

/-- The number of the group that a condition asks for. A name must be known, a number need not. -/
def condition? (r : Reading) (name : String) : Option (Nat × Reading) :=
  if isIdentifier name then (Assoc.get? r.names name).map (·, r)
  else (wholeNumber? name).bind fun n =>
    if n = 0 then none else some (n, { r with asked := n :: r.asked })

def openGroup (r : Reading) (text : List Char) : Except Fault (Reading × List Char) :=
  match text with
  | '?' :: 'P' :: '<' :: rest => do
    let (name, rest) ← orFlaw (upTo? '>' rest)
    if isIdentifier name && !Assoc.contains r.names name then
      pure (← r.enterNumbered (some name), rest)
    else flaw
  | '?' :: 'P' :: '=' :: rest => do
    let (name, rest) ← orFlaw (upTo? ')' rest)
    let n ← orFlaw (Assoc.get? r.names name)
    pure (← orFlaw (r.pushAgain n), rest)
  | '?' :: ':' :: rest => do pure (← r.enter .plain r.flags, rest)
  | '?' :: '#' :: rest => do pure (r, ← orFlaw (pastComment ')' rest))
  | '?' :: '=' :: rest => do pure (← r.enter (.ahead true) r.flags, rest)
  | '?' :: '!' :: rest => do pure (← r.enter (.ahead false) r.flags, rest)
  | '?' :: '<' :: '=' :: rest => do pure (← r.enter (.behind true) r.flags, rest)
  | '?' :: '<' :: '!' :: rest => do pure (← r.enter (.behind false) r.flags, rest)
  | '?' :: '>' :: rest => do pure (← r.enter .atomic r.flags, rest)
  | '?' :: '(' :: rest => do
    let (name, rest) ← orFlaw (upTo? ')' rest)
    let (n, r) ← orFlaw (r.condition? name)
    if r.behindKnows n then pure (← r.enter (.given n) r.flags, rest) else flaw
  | '?' :: rest => do
    let (flags, rest) ← orFlaw (flagged? r.flags rest)
    pure (← r.enter .plain flags, rest)
  | rest => do pure (← r.enterNumbered none, rest)

/-- Is a character passed over where white space stands for nothing? -/
def isFiller (c : Char) : Bool :=
  [' ', '\t', '\n', '\r', '\x0b', '\x0c'].contains c

def readCount (r : Reading) (range : Except Fault (Nat × Option Nat)) (rest : List Char) :
    Except Fault (Reading × List Char) := do
  let (least, most) ← range
  let (manner, rest) := manner rest
  pure (← orFlaw (r.recount { least, most, manner }), rest)

/-- Reads what comes next: a part, a count, or what opens, divides or closes a group. -/
def step (r : Reading) (c : Char) (rest : List Char) : Except Fault (Reading × List Char) :=
  match c with
  | '|' => do pure (← orFlaw r.bar, rest)
  | ')' => do pure (← orFlaw r.leave, rest)
  | '\\' => orFlaw (r.escape rest)
  | '[' => do
    let (set, rest) ← orFlaw (set? r.flags rest)
    pure (r.push (.one set), rest)
  | '(' => r.openGroup rest
  | '.' => .ok (r.push (.one (if r.flags.dotAll then .all else .ofLine)), rest)
  | '^' => .ok (r.pushAnchor (if r.flags.manyLines then .lineStart else .textStart), rest)
  | '$' => .ok (r.pushAnchor (if r.flags.manyLines then .lineEnd else .lastEnd), rest)
  | c =>
    match count? (c :: rest) with
    | some (range, rest) => r.readCount range rest
    | none =>
      if r.flags.spaced && isFiller c then .ok (r, rest)
      else if r.flags.spaced && c = '#' then .ok (r, (pastComment '\n' rest).getD [])
      else .ok (r.pushChar c, rest)

/-- The expression that has been read. All groups must be closed, and the groups that conditions ask
for must be there. -/
def finish (r : Reading) : Except Fault Expression :=
  if r.outer.isEmpty && !r.uneven && r.asked.all (· ≤ r.groups) then
    .ok ⟨r.inner.pattern, r.groups, r.names⟩
  else flaw

/-- Reads on, in at most as many steps as there are characters. -/
def read : Nat → Reading → List Char → Except Fault Expression
  | _, r, [] => r.finish
  | 0, _, _ => flaw
  | left + 1, r, c :: rest => do
    let (r, rest) ← r.step c rest
    read left r rest

end Reading

def ofText (text : String) : Except Fault Expression :=
  Reading.read text.length {} text.toList

end Expression
end CodeAtlas.Text
