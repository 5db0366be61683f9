import CodeAtlas.Text.Pattern

namespace CodeAtlas.Text

/-- Where the groups began and ended that have been read, two marks for each group in order. -/
abbrev Marks := List (Option Nat)

/-- A place in a text: what stands before it, from there backwards, what stands after it, and the
marks of the groups. -/
structure Cursor where
  /-- The number of characters before the place. -/
  index : Nat
  before : List Char
  rest : List Char
  marks : Marks := []
  deriving DecidableEq, Repr

/-- Sets a mark. Marks that are missing before it are empty. -/
def Marks.put (i : Nat) (place : Nat) (m : Marks) : Marks :=
  if i < m.length then m.set i (some place)
  else m ++ List.replicate (i - m.length) none ++ [some place]

/-- Where a group began and where it ended, if both are known. -/
def Marks.span? (n : Nat) (m : Marks) : Option (Nat × Nat) :=
  match m.drop (2 * (n - 1)) with
  | some start :: some stop :: _ => some (start, stop)
  | _ => none

/-- What is left of marks after a way has failed. -/
def Marks.after (looped : Bool) (m left : Marks) : Marks :=
  if looped then m else left.take m.length

namespace Cursor

/-- The place behind a character, where the rest of the text begins. -/
def pass (c : Char) (rest : List Char) (s : Cursor) : Cursor :=
  { s with index := s.index + 1, before := c :: s.before, rest }

def next? (s : Cursor) : Option (Char × Cursor) :=
  match s.rest with
  | [] => none
  | c :: rest => some (c, s.pass c rest)

def back? : Nat → Cursor → Option Cursor
  | 0, s => some s
  | n + 1, s =>
    match s.before with
    | [] => none
    | c :: before => back? n { s with index := s.index - 1, before, rest := c :: s.rest }

def openGroup (n : Nat) (s : Cursor) : Cursor :=
  { s with marks := s.marks.put (2 * (n - 1)) s.index }

def closeGroup (n : Nat) (s : Cursor) : Cursor :=
  { s with marks := s.marks.put (2 * (n - 1) + 1) s.index }

/-- The text of a group. A group that has begun once more ends where it ended before, unless it has
begun behind that. -/
def groupText? (n : Nat) (s : Cursor) : Option (List Char) :=
  match s.marks.span? n with
  | some (start, stop) =>
    if start ≤ stop then some (((s.before.reverseAux s.rest).drop start).take (stop - start))
    else none
  | none => none

def past? (likeness : Likeness) : List Char → Cursor → Option Cursor
  | [], s => some s
  | c :: cs, s =>
    match s.next? with
    | some (d, s) => if likeness.key c == likeness.key d then past? likeness cs s else none
    | none => none

/-- The places behind no, one, two and more characters of a set, up to a number of them. -/
def along (set : CharSet) (most : Option Nat) : List Char → Cursor → List Cursor
  | [], s => [s]
  | c :: rest, s =>
    if most != some 0 && set.takes c then
      s :: along set (most.map (· - 1)) rest (s.pass c rest)
    else [s]

/-- The same place after a way from it has failed. -/
def again (looped : Bool) (s : Cursor) (left : Marks) : Cursor :=
  { s with marks := s.marks.after looped left }

end Cursor

/-- Where a way ends, or the marks that it leaves if it fails. -/
abbrev Outcome := Except Marks Cursor

abbrev Onward := Cursor → Outcome

namespace Pattern

def often (part : Onward → Onward) : Nat → Onward → Onward
  | 0, k, s => k s
  | n + 1, k, s => part (often part n k) s

/-- A part once more, as often as possible, and then the rest. What began at this very place before
does not begin here again. Every other time moves on, which bounds their number. -/
def most (part : Onward → Onward) (k : Onward) : Nat → Option Nat → Option Nat → Onward
  | 0, _, _, s => k s
  | left + 1, spare, last, s =>
    if spare == some 0 || last == some s.index then k s
    else
      match part (most part k left (spare.map (· - 1)) (some s.index)) s with
      | .ok t => .ok t
      | .error _ => k s

/-- The rest, or a part once more, as seldom as possible, and then the rest. -/
def fewest (part : Onward → Onward) (looped : Bool) (k : Onward) :
    Nat → Option Nat → Option Nat → Onward
  | 0, _, _, s => k s
  | left + 1, spare, last, s =>
    match k s with
    | .ok t => .ok t
    | .error marks =>
      let s := s.again looped marks
      if spare == some 0 || last == some s.index then .error s.marks
      else part (fewest part looped k left (spare.map (· - 1)) (some s.index)) s

/-- The place behind a part that stands a number of times, each time in its first way. -/
def oftenOnly (part : Onward → Onward) : Nat → Onward
  | 0, s => .ok s
  | n + 1, s =>
    match part .ok s with
    | .ok t => oftenOnly part n t
    | .error marks => .error marks

/-- The place behind a part that stands as often as it goes, each time in its first way. -/
def mostOnly (part : Onward → Onward) : Nat → Option Nat → Option Nat → Cursor → Cursor
  | 0, _, _, s => s
  | left + 1, spare, last, s =>
    if spare == some 0 || last == some s.index then s
    else
      match part .ok s with
      | .ok t => mostOnly part left (spare.map (· - 1)) (some s.index) t
      | .error _ => s

/-- A part as often as a count says, and then the rest. -/
def counted (part : Onward → Onward) (looped : Bool) (c : Count) (k : Onward) (s : Cursor) :
    Outcome :=
  let bound (t : Cursor) := t.rest.length + 2
  match c.manner with
  | .mostFirst => often part c.least (fun t => most part k (bound t) c.spare none t) s
  | .fewestFirst => often part c.least (fun t => fewest part looped k (bound t) c.spare none t) s
  | .mostOnly =>
    match oftenOnly part c.least s with
    | .ok t => k (mostOnly part (bound t) c.spare none t)
    | .error marks => .error marks

/-- The first of some places from which the rest goes on. -/
def tryEach (looped : Bool) (k : Onward) (marks : Marks) : List Cursor → Outcome
  | [] => .error marks
  | s :: others =>
    match k { s with marks } with
    | .ok t => .ok t
    | .error left => tryEach looped k (marks.after looped left) others

/-- Characters of a set as often as a count says, and then the rest. -/
def countedOf (set : CharSet) (looped : Bool) (c : Count) (k : Onward) (s : Cursor) : Outcome :=
  let allowed := (s.along set c.most s.rest).drop c.least
  match c.manner with
  | .mostFirst => tryEach looped k s.marks allowed.reverse
  | .fewestFirst => tryEach looped k s.marks allowed
  | .mostOnly =>
    match allowed.getLast? with
    | some t => k t
    | none => .error s.marks

/-- The first way that a pattern fits at a place if the rest goes on in a given way. The pattern may
stand within a part that is repeated. -/
def run : Pattern → Bool → Onward → Onward
  | nothing, _, k, s => k s
  | one set, _, k, s =>
    match s.next? with
    | some (c, t) => if set.takes c then k t else .error s.marks
    | none => .error s.marks
  | anchor a, _, k, s => if a.holds s.before.head? s.rest then k s else .error s.marks
  | seq p q, looped, k, s => run p looped (run q looped k) s
  | either p q, looped, k, s =>
    match run p looped k s with
    | .ok t => .ok t
    | .error marks =>
      let s := s.again looped marks
      match run q looped k s with
      | .ok t => .ok t
      | .error marks => .error (s.marks.after looped marks)
  | group n p, looped, k, s => run p looped (fun t => k (t.closeGroup n)) (s.openGroup n)
  | times p c, looped, k, s =>
    match p with
    | one set => countedOf set looped c k s
    | p => counted (run p (looped || c.manner != .mostOnly)) looped c k s
  | atomic p, looped, k, s =>
    match run p looped .ok s with
    | .ok t => k t
    | .error marks => .error marks
  | look back true p, looped, k, s =>
    match s.back? back with
    | none => .error s.marks
    | some earlier =>
      match run p looped .ok earlier with
      | .ok t => k { s with marks := t.marks }
      | .error marks => .error marks
  | look back false p, looped, k, s =>
    match s.back? back with
    | none => k s
    | some earlier =>
      match run p looped .ok earlier with
      | .ok t => .error t.marks
      | .error marks => k (s.again looped marks)
  | again n likeness, _, k, s =>
    match (s.groupText? n).bind fun text => s.past? likeness text with
    | some t => k t
    | none => .error s.marks
  | given n p q, looped, k, s =>
    if (s.groupText? n).isSome then run p looped k s else run q looped k s

/-- The place behind a pattern that begins at a place, if it fits there. It may have to take a
character at least. -/
def fit? (p : Pattern) (advance : Bool) (s : Cursor) : Option Cursor :=
  let accept (t : Cursor) : Outcome :=
    if advance && t.index == s.index then .error t.marks else .ok t
  (run p false accept s).toOption

/-- A piece of a text in which a pattern was looked for. -/
inductive Span where
  /-- A character that is in no fit. -/
  | kept (c : Char)
  /-- A fit, from its first place to its last. -/
  | found (start stop : Cursor)
  deriving DecidableEq, Repr

/-- All fits of a pattern from left to right, and the characters between them. A fit that takes no
character may be followed by one that begins at the same place and takes some. The first number
counts the characters of the last fit that are still to be passed over. -/
def spansFrom (p : Pattern) : Nat → Nat → List Char → List Char → List Span
  | _, index, before, [] =>
    let here : Cursor := { index, before, rest := [] }
    match p.fit? false here with
    | some stop => [.found here stop]
    | none => []
  | skip + 1, index, before, c :: rest => spansFrom p skip (index + 1) (c :: before) rest
  | 0, index, before, c :: rest =>
    let here : Cursor := { index, before, rest := c :: rest }
    match p.fit? false here with
    | none => .kept c :: spansFrom p 0 (index + 1) (c :: before) rest
    | some stop =>
      match stop.index - index with
      | length + 1 => .found here stop :: spansFrom p length (index + 1) (c :: before) rest
      | 0 =>
        .found here stop :: match p.fit? true here with
          | none => .kept c :: spansFrom p 0 (index + 1) (c :: before) rest
          | some stop =>
            .found here stop :: spansFrom p (stop.index - index - 1) (index + 1) (c :: before) rest

def spans (p : Pattern) (text : List Char) : List Span :=
  p.spansFrom 0 0 [] text

end Pattern
end CodeAtlas.Text
