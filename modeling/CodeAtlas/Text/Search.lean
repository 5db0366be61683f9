namespace CodeAtlas.Text

/-- The pieces between separators. There is always one more piece than there are separators. -/
def pieces (sep : Char) : List Char → List (List Char)
  | [] => [[]]
  | c :: r =>
    if c = sep then [] :: pieces sep r
    else match pieces sep r with
      | [] => [[c]]
      | p :: ps => (c :: p) :: ps

def split (sep : Char) (s : String) : List String :=
  (pieces sep s.toList).map String.ofList

/-- Is `needle` a contiguous part of the text? The empty text is part of every text. -/
def occurs (needle : List Char) : List Char → Bool
  | [] => needle.isEmpty
  | c :: r => needle.isPrefixOf (c :: r) || occurs needle r

def contains (needle s : String) : Bool :=
  occurs needle.toList s.toList

def startsWith (s start : String) : Bool :=
  start.toList.isPrefixOf s.toList

def endsWith (s ending : String) : Bool :=
  ending.toList.reverse.isPrefixOf s.toList.reverse

/-- Replaces occurrences of `old` from left to right. The counter is the number of characters of
the last occurrence that are still to be passed over. -/
def substituteFrom (old new : List Char) : Nat → List Char → List Char
  | _, [] => []
  | skip + 1, _ :: r => substituteFrom old new skip r
  | 0, c :: r =>
    if old.isPrefixOf (c :: r) then new ++ substituteFrom old new (old.length - 1) r
    else c :: substituteFrom old new 0 r

/-- Replaces every occurrence of the non-empty text `old`, from left to right. -/
def substitute (old new s : String) : String :=
  String.ofList (substituteFrom old.toList new.toList 0 s.toList)

/-- Drops the longest run at the end whose characters all satisfy `p`. -/
def dropEnd (p : Char → Bool) (cs : List Char) : List Char :=
  (cs.reverse.dropWhile p).reverse

def count (c : Char) (s : String) : Nat :=
  s.toList.count c

/-- The index that an offset stands for. A negative one counts from the end, and none lies before
the beginning. -/
def place (length : Nat) (i : Int) : Nat :=
  (if i < 0 then i + length else i).toNat

def takeTo (i : Int) (xs : List α) : List α :=
  xs.take (place xs.length i)

def dropTo (i : Int) (xs : List α) : List α :=
  xs.drop (place xs.length i)

end CodeAtlas.Text
