import CodeAtlas.Graph.NodeTable

namespace CodeAtlas.NodeTable

/-- A depth that no chain of members without repetition goes beyond. -/
def depth (t : NodeTable) : Nat :=
  t.nodes.size + 1

/-- Changes the code of a node, which must have some. -/
def updateDefinition (f : Definition → Definition) (key : NodeKey) : Action NodeTable Unit := do
  let t ← get
  let _ ← Action.ofExcept (t.definition key)
  set (t.modify key (Node.updateDefinition f))

def setEnvironment (e : Option Environment) (key : NodeKey) : Action NodeTable Unit := do
  let t ← get
  let _ ← Action.ofExcept (t.node key)
  set (t.modify key (fun n => { n with environment := e }))

/-- Acts on a definition and then on all below it. Members must be definitions. -/
def eachFrom (act : NodeKey → Action NodeTable Unit) : Nat → NodeKey → Action NodeTable Unit
  | 0, _ => throw .endlessMembers
  | depth + 1, key => do
    let _ ← Action.ofExcept ((← get).definition key)
    act key
    ((← get).members key).forM (eachFrom act depth)

def eachDefinition (act : NodeKey → Action NodeTable Unit) (key : NodeKey) :
    Action NodeTable Unit := do
  eachFrom act (← get).depth key

def addLabel (label : Json) : NodeKey → Action NodeTable Unit :=
  eachDefinition (updateDefinition fun d => { d with extraLabels := d.extraLabels ++ [label] })

/-- Gives a definition an attribute. A list or an object cannot be its key. -/
def addOwnAttribute (name value : Json) (key : NodeKey) : Action NodeTable Unit := do
  if !name.isKey then throw .wrongType
  updateDefinition (fun d =>
    { d with extraAttributes := Assoc.insert d.extraAttributes name value }) key

def addAttribute (name value : Json) : NodeKey → Action NodeTable Unit :=
  eachDefinition (addOwnAttribute name value)

def moveTo (e : Option Environment) : NodeKey → Action NodeTable Unit :=
  eachDefinition (setEnvironment e)

/-- The places of the names of a definition and of all below it, down to a depth. -/
def nameRangesFrom (t : NodeTable) : Nat → NodeKey → Except Fault (List Place)
  | 0, _ => .error .endlessMembers
  | depth + 1, key => do
    let own := (← t.definition key).nameRange
    let below ← (t.members key).mapM (t.nameRangesFrom depth)
    pure (own :: below.flatten)

def nameRanges (t : NodeTable) (key : NodeKey) : Except Fault (List Place) :=
  t.nameRangesFrom t.depth key

/-- Looks for the member whose lines hold the lines of an extent, and goes on inside it. Members
stand in the order of their lines, so the search ends at the first that begins after the extent. -/
def searchAmong (t : NodeTable) (e : Extent) (inside : NodeKey → Except Fault NodeKey)
    (key : NodeKey) : List NodeKey → Except Fault NodeKey
  | [] => .ok key
  | m :: ms => do
    let lines := (← t.definition m).range.extent
    if ← lines.holdsLines e then inside m
    else if ← e.stop.line.lt lines.start.line then pure key
    else t.searchAmong e inside key ms

/-- The innermost definition whose lines hold the lines of an extent, down to a depth. -/
def searchFrom (t : NodeTable) (e : Extent) : Nat → NodeKey → Except Fault NodeKey
  | 0, _ => .error .endlessMembers
  | depth + 1, key => t.searchAmong e (t.searchFrom e depth) key (t.members key)

/-- The innermost definition at or below a node that holds the lines of an extent. -/
def referenceSearch (t : NodeTable) (e : Extent) (key : NodeKey) : Except Fault NodeKey := do
  let _ ← t.definition key
  t.searchFrom e t.depth key

def standsAt (t : NodeTable) (paths : Json) (key : NodeKey) : Except Fault Bool := do
  paths.holds (.str (← t.node key).path)

/-- Keeps only the members of a node that stand at the given paths. -/
def keepOwnMembers (paths : Json) (key : NodeKey) : Action NodeTable (List NodeKey) := do
  let t ← get
  let kept ← Action.ofExcept ((t.members key).filterM (t.standsAt paths))
  set (t.replaceMembers key kept)
  pure kept

/-- Keeps only members at the given paths. Definitions are pruned all the way down, folders only
at their own level. -/
def pruneFrom (paths : Json) : Nat → NodeKey → Action NodeTable Unit
  | 0, _ => throw .endlessMembers
  | depth + 1, key => do
    match (← Action.ofExcept ((← get).node key)).content with
    | .folder => do
      let _ ← keepOwnMembers paths key
    | .definition _ => do
      (← keepOwnMembers paths key).forM (pruneFrom paths depth)
    | _ => pure ()

def keepMembersAt (paths : Json) (key : NodeKey) : Action NodeTable Unit := do
  pruneFrom paths (← get).depth key

end CodeAtlas.NodeTable
