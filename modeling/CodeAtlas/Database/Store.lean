import CodeAtlas.Action
import CodeAtlas.Database.Escape
import CodeAtlas.Database.Query
import CodeAtlas.Json.Access
import CodeAtlas.Json.Spelling

namespace CodeAtlas

inductive DatabaseCall where
  | connect (address user password : Option String) (connections : Json)
  | run (query : Json) (parameters : Json.Members)
  /-- Begins a writing transaction. -/
  | write
  | close

structure Credentials where
  address : Option String := none
  user : Option String := none
  password : Option String := none

structure Owner where
  repository : Json := .str "default_repo"
  entity : Json := .str "default_user"

inductive ResultForm where
  | rows
  | graph
  deriving DecidableEq, Repr

structure Database where
  /-- The faults in which the first attempts to connect end. -/
  refusals : List Fault := []
  /-- How the queries to come end, in a result or a fault. Queries beyond them have no rows. For a
  query in a transaction that is repeated, the last time counts. -/
  results : List (Except Fault Json) := []
  calls : List DatabaseCall := []
  /-- Lines for the log. -/
  notes : List String := []
  /-- The pauses that were made, in seconds. -/
  pauses : List Nat := []

namespace Database

def record (call : DatabaseCall) : Action Database Unit :=
  modify fun d => { d with calls := d.calls ++ [call] }

def note (line : String) : Action Database Unit :=
  modify fun d => { d with notes := d.notes ++ [line] }

def pause (seconds : Nat) : Action Database Unit :=
  modify fun d => { d with pauses := d.pauses ++ [seconds] }

def attempt (c : Credentials) (connections : Json) : Action Database Unit := do
  record (.connect c.address c.user c.password connections)
  let d ← get
  match d.refusals with
  | [] => pure ()
  | fault :: refusals =>
    set { d with refusals }
    throw fault

/-- Tries to connect, and tries again after each of the pauses as long as the database is
unavailable. -/
def connectAfter (c : Credentials) (connections : Json) : List Nat → Action Database Unit
  | [] => attempt c connections
  | seconds :: later => do
    match ← (attempt c connections).outcome with
    | .ok _ => pure ()
    | .error fault =>
      if fault = .serviceUnavailable then
        pause seconds
        connectAfter c connections later
      else throw fault

def connect (c : Credentials) (connections : Json) : Action Database Unit :=
  connectAfter c connections [1, 2]

def close : Action Database Unit :=
  record .close

def run (query : Json) (parameters : Json.Members) : Action Database Json := do
  record (.run query parameters)
  let d ← get
  match d.results with
  | [] => pure (.arr [])
  | result :: results =>
    set { d with results }
    Action.ofExcept result

def inForm (form : ResultForm) (result : Json) : Json :=
  match form with
  | .rows => result
  | .graph => .obj [("graph", result)]

/-- The parameters of a query. Null stands for none. -/
def parametersOf : Json → Except Fault Json.Members
  | .obj parameters => .ok parameters
  | other => if other.isVoid then .ok [] else .error .wrongType

def query (text parameters : Json) (form : ResultForm) : Action Database Json := do
  pure (inForm form (← run text (← Action.ofExcept (parametersOf parameters))))

def prepare (text : String) : Action Database Unit := do
  let _ ← run (.str text) []

def createIndexes : Action Database Unit :=
  [Query.nameIndex, Query.idIndex, Query.entityIndex, Query.uniqueness].forM prepare

def repositoryGraph (o : Owner) (form : ResultForm) : Action Database Json := do
  pure (inForm form (← run (.str Query.ofRepository) [("repoId", o.repository)]))

def entityGraph (o : Owner) (form : ResultForm) : Action Database Json := do
  pure (inForm form (← run (.str Query.ofEntity) [("entityId", o.entity)]))

def noteCreated (what : String) (result : Json) : Action Database Unit := do
  (← Action.ofExcept result.items).forM fun row => do
    let total ← Action.ofExcept (row.field "total")
    note ("Created " ++ total.spelling ++ " " ++ what)

def createNodes (o : Owner) (nodes : Json) : Action Database Unit := do
  record .write
  noteCreated "nodes" (← run (.str Query.createNodes) [("nodeList", nodes), ("batchSize", .int 10),
    ("repoId", o.repository), ("entityId", o.entity)])

def createEdges (o : Owner) (edges : Json) : Action Database Unit := do
  record .write
  noteCreated "edges" (← run (.str Query.createEdges) [("edgesList", edges), ("batchSize", .int 10),
    ("entityId", o.entity)])

def save (o : Owner) (nodes edges : Json) : Action Database Unit := do
  createNodes o nodes
  createEdges o edges

def deleteAt (path : Json) : Action Database Json :=
  run (.str Query.deleteAt) [("path", path)]

def pick (columns : List (String × String)) (row : Json) : Except Fault Json := do
  pure (.obj (← columns.mapM fun (name, column) => do pure (↑name, ← row.field column)))

def pickAll (columns : List (String × String)) (result : Json) : Except Fault Json := do
  pure (.arr (← (← result.items).mapM (pick columns)))

def neighbourColumns : List (String × String) :=
  [("node_id", "node_id"), ("node_name", "node_name"), ("node_type", "node_type"),
   ("relationship_type", "relationship_type")]

def neighbours (nodeId : Json) : Action Database Json := do
  Action.ofExcept (pickAll neighbourColumns (← run (.str Query.neighbours) [("node_id", nodeId)]))

def neighboursWithin (nodeId steps : Json) : Action Database Json := do
  let result ← run (.str Query.neighboursWithin) [("node_id", nodeId), ("num_hops", steps)]
  Action.ofExcept (pickAll [("node_id", "node_id"), ("function_name", "function_name"),
    ("labels", "labels")] result)

/-- The condition on the types of relationships. One type must be the first of a list or text. -/
def typeCondition (types : Json) (count : Nat) : Except Fault String := do
  if types.isVoid then pure ""
  else if count = 1 then pure (Query.typeCondition [(← types.first).spelling])
  else pure (Query.typeCondition ((← types.items).map Json.spelling))

/-- The nodes from which relationships of some types lead to a node, which is known by its path or
else by its identifier. -/
def incoming (nodeId path types : Json) : Action Database Json := do
  let count ← if types.isVoid then pure 0 else List.length <$> Action.ofExcept types.items
  let start ←
    if !path.isVoid then pure (Query.fromPath path.spelling)
    else if !nodeId.isVoid then pure Query.fromId
    else throw .resultUnset
  let condition ← Action.ofExcept (typeCondition types count)
  let result ← run (.str (Query.incoming start condition)) [("node_id", nodeId)]
  Action.ofExcept (pickAll neighbourColumns result)

def nodeById (nodeId : Json) : Action Database (Json × Json) := do
  let result ← run (.str Query.nodeById) [("node_id", nodeId)]
  let node ← Action.ofExcept (do (← result.first).field "n")
  let near ← neighbours (← Action.ofExcept (node.field "node_id"))
  let get (name column : String) : Action Database (Json.Key × Json) := do
    pure (↑name, ← Action.ofExcept (node.fieldOrNull column))
  let columns ← [("node_id", "node_id"), ("node_name", "name"), ("file_path", "file_path"),
    ("start_line", "start_line"), ("end_line", "end_line"), ("text", "text")].mapM
      fun (name, column) => get name column
  pure (.obj columns, near)

/-- The text of a search with its special characters escaped. Only a text has characters. -/
def searchText : Json → Except Fault String
  | .str text => .ok (escape text)
  | _ => .error .noMembers

def searchFor (o : Owner) (query text : String) : Action Database Json :=
  run (.str query) [("formatted_query", .str text), ("repoId", o.repository)]

/-- Searches for what ends in a text, and if there is no result for the text itself. -/
def search (o : Owner) (text : Json) : Action Database Json := do
  let text ← Action.ofExcept (searchText text)
  let result ← match ← searchFor o Query.search ("*" ++ text) with
    | .null => searchFor o Query.search text
    | result => pure result
  Action.ofExcept (pickAll [("node_id", "node.node_id"), ("node_name", "node.name"),
    ("file_path", "node.file_path"), ("score", "score")] result)

/-- The first row of a result, or null if there is none. -/
def firstRow (result : Json) : Except Fault Json :=
  if result.isVoid then .ok .null else result.first

/-- The first node that a search finds, with its neighbours, or nothing. -/
def code (o : Owner) (text : Json) : Action Database (Option (Json × Json)) := do
  let text ← Action.ofExcept (searchText text)
  let look (text : String) : Action Database Json := do
    Action.ofExcept (firstRow (← searchFor o Query.searchCode text))
  let found ← match ← look ("*" ++ text) with
    | .null => look text
    | row => pure row
  match found with
  | .null => pure none
  | row => do
    let near ← neighbours (← Action.ofExcept (row.field "node.node_id"))
    pure (some (row, near))

/-- Opens a store: connects and, if asked for, makes the indexes. -/
def start (c : Credentials) (connections : Json) (indexed : Bool) : Action Database Unit := do
  connect c connections
  if indexed then createIndexes

end Database
end CodeAtlas
