import CodeAtlas.Build.Builder
import CodeAtlas.Build.Change

namespace CodeAtlas
open Server

/-- A project with changes, and the environment of what is changed. -/
structure Review where
  project : Project
  changes : List FileChange
  environment : Option Environment

namespace Review

/-- A project of which files are to be built again, in its own environment. -/
def ofUpdate (p : Project) (paths : List Json) : Review :=
  ⟨p, paths.map FileChange.ofUpdate, p.environment⟩

/-- The nodes of the files at paths. Paths without one are passed over. -/
def filesAt (g : Graph) (paths : List Json) : Except Fault (List NodeKey) := do
  pure ((← paths.mapM Json.toKey).filterMap fun path => path.bind g.fileAt?)

def relateOutside (r : ExternalRelationship) : Action Builder Unit :=
  modify fun b => { b with atlas := { b.atlas with external := b.atlas.external ++ [r] } }

/-- Marks a file and its definitions as changed, and moves them to the environment of the review.
A modified file is related to what it was. -/
def mark (r : Review) (key : NodeKey) : Action Builder Unit := do
  let t ← Builder.table
  let before ← Action.ofExcept (t.hashedId key)
  let path := (← Action.ofExcept (t.node key)).path
  let change ← Action.ofExcept (FileChange.ofPath r.changes (.str path))
  Builder.onTable do
    NodeTable.addLabel (.str "DIFF") key
    NodeTable.addLabel (.str change.type.name) key
    NodeTable.addAttribute (.str "diff_text") change.text key
    NodeTable.moveTo r.environment key
  if change.type = .modified then
    let after ← Action.ofExcept ((← Builder.table).hashedId key)
    relateOutside ⟨.str after, .str before, .modified⟩
  Builder.onTable (NodeTable.skeletonize key)

def markAll (r : Review) : Action Builder Unit := do
  (← Action.ofExcept (filesAt (← Builder.graph) (FileChange.remaining r.changes))).forM r.mark

/-- Adds the file of a definition to those known. A list or an object cannot name a file. -/
def addPath (known : List Json) (path : Json) : Except Fault (List Json) :=
  if path.isKey then .ok (if known.any path.same then known else known ++ [path])
  else .error .wrongType

/-- Asks for the definitions of what stands at places, and gathers the files they are in. -/
def definitionPaths : List Place → List Json → Action Builder (List Json)
  | [], known => pure known
  | place :: places, known => do
    let path ← Builder.onServers (Servers.definitionPath place)
    definitionPaths places (← Action.ofExcept (addPath known path))

/-- The files that define what a file uses. A file without syntax tree uses nothing. -/
def pathsUsedBy (known : List Json) (key : NodeKey) : Action Builder (List Json) := do
  let t ← Builder.table
  if (← Action.ofExcept (t.definition key)).cursor.isNone then pure known
  else
    let names ← Action.ofExcept (t.nameRanges key)
    let places ← Action.ofExcept (Hierarchy.identifiers t key)
    definitionPaths (withoutNames names places) known

/-- Adds the relationships to the definitions in the changed files, and in those that define what
the changed files use. -/
def addReferences (r : Review) : Action Builder Unit := do
  let g ← Builder.graph
  let changed ← Action.ofExcept (filesAt g (FileChange.remaining r.changes))
  let used ← changed.foldlM pathsUsedBy []
  let others ← Action.ofExcept (filesAt g (FileChange.untouched r.changes used))
  Builder.addReferences (changed ++ others)

def keepChanged (r : Review) : Action Builder Unit := do
  let changed := FileChange.remaining r.changes
  let folders ← Action.ofExcept (Environment.parentsOfAll r.project.environment changed)
  Builder.onAtlas (Atlas.filter (.arr (folders.map .str ++ changed)))

def addDeleted (r : Review) (path : Json) : Action Builder Unit := do
  let path ← Action.ofExcept path.textItself
  let key ← Builder.onTable
    (NodeTable.insert (.deleted .deleted) path (.str "DELETED") (.int 0) none r.environment)
  let t ← Builder.table
  let before ← Action.ofExcept
    (Environment.idOfFile r.project.environment (.str (Path.ofUri path)) t.strays)
  Builder.onAtlas (Atlas.addNode key)
  let after ← Action.ofExcept ((← Builder.table).hashedId key)
  relateOutside ⟨.str before, .str after, .deleted⟩

def addAllDeleted (r : Review) : Action Builder Unit :=
  (FileChange.paths r.changes .deleted).forM r.addDeleted

def build (r : Review) : Action Builder Unit := do
  Builder.addProject r.project
  r.markAll
  r.addReferences
  r.keepChanged
  r.addAllDeleted

/-- Builds the files of the review anew, without marks. -/
def rebuild (r : Review) : Action Builder Unit := do
  Builder.addProject r.project
  r.addReferences
  r.keepChanged

end Review

/-- The stored forms of the relationships, those to other graphs last, and of the nodes. -/
def Atlas.records (a : Atlas) : Except Fault (List NodeRecord × List EdgeRecord) := do
  let edges ← a.graph.edgeRecords a.table
  let nodes ← a.graph.nodeRecords a.table
  pure (nodes, edges ++ a.external.map ExternalRelationship.record)

end CodeAtlas
