import CodeAtlas.Build.Progress
import CodeAtlas.References
import CodeAtlas.Server.Servers

namespace CodeAtlas
open Server

/-- What is built: the files, which of them count, and the environment of the nodes. -/
structure Project where
  workspace : Workspace
  rules : WalkRules
  environment : Option Environment

structure Builder where
  atlas : Atlas := {}
  servers : Servers
  /-- The lines that were printed. -/
  printed : List String := []
  /-- The pauses that were made, in seconds. -/
  pauses : List Nat := []

namespace Builder

def onAtlas (act : Action Atlas α) : Action Builder α :=
  act.zoom Builder.atlas (fun b atlas => { b with atlas })

def onTable (act : Action NodeTable α) : Action Builder α :=
  onAtlas (Atlas.onTable act)

def onServers (act : Action Servers α) : Action Builder α :=
  act.zoom Builder.servers (fun b servers => { b with servers })

def print (line : String) : Action Builder Unit :=
  modify fun b => { b with printed := b.printed ++ [line] }

def pause (seconds : Nat) : Action Builder Unit :=
  modify fun b => { b with pauses := b.pauses ++ [seconds] }

def table : Action Builder NodeTable := do
  pure (← get).atlas.table

def graph : Action Builder Graph := do
  pure (← get).atlas.graph

/-- The node of a folder. A folder that has none gets one. -/
def folderNode (e : Option Environment) (parent : Option NodeKey) (f : Subfolder) :
    Action Builder NodeKey := do
  let g ← graph
  if g.hasFolderAt f.uri then Action.ofExcept (g.folderAt f.uri)
  else
    let key ← onTable (NodeTable.insert .folder f.uri (.str f.name) (.int f.level) parent e)
    onAtlas (Atlas.addNode key)
    pure key

/-- Tells a file to its server, if there is one for its extension. -/
def announce (d : Disk) (file : ProjectFile) : Action Builder Unit := do
  match ← (onServers (Servers.announce d file)).outcome with
  | .ok _ => pure ()
  | .error (.extensionNotSupported _) => pure ()
  | .error fault => throw fault

def fileNode (t : NodeTable) (keys : List NodeKey) : Except Fault NodeKey :=
  match keys.find? (fun key => (t.get? key).any (fun n => n.label = .file)) with
  | some key => .ok key
  | none => .error .fileNodeNotFound

def addFile (p : Project) (folder : NodeKey) (file : ProjectFile) : Action Builder Unit := do
  announce p.workspace.disk file
  let keys ← onTable (Hierarchy.plantFile p.workspace (Language.ofExtension? file.extension)
    p.environment (some folder) file (.int file.level))
  onAtlas (Atlas.addNodes keys)
  let key ← Action.ofExcept (fileNode (← table) keys)
  onTable (NodeTable.skeletonize key)
  onAtlas (Atlas.contain folder [key])

def addFolder (p : Project) (f : Folder) : Action Builder Unit := do
  let key ← folderNode p.environment none f.announced
  let subfolders ← f.folders.mapM (folderNode p.environment (some key))
  onAtlas (Atlas.contain key subfolders)
  onAtlas (Atlas.addNodes subfolders)
  f.files.forM (addFile p key)

def addProject (p : Project) : Action Builder Unit := do
  let walk := Walk.of p.workspace.disk p.rules
  walk.folders.forM (addFolder p)
  match walk.fault with
  | some fault => throw fault
  | none => print "Execution time of create_code_hierarchy: 0.00 seconds"

def relationshipsTo (key : NodeKey) : Action Builder (List Relationship) := do
  let t ← table
  let n ← Action.ofExcept (t.node key)
  let d ← Action.ofExcept (t.definition key)
  let places ← onServers (Servers.referencesTo n d.nameRange)
  Action.ofExcept
    (References.relationshipsTo (Language.ofExtension? n.extension) t (← graph) key places)

def relationshipsInto (file : Node) : Action Builder (List Relationship) := do
  let t ← table
  let keys := ((← graph).nodesAt file.path).filter fun key =>
    (t.get? key).any (fun n => n.label ≠ .file)
  pure (← keys.mapM relationshipsTo).flatten

/-- Prints a line if the item at an index is reported on. -/
def report (index interval : Nat) (line : String) : Action Builder Unit := do
  if ← Action.ofExcept (Build.isDue (.int index) (.int interval)) then print line

def gather (total : Nat) : Nat → List NodeKey → List Relationship →
    Action Builder (List Relationship)
  | _, [], found => pure found
  | index, key :: keys, found => do
    let file ← Action.ofExcept ((← table).node key)
    let interval := Build.reportInterval total
    report index interval (Build.fileReport file.name.spelling index total)
    let found := found ++ (← relationshipsInto file)
    report index interval (Build.timeReport file.name.spelling found.length)
    gather total (index + 1) keys found

/-- Adds the relationships to the definitions in files, once all are known. -/
def addReferences (files : List NodeKey) : Action Builder Unit := do
  let found ← gather files.length 0 files []
  modify fun b =>
    { b with atlas := { b.atlas with graph := b.atlas.graph.addReferences found } }

/-- The full build. It pauses between the two parts, to give the servers time to read. -/
def build (p : Project) : Action Builder Unit := do
  addProject p
  print "Waiting for LSP to finish"
  pause 15
  print "LSP finished"
  addReferences ((← graph).nodesLabelled .file)

end Builder
end CodeAtlas
