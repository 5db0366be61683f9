import CodeAtlas.Build.Review
import CodeAtlas.Database.Store
import CodeAtlas.Project.FileStats

namespace CodeAtlas
open Server

structure Job where
  workspace : Workspace
  /-- The root of the project, which should be a text. -/
  root : Json
  /-- The ignore file, if one is named. -/
  ignoreFile : Json := .null
  credentials : Credentials := {}

structure Run where
  builder : Builder
  database : Database := {}

namespace Run

def onBuilder (act : Action Builder α) : Action Run α :=
  act.zoom Run.builder (fun r builder => { r with builder })

def onDatabase (act : Action Database α) : Action Run α :=
  act.zoom Run.database (fun r database => { r with database })

def owner : Owner := ⟨.str "test", .str "test"⟩

/-- The environment of what is stored, and that of a change under review. -/
def baseEnvironment (root : Json) : Environment :=
  ⟨.str "dev", .str "MAIN", root⟩

def reviewEnvironment (root : Json) : Environment :=
  ⟨.str "dev", .str "pr-123", root⟩

/-- The rules of the walk. The ignore file is read, if one is named. -/
def rules (j : Job) : Except Fault WalkRules :=
  WalkRules.ignoring j.workspace.disk { root := j.root } j.ignoreFile

def setUp (j : Job) : Action Run WalkRules := do
  onBuilder (Builder.onServers Servers.start)
  Action.ofExcept (rules j)

def connect (j : Job) : Action Run Unit :=
  onDatabase (Database.start j.credentials (.int 50) false)

def finish : Action Run Unit := do
  let (nodes, edges) ← Action.ofExcept (← get).builder.atlas.records
  onBuilder (Builder.print ("Saving graph with " ++ toString nodes.length ++ " nodes and " ++
    toString edges.length ++ " relationships"))
  onDatabase do
    Database.save owner (.arr (nodes.map NodeRecord.toJson)) (.arr (edges.map EdgeRecord.toJson))
    Database.close
  onBuilder (Builder.onServers Servers.shutdownExitClose)

/-- Builds the whole project. First the largest files are reported, and the file that the Ruby
server would run is set aside. -/
def full (j : Job) : Action Run Unit := do
  let rules ← setUp j
  let disk := j.workspace.disk
  let stats ← Action.ofExcept (FileStats.ofWalk disk (Walk.of disk rules))
  onBuilder ((← Action.ofExcept (FileStats.report stats (.int 10))).forM Builder.print)
  connect j
  let workspace := { j.workspace with disk := disk.setAside rules.rootText "Gemfile" }
  onBuilder (Builder.build ⟨workspace, rules, some (baseEnvironment j.root)⟩)
  finish

def review (j : Job) (changes : List FileChange) : Action Run Unit := do
  let rules ← setUp j
  connect j
  let project : Project := ⟨j.workspace, rules, some (baseEnvironment j.root)⟩
  onBuilder (Review.build ⟨project, changes, some (reviewEnvironment j.root)⟩)
  finish

/-- Builds files anew. What is stored of them is deleted first. -/
def update (j : Job) (paths : List Json) : Action Run Unit := do
  let rules ← setUp j
  connect j
  paths.forM fun path => do
    let _ ← onDatabase (Database.deleteAt path)
  let project : Project := ⟨j.workspace, rules, some (baseEnvironment j.root)⟩
  onBuilder (Review.ofUpdate project paths).rebuild
  finish

/-- The whole project, with a last line. -/
def program (j : Job) : Action Run Unit := do
  full j
  onBuilder (Builder.print "Updating")

end Run
end CodeAtlas
