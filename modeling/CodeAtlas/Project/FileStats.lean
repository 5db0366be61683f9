import CodeAtlas.Project.Walk

namespace CodeAtlas

structure FileStats where
  name : String
  lines : Nat
  size : Int
  deriving DecidableEq, Repr

namespace FileStats

/-- The lines of a file. A file that is not text counts as empty. -/
def readLines (d : Disk) (path : String) : Except Fault (List String) :=
  match d.readText path with
  | .ok text => .ok (Text.lines text)
  | .error .textMalformed => .ok []
  | .error fault => .error fault

def ofFile (d : Disk) (path : String) : Except Fault (Option FileStats) := do
  let lines ← readLines d path
  if lines.isEmpty then pure none
  else pure (some ⟨Path.baseName path, lines.length, ← d.sizeOf path⟩)

/-- Statistics of all files, the largest first and those of one size as they are walked. -/
def ofWalk (d : Disk) (w : Walk) : Except Fault (List FileStats) := do
  let files := w.folders.flatMap Folder.files
  let stats := (← files.mapM (fun f => ofFile d f.path)).filterMap (fun s => s)
  match w.fault with
  | some fault => .error fault
  | none => pure (stats.mergeSort (fun a b => b.size ≤ a.size))

/-- The report on the first files, or on all if no number of them is given. -/
def report (stats : List FileStats) (limit : Json) : Except Fault (List String) := do
  let shown ← if limit.isVoid then pure stats else pure (Text.takeTo (← limit.toInt) stats)
  pure (["Top " ++ toString shown.length ++ " files by size:",
   "Total files: " ++ toString stats.length] ++
  shown.map (fun s =>
    s.name ++ " - " ++ toString s.lines ++ " lines - " ++ toString s.size ++ " bytes"))

end FileStats
end CodeAtlas
