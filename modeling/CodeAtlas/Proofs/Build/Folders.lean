import CodeAtlas.Proofs.Build.Consistency

namespace CodeAtlas
open NodeTable CodeAtlas.Path

namespace Atlas
variable {a : Atlas} {e : Option Environment} {places : List String} {key : NodeKey} {f : Folder}

def FolderAt (a : Atlas) (path : String) (key : NodeKey) : Prop :=
  a.graph.folderAt path = .ok key ∧ a.table.Occupies .folder path key

theorem folderAt_eq_ok {path : String} :
    a.graph.folderAt path = .ok key ↔ Assoc.get? a.graph.folders path = some key := by
  unfold Graph.folderAt
  split <;> simp_all

/-- There is but one folder at a path, and the graph finds it there. -/
theorem Traced.folderAt (h : a.Traced e [] [] places) {path : String}
    (hk : a.table.Occupies .folder path key) : a.FolderAt path key := by
  obtain ⟨n, hn, hc, rfl⟩ := hk.content h.sound
  have hhas := h.has_folder hn hc
  unfold Graph.hasFolderAt at hhas
  obtain ⟨k, hget⟩ := Option.isSome_iff_exists.mp (Assoc.contains_iff.mp hhas)
  obtain ⟨m, hm, hmc, hpath⟩ := h.folder_at hget
  have hsame : k = key := by
    apply h.sound.apart hm hn
    · simp [Node.containable, hmc]
    · simp [Node.containable, hc]
    · exact hpath
  exact ⟨folderAt_eq_ok.mpr (hsame ▸ hget), hk⟩

end Atlas

namespace Nested
open Source Server

/-- A root that holds a file, a folder with another one, and a link to a folder. -/
def disk : Disk :=
  let file := Entry.file (TwoFiles.blob TwoFiles.library)
  ⟨[("r", .directory {} [("s", .directory {} [("a.js", file)]), ("b.js", file),
    ("t", .directory ⟨4096, .linked⟩ [("c.js", file)])])]⟩

def project : Project where
  workspace := { disk, grammar := Grammar.ofPieces [TwoFiles.library] }
  rules := { root := .str "/r" }
  environment := some ⟨.str "dev", .str "main", .str "/r"⟩

def drawn : Except Fault Unit × Builder :=
  (Builder.addProject project).perform { servers := (Servers.start.perform (Servers.make (.str "/r")
    (.str "localhost") (.int 5000) ({} : Answers).reply)).2 }

theorem proper_disk : disk.Proper := by
  have hnames : ∀ n ∈ ["r", "s", "a.js", "b.js", "t", "c.js"], IsName n := by decide +kernel
  simpa [Disk.Proper, Disk.top, disk, Entry.Proper, ProperAll, Assoc.keys] using hnames

end Nested

end CodeAtlas
