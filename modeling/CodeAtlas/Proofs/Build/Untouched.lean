import CodeAtlas.Proofs.Build.Asked
import CodeAtlas.Proofs.Skeleton.Sprouts

namespace CodeAtlas
open NodeTable

namespace Atlas
variable {a : Atlas} {folder key : NodeKey} {n : Node}

/-- Nothing that was there is changed: what is found in the graph, the nodes and their members. The
table may have nodes that nothing leads to. -/
structure Untouched (a a' : Atlas) : Prop where
  graph : a'.graph = a.graph
  external : a'.external = a.external
  nodes : ∀ {key n}, a.table.get? key = some n → a'.table.get? key = some n
  members : ∀ {key n}, a.table.get? key = some n → a'.table.members key = a.table.members key

theorem Untouched.refl (a : Atlas) : a.Untouched a := ⟨rfl, rfl, fun h => h, fun _ => rfl⟩

end Atlas

namespace Builder
variable {b : Builder} {p : Project} {folder : NodeKey} {n : Node} {file : ProjectFile}

structure Plants (p : Project) (folder : NodeKey) (file : ProjectFile) (t : NodeTable)
    (keys : List NodeKey) (t' : NodeTable) : Prop where
  filed : Hierarchy.Filed p.environment (some folder) file t t'
  keys : Hierarchy.FileKeys t keys t'
  downward : Downward t.nodes.size t'
  members : ∀ {key}, key < t.nodes.size → t'.members key = t.members key

namespace Plants
variable {t t' : NodeTable} {keys : List NodeKey}

theorem lt_size (h : Plants p folder file t keys t') : t.nodes.size < t'.nodes.size := by
  obtain ⟨-, -, hlt, -⟩ := h.keys
  exact hlt

/-- The first of the nodes is that of the file. -/
theorem exists_file (h : Plants p folder file t keys t') : ∃ n,
    t'.get? t.nodes.size = some n ∧ n.label = .file ∧ n.path = file.uri ∧
      n.containable = true := by
  obtain ⟨n, hn⟩ := get?_of_lt h.lt_size
  obtain ⟨hpath, -, hkind⟩ := h.filed.new (Nat.le_refl _) hn
  rw [if_pos rfl] at hkind
  obtain ⟨hlabel, ⟨d, hd⟩, -⟩ := hkind
  refine ⟨n, hn, hlabel, hpath, ?_⟩
  rw [Node.label, hd] at hlabel
  cases hs : d.scope <;> simp_all [Node.containable, Scope.label]

end Plants

section
variable {α : Type}

theorem preserves_onTable_spelled {act : Action NodeTable α}
    (hact : ∀ t : NodeTable, t.Spelled → act.Ends t (fun _ => Spelled) Spelled) :
    Action.Preserves (fun b : Builder => b.atlas.table.Spelled) (onTable act) := by
  intro b h
  exact Action.Ends.snd (P := fun b : Builder => b.atlas.table.Spelled)
    (Surroundings.ends_onTable.mpr (hact b.atlas.table h))

theorem preserves_onAtlas_spelled {act : Action Atlas α}
    (hact : ∀ a : Atlas, a.table.Spelled →
      act.Ends a (fun _ a' => a'.table.Spelled) fun a' => a'.table.Spelled) :
    Action.Preserves (fun b : Builder => b.atlas.table.Spelled) (onAtlas act) := by
  intro b h
  exact Action.Ends.snd (P := fun b : Builder => b.atlas.table.Spelled)
    (Action.ends_zoom.mpr (hact b.atlas h))

end

theorem preserves_addNodes_spelled (keys : List NodeKey) :
    Action.Preserves (fun b : Builder => b.atlas.table.Spelled) (onAtlas (Atlas.addNodes keys)) :=
  preserves_onAtlas_spelled fun _ h =>
    Action.ends_forM_keeps h fun _ _ _ h' => Surroundings.ends_addNode (fun _ _ => h') h'

theorem preserves_contain_spelled (key : NodeKey) (members : List NodeKey) :
    Action.Preserves (fun b : Builder => b.atlas.table.Spelled)
      (onAtlas (Atlas.contain key members)) :=
  preserves_onAtlas_spelled fun _ h =>
    Atlas.ends_contain (I := fun a => a.table.Spelled) h fun _ _ _ h' hn hfolder hmember =>
      ⟨(h'.toTidy.appendMembers_folder hn hfolder (by simpa using hmember)).self,
        NamedFrom.appendMembers h'.named _⟩

theorem preserves_announce_spelled (d : Disk) (file : ProjectFile) :
    Action.Preserves (fun b : Builder => b.atlas.table.Spelled) (announce d file) := by
  intro b h
  have hatlas := (Surroundings.ends_announce (b := b) d file).snd
  rw [hatlas]
  exact h

theorem preserves_folderNode_spelled (e : Option Environment) (parent : Option NodeKey)
    (f : Subfolder) :
    Action.Preserves (fun b : Builder => b.atlas.table.Spelled) (folderNode e parent f) := by
  refine Action.preserves_bind (fun _ h => h) fun g => ?_
  split
  · exact Action.preserves_ofExcept _
  · refine Action.preserves_bind (preserves_onTable_spelled fun t ht => ?_) fun key =>
      Action.preserves_bind (preserves_onAtlas_spelled fun a ha => ?_) fun _ =>
      Action.preserves_pure _
    · exact ends_insert (fun _ => ht.push_folder ..) ht
    · exact Surroundings.ends_addNode (fun _ _ => ha) ha

/-- Also where it is not finished, a file leaves a table with trails of names. -/
theorem preserves_addFile_spelled (p : Project) (folder : NodeKey) (file : ProjectFile) :
    Action.Preserves (fun b : Builder => b.atlas.table.Spelled) (addFile p folder file) := by
  refine Action.preserves_bind (preserves_announce_spelled _ _) fun _ =>
    Action.preserves_bind (preserves_onTable_spelled fun t ht => ?_) fun keys =>
    Action.preserves_bind (preserves_addNodes_spelled keys) fun _ =>
    Action.preserves_bind (fun _ h => h) fun _ =>
    Action.preserves_bind (Action.preserves_ofExcept _) fun key =>
    Action.preserves_bind (preserves_onTable_spelled fun t ht => ?_) fun _ =>
    preserves_contain_spelled _ _
  · exact Hierarchy.plantFile_spelled _ _ _ _ _ _ ht
  · exact (ends_skeletonize key t).mono (fun _ _ h => h.spelled ht) fun _ h => h.spelled ht

theorem preserves_addFolder_spelled (p : Project) (f : Folder) :
    Action.Preserves (fun b : Builder => b.atlas.table.Spelled) (addFolder p f) :=
  Action.preserves_bind (preserves_folderNode_spelled _ _ _) fun _ =>
    Action.preserves_bind (Action.preserves_mapM fun _ _ => preserves_folderNode_spelled _ _ _)
      fun _ =>
    Action.preserves_bind (preserves_contain_spelled _ _) fun _ =>
    Action.preserves_bind (preserves_addNodes_spelled _) fun _ =>
    Action.preserves_forM fun _ _ => preserves_addFile_spelled _ _ _

theorem preserves_addProject_spelled (p : Project) :
    Action.Preserves (fun b : Builder => b.atlas.table.Spelled) (addProject p) := by
  refine Action.preserves_bind
    (Action.preserves_forM fun _ _ => preserves_addFolder_spelled _ _) fun _ => ?_
  split
  · exact Action.preserves_throw _
  · exact fun _ h => h

/-- References change no node. -/
theorem preserves_addReferences_spelled (files : List NodeKey) :
    Action.Preserves (fun b : Builder => b.atlas.table.Spelled) (addReferences files) := by
  intro b h
  have hgather := (preserves_gather (m := b.atlas) (I := fun _ => True) (fun _ _ _ _ _ => trivial)
    files.length 0 files []).ends ⟨rfl, trivial⟩
  refine Action.Ends.snd (P := fun b' : Builder => b'.atlas.table.Spelled) ?_
  rw [addReferences, Action.ends_bind]
  refine hgather.mono (fun found b' hb' => ?_) fun b' hb' => ?_
  · rw [Action.ends_modify, hb'.1]
    exact h
  · rw [hb'.1]
    exact h

theorem preserves_build_spelled (p : Project) :
    Action.Preserves (fun b : Builder => b.atlas.table.Spelled) (build p) :=
  Action.preserves_bind (preserves_addProject_spelled p) fun _ =>
    Action.preserves_bind (fun _ h => h) fun _ =>
    Action.preserves_bind (fun _ h => h) fun _ =>
    Action.preserves_bind (fun _ h => h) fun _ =>
    Action.preserves_bind (fun _ h => h) fun _ => preserves_addReferences_spelled _

/-- The states that a builder can come to. Names need not be text, what it is asked for may end in a
fault, and the servers may change at any time. A folder may be added without its files, so that the
states between two files of a folder are among them. -/
inductive Reachable : Builder → Prop where
  | start (servers : Server.Servers) (strays : List Char) :
      Reachable { servers, atlas := { table := { strays } } }
  | file {b : Builder} (before : Reachable b) (p : Project) (folder : NodeKey)
      (file : ProjectFile) : Reachable ((addFile p folder file).perform b).2
  | folder {b : Builder} (before : Reachable b) (p : Project) (f : Folder) :
      Reachable ((addFolder p f).perform b).2
  | project {b : Builder} (before : Reachable b) (p : Project) :
      Reachable ((addProject p).perform b).2
  | references {b : Builder} (before : Reachable b) (files : List NodeKey) :
      Reachable ((addReferences files).perform b).2
  | build {b : Builder} (before : Reachable b) (p : Project) :
      Reachable ((build p).perform b).2
  | beside {b b' : Builder} (before : Reachable b) (atlas : b'.atlas = b.atlas) : Reachable b'

theorem Reachable.spelled (h : b.Reachable) : b.atlas.table.Spelled := by
  induction h with
  | start servers strays => exact spelled_empty strays
  | file before p folder file ih => exact preserves_addFile_spelled p folder file _ ih
  | folder before p f ih => exact preserves_addFolder_spelled p f _ ih
  | project before p ih => exact preserves_addProject_spelled p _ ih
  | references before files ih => exact preserves_addReferences_spelled files _ ih
  | build before p ih => exact preserves_build_spelled p _ ih
  | beside before atlas ih => exact atlas ▸ ih

end Builder

namespace NamelessClass
open Source

/-- A function, and after it a class that has no name. -/
def source : Piece :=
  .node "program" none true [
    .node "function_declaration" none true [.text "function ",
      .node "identifier" (some "name") true [.text "m"],
      .node "statement_block" (some "body") true [.text "{}"]],
    .node "class_declaration" none true [.text "class ",
      .node "class_body" (some "body") true [.text "{}"]]]

/-- The file with these, and two files with functions alone. One of the names is no text. -/
def project : Project where
  workspace :=
    { disk := ((({} : Disk).addFile "/r/a.js" (TwoFiles.blob TwoFiles.library)).addFile "/r/b.js"
        (TwoFiles.blob source)).addFile "/r/�.js" (TwoFiles.blob TwoFiles.library)
      grammar := .ofPieces [TwoFiles.library, source] }
  rules := { root := .str "/r" }
  environment := none

def begun : Builder :=
  ((Builder.addFolder project ⟨"r", "/r", 0, [⟨"a.js", "/r", 1⟩], []⟩).perform
    { servers := (TwoFiles.start 0).servers, atlas := { table := { strays := ['�'] } } }).2

def outcome (name : String) : Except Fault Unit × Builder :=
  (Builder.addFile project 0 ⟨name, "/r", 1⟩).perform begun

end NamelessClass

-- a file whose name is no text is given up after its nodes have come to the graph
example : Outcome.fault? (NamelessClass.outcome "�.js").1 = some .textNotEncodable ∧
    (NamelessClass.outcome "�.js").2.atlas.graph.fileAt? "file:///r/�.js" =
      some NamelessClass.begun.atlas.table.nodes.size ∧
    (NamelessClass.outcome "�.js").2.atlas.table.members 0 = [1] := by
  decide +kernel

end CodeAtlas
