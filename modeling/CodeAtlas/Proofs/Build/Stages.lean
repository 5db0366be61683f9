import CodeAtlas.Proofs.Build.Chart
import CodeAtlas.Proofs.Build.Gather

namespace CodeAtlas
open NodeTable

namespace Builder

/-- A property of atlases that stays through each step of the first part of a build. -/
structure Stays (p : Project) (P : Atlas → Prop) : Prop where
  folder : ∀ {a : Atlas} {n : Node}, P a → n.content = .folder →
    P { a with table := a.table.push n }
  planted : ∀ {a : Atlas} {folder : NodeKey} {file : ProjectFile} {keys : List NodeKey}
    {t : NodeTable}, P a → a.table.Tidy → file ∈ p.files →
    (Hierarchy.plantFile p.workspace (Language.ofExtension? file.extension) p.environment
      (some folder) file (.int file.level)).perform a.table = (.ok keys, t) →
    P { a with table := t }
  retold : ∀ {a : Atlas} {t : NodeTable}, P a → a.table.Retold t → P { a with table := t }
  contained : ∀ {a : Atlas} {key : NodeKey} {added : List NodeKey}, P a →
    P { a with table := a.table.appendMembers key added }
  listed : ∀ {a : Atlas} {key : NodeKey} {g : Graph}, P a → a.graph.add a.table key = .ok g →
    P { a with graph := g }

namespace Stays
variable {p : Project} {P : Atlas → Prop} {b : Builder}

theorem ends_addNodes (hs : Stays p P) {a : Atlas} (h : P a ∧ a.table.Tidy)
    (keys : List NodeKey) :
    (Atlas.addNodes keys).Ends a (fun _ a' => P a' ∧ a'.table.Tidy) fun _ => True := by
  refine Action.ends_forM_keeps h fun key _ a' h' => ?_
  exact Surroundings.ends_addNode (fun g hg => ⟨hs.listed h'.1 hg, h'.2⟩) trivial

theorem ends_contain (hs : Stays p P) {a : Atlas} (h : P a ∧ a.table.Tidy) (key : NodeKey)
    (members : List NodeKey) :
    (Atlas.contain key members).Ends a (fun _ a' => P a' ∧ a'.table.Tidy) fun _ => True := by
  refine (Atlas.ends_contain h fun a' member n h' hn hfolder hmember => ?_).mono (fun _ _ h => h)
    fun _ _ => trivial
  refine ⟨hs.contained h'.1, ?_⟩
  exact h'.2.appendMembers_folder hn hfolder (by simpa using hmember)

theorem ends_folderNode (hs : Stays p P) (h : P b.atlas ∧ b.atlas.table.Tidy)
    (e : Option Environment) (parent : Option NodeKey) (f : Subfolder) :
    (folderNode e parent f).Ends b (fun _ b' => P b'.atlas ∧ b'.atlas.table.Tidy)
      fun _ => True := by
  rw [folderNode, Action.ends_bind]
  refine ends_graph ?_
  split
  · exact Action.ends_ofExcept (fun _ _ => h) trivial
  · rw [Action.ends_bind, Surroundings.ends_onTable]
    refine ends_insert (fun _ => ?_) trivial
    rw [Action.ends_bind, onAtlas, Action.ends_zoom]
    refine Surroundings.ends_addNode (fun g hg => Action.ends_pure.mpr ?_) trivial
    exact ⟨hs.listed (hs.folder h.1 rfl) hg, h.2.push rfl⟩

theorem ends_addFile (hs : Stays p P) (h : P b.atlas ∧ b.atlas.table.Tidy) (folder : NodeKey)
    {file : ProjectFile} (hfile : file ∈ p.files) : (addFile p folder file).Ends b
      (fun _ b' => P b'.atlas ∧ b'.atlas.table.Tidy) fun _ => True := by
  rw [addFile, Action.ends_bind]
  refine (Surroundings.ends_announce _ file).mono (fun _ b₁ h₁ => ?_) fun _ _ => trivial
  rw [Action.ends_bind, Surroundings.ends_onTable, h₁, Action.ends_iff]
  refine ⟨fun keys t hplant => ?_, fun _ _ _ => trivial⟩
  have ht : t.Tidy := ((Hierarchy.plantFile_filed p.workspace (Language.ofExtension? file.extension)
    p.environment (some folder) file (.int file.level) h.2).of_ok hplant).1
  rw [Action.ends_bind, onAtlas, Action.ends_zoom]
  refine (hs.ends_addNodes ⟨hs.planted h.1 h.2 hfile hplant, ht⟩ keys).mono (fun _ a₂ h₂ => ?_)
    fun _ _ => trivial
  rw [Action.ends_bind]
  refine ends_table ?_
  rw [Action.ends_bind]
  refine Action.ends_ofExcept (fun key _ => ?_) trivial
  rw [Action.ends_bind, Surroundings.ends_onTable]
  refine (ends_skeletonize key a₂.table).mono (fun _ t₃ h₃ => ?_) fun _ _ => trivial
  rw [onAtlas, Action.ends_zoom]
  exact hs.ends_contain (a := { a₂ with table := t₃ })
    ⟨hs.retold h₂.1 h₃, h₃.tidy h₂.2⟩ folder [key]

theorem ends_addFolder (hs : Stays p P) (h : P b.atlas ∧ b.atlas.table.Tidy) {f : Folder}
    (hf : f ∈ (Walk.of p.workspace.disk p.rules).folders) :
    (addFolder p f).Ends b (fun _ b' => P b'.atlas ∧ b'.atlas.table.Tidy) fun _ => True := by
  rw [addFolder, Action.ends_bind]
  refine (hs.ends_folderNode h ..).mono (fun key b₁ h₁ => ?_) fun _ h => h
  rw [Action.ends_bind]
  refine (Action.ends_mapM (I := fun _ _ (b' : Builder) => P b'.atlas ∧ b'.atlas.table.Tidy) h₁
    fun _ sub _ _ _ b' h' => hs.ends_folderNode h' ..).mono (fun keys b₂ h₂ => ?_) fun _ h => h
  rw [Action.ends_bind, onAtlas, Action.ends_zoom]
  refine (hs.ends_contain h₂ key keys).mono (fun _ a₃ h₃ => ?_) fun _ h => h
  rw [Action.ends_bind, onAtlas, Action.ends_zoom]
  refine (hs.ends_addNodes h₃ keys).mono (fun _ a₄ h₄ => ?_) fun _ h => h
  exact Action.ends_forM_keeps (I := fun b' : Builder => P b'.atlas ∧ b'.atlas.table.Tidy) h₄
    fun file hfile b' h' => hs.ends_addFile h' key (List.mem_flatMap.mpr ⟨f, hf, hfile⟩)

/-- What stays through each step stays through the first part of a build. -/
theorem ends_addProject (hs : Stays p P) (h : P b.atlas ∧ b.atlas.table.Tidy) :
    (addProject p).Ends b (fun _ b' => P b'.atlas ∧ b'.atlas.table.Tidy) fun _ => True := by
  rw [addProject, Action.ends_bind]
  refine (Action.ends_forM_keeps (I := fun b' : Builder => P b'.atlas ∧ b'.atlas.table.Tidy) h
    fun f hf b' h' => hs.ends_addFolder h' hf).mono (fun _ b' h' => ?_) fun _ h => h
  split
  · exact Action.ends_throw.mpr trivial
  · exact Action.ends_modify.mpr h'

/-- What stays when nodes are added to the table or to the graph, and when texts and members
change. -/
theorem of_keeps
    (htable : ∀ {a : Atlas} {t : NodeTable}, P a → a.table.Keeps t → P { a with table := t })
    (hadd : ∀ {a : Atlas} {key : NodeKey} {g : Graph}, P a → a.graph.add a.table key = .ok g →
      P { a with graph := g }) : Stays p P where
  folder h _ := htable h (keeps_push _)
  planted h ht _ hplant := by
    obtain ⟨-, hfiled, -⟩ := (Hierarchy.plantFile_filed _ _ _ _ _ _ ht).of_ok hplant
    exact htable h fun key n hn => ⟨n, (hfiled.old (lt_size hn)).trans hn, .refl n⟩
  retold h hretold := htable h hretold.keeps
  contained h := htable h (keeps_appendMembers _ _)
  listed := hadd

end Stays
end Builder
end CodeAtlas
