import CodeAtlas.Proofs.Build.Update

namespace CodeAtlas
open NodeTable

namespace Atlas
variable {a : Atlas} {pending pending' : List NodeKey} {key : NodeKey}

/-- Is the identifier of a node that of a node of the graph? -/
def Lists (a : Atlas) (key : NodeKey) : Prop :=
  ∃ id, a.table.id key = .ok id ∧ id ∈ Assoc.keys a.graph.nodes

/-- Are both ends of a relationship nodes of the table? -/
def Joins (t : NodeTable) (r : Relationship) : Prop :=
  r.start < t.nodes.size ∧ r.stop < t.nodes.size

/-- All nodes of the table are listed, up to some that are still to be added. -/
structure Recorded (pending : List NodeKey) (a : Atlas) : Prop where
  tidy : a.table.Tidy
  ids : ∀ {id key}, (id, key) ∈ a.graph.nodes → a.table.id key = .ok id
  listed : ∀ {key}, key < a.table.nodes.size → key ∈ pending ∨ a.Lists key
  references : ∀ r ∈ a.graph.references, Joins a.table r

theorem recorded_empty : Recorded [] {} where
  tidy := tidy_empty
  ids h := by cases h
  listed h := absurd h (Nat.not_lt_zero _)
  references r hr := by cases hr

theorem Recorded.mono (h : Recorded pending a) (hp : ∀ key ∈ pending, key ∈ pending') :
    Recorded pending' a :=
  ⟨h.tidy, h.ids, fun hlt => (h.listed hlt).imp_left (hp _), h.references⟩

/-- The table may change, as long as it is known which nodes are new. -/
theorem Recorded.retable (h : Recorded pending a) {t : NodeTable} (ht : t.Tidy)
    (hk : a.table.Keeps t) (hp : ∀ key ∈ pending, key ∈ pending')
    (hnew : ∀ key : Nat, a.table.nodes.size ≤ key → key < t.nodes.size → key ∈ pending') :
    Recorded pending' { a with table := t } := by
  have hlt : ∀ key : Nat, key < a.table.nodes.size → key < t.nodes.size := by
    intro key hkey
    obtain ⟨n, hn⟩ := get?_of_lt hkey
    obtain ⟨n', hn', -⟩ := hk key n hn
    exact lt_size hn'
  refine ⟨ht, fun hmem => hk.id (h.ids hmem), fun {key} hkey => ?_, fun r hr => ?_⟩
  · by_cases hold : key < a.table.nodes.size
    · rcases h.listed hold with hmem | ⟨id, hid, hmem⟩
      · exact Or.inl (hp key hmem)
      · exact Or.inr ⟨id, hk.id hid, hmem⟩
    · exact Or.inl (hnew key (Nat.le_of_not_lt hold) hkey)
  · exact ⟨hlt _ (h.references r hr).1, hlt _ (h.references r hr).2⟩

theorem Recorded.push (h : Recorded [] a) {n : Node} (hn : n.members = a.table.groups.size) :
    Recorded [a.table.nodes.size] { a with table := a.table.push n } := by
  refine h.retable (h.tidy.push hn) (keeps_push n) (by simp) fun key hle hlt => ?_
  rw [size_push] at hlt
  exact List.mem_singleton.mpr (Nat.le_antisymm (Nat.le_of_lt_succ hlt) hle)

/-- A node that is added takes the place of the one with its identifier, so what was listed stays
so. -/
theorem Recorded.add (h : Recorded (key :: pending) a) {g : Graph}
    (ha : a.graph.add a.table key = .ok g) : Recorded pending { a with graph := g } := by
  obtain ⟨n, id, hn, hid, rfl⟩ := Graph.add_eq_ok ha
  refine ⟨h.tidy, fun {id' k} hmem => ?_, fun {k} hk => ?_, h.references⟩
  · rcases Assoc.eq_or_mem_of_mem_insert hmem with heq | hmem
    · cases heq
      exact hid
    · exact h.ids hmem
  · rcases h.listed hk with hmem | ⟨id', hid', hmem⟩
    · rcases List.mem_cons.mp hmem with rfl | hmem
      · exact Or.inr ⟨id, hid, Assoc.mem_keys_insert.mpr (Or.inl rfl)⟩
      · exact Or.inl hmem
    · exact Or.inr ⟨id', hid', Assoc.mem_keys_insert.mpr (Or.inr hmem)⟩

theorem Recorded.ends_addNodes {keys : List NodeKey} (h : Recorded keys a) :
    (addNodes keys).Ends a (fun _ => Recorded []) (fun _ => True) := by
  induction keys generalizing a with
  | nil => exact Action.ends_pure.mpr h
  | cons key keys ih =>
    change (addNode key >>= fun _ => addNodes keys).Ends a _ _
    rw [Action.ends_bind]
    exact Surroundings.ends_addNode (fun g hg => ih (h.add hg)) trivial

theorem Recorded.ends_contain {folder : NodeKey} {members : List NodeKey} (h : Recorded [] a) :
    (contain folder members).Ends a (fun _ => Recorded []) (fun _ => True) := by
  refine (Atlas.ends_contain h fun a' member n h' hn hfolder hmember => ?_).mono
    (fun _ _ h => h) fun _ _ => trivial
  refine h'.retable (h'.tidy.appendMembers_folder hn hfolder (by simpa using hmember))
    (keeps_appendMembers _ _) (fun _ h => h) fun key hle hlt => ?_
  rw [size_appendMembers] at hlt
  exact absurd hlt (Nat.not_lt_of_le hle)

/-- A reference leads from a definition around its place to the definition that was asked for. -/
theorem Finds.joins (ha : a.table.Tidy) {r : Relationship} (h : a.Finds r) : Joins a.table r := by
  obtain ⟨key, n, place, hn, hat⟩ := h
  obtain ⟨file, -, hsearch, hstop⟩ := References.relationshipAt_eq_some hat
  simp only [referenceSearch, Outcome.bind_eq_ok] at hsearch
  obtain ⟨d, hd, hsearch⟩ := hsearch
  obtain ⟨n', hn', hcontent⟩ := definition_eq_ok.mp hd
  obtain ⟨user, -, huser, -⟩ := ha.searchFrom_definedAt ⟨n', d, hn', hcontent, rfl⟩ hsearch
  exact ⟨lt_size huser, hstop ▸ lt_size hn⟩

theorem Recorded.addReferences (h : Recorded pending a) {found : List Relationship}
    (hfound : ∀ r ∈ found, a.Finds r) :
    Recorded pending { a with graph := a.graph.addReferences found } := by
  refine ⟨h.tidy, h.ids, h.listed, fun r hr => ?_⟩
  rcases List.mem_append.mp hr with hr | hr
  · exact h.references r hr
  · exact (hfound r hr).joins h.tidy

end Atlas

namespace Builder
variable {b : Builder}

theorem ends_folderNode_recorded (h : b.atlas.Recorded []) (e : Option Environment)
    (parent : Option NodeKey) (f : Subfolder) :
    (folderNode e parent f).Ends b (fun _ b' => b'.atlas.Recorded []) (fun _ => True) := by
  rw [folderNode, Action.ends_bind]
  refine ends_graph ?_
  split
  · exact Action.ends_ofExcept (fun _ _ => h) trivial
  · rw [Action.ends_bind, Surroundings.ends_onTable]
    refine ends_insert (fun _ => ?_) trivial
    rw [Action.ends_bind, onAtlas, Action.ends_zoom]
    exact Surroundings.ends_addNode
      (fun g hg => Action.ends_pure.mpr ((h.push rfl).add hg)) trivial

/-- The nodes that are planted for a file are those that are added. -/
theorem ends_addFile_recorded (h : b.atlas.Recorded []) (p : Project) (folder : NodeKey)
    (file : ProjectFile) :
    (addFile p folder file).Ends b (fun _ b' => b'.atlas.Recorded []) (fun _ => True) := by
  rw [addFile, Action.ends_bind]
  refine (Surroundings.ends_announce _ file).mono (fun _ b₁ h₁ => ?_) fun _ _ => trivial
  rw [Action.ends_bind, Surroundings.ends_onTable, h₁]
  refine (Hierarchy.plantFile_filed p.workspace (Language.ofExtension? file.extension)
    p.environment (some folder) file (.int file.level) h.tidy).mono ?_ fun _ _ => trivial
  rintro keys t ⟨ht, hfiled, below, rfl, -, hbelow⟩
  have hplanted :
      Atlas.Recorded (b.atlas.table.nodes.size :: below) { b.atlas with table := t } := by
    refine h.retable ht (fun key n hn => ⟨n, (hfiled.old (lt_size hn)).trans hn, .refl n⟩) (by simp)
      fun key hle hlt => ?_
    rcases Nat.eq_or_lt_of_le hle with heq | hgt
    · exact heq ▸ List.mem_cons_self
    · exact List.mem_cons_of_mem _ ((hbelow key).mpr ⟨hgt, hlt⟩)
  rw [Action.ends_bind, onAtlas, Action.ends_zoom]
  refine hplanted.ends_addNodes.mono (fun _ a₂ h₂ => ?_) fun _ _ => trivial
  rw [Action.ends_bind]
  refine ends_table ?_
  rw [Action.ends_bind]
  refine Action.ends_ofExcept (fun key _ => ?_) trivial
  rw [Action.ends_bind, Surroundings.ends_onTable]
  refine (ends_skeletonize key a₂.table).mono (fun _ t₃ h₃ => ?_) fun _ _ => trivial
  have hretold : Atlas.Recorded [] { a₂ with table := t₃ } :=
    h₂.retable (h₃.tidy h₂.tidy) h₃.keeps (fun _ h => h) fun key hle hlt =>
      absurd (h₃.size ▸ hlt) (Nat.not_lt_of_le hle)
  rw [onAtlas, Action.ends_zoom]
  exact hretold.ends_contain

theorem ends_addFolder_recorded (h : b.atlas.Recorded []) (p : Project) (f : Folder) :
    (addFolder p f).Ends b (fun _ b' => b'.atlas.Recorded []) (fun _ => True) := by
  rw [addFolder, Action.ends_bind]
  refine (ends_folderNode_recorded h ..).mono (fun key b₁ h₁ => ?_) fun _ h => h
  rw [Action.ends_bind]
  refine (Action.ends_mapM (I := fun _ _ (b' : Builder) => b'.atlas.Recorded []) h₁
    fun _ sub _ _ _ b' h' => ends_folderNode_recorded h' ..).mono (fun keys b₂ h₂ => ?_)
    fun _ h => h
  rw [Action.ends_bind, onAtlas, Action.ends_zoom]
  refine h₂.ends_contain.mono (fun _ a₃ h₃ => ?_) fun _ h => h
  rw [Action.ends_bind, onAtlas, Action.ends_zoom]
  refine (h₃.mono (by simp)).ends_addNodes.mono (fun _ a₄ h₄ => ?_) fun _ h => h
  exact Action.ends_forM_keeps (I := fun b' : Builder => b'.atlas.Recorded []) h₄
    fun file _ b' h' => ends_addFile_recorded h' ..

theorem ends_addProject_recorded (h : b.atlas.Recorded []) (p : Project) :
    (addProject p).Ends b (fun _ b' => b'.atlas.Recorded []) (fun _ => True) := by
  rw [addProject, Action.ends_bind]
  refine (Action.ends_forM_keeps (I := fun b' : Builder => b'.atlas.Recorded []) h
    fun f _ b' h' => ends_addFolder_recorded h' ..).mono (fun _ b' h' => ?_) fun _ h => h
  split
  · exact Action.ends_throw.mpr trivial
  · exact Action.ends_modify.mpr h'

theorem ends_build_recorded (h : b.atlas.Recorded []) (p : Project) :
    (build p).Ends b (fun _ b' => b'.atlas.Recorded []) (fun _ => True) := by
  refine (ends_build_found p).mono ?_ fun _ h => h
  rintro - b' ⟨b₁, found, h₁, hfound, hb'⟩
  rw [hb']
  exact ((ends_addProject_recorded h p).of_ok h₁).addReferences hfound

end Builder

/-- Are the stored identifiers of both ends of a relationship known, and do they have a property? -/
def Relationship.Meets (t : NodeTable) (P : Json → Prop) (r : Relationship) : Prop :=
  (∃ hash, t.hashedId r.start = .ok hash ∧ P (.str hash)) ∧
    ∃ hash, t.hashedId r.stop = .ok hash ∧ P (.str hash)

namespace Graph
variable {t : NodeTable} {g : Graph} {P : Json → Prop} {rels : List Relationship}

theorem mem_of_relationships {groups : List (List Relationship)}
    (hgroups : (Assoc.values g.nodes).mapM t.relationships = .ok groups) {r : Relationship}
    (hr : r ∈ groups.flatten ++ g.references) : r ∈ g.references ∨
      ∃ key ∈ Assoc.values g.nodes, ∃ group, t.relationships key = .ok group ∧ r ∈ group := by
  rcases List.mem_append.mp hr with hr | hr
  · obtain ⟨group, hgroup, hr⟩ := List.mem_flatten.mp hr
    obtain ⟨key, hkey, hrels⟩ := Outcome.mem_of_mapM_eq_ok hgroups hgroup
    exact Or.inr ⟨key, hkey, group, hrels, hr⟩
  · exact Or.inl hr

theorem exists_edgeRecords (hrels : g.relationships t = .ok rels) (h : ∀ r ∈ rels, r.Meets t P) :
    ∃ edges, g.edgeRecords t = .ok edges ∧ ∀ e ∈ edges, P e.source ∧ P e.target := by
  have hrecord : ∀ r ∈ rels, ∃ e, r.record t = .ok e ∧ P e.source ∧ P e.target := by
    intro r hr
    obtain ⟨⟨source, hsource, hs⟩, target, htarget, ht⟩ := h r hr
    exact ⟨_, by simp only [Relationship.record, hsource, htarget]; rfl, hs, ht⟩
  obtain ⟨edges, hedges, hends⟩ := Outcome.exists_mapM_forall₂ hrecord
  refine ⟨edges, Outcome.bind_eq_ok.mpr ⟨rels, hrels, hedges⟩, fun e he => ?_⟩
  obtain ⟨_, -, hboth⟩ := Outcome.exists_of_forall₂ hends he
  exact hboth

end Graph

namespace Atlas
variable {a : Atlas} {key : NodeKey}

def IsNodeId (a : Atlas) (value : Json) : Prop :=
  ∃ key ∈ Assoc.values a.graph.nodes, ∃ hash, a.table.hashedId key = .ok hash ∧ value = .str hash

/-- The node of the graph with the identifier of a node may be another one. -/
theorem Lists.isNodeId (h : a.Lists key) (hs : a.table.strays = [])
    (hids : ∀ {id key}, (id, key) ∈ a.graph.nodes → a.table.id key = .ok id) :
    ∃ hash, a.table.hashedId key = .ok hash ∧ a.IsNodeId (.str hash) := by
  obtain ⟨id, hid, hmem⟩ := h
  obtain ⟨e, he, rfl⟩ := List.mem_map.mp hmem
  exact ⟨_, hashedId_of_id hs hid, e.2, List.mem_map_of_mem he, _, hashedId_of_id hs (hids he), rfl⟩

theorem Recorded.isNodeId (h : Recorded [] a) (hkey : key < a.table.nodes.size) :
    ∃ hash, a.table.hashedId key = .ok hash ∧ a.IsNodeId (.str hash) :=
  ((h.listed hkey).resolve_left (by simp)).isNodeId h.tidy.strays_eq h.ids

theorem Recorded.exists_edgeRecords (h : Recorded [] a) :
    ∃ edges, a.graph.edgeRecords a.table = .ok edges ∧
      ∀ e ∈ edges, a.IsNodeId e.source ∧ a.IsNodeId e.target := by
  obtain ⟨groups, hgroups⟩ := Graph.exists_relationships h.tidy h.ids
  refine Graph.exists_edgeRecords (Graph.relationships_eq hgroups) fun r hr => ?_
  have hjoins : Joins a.table r := by
    rcases Graph.mem_of_relationships hgroups hr with hr | ⟨key, -, group, hrels, hr⟩
    · exact h.references r hr
    · obtain ⟨hstart, hstop⟩ := ends_of_mem_relationships hrels hr
      simp only [NodeTable.relationships, Outcome.bind_eq_ok, node_eq_ok] at hrels
      obtain ⟨n, hn, -⟩ := hrels
      exact ⟨hstart ▸ lt_size hn, h.tidy.inside hstop⟩
  exact ⟨h.isNodeId hjoins.1, h.isNodeId hjoins.2⟩

end Atlas

/-- Whatever the project is and whatever the servers say, the edges of a full build that succeeds
are known, and both ends of each are stored identifiers of nodes of its graph. -/
theorem edges_of_build_join_nodes {p : Project} {b b' : Builder} (hb : b.atlas = {})
    (hbuild : (Builder.build p).perform b = (.ok (), b')) :
    ∃ edges, b'.atlas.graph.edgeRecords b'.atlas.table = .ok edges ∧
      ∀ e ∈ edges, b'.atlas.IsNodeId e.source ∧ b'.atlas.IsNodeId e.target := by
  have hstart : b.atlas.Recorded [] := hb ▸ Atlas.recorded_empty
  exact ((Builder.ends_build_recorded hstart p).of_ok hbuild).exists_edgeRecords

namespace Namesakes
open Source Server

/-- The source of a function `m`, as part of a file. -/
def function : Piece :=
  .node "function_declaration" none true [.text "function ",
    .node "identifier" (some "name") true [.text "m"],
    .node "formal_parameters" (some "parameters") true [.text "()"], .text " ",
    .node "statement_block" (some "body") true [.text "{}"]]

def library : Piece := .node "program" none true [function, function]

/-- A project in which a file calls a function that another file has twice. -/
def project : Project where
  workspace :=
    { disk := (({} : Disk).addFile "/r/a.js" (TwoFiles.blob library)).addFile "/r/b.js"
        (TwoFiles.blob (TwoFiles.user TwoFiles.plain))
      grammar := Grammar.ofPieces [library, TwoFiles.user TwoFiles.plain] }
  rules := { root := .str "/r" }
  environment := some ⟨.str "dev", .str "main", .str "/r"⟩

def answers : Answers where
  references := [⟨.str "file:///r/a.js", TwoFiles.mark 9, TwoFiles.nameAt "file:///r/b.js" 0⟩,
    ⟨.str "file:///r/a.js", TwoFiles.mark 24, TwoFiles.nameAt "file:///r/b.js" 0⟩]

def full : Except Fault Unit × Builder :=
  (Builder.build project).perform { servers := (Servers.start.perform (Servers.make (.str "/r")
    (.str "localhost") (.int 5000) answers.reply)).2 }

end Namesakes

/-- One of the two functions is not in the graph, but no edge to it is left without an end. -/
theorem Namesakes.edges_join_nodes : ∃ whole edges, full = (.ok (), whole) ∧
    whole.atlas.graph.nodes.length < whole.atlas.table.nodes.size ∧
    whole.atlas.graph.references.length = 2 ∧
    whole.atlas.graph.edgeRecords whole.atlas.table = .ok edges ∧
    ∀ e ∈ edges, whole.atlas.IsNodeId e.source ∧ whole.atlas.IsNodeId e.target := by
  have hrun : full.1.isOk = true ∧
      full.2.atlas.graph.nodes.length < full.2.atlas.table.nodes.size ∧
      full.2.atlas.graph.references.length = 2 := by
    decide +kernel
  obtain ⟨hok, hfewer, hreferences⟩ := hrun
  obtain ⟨whole, hwhole⟩ := Action.exists_of_isOk hok
  obtain ⟨edges, hedges, hends⟩ := edges_of_build_join_nodes rfl hwhole
  have heq : full.2 = whole := congrArg Prod.snd hwhole
  exact ⟨whole, edges, hwhole, heq ▸ hfewer, heq ▸ hreferences, hedges, hends⟩

end CodeAtlas
