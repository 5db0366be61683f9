import CodeAtlas.Build.Builder
import CodeAtlas.Proofs.Graph.Index
import CodeAtlas.Proofs.Hierarchy
import CodeAtlas.Proofs.Project.Walk

namespace CodeAtlas
open CodeAtlas.Path NodeTable

/-- The trail of a folder or file, from the names that lead to it. -/
def trailOf (names : List String) : List Segment :=
  names.map fun name => .named "/" (.str name)

theorem trailOf_injective {names names' : List String} (h : trailOf names = trailOf names') :
    names = names' := by
  refine List.map_injective_iff.mpr (fun name name' hsame => ?_) h
  simpa using hsame

/-- What surrounds the nodes of a build: the root of the project, the names in front of every
trail, and the environment. -/
structure Surroundings where
  root : String
  top : List String
  environment : Option Environment

namespace Surroundings
variable (c : Surroundings)

def IsFolder (n : Node) : Prop :=
  n.content = .folder ∧ ∃ way, (∀ name ∈ way, IsName name) ∧
    n.path = toUri (below c.root way) ∧ n.trail = trailOf (c.top ++ way)

/-- A definition at a file. The node of the file itself has the way to it in its trail. -/
def IsPart (file : ProjectFile) (n : Node) : Prop :=
  n.path = file.uri ∧ ∃ d, n.content = .definition d ∧
    (d.scope = .file → ∃ way, (∀ name ∈ way ++ [file.name], IsName name) ∧
      file.path = below c.root (way ++ [file.name]) ∧
      n.trail = trailOf (c.top ++ way ++ [file.name]))

def Placed (files : List ProjectFile) (n : Node) : Prop :=
  n.environment = c.environment ∧ (c.IsFolder n ∨ ∃ file ∈ files, c.IsPart file n)

/-- The nodes and indexes of a build that has come to some files. -/
structure Chart (files : List ProjectFile) (a : Atlas) : Prop where
  tidy : a.table.Tidy
  indexed : a.graph.Indexed a.table
  placed : ∀ {key n}, a.table.get? key = some n → c.Placed files n
  references : a.graph.references = []

end Surroundings

namespace Surroundings
variable {c : Surroundings} {files files' : List ProjectFile} {a : Atlas} {n n' : Node}

theorem Placed.kin (h : c.Placed files n) (hk : n.Kin n') : c.Placed files n' := by
  obtain ⟨he, hplace⟩ := h
  refine ⟨hk.environment.trans he, ?_⟩
  rcases hplace with ⟨hfolder, way, hnames, hpath, htrail⟩ | ⟨file, hfile, hpath, d, hd, hown⟩
  · exact Or.inl ⟨hk.folder hfolder, way, hnames, hk.path.trans hpath, hk.trail.trans htrail⟩
  · obtain ⟨d', hd', hb⟩ := hk.definition hd
    refine Or.inr ⟨file, hfile, hk.path.trans hpath, d', hd', fun hs => ?_⟩
    rw [hk.trail]
    exact hown ((Node.Kin.scope hb).symm.trans hs)

theorem Placed.mono (h : c.Placed files n) (hf : ∀ file ∈ files, file ∈ files') :
    c.Placed files' n := by
  obtain ⟨he, hplace⟩ := h
  refine ⟨he, hplace.imp_right ?_⟩
  rintro ⟨file, hfile, hp⟩
  exact ⟨file, hf file hfile, hp⟩

theorem Placed.folder (h : c.Placed files n) (hl : n.label = .folder) : n.content = .folder := by
  obtain ⟨-, ⟨hfolder, -⟩ | ⟨f, -, -, d, hd, -⟩⟩ := h
  · exact hfolder
  · rw [Node.label, hd] at hl
    cases hs : d.scope <;> simp [hs, Scope.label] at hl

/-- To a folder or file leads a way, whose names stand in the trail. -/
theorem Placed.exists_way (h : c.Placed files n) (hn : n.containable = true) :
    ∃ way, (∀ name ∈ way, IsName name) ∧ n.path = toUri (below c.root way) ∧
      n.trail = trailOf (c.top ++ way) := by
  obtain ⟨-, ⟨-, hway⟩ | ⟨file, -, hpath, d, hd, hown⟩⟩ := h
  · exact hway
  · obtain ⟨way, hnames, hfile, htrail⟩ := hown (by simpa [Node.containable, hd] using hn)
    refine ⟨way ++ [file.name], hnames, ?_, by rw [htrail, List.append_assoc]⟩
    rw [hpath, ProjectFile.uri, hfile]

theorem Chart.mono (h : c.Chart files a) (hf : ∀ file ∈ files, file ∈ files') :
    c.Chart files' a :=
  ⟨h.tidy, h.indexed, fun hn => (h.placed hn).mono hf, h.references⟩

/-- The table may be changed in texts and members, as long as it stays tidy. -/
theorem Chart.retable (h : c.Chart files a) {t : NodeTable} (ht : t.Tidy)
    (hk : a.table.Keeps t) (hsize : t.nodes.size = a.table.nodes.size) :
    c.Chart files { a with table := t } where
  tidy := ht
  indexed := h.indexed.keeps hk
  placed {key n} hn := by
    obtain ⟨m, hm⟩ := get?_of_lt (hsize ▸ lt_size hn)
    obtain ⟨m', hm', hkin⟩ := hk _ _ hm
    cases hn.symm.trans hm'
    exact (h.placed hm).kin hkin
  references := h.references

/-- Adding a node keeps a chart, unless it is a second file at its path. -/
theorem Chart.add (h : c.Chart files a) {key : NodeKey} {g : Graph}
    (ha : a.graph.add a.table key = .ok g)
    (hnew : ∀ n, a.table.get? key = some n → n.label = .file →
      ∀ k, a.graph.fileAt? n.path = some k → k = key) : c.Chart files { a with graph := g } where
  tidy := h.tidy
  indexed := h.indexed.add ha hnew
  placed := h.placed
  references := (Graph.references_add ha).trans h.references

/-- A file that is new to a chart is not found in it. -/
theorem Chart.fileAt?_eq_none (h : c.Chart files a) {file : ProjectFile}
    (hnew : ∀ f ∈ files, f.uri ≠ file.uri) : a.graph.fileAt? file.uri = none := by
  cases hget : a.graph.fileAt? file.uri with
  | none => rfl
  | some key =>
    obtain ⟨n, hn, hpath, hlabel⟩ := h.indexed.file_at hget
    obtain ⟨-, ⟨hfolder, -⟩ | ⟨f, hf, hp, -⟩⟩ := h.placed hn
    · simp [Node.label, hfolder] at hlabel
    · exact absurd (hp.symm.trans hpath) (hnew f hf)

end Surroundings

/-- What stays while a build goes on: nodes, and the folders that can be found. -/
structure Atlas.Grows (a a' : Atlas) : Prop where
  keeps : a.table.Keeps a'.table
  folders : ∀ {path}, a.graph.hasFolderAt path = true → a'.graph.hasFolderAt path = true

theorem Atlas.Grows.refl (a : Atlas) : a.Grows a := ⟨.refl _, fun h => h⟩

theorem Atlas.Grows.trans {a a' a'' : Atlas} (h : a.Grows a') (h' : a'.Grows a'') : a.Grows a'' :=
  ⟨h.keeps.trans h'.keeps, fun hp => h'.folders (h.folders hp)⟩

theorem Atlas.grows_table {a : Atlas} {t : NodeTable} (h : a.table.Keeps t) :
    a.Grows { a with table := t } :=
  ⟨h, fun hp => hp⟩

theorem Atlas.grows_add {a : Atlas} {key : NodeKey} {g : Graph}
    (h : a.graph.add a.table key = .ok g) : a.Grows { a with graph := g } :=
  ⟨.refl _, Graph.hasFolderAt_add h⟩

/-- To contain is to add nodes to the members of a folder, one after the other. -/
theorem Atlas.ends_contain {I : Atlas → Prop} {a : Atlas} {key : NodeKey} {members : List NodeKey}
    (h : I a) (step : ∀ (a' : Atlas) member n, I a' → a'.table.get? key = some n →
      n.content = .folder → member < a'.table.nodes.size →
      I { a' with table := a'.table.appendMembers key [member] }) :
    (Atlas.contain key members).Ends a (fun _ => I) I := by
  rw [Atlas.contain, Action.ends_bind, Action.ends_get, Action.ends_bind]
  refine Action.ends_ofExcept (fun n hfolder => ?_) h
  obtain ⟨hn, hcontent⟩ := folder_eq_ok.mp hfolder
  refine (Action.ends_forM_keeps (I := fun a' : Atlas => I a' ∧ a'.table.get? key = some n)
    ⟨h, hn⟩ ?_).mono (fun _ _ h => h.1) fun _ h => h
  rintro member _ a' ⟨h', hn'⟩
  rw [Atlas.containOne, Action.ends_bind, Action.ends_get]
  dsimp only
  split
  · exact Action.ends_bind.mpr (Action.ends_throw.mpr h')
  · rename_i hcontainable
    have hmember : member < a'.table.nodes.size := by
      cases hm : a'.table.get? member with
      | none => simp [hm] at hcontainable
      | some m => exact lt_size hm
    exact Action.ends_set.mpr
      ⟨step a' member n h' hn' hcontent hmember, (get?_appendMembers ..).trans hn'⟩

namespace Surroundings
variable {c : Surroundings} {files : List ProjectFile} {a : Atlas}

def Charted (c : Surroundings) (files : List ProjectFile) (a a' : Atlas) : Prop :=
  c.Chart files a' ∧ a.Grows a'

theorem ends_addNode {key : NodeKey} {done : Unit → Atlas → Prop} {failed : Atlas → Prop}
    (hd : ∀ g, a.graph.add a.table key = .ok g → done () { a with graph := g })
    (hf : failed a) : (Atlas.addNode key).Ends a done failed := by
  rw [Atlas.addNode, Action.ends_bind, Action.ends_get, Action.ends_bind]
  exact Action.ends_ofExcept (fun g hg => Action.ends_set.mpr (hd g hg)) hf

theorem ends_addNodes {keys : List NodeKey} (h : c.Chart files a)
    (hkeys : ∀ key ∈ keys, ∀ n, a.table.get? key = some n → n.label ≠ .file) :
    (Atlas.addNodes keys).Ends a (fun _ a' => c.Charted files a a' ∧ a'.table = a.table)
      (c.Charted files a) := by
  have hloop : (Atlas.addNodes keys).Ends a
      (fun _ a' => c.Charted files a a' ∧ a'.table = a.table)
      (fun a' => c.Charted files a a' ∧ a'.table = a.table) := by
    refine Action.ends_forM_keeps ⟨⟨h, .refl a⟩, rfl⟩ fun key hkey a' h' => ?_
    obtain ⟨⟨hchart, hgrows⟩, ht⟩ := h'
    refine ends_addNode (fun g hg => ⟨⟨hchart.add hg ?_, hgrows.trans (Atlas.grows_add hg)⟩, ht⟩)
      ⟨⟨hchart, hgrows⟩, ht⟩
    intro n hn hl
    exact absurd hl (hkeys key hkey n (ht ▸ hn))
  exact hloop.mono (fun _ _ h => h) fun _ h => h.1

theorem ends_contain {key : NodeKey} {members : List NodeKey} (h : c.Chart files a) :
    (Atlas.contain key members).Ends a (fun _ => c.Charted files a) (c.Charted files a) := by
  refine Atlas.ends_contain ⟨h, .refl a⟩ fun a' member n h' hn hfolder hmember => ?_
  exact ⟨h'.1.retable (h'.1.tidy.appendMembers_folder hn hfolder (by simpa using hmember))
    (keeps_appendMembers _ _) (size_appendMembers _ _),
    h'.2.trans (Atlas.grows_table (keeps_appendMembers _ _))⟩

/-- A new folder takes its place in a chart. -/
theorem Chart.pushFolder (h : c.Chart files a) {path : String} {way : List String}
    (hnames : ∀ name ∈ way, IsName name) (hpath : path = toUri (below c.root way))
    {name : String} {parent : Option NodeKey} (level : Json)
    (htrail : a.table.trailBelow parent (.named "/" (.str name)) = trailOf (c.top ++ way)) :
    c.Chart files { a with
      table := a.table.push (a.table.fresh .folder path (.str name) level parent c.environment) }
    where
  tidy := h.tidy.push rfl
  indexed := h.indexed.keeps (keeps_push _)
  placed {key n} hn := by
    rw [get?_push] at hn
    split at hn
    · cases hn
      exact ⟨rfl, Or.inl ⟨rfl, way, hnames, hpath, htrail⟩⟩
    · exact h.placed hn
  references := h.references

/-- A node of a folder is found, or takes its place below its parent. -/
theorem ends_folderNode {b : Builder} {f : Subfolder} {parent : Option NodeKey}
    (h : c.Chart files b.atlas) {way : List String} (hnames : ∀ name ∈ way, IsName name)
    (hpath : f.path = below c.root way)
    (htrail : b.atlas.graph.hasFolderAt f.uri = true ∨
      b.atlas.table.trailBelow parent (.named "/" (.str f.name)) = trailOf (c.top ++ way)) :
    (Builder.folderNode c.environment parent f).Ends b
      (fun key b' => c.Charted files b.atlas b'.atlas ∧
        b'.atlas.graph.hasFolderAt f.uri = true ∧
        ∃ n, b'.atlas.table.get? key = some n ∧ n.content = .folder ∧ n.path = f.uri)
      (fun b' => c.Charted files b.atlas b'.atlas) := by
  have hstart : c.Charted files b.atlas b.atlas := ⟨h, .refl _⟩
  rw [Builder.folderNode, Action.ends_bind, Builder.graph, Action.ends_bind, Action.ends_get,
    Action.ends_pure]
  split
  · rename_i hhas
    refine Action.ends_ofExcept (fun key hkey => ⟨hstart, hhas, ?_⟩) hstart
    rw [Graph.folderAt] at hkey
    split at hkey
    · rename_i key' hget
      cases hkey
      obtain ⟨n, hn, hp, hl⟩ := h.indexed.folder_at hget
      exact ⟨n, hn, (h.placed hn).folder hl, hp⟩
    · cases hkey
  · rename_i hhas
    rw [Action.ends_bind, Builder.onTable, Builder.onAtlas, Action.ends_zoom, Atlas.onTable,
      Action.ends_zoom]
    refine ends_insert (fun _ => ?_) hstart
    have hpush := h.pushFolder hnames (congrArg toUri hpath) (.int f.level)
      (htrail.resolve_left hhas)
    have hgrows := Atlas.grows_table (a := b.atlas) (keeps_push (b.atlas.table.fresh .folder f.uri
      (.str f.name) (.int f.level) parent c.environment))
    have hnew := b.atlas.table.get?_push_self (b.atlas.table.fresh .folder f.uri (.str f.name)
      (.int f.level) parent c.environment)
    rw [Action.ends_bind, Builder.onAtlas, Action.ends_zoom]
    refine ends_addNode (fun g hg => ?_) ⟨hpush, hgrows⟩
    refine Action.ends_pure.mpr ⟨⟨hpush.add hg ?_, hgrows.trans (Atlas.grows_add hg)⟩,
      Graph.hasFolderAt_add_self hg hnew rfl, _, hnew, rfl, rfl⟩
    intro n hn hl
    cases hn.symm.trans hnew
    cases hl

def Holds (c : Surroundings) (way : List String) (t : NodeTable) (key : NodeKey) : Prop :=
  ∃ n, t.get? key = some n ∧ n.content = .folder ∧ n.path = toUri (below c.root way)

theorem Holds.keeps {way : List String} {t t' : NodeTable} {key : NodeKey} (h : c.Holds way t key)
    (hk : t.Keeps t') : c.Holds way t' key := by
  obtain ⟨n, hn, hfolder, hpath⟩ := h
  obtain ⟨n', hn', hkin⟩ := hk _ _ hn
  exact ⟨n', hn', hkin.folder hfolder, hkin.path.trans hpath⟩

/-- What stands below a folder has the names of its way in its trail. -/
theorem Chart.trailBelow (h : c.Chart files a) {way : List String} (hway : ∀ n ∈ way, IsName n)
    {key : NodeKey} (hkey : c.Holds way a.table key) (name : String) :
    a.table.trailBelow (some key) (.named "/" (.str name)) = trailOf (c.top ++ way ++ [name]) := by
  obtain ⟨n, hn, hfolder, hpath⟩ := hkey
  obtain ⟨-, ⟨-, way', hway', hpath', htrail⟩ | ⟨f, -, -, d, hd, -⟩⟩ := h.placed hn
  · obtain rfl := below_injective hway hway' (toUri_injective (hpath.symm.trans hpath'))
    simp [NodeTable.trailBelow, hn, htrail, trailOf]
  · rw [hfolder] at hd
    cases hd

/-- The nodes of a new file take their places in a chart. -/
theorem Chart.plant (h : c.Chart files a) {way : List String} {file : ProjectFile}
    (hnames : ∀ n ∈ way ++ [file.name], IsName n)
    (hpath : file.path = below c.root (way ++ [file.name])) {folder : NodeKey}
    (hfolder : c.Holds way a.table folder) {t : NodeTable} (ht : t.Tidy)
    (hfiled : Hierarchy.Filed c.environment (some folder) file a.table t) :
    c.Charted (files ++ [file]) a { a with table := t } := by
  have hkeeps : a.table.Keeps t := fun key n hn =>
    ⟨n, (hfiled.old (lt_size hn)).trans hn, .refl n⟩
  refine ⟨⟨ht, h.indexed.keeps hkeeps, ?_, h.references⟩, Atlas.grows_table hkeeps⟩
  intro key n hn
  by_cases hlt : key < a.table.nodes.size
  · exact (h.placed ((hfiled.old hlt).symm.trans hn)).mono fun f hf => by simp [hf]
  · obtain ⟨hp, he, hkind⟩ := hfiled.new (Nat.le_of_not_lt hlt) hn
    refine ⟨he, Or.inr ⟨file, by simp, hp, ?_⟩⟩
    split at hkind
    · obtain ⟨-, ⟨d, hd⟩, htrail⟩ := hkind
      refine ⟨d, hd, fun _ => ⟨way, hnames, hpath, ?_⟩⟩
      rw [htrail, h.trailBelow (fun n hn => hnames n (by simp [hn])) hfolder]
    · obtain ⟨d, hd, hs⟩ := hkind
      exact ⟨d, hd, fun hs' => absurd hs' hs⟩

theorem perform_onServers_atlas {α : Type} (act : Action Server.Servers α) (b : Builder) :
    ((Builder.onServers act).perform b).2.atlas = b.atlas := by
  simp only [Builder.onServers, Action.perform_zoom]

theorem ends_announce {b : Builder} (d : Disk) (file : ProjectFile) :
    (Builder.announce d file).Ends b (fun _ b' => b'.atlas = b.atlas)
      (fun b' => b'.atlas = b.atlas) := by
  have hatlas := perform_onServers_atlas (Server.Servers.announce d file) b
  rw [Builder.announce, Action.ends_bind, Action.ends_outcome]
  split
  · exact Action.ends_pure.mpr hatlas
  · exact Action.ends_pure.mpr hatlas
  · exact Action.ends_throw.mpr hatlas

theorem ends_onTable {α : Type} {act : Action NodeTable α} {b : Builder}
    {done : α → Builder → Prop} {failed : Builder → Prop} :
    (Builder.onTable act).Ends b done failed ↔
      act.Ends b.atlas.table
        (fun x table => done x { b with atlas := { b.atlas with table } })
        (fun table => failed { b with atlas := { b.atlas with table } }) := by
  rw [Builder.onTable, Builder.onAtlas, Action.ends_zoom, Atlas.onTable, Action.ends_zoom]

theorem Charted.trans {a' a'' : Atlas} (h : c.Charted files a a') (h' : c.Charted files a' a'') :
    c.Charted files a a'' :=
  ⟨h'.1, h.2.trans h'.2⟩

theorem ends_addFileNodes (h : c.Chart files a) {file : ProjectFile} {t : NodeTable}
    {folder : Option NodeKey} (hfiled : Hierarchy.Filed c.environment folder file t a.table)
    {keys : List NodeKey} (hkeys : Hierarchy.FileKeys t keys a.table)
    (hnew : a.graph.fileAt? file.uri = none) :
    (Atlas.addNodes keys).Ends a (fun _ => c.Charted files a) (c.Charted files a) := by
  obtain ⟨inner, rfl, -, hinner⟩ := hkeys
  change (Atlas.addNode t.nodes.size >>= fun _ => Atlas.addNodes inner).Ends a _ _
  rw [Action.ends_bind]
  refine ends_addNode (fun g hg => ?_) ⟨h, .refl a⟩
  have hfirst : c.Charted files a { a with graph := g } := by
    refine ⟨h.add hg fun n hn _ k hk => ?_, Atlas.grows_add hg⟩
    rw [(hfiled.new (Nat.le_refl _) hn).1, hnew] at hk
    cases hk
  refine (ends_addNodes hfirst.1 fun key hkey n hn => ?_).mono
    (fun _ _ h' => hfirst.trans h'.1) fun _ h' => hfirst.trans h'
  have hlt := ((hinner key).mp hkey).1
  obtain ⟨-, -, hkind⟩ := hfiled.new (Nat.le_of_lt hlt) hn
  rw [if_neg (Nat.ne_of_gt hlt)] at hkind
  exact hkind.label_ne

theorem ends_addFile {p : Project} (he : p.environment = c.environment) {b : Builder}
    (h : c.Chart files b.atlas) {way : List String} {file : ProjectFile}
    (hnames : ∀ n ∈ way ++ [file.name], IsName n)
    (hpath : file.path = below c.root (way ++ [file.name])) {folder : NodeKey}
    (hfolder : c.Holds way b.atlas.table folder) (hnew : ∀ f ∈ files, f.uri ≠ file.uri) :
    (Builder.addFile p folder file).Ends b
      (fun _ b' => c.Charted (files ++ [file]) b.atlas b'.atlas)
      (fun b' => c.Charted (files ++ [file]) b.atlas b'.atlas) := by
  have hstart : c.Charted (files ++ [file]) b.atlas b.atlas :=
    ⟨h.mono fun f hf => by simp [hf], .refl _⟩
  rw [Builder.addFile, Action.ends_bind]
  refine (ends_announce _ file).mono (fun _ b₁ hb₁ => ?_) fun b₁ hb₁ => ?_
  · rw [Action.ends_bind, ends_onTable, hb₁, he]
    have hplant := Hierarchy.plantFile_filed p.workspace (Language.ofExtension? file.extension)
      c.environment (some folder) file (.int file.level) h.tidy
    refine hplant.mono (fun keys t ht => ?_) fun t ht => ?_
    · -- the file stands at its place before any of its nodes is in the graph
      have hplanted := h.plant hnames hpath hfolder ht.1 ht.2.1
      rw [Action.ends_bind, Builder.onAtlas, Action.ends_zoom]
      refine (ends_addFileNodes hplanted.1 ht.2.1 ht.2.2 (h.fileAt?_eq_none hnew)).mono
        (fun _ a₂ h₂ => ?_) fun a₂ h₂ => hplanted.trans h₂
      rw [Action.ends_bind, Builder.table, Action.ends_bind, Action.ends_get, Action.ends_pure,
        Action.ends_bind]
      refine Action.ends_ofExcept (fun key _ => ?_) (hplanted.trans h₂)
      rw [Action.ends_bind, ends_onTable]
      have hretold : ∀ t', a₂.table.Retold t' →
          c.Charted (files ++ [file]) b.atlas { a₂ with table := t' } := fun t' h' =>
        hplanted.trans (h₂.trans ⟨h₂.1.retable (h'.tidy h₂.1.tidy) h'.keeps h'.size,
          Atlas.grows_table h'.keeps⟩)
      refine (ends_skeletonize key a₂.table).mono (fun _ t₃ h₃ => ?_) hretold
      rw [Builder.onAtlas, Action.ends_zoom]
      exact (ends_contain (hretold t₃ h₃).1).mono (fun _ _ h₄ => (hretold t₃ h₃).trans h₄)
        fun _ h₄ => (hretold t₃ h₃).trans h₄
    · exact h.plant hnames hpath hfolder ht.1 ht.2
  · rw [hb₁]
    exact hstart

structure Found (subs : List Subfolder) (keys : List NodeKey) (a : Atlas) : Prop where
  has : ∀ sub ∈ subs, a.graph.hasFolderAt sub.uri = true
  folders : ∀ key ∈ keys, ∃ n, a.table.get? key = some n ∧ n.content = .folder

theorem Found.grows {subs : List Subfolder} {keys : List NodeKey} {a' : Atlas}
    (h : Found subs keys a) (hg : a.Grows a') : Found subs keys a' where
  has sub hsub := hg.folders (h.has sub hsub)
  folders key hkey := by
    obtain ⟨n, hn, hfolder⟩ := h.folders key hkey
    obtain ⟨n', hn', hkin⟩ := hg.keeps _ _ hn
    exact ⟨n', hn', hkin.folder hfolder⟩

theorem ends_subfolders (hroot : c.root ≠ "") {f : Folder} {way : List String}
    (hf : f.At c.root way) {b : Builder} (h : c.Chart files b.atlas) {key : NodeKey}
    (hkey : c.Holds way b.atlas.table key) :
    (f.folders.mapM (Builder.folderNode c.environment (some key))).Ends b
      (fun keys b' => c.Charted files b.atlas b'.atlas ∧ Found f.folders keys b'.atlas)
      (fun b' => c.Charted files b.atlas b'.atlas) := by
  refine Action.ends_mapM (I := fun before keys (b' : Builder) =>
    c.Charted files b.atlas b'.atlas ∧ Found before keys b'.atlas)
    ⟨⟨h, .refl _⟩, by simp, by simp⟩ ?_
  rintro before sub after hsplit keys b' ⟨hcharted, hfound⟩
  obtain ⟨hname, hsub⟩ := hf.folders sub (by simp [hsplit])
  have hnames : ∀ n ∈ way ++ [sub.name], IsName n := by
    exact hname.concat hf.names
  have hpath : sub.path = below c.root (way ++ [sub.name]) := by
    rw [hsub, hf.path, join_below hroot hf.names hname]
  have htrail := hcharted.1.trailBelow hf.names (hkey.keeps hcharted.2.keeps) sub.name
  rw [List.append_assoc] at htrail
  refine (ends_folderNode hcharted.1 hnames hpath (Or.inr htrail)).mono ?_
    fun _ h' => hcharted.trans h'
  rintro k b'' ⟨hcharted', hhas, n, hn, hfolder, -⟩
  have hold := hfound.grows hcharted'.2
  refine ⟨hcharted.trans hcharted', ?_, ?_⟩
  · simpa [or_imp, forall_and] using ⟨hold.has, hhas⟩
  · simpa [or_imp, forall_and] using ⟨hold.folders, n, hn, hfolder⟩

theorem ends_addFiles {p : Project} (he : p.environment = c.environment) (hroot : c.root ≠ "")
    {f : Folder} {way : List String} (hf : f.At c.root way) {b : Builder}
    (h : c.Chart files b.atlas) {key : NodeKey} (hkey : c.Holds way b.atlas.table key)
    (hapart : (files ++ f.files).Pairwise fun a b => a.uri ≠ b.uri) :
    (f.files.forM (Builder.addFile p key)).Ends b
      (fun _ b' => c.Charted (files ++ f.files) b.atlas b'.atlas)
      (fun b' => c.Charted (files ++ f.files) b.atlas b'.atlas) := by
  refine Action.ends_forM
    (I := fun before (b' : Builder) => c.Charted (files ++ before) b.atlas b'.atlas)
    ⟨h.mono (by simp), .refl _⟩ ?_
  intro before file after hsplit b' hcharted
  have hfile : file ∈ f.files := by simp [hsplit]
  have hnew : ∀ g ∈ files ++ before, g.uri ≠ file.uri := by
    rw [hsplit, ← List.append_assoc] at hapart
    exact fun g hg => (List.pairwise_append.mp hapart).2.2 g hg file (by simp)
  have hsub : ∀ g ∈ files ++ before ++ [file], g ∈ files ++ f.files := by
    rw [hsplit]
    simp only [List.mem_append, List.mem_cons]
    tauto
  refine (ends_addFile he hcharted.1 (hf.file_names hfile) (hf.file_path hroot hfile)
    (hkey.keeps hcharted.2.keeps) hnew).mono (fun _ b'' h' => ?_) fun b'' h' => ?_
  · exact ⟨h'.1.mono (by simp), hcharted.2.trans h'.2⟩
  · exact ⟨h'.1.mono hsub, hcharted.2.trans h'.2⟩

/-- Adding a folder that is known, or that stands at the top. Afterwards its subfolders are
known. -/
theorem ends_addFolder {p : Project} (he : p.environment = c.environment) (hroot : c.root ≠ "")
    {f : Folder} {way : List String} (hf : f.At c.root way) {b : Builder}
    (h : c.Chart files b.atlas)
    (hknown : b.atlas.graph.hasFolderAt f.uri = true ∨ c.top ++ way = [f.name])
    (hapart : (files ++ f.files).Pairwise fun a b => a.uri ≠ b.uri) :
    (Builder.addFolder p f).Ends b
      (fun _ b' => c.Charted (files ++ f.files) b.atlas b'.atlas ∧
        ∀ sub ∈ f.folders, b'.atlas.graph.hasFolderAt sub.uri = true)
      (fun b' => c.Charted (files ++ f.files) b.atlas b'.atlas) := by
  have hmono : ∀ {a'}, c.Charted files b.atlas a' → c.Charted (files ++ f.files) b.atlas a' :=
    fun h' => ⟨h'.1.mono fun g hg => by simp [hg], h'.2⟩
  rw [Builder.addFolder, Action.ends_bind, he]
  have htrail : b.atlas.graph.hasFolderAt f.announced.uri = true ∨
      b.atlas.table.trailBelow none (.named "/" (.str f.announced.name)) =
        trailOf (c.top ++ way) := by
    refine hknown.imp_right fun htop => ?_
    rw [htop]
    rfl
  refine (ends_folderNode h hf.names hf.path htrail).mono (fun key b₁ h₁ => ?_) fun _ h₁ => hmono h₁
  obtain ⟨h₁, -, n, hn, hfolder, hpath⟩ := h₁
  have hholds : c.Holds way b₁.atlas.table key :=
    ⟨n, hn, hfolder, hpath.trans (congrArg toUri hf.path)⟩
  rw [Action.ends_bind]
  refine (ends_subfolders hroot hf h₁.1 hholds).mono (fun keys b₂ h₂ => ?_)
    fun _ h₂ => hmono (h₁.trans h₂)
  obtain ⟨h₂, hfound⟩ := h₂
  rw [Action.ends_bind, Builder.onAtlas, Action.ends_zoom]
  refine (ends_contain h₂.1).mono (fun _ a₃ h₃ => ?_) fun _ h₃ => hmono (h₁.trans (h₂.trans h₃))
  have hfound₃ := hfound.grows h₃.2
  rw [Action.ends_bind, Builder.onAtlas, Action.ends_zoom]
  refine (ends_addNodes h₃.1 fun k hk m hm => ?_).mono (fun _ a₄ h₄ => ?_)
    fun _ h₄ => hmono (h₁.trans (h₂.trans (h₃.trans h₄)))
  · obtain ⟨m', hm', hmf⟩ := hfound₃.folders k hk
    cases hm.symm.trans hm'
    simp [Node.label, hmf]
  · have h₁₄ := h₁.trans (h₂.trans (h₃.trans h₄.1))
    have hkeeps := (h₂.2.trans (h₃.2.trans h₄.1.2)).keeps
    refine (ends_addFiles he hroot hf h₄.1.1 (hholds.keeps hkeeps) hapart).mono
      (fun _ b₅ h₅ => ⟨⟨h₅.1, h₁₄.2.trans h₅.2⟩, fun sub hsub => ?_⟩)
      fun b₅ h₅ => ⟨h₅.1, h₁₄.2.trans h₅.2⟩
    exact h₅.2.folders (h₄.1.2.folders (hfound₃.has sub hsub))

/-- Adding folders, each of which is known when its turn comes, or stands at the top. -/
theorem ends_addFolders {p : Project} (he : p.environment = c.environment) (hroot : c.root ≠ "")
    {folders : List Folder} (hat : ∀ f ∈ folders, ∃ way, f.At c.root way) {b : Builder}
    (hknown : Announced (fun path => b.atlas.graph.hasFolderAt (toUri path) = true ∨
      Walk.IsTop c.root c.top path) folders)
    (hapart : (files ++ folders.flatMap Folder.files).Pairwise fun a b => a.uri ≠ b.uri)
    (h : c.Chart files b.atlas) :
    (folders.forM (Builder.addFolder p)).Ends b
      (fun _ b' => c.Chart (files ++ folders.flatMap Folder.files) b'.atlas)
      (fun b' => c.Chart (files ++ folders.flatMap Folder.files) b'.atlas) := by
  induction folders generalizing b files with
  | nil => exact Action.ends_pure.mpr (by simpa using h)
  | cons f rest ih =>
    obtain ⟨⟨way, hf⟩, hat⟩ := List.forall_mem_cons.mp hat
    rw [List.flatMap_cons, ← List.append_assoc] at hapart ⊢
    have htop : b.atlas.graph.hasFolderAt f.uri = true ∨ c.top ++ way = [f.name] := by
      refine hknown.1.imp_right ?_
      rintro ⟨way', hnames, hpath, htop⟩
      obtain rfl := below_injective hf.names hnames (hf.path.symm.trans hpath)
      rw [htop, hf.name]
    change (Builder.addFolder p f >>= fun _ => rest.forM (Builder.addFolder p)).Ends b _ _
    rw [Action.ends_bind]
    refine (ends_addFolder he hroot hf h htop (List.pairwise_append.mp hapart).1).mono
      (fun _ b' h' => ?_) fun b' h' => h'.1.mono fun g hg => List.mem_append_left _ hg
    obtain ⟨hcharted, hsubs⟩ := h'
    -- what was announced before the folder is still known, and its subfolders now are
    refine ih hat (hknown.2.mono ?_) hapart hcharted.1
    rintro path ((hhas | htop) | ⟨sub, hsub, rfl⟩)
    · exact Or.inl (hcharted.2.folders hhas)
    · exact Or.inr htop
    · exact Or.inl (hsubs sub hsub)

theorem chart_empty (c : Surroundings) : c.Chart [] {} where
  tidy := tidy_empty
  indexed := Graph.indexed_empty _
  placed hn := by simp [NodeTable.get?] at hn
  references := rfl

end Surroundings

def Project.files (p : Project) : List ProjectFile :=
  (Walk.of p.workspace.disk p.rules).folders.flatMap Folder.files

theorem Project.way_of_mem_files {p : Project} (hd : p.workspace.disk.Proper) {root : String}
    (hr : p.rules.root = .str root) (hroot : root ≠ "") {file : ProjectFile}
    (hfile : file ∈ p.files) : ∃ way, (∀ n ∈ way ++ [file.name], IsName n) ∧
      file.path = below root (way ++ [file.name]) := by
  obtain ⟨top, hlaid, -⟩ := Walk.of_laid hd hr
  obtain ⟨f, hf, hmem⟩ := List.mem_flatMap.mp hfile
  obtain ⟨way, -, hat⟩ := hlaid.at_way f hf
  exact ⟨way, hat.file_names hmem, hat.file_path hroot hmem⟩

/-- However far the first part of a build comes, the graph is a chart of the project. In front of
all trails stands the name of the root, unless the root itself is passed over. -/
theorem Builder.addProject_chart {p : Project} (hd : p.workspace.disk.Proper) {root : String}
    (hr : p.rules.root = .str root) (hroot : root ≠ "") {b : Builder} (hb : b.atlas = {}) :
    ∃ top, Surroundings.Chart ⟨root, top, p.environment⟩ p.files
        ((Builder.addProject p).perform b).2.atlas ∧
      (top = [WalkRules.nameOf root] ∨
        ∃ entry, p.workspace.disk.lookUp root = some entry ∧
          p.rules.skips root entry = .ok true) := by
  obtain ⟨top, hlaid, htop⟩ := Walk.of_laid hd hr
  refine ⟨top, ?_, htop⟩
  let c : Surroundings := ⟨root, top, p.environment⟩
  have hstart : c.Chart [] b.atlas := hb ▸ c.chart_empty
  have hat : ∀ f ∈ (Walk.of p.workspace.disk p.rules).folders, ∃ way, f.At root way := by
    intro f hf
    obtain ⟨way, -, hat⟩ := hlaid.at_way f hf
    exact ⟨way, hat⟩
  have hfolders := Surroundings.ends_addFolders (c := c) (p := p) rfl hroot hat
    (hlaid.announced.mono fun _ => Or.inr) (hlaid.files_apart hroot) hstart
  refine Action.Ends.snd (P := fun b' : Builder => c.Chart p.files b'.atlas) ?_
  rw [Builder.addProject, Action.ends_bind]
  refine hfolders.mono (fun _ b' h' => ?_) fun _ h' => h'
  split
  · exact Action.ends_throw.mpr h'
  · exact Action.ends_modify.mpr h'

/-- A walk that comes to no folder adds nothing. -/
theorem Builder.addProject_of_nil {p : Project}
    (h : (Walk.of p.workspace.disk p.rules).folders = []) (b : Builder) :
    ((Builder.addProject p).perform b).2.atlas = b.atlas := by
  refine Action.Ends.snd (P := fun b' : Builder => b'.atlas = b.atlas) ?_
  rw [Builder.addProject, Action.ends_bind, h]
  change (pure PUnit.unit : Action Builder PUnit).Ends b _ _
  rw [Action.ends_pure]
  split
  · exact Action.ends_throw.mpr rfl
  · exact Action.ends_modify.mpr rfl

/-- Whatever its root is, a project has a chart. -/
theorem Builder.exists_chart {p : Project} (hd : p.workspace.disk.Proper) {b : Builder}
    (hb : b.atlas = {}) : ∃ c : Surroundings, c.environment = p.environment ∧
      c.Chart p.files ((Builder.addProject p).perform b).2.atlas := by
  by_cases hnil : (Walk.of p.workspace.disk p.rules).folders = []
  · refine ⟨⟨"", [], p.environment⟩, rfl, ?_⟩
    rw [Builder.addProject_of_nil hnil, hb, Project.files, hnil]
    exact Surroundings.chart_empty _
  · obtain ⟨root, hr, hroot⟩ := Walk.root_of_folders hnil
    obtain ⟨top, hchart, -⟩ := Builder.addProject_chart hd hr hroot hb
    exact ⟨_, rfl, hchart⟩

end CodeAtlas
