import CodeAtlas.Proofs.Build.Orphans
import CodeAtlas.Proofs.Build.ReviewEdges

namespace CodeAtlas
open NodeTable CodeAtlas.Path

/-- Is a node the only one that the graph may have under its identifier? -/
def Atlas.Owns (a : Atlas) (key : NodeKey) : Prop :=
  ∀ node ∈ a.graph.nodes, a.table.id key = .ok node.1 → node.2 = key

def NodeTable.TellsApart (t : NodeTable) : Prop :=
  ∀ key key' id, t.id key = .ok id → t.id key' = .ok id → key = key'

instance (t : NodeTable) : Decidable t.TellsApart :=
  decidable_of_iff (∀ key < t.nodes.size, ∀ key' < t.nodes.size,
      (t.id key).toOption.isSome → (t.id key).toOption = (t.id key').toOption → key = key') <| by
    refine ⟨fun h key key' id hid hid' => ?_, fun h key _ key' _ hsome hsame => ?_⟩
    · obtain ⟨n, hn⟩ := exists_of_id hid
      obtain ⟨n', hn'⟩ := exists_of_id hid'
      exact h key (lt_size hn) key' (lt_size hn') (by rw [hid]; rfl) (by rw [hid, hid'])
    · obtain ⟨id, hid⟩ := Option.isSome_iff_exists.mp hsome
      exact h key key' id (Outcome.eq_ok_of_toOption hid)
        (Outcome.eq_ok_of_toOption (hsame.symm.trans hid))

namespace Atlas
variable {a : Atlas} {key : NodeKey}
  (hids : ∀ {id key}, (id, key) ∈ a.graph.nodes → a.table.id key = .ok id)
include hids

theorem owns_of_tellsApart (h : a.table.TellsApart) : a.Owns key :=
  fun _ hnode hid => h _ _ _ (hids hnode) hid

/-- Of the nodes that are listed those are nodes of the graph that no other one stands for. -/
theorem mem_values_iff_owns (hnodup : (Assoc.keys a.graph.nodes).Nodup) (hlists : a.Lists key) :
    key ∈ Assoc.values a.graph.nodes ↔ a.Owns key := by
  constructor
  · intro hkey node hnode hid
    obtain ⟨node', hnode', rfl⟩ := List.mem_map.mp hkey
    have hsame : node.1 = node'.1 := Except.ok.inj (hid.symm.trans (hids hnode'))
    rw [List.inj_on_of_nodup_map hnodup hnode hnode' hsame]
  · intro howns
    obtain ⟨id, hid, hmem⟩ := hlists
    obtain ⟨node, hnode, rfl⟩ := List.mem_map.mp hmem
    exact List.mem_map.mpr ⟨node, hnode, howns node hnode hid⟩

end Atlas

/-- Is there an edge from a folder to what stands in it? -/
def Edges.Contains (t : NodeTable) (edges : List EdgeRecord) (folder entry : NodeKey) : Prop :=
  ∃ source target, t.hashedId folder = .ok source ∧ t.hashedId entry = .ok target ∧
    ⟨.str source, .str target, .contains, some (.str "")⟩ ∈ edges

namespace Review
variable {r : Review} {folders : List String} {a a' : Atlas} {e : Option Environment}
  {key k : NodeKey} {n m : Node} {edges : List EdgeRecord}

theorem Trimmed.exists_hashedId (h : r.Trimmed folders a a') (ha : a.Drawn e)
    (hkey : key < a.table.nodes.size) : ∃ hash, a'.table.hashedId key = .ok hash := by
  obtain ⟨n, hn⟩ := get?_of_lt hkey
  obtain ⟨n', hn', halike, -⟩ := h.alike hn
  exact ⟨_, hashedId_of_id h.strays (NodeTable.id_eq hn' (halike.trail ▸ ha.sound.named_trail hn))⟩

/-- The edges of what is left are known. -/
theorem Trimmed.exists_edgeRecords (h : r.Trimmed folders a a') (ha : a.Drawn e) :
    ∃ edges, a'.graph.edgeRecords a'.table = .ok edges := by
  obtain ⟨groups, hgroups, hall⟩ := h.exists_relationships ha
  have hmeets : ∀ x ∈ groups.flatten ++ a'.graph.references,
      x.Meets a'.table fun _ => True := by
    intro x hx
    obtain ⟨hstart, hstop⟩ := hall x hx
    obtain ⟨source, hsource⟩ := h.exists_hashedId ha hstart
    obtain ⟨target, htarget⟩ := h.exists_hashedId ha hstop
    exact ⟨⟨source, hsource, trivial⟩, target, htarget, trivial⟩
  obtain ⟨edges, hedges, -⟩ := Graph.exists_edgeRecords (Graph.relationships_eq hgroups) hmeets
  exact ⟨edges, hedges⟩

/-- A node of the project is left if it was one of its graph, stands at a path that is kept, and no
other node takes its place. -/
theorem Trimmed.mem_values_iff (h : r.Trimmed folders a a') (ha : a.Drawn e)
    (hn : a.table.get? key = some n) : key ∈ Assoc.values a'.graph.nodes ↔
      r.Retains folders n.path ∧ key ∈ Assoc.values a.graph.nodes ∧ a'.Owns key := by
  have howns : a'.Lists key → (key ∈ Assoc.values a'.graph.nodes ↔ a'.Owns key) :=
    Atlas.mem_values_iff_owns (fun hmem => (h.of_mem hmem).1) h.ids_nodup
  constructor
  · intro hkey
    obtain ⟨node, hnode, rfl⟩ := List.mem_map.mp hkey
    have hlists : a'.Lists node.2 := ⟨node.1, (h.of_mem hnode).1, List.mem_map_of_mem hnode⟩
    refine ⟨?_, h.of_old hn hkey, (howns hlists).mp hkey⟩
    rcases h.of_value hkey with ⟨n₀, hn₀, hretains⟩ | ⟨n', hn', hdeletes⟩
    · cases hn.symm.trans hn₀
      exact hretains
    · obtain ⟨n₁, hn₁, halike, -⟩ := h.alike hn
      cases hn'.symm.trans hn₁
      rcases (ha.sound.lineage hn).content_eq with hc | ⟨d, hc⟩
      · cases hdeletes.content.symm.trans (halike.folder hc)
      · obtain ⟨d', hd', -⟩ := halike.definition hc
        cases hdeletes.content.symm.trans hd'
  · rintro ⟨hretains, hold, hown⟩
    exact (howns (h.listed hold hn hretains)).mpr hown

/-- A folder that is left has an edge to each entry of it at a path that is kept. -/
theorem Trimmed.contains (h : r.Trimmed folders a a') (ha : a.Drawn e)
    (hedges : a'.graph.edgeRecords a'.table = .ok edges) (hm : a.table.get? k = some m)
    (hfolder : m.content = .folder) (hk : k ∈ Assoc.values a'.graph.nodes)
    (hn : a.table.get? key = some n) (hp : n.parent = some k)
    (hretains : r.Retains folders n.path) : Edges.Contains a'.table edges k key := by
  have hmember : key ∈ a'.table.members k := by
    have hold : key ∈ a.table.members k := ha.sound.members.mpr ⟨⟨n, hn, hp⟩, List.not_mem_nil⟩
    exact (h.members hm hk key).mpr ⟨hold, n, hn, hretains⟩
  obtain ⟨m', hm', halike, -⟩ := h.alike hm
  simp only [Graph.edgeRecords, Graph.relationships, Outcome.bind_eq_ok, Outcome.pure_eq_ok]
    at hedges
  obtain ⟨rels, ⟨groups, hgroups, rfl⟩, hedges⟩ := hedges
  have hgroup : a'.table.relationships k =
      .ok ((a'.table.members k).map (Relationship.contains k)) := by
    simp [NodeTable.relationships, node_eq_ok.mpr hm', halike.folder hfolder]
  have hrel : Relationship.contains k key ∈ groups.flatten ++ a'.graph.references :=
    List.mem_append_left _ (List.mem_flatten.mpr
      ⟨_, (Outcome.mem_iff_of_mapM_eq_ok hgroups).mpr ⟨k, hk, hgroup⟩, List.mem_map_of_mem hmember⟩)
  obtain ⟨source, hsource⟩ := h.exists_hashedId ha (lt_size hm)
  obtain ⟨target, htarget⟩ := h.exists_hashedId ha (lt_size hn)
  refine ⟨source, target, hsource, htarget,
    (Outcome.mem_iff_of_mapM_eq_ok hedges).mpr ⟨_, hrel, ?_⟩⟩
  simp [Relationship.record, Relationship.contains, hsource, htarget]

/-- If the root of the environment occurs in the root of the project and the changed paths are those
of files, then a folder is kept with an entry of it, unless it is a root that ends in a slash. -/
theorem retains_folder_iff {root : String}
    (hfolders : Environment.parentsOfAll e (FileChange.remaining r.changes) = .ok folders)
    (hnamed : ∀ path ∈ FileChange.remaining r.changes, ∃ way, way ≠ [] ∧
      (∀ name ∈ way, IsName name) ∧ path = .str (toUri (below root way)))
    (hoccurs : ∀ e' text, e = some e' → e'.root = .str text →
      Text.contains text (toUri root) = true) {way : List String} {name : String}
    (hentry : r.Retains folders (toUri (below root (way ++ [name])))) :
    r.Retains folders (toUri (below root way)) ↔
      ¬(way = [] ∧ Text.endsWith root "/" = true) := by
  have hremains : ∀ {path}, path ∈ Json.texts (FileChange.remaining r.changes) ↔
      .str path ∈ FileChange.remaining r.changes := Json.mem_texts
  have hmem : ∀ way, toUri (below root way) ∈ folders ↔ ∃ path,
      .str path ∈ FileChange.remaining r.changes ∧
        isAbove (toUri (below root way)) path = true := by
    intro way
    obtain ⟨rest, hrest⟩ := below_eq_append root way
    refine Environment.mem_parentsOfAll hfolders ?_ fun e' text he htext => ?_
    · simp [toUri, scheme]
    · rw [hrest, toUri, ← String.append_assoc]
      exact Text.contains_append (hoccurs e' text he htext) rest
  constructor
  · rintro hretains ⟨rfl, hend⟩
    rcases hretains with hfolder | hpath
    · obtain ⟨path, hpath, habove⟩ := (hmem []).mp hfolder
      obtain ⟨way, -, hway, heq⟩ := hnamed _ hpath
      cases heq
      rw [isAbove_toUri, below_nil, not_isAbove_below hend hway] at habove
      cases habove
    · obtain ⟨way, hne, hway, heq⟩ := hnamed _ (hremains.mp hpath)
      have hsame := toUri_injective (Json.str.inj heq)
      exact hne (below_injective (by simp) hway hsame).symm
  · intro hnot
    have habove : isAbove (toUri (below root way)) (toUri (below root (way ++ [name]))) = true := by
      rw [isAbove_toUri]
      refine isAbove_below ?_ name
      by_cases hne : way = []
      · exact Or.inr (by simpa [hne] using hnot)
      · exact Or.inl hne
    refine Or.inl ((hmem way).mpr ?_)
    rcases hentry with hfolder | hpath
    · obtain ⟨path, hpath, habove'⟩ := (hmem (way ++ [name])).mp hfolder
      exact ⟨path, hpath, isAbove_trans habove habove'⟩
    · exact ⟨_, hremains.mp hpath, habove⟩

end Review

/-- A folder or file of a chart that is not at the root stands in a folder, one name further. -/
theorem Surroundings.Chart.exists_parent {c : Surroundings} {files : List ProjectFile} {a : Atlas}
    (h : c.Chart files a) {e : Option Environment} (ha : a.Drawn e) {top : String}
    (hc : c.top = [top]) {key : NodeKey} {n : Node} (hn : a.table.get? key = some n)
    (hentry : n.containable = true) (hpath : n.path ≠ toUri c.root) :
    ∃ k m way name, n.parent = some k ∧ a.table.get? k = some m ∧ m.content = .folder ∧
      (∀ x ∈ way ++ [name], IsName x) ∧ m.path = toUri (below c.root way) ∧
      n.path = toUri (below c.root (way ++ [name])) := by
  cases ha.sound.lineage hn with
  | top content parent trail =>
    exact absurd ((h.placed hn).top_eq hc (ha.sound.lineage hn) parent).2.1 hpath
  | inner above before around path content scope parent trail =>
    simp [Node.containable, content, scope] at hentry
  | entry above before folder content parent trail =>
    rename_i k m
    obtain ⟨way, -, hm, htrail⟩ := (h.placed above).exists_way (by simp [Node.containable, folder])
    obtain ⟨way', hnames, hn', htrail'⟩ := (h.placed hn).exists_way hentry
    obtain ⟨name, hname⟩ := ha.sound.named hn
    have hway : way' = way ++ [name] := by
      rw [htrail', htrail, hname] at trail
      have hnames : c.top ++ way' = c.top ++ way ++ [name] :=
        trailOf_injective (trail.trans (by simp [trailOf]))
      exact List.append_cancel_left (hnames.trans (List.append_assoc ..))
    subst hway
    exact ⟨k, m, way, name, parent, above, folder, hnames, hm, hn'⟩

/-- If a project has a node, its root has a path, and the root is at the top of all trails. -/
theorem Builder.chart_of_node {p : Project} {root : String} {b created : Builder}
    (hd : p.workspace.disk.Proper) (hr : p.rules.root = .str root)
    (hskip : ∀ entry, p.workspace.disk.lookUp root = some entry →
      p.rules.skips root entry ≠ .ok true)
    (hb : b.atlas = {}) (hcreated : (Builder.addProject p).perform b = (.ok (), created))
    {key : NodeKey} {n : Node} (hn : created.atlas.table.get? key = some n) :
    root ≠ "" ∧ Surroundings.Chart ⟨root, [WalkRules.nameOf root], p.environment⟩ p.files
      created.atlas := by
  have hfolders : (Walk.of p.workspace.disk p.rules).folders ≠ [] := by
    intro hnil
    have hatlas := Builder.addProject_of_nil hnil b
    rw [hcreated, hb] at hatlas
    dsimp only at hatlas
    simp [hatlas, NodeTable.get?] at hn
  obtain ⟨root', hr', hroot⟩ := Walk.root_of_folders hfolders
  cases hr.symm.trans hr'
  obtain ⟨top, hchart, htop⟩ := Builder.addProject_chart hd hr hroot hb
  rw [hcreated] at hchart
  rcases htop with rfl | ⟨entry, hlook, hyes⟩
  · exact ⟨hroot, hchart⟩
  · exact absurd hyes (hskip entry hlook)

/-- Whatever the servers say, all folders and files that a review or an update of project files
keeps, but for the root, stand in a folder. They come with this folder and an edge from it exactly
if the path of the folder is kept and neither in the graph of the project nor in what is left of it
another node takes the place of the folder. If the root of the environment occurs in that of the
project, all these paths are kept, but for a root that ends in a slash; and if no two nodes share an
identifier, none takes the place of another. -/
theorem entry_kept_with_parent_iff {r : Review} {root : String} {b b' : Builder}
    {act : Action Builder Unit} (hd : r.project.workspace.disk.Proper)
    (hr : r.project.rules.root = .str root)
    (hskip : ∀ entry, r.project.workspace.disk.lookUp root = some entry →
      r.project.rules.skips root entry ≠ .ok true)
    (hnamed : ∀ path ∈ FileChange.remaining r.changes,
      ∃ file ∈ r.project.files, path = .str file.uri)
    (hb : b.atlas = {}) (hact : act = r.build ∨ act = r.rebuild)
    (hrun : act.perform b = (.ok (), b')) :
    ∃ created folders edges, (Builder.addProject r.project).perform b = (.ok (), created) ∧
      Environment.parentsOfAll r.project.environment (FileChange.remaining r.changes) =
        .ok folders ∧
      b'.atlas.graph.edgeRecords b'.atlas.table = .ok edges ∧
      ∀ key ∈ Assoc.values b'.atlas.graph.nodes, ∀ n, b'.atlas.table.get? key = some n →
        n.containable = true → n.path ≠ toUri root →
        ∃ k m path name, n.parent = some k ∧ b'.atlas.table.get? k = some m ∧
          m.content = .folder ∧ m.path = toUri path ∧ IsName name ∧
          n.path = toUri (join path name) ∧
          (k ∈ Assoc.values b'.atlas.graph.nodes ∧ Edges.Contains b'.atlas.table edges k key ↔
            r.Retains folders m.path ∧ created.atlas.Owns k ∧ b'.atlas.Owns k) ∧
          ((∀ e text, r.project.environment = some e → e.root = .str text →
              Text.contains text (toUri root) = true) →
            (r.Retains folders m.path ↔
              ¬(m.path = toUri root ∧ Text.endsWith root "/" = true))) ∧
          (created.atlas.table.TellsApart → b'.atlas.table.TellsApart →
            created.atlas.Owns k ∧ b'.atlas.Owns k) := by
  obtain ⟨created, folders, hcreated, hdrawn, hfolders, htrimmed⟩ :=
    (Review.ends_trimmed hd hb hact).of_ok hrun
  obtain ⟨edges, hedges⟩ := htrimmed.exists_edgeRecords hdrawn
  refine ⟨created, folders, edges, hcreated, hfolders, hedges, fun key hkey n hn hentry hpath => ?_⟩
  -- a deleted file is no folder or file, so the node was there before
  rcases htrimmed.of_value hkey with ⟨n₀, hn₀, hretains⟩ | ⟨n₀, hn₀, hdeletes⟩
  · obtain ⟨n₁, hn₁, halike, -⟩ := htrimmed.alike hn₀
    cases hn.symm.trans hn₁
    obtain ⟨hroot, hchart⟩ := Builder.chart_of_node hd hr hskip hb hcreated hn₀
    obtain ⟨k, m₀, way, name, hp, hm₀, hfolder, hnames, hmpath, hnpath⟩ :=
      hchart.exists_parent hdrawn rfl hn₀ (halike.containable.symm.trans hentry)
        (halike.path ▸ hpath)
    obtain ⟨m, hm, halike', -⟩ := htrimmed.alike hm₀
    have hway : ∀ x ∈ way, IsName x := fun x hx => hnames x (by simp [hx])
    have hname : IsName name := hnames name (by simp)
    have hrecorded : created.atlas.Recorded [] :=
      (Builder.ends_addProject_recorded (hb ▸ Atlas.recorded_empty) r.project).of_ok hcreated
    have hlists : created.atlas.Lists k := (hrecorded.listed (lt_size hm₀)).resolve_left (by simp)
    refine ⟨k, m, below root way, name, halike.parent.trans hp, hm, halike'.folder hfolder,
      halike'.path.trans hmpath, hname, ?_, ?_, ?_, ?_⟩
    · rw [join_below hroot hway hname, halike.path, hnpath]
    · rw [halike'.path, ← Atlas.mem_values_iff_owns hrecorded.ids hdrawn.indexed.ids_nodup hlists,
        ← htrimmed.mem_values_iff hdrawn hm₀, and_iff_left_iff_imp]
      exact fun hk => htrimmed.contains hdrawn hedges hm₀ hfolder hk hn₀ hp hretains
    · intro hoccurs
      have hatroot : m.path = toUri root ↔ way = [] := by
        rw [halike'.path, hmpath]
        refine ⟨fun h => ?_, fun h => by rw [h, below_nil]⟩
        exact below_injective hway (by simp) (toUri_injective h)
      rw [hatroot, halike'.path, hmpath]
      rw [hnpath] at hretains
      refine Review.retains_folder_iff hfolders (fun path hmem => ?_) hoccurs hretains
      obtain ⟨file, hfile, rfl⟩ := hnamed path hmem
      obtain ⟨way, hnames, hpath⟩ := r.project.way_of_mem_files hd hr hroot hfile
      exact ⟨way ++ [file.name], by simp, hnames, by rw [ProjectFile.uri, hpath]⟩
    · exact fun happart happart' => ⟨Atlas.owns_of_tellsApart hrecorded.ids happart,
        Atlas.owns_of_tellsApart (fun hmem => (htrimmed.of_mem hmem).1) happart'⟩
  · cases hn.symm.trans hn₀
    simp [Node.containable, hdeletes.content] at hentry

namespace SlashedRoot
open Source Server

/-- A project of one file in a folder, with a root that ends in a slash. -/
def project : Project where
  workspace :=
    { disk := ({} : Disk).addFile "/r/s/a.js" (TwoFiles.blob TwoFiles.library)
      grammar := Grammar.ofPieces [TwoFiles.library] }
  rules := { root := .str "/r/" }
  environment := some ⟨.str "dev", .str "main", .str "/r/"⟩

def start : Builder :=
  { servers := (Servers.start.perform (Servers.make (.str "/r/") (.str "localhost") (.int 5000)
      ({} : Answers).reply)).2 }

def update : Except Fault Unit × Builder :=
  (Review.ofUpdate project [.str "file:///r/s/a.js"]).rebuild.perform start

end SlashedRoot

/-- The file comes with its folder, but the folder without the root that it stands in. -/
theorem SlashedRoot.file_kept_with_folder : ∃ built edges, update = (.ok (), built) ∧
    built.atlas.graph.edgeRecords built.atlas.table = .ok edges ∧
    (1 ∈ Assoc.values built.atlas.graph.nodes ∧ Edges.Contains built.atlas.table edges 1 2) ∧
    ¬(0 ∈ Assoc.values built.atlas.graph.nodes ∧ Edges.Contains built.atlas.table edges 0 1) := by
  have hrun : update.1.isOk = true ∧ Assoc.values update.2.atlas.graph.nodes = [1, 2, 3] ∧
      update.2.atlas.table.TellsApart ∧
      ((Builder.addProject project).perform start).2.atlas.table.TellsApart := by
    decide +kernel
  have hnodes : [0, 1, 2].map (fun key => (update.2.atlas.table.get? key).map fun n =>
      (n.containable, n.path, n.parent)) =
        [some (true, "file:///r/", none), some (true, "file:///r/s", some 0),
          some (true, "file:///r/s/a.js", some 1)] := by
    decide +kernel
  have hkept : (project.workspace.disk.lookUp "/r/").map
      (fun entry => Outcome.isYes (project.rules.skips "/r/" entry)) = some false := by
    decide +kernel
  have hskip : ∀ entry, project.workspace.disk.lookUp "/r/" = some entry →
      project.rules.skips "/r/" entry ≠ .ok true := by
    intro entry hentry hs
    rw [hentry, Option.map_some, hs] at hkept
    cases hkept
  have hnamed : ∀ path ∈ FileChange.remaining
      (Review.ofUpdate project [.str "file:///r/s/a.js"]).changes,
      ∃ file ∈ project.files, path = .str file.uri := by
    have hfile : ∃ file ∈ project.files, "file:///r/s/a.js" = file.uri := by
      decide +kernel
    obtain ⟨file, hfile, huri⟩ := hfile
    intro path hpath
    rw [Review.remaining_ofUpdate, List.mem_singleton] at hpath
    exact ⟨file, hfile, by rw [hpath, huri]⟩
  have hoccurs : ∀ e text, project.environment = some e → e.root = .str text →
      Text.contains text (toUri "/r/") = true := by
    rintro _ _ ⟨⟩ ⟨⟩
    decide +kernel
  obtain ⟨hok, hvalues, hafter, hbefore⟩ := hrun
  obtain ⟨built, hbuilt⟩ := Action.exists_of_isOk hok
  have heq : update.2 = built := congrArg Prod.snd hbuilt
  rw [heq] at hvalues hafter hnodes
  obtain ⟨created, folders, edges, hcreated, -, hedges, hall⟩ := entry_kept_with_parent_iff
    (r := Review.ofUpdate project [.str "file:///r/s/a.js"]) (Disk.proper_empty.addFile _ _) rfl
    hskip hnamed rfl (Or.inr rfl) hbuilt
  have hfirst : ((Builder.addProject project).perform start).2 = created :=
    congrArg Prod.snd hcreated
  rw [hfirst] at hbefore
  simp only [List.map_cons, List.map_nil, List.cons.injEq, Option.map_eq_some_iff,
    Prod.mk.injEq] at hnodes
  obtain ⟨⟨n₀, hn₀, hc₀, hpath₀, -⟩, ⟨n₁, hn₁, hc₁, hpath₁, hp₁⟩, ⟨n₂, hn₂, hc₂, hpath₂, hp₂⟩, -⟩ :=
    hnodes
  refine ⟨built, edges, hbuilt, hedges, ?_, ?_⟩
  · obtain ⟨k, m, -, -, hp, hm, -, -, -, -, hiff, hretains, howns⟩ :=
      hall 2 (by simp [hvalues]) n₂ hn₂ hc₂ (by rw [hpath₂]; decide)
    cases hp₂.symm.trans hp
    cases hn₁.symm.trans hm
    exact hiff.mpr ⟨(hretains hoccurs).mpr (by rw [hpath₁]; decide), howns hbefore hafter⟩
  · obtain ⟨k, m, -, -, hp, hm, -, -, -, -, hiff, hretains, -⟩ :=
      hall 1 (by simp [hvalues]) n₁ hn₁ hc₁ (by rw [hpath₁]; decide)
    cases hp₁.symm.trans hp
    cases hn₀.symm.trans hm
    exact fun hheld => (hretains hoccurs).mp (hiff.mp hheld).1 ⟨by rw [hpath₀]; decide, by decide⟩

/-- A folder that stands in the root is kept, and the root is not. -/
theorem SlashedRoot.root_lost : update.1.isOk = true ∧
    update.2.atlas.graph.nodes = [("/dev/main/r/s", 1), ("/dev/main/r/s/a.js", 2),
      ("/dev/main/r/s/a.js.m", 3)] ∧
    (update.2.atlas.table.get? 1).map (fun n => (n.label, n.path, n.parent)) =
      some (.folder, "file:///r/s", some 0) ∧
    (update.2.atlas.table.get? 0).map (fun n => (n.label, n.path)) =
      some (.folder, "file:///r/") := by
  decide +kernel

end CodeAtlas
