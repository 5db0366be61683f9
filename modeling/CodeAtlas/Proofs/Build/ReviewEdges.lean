import CodeAtlas.Proofs.Build.ReviewNodes

namespace CodeAtlas
open NodeTable

/-- Do no two nodes at different paths share an identifier? -/
def NodeTable.TellsPaths (t : NodeTable) : Prop :=
  ∀ key key' n n', t.get? key = some n → t.get? key' = some n' → t.id key = t.id key' →
    n.path = n'.path

namespace Review
variable {r : Review} {a a' : Atlas} {e : Option Environment} {folders : List String}
  {key key' : NodeKey} {n n' : Node}

/-- Nodes at one path are changed together: a folder and a file cannot both be there. -/
theorem Changes.congr_path (h : r.Changes a.table key) (ha : a.Drawn e)
    (hn : a.table.get? key = some n) (hn' : a.table.get? key' = some n')
    (hpath : n.path = n'.path) : r.Changes a.table key' := by
  obtain ⟨_, d, hk, hd, hremains⟩ := h
  cases hn.symm.trans hk
  rcases (ha.sound.lineage hn').content_eq with hfolder | ⟨d', hd'⟩
  · obtain ⟨file, k, d₁, hfile, hd₁, hscope, hsame, -⟩ := ha.sound.exists_file hn hd
    have hone : file = key' := ha.sound.apart hfile hn' (by simp [Node.containable, hd₁, hscope])
      (by simp [Node.containable, hfolder]) (hsame.trans hpath)
    subst hone
    cases hfile.symm.trans hn'
    cases hfolder.symm.trans hd₁
  · exact ⟨n', d', hn', hd', hpath ▸ hremains⟩

theorem Trimmed.of_value (h : r.Trimmed folders a a') (hkey : key ∈ Assoc.values a'.graph.nodes) :
    (∃ n, a.table.get? key = some n ∧ r.Retains folders n.path) ∨
      ∃ n, a'.table.get? key = some n ∧ r.Deletes key n := by
  obtain ⟨⟨id, key⟩, hmem, rfl⟩ := List.mem_map.mp hkey
  exact (h.of_mem hmem).2

/-- The members of a definition that is kept are still classes and functions. -/
theorem Trimmed.inner (h : r.Trimmed folders a a') (ha : a.Drawn e) {d : Definition}
    (hkey : key ∈ Assoc.values a'.graph.nodes) (hn : a'.table.get? key = some n)
    (hd : n.content = .definition d) :
    ∀ m ∈ a'.table.members key, ∃ k, a'.table.get? m = some k ∧ IsInner k := by
  intro m hm
  rcases h.of_value hkey with ⟨n₀, hn₀, -⟩ | ⟨n₀, hn₀, hdeletes⟩
  · obtain ⟨n₁, hn₁, halike, -⟩ := h.alike hn₀
    cases hn.symm.trans hn₁
    obtain ⟨d₀, hd₀, -⟩ := halike.symm.definition hd
    have hmember := ((h.members hn₀ hkey m).mp hm).1
    obtain ⟨k, hk, ⟨d₁, hd₁, hscope⟩, -⟩ := ha.sound.tidy.inner hn₀ hd₀ m hmember
    obtain ⟨k', hk', halike', -⟩ := h.alike hk
    obtain ⟨d₂, hd₂, hsame⟩ := halike'.definition hd₁
    exact ⟨k', hk', d₂, hd₂, hsame ▸ hscope⟩
  · cases hn.symm.trans hn₀
    cases hd.symm.trans hdeletes.content

/-- All relationships of what is left join nodes of the project. -/
theorem Trimmed.exists_relationships (h : r.Trimmed folders a a') (ha : a.Drawn e) :
    ∃ groups, (Assoc.values a'.graph.nodes).mapM a'.table.relationships = .ok groups ∧
      ∀ x ∈ groups.flatten ++ a'.graph.references, Atlas.Joins a.table x := by
  obtain ⟨groups, hgroups⟩ := Graph.exists_relationships_of_inner
    (fun hkey hn hd => h.inner ha hkey hn hd) fun hmem => (h.of_mem hmem).1
  refine ⟨groups, hgroups, fun x hx => ?_⟩
  rcases Graph.mem_of_relationships hgroups hx with hx | ⟨key, hkey, group, hrels, hx⟩
  · exact h.references x hx
  · obtain ⟨hstart, hstop⟩ := ends_of_mem_relationships hrels hx
    rcases h.of_value hkey with ⟨n, hn, -⟩ | ⟨n, hn, hdeletes⟩
    · exact ⟨hstart ▸ lt_size hn, ha.sound.tidy.inside ((h.members hn hkey _).mp hstop).1⟩
    · -- a deleted file has no members
      simp only [NodeTable.relationships, Outcome.bind_eq_ok, node_eq_ok] at hrels
      obtain ⟨_, hn', hrels⟩ := hrels
      cases hn.symm.trans hn'
      rw [hdeletes.content] at hrels
      cases hrels
      cases hx

/-- Is a value the identifier of a stored node, or of a node of the project at a path that is
neither new nor modified? -/
def Anchors (r : Review) (a a' : Atlas) (value : Json) : Prop :=
  a'.IsNodeId value ∨ ∃ key n hash, a.table.get? key = some n ∧
    n.path ∉ Json.texts (FileChange.remaining r.changes) ∧ a.table.hashedId key = .ok hash ∧
    value = .str hash

/-- Does a relationship lead from a stored node to what a modified file was, or from what a deleted
file was to a stored node? -/
inductive Crosses (r : Review) (a a' : Atlas) (x : ExternalRelationship) : Prop
  | modified (key : NodeKey) (n : Node) (before : String) (type : x.type = .modified)
      (source : a'.IsNodeId x.source) (file : a.table.get? key = some n) (label : n.label = .file)
      (path : n.path ∈ Json.texts (FileChange.paths r.changes .modified))
      (id : a.table.hashedId key = .ok before) (target : x.target = .str before)
  | deleted (uri before : String) (type : x.type = .deleted)
      (path : .str uri ∈ FileChange.paths r.changes .deleted)
      (id : Environment.idOfFile r.project.environment (.str (Path.ofUri uri)) = .ok before)
      (source : x.source = .str before) (target : a'.IsNodeId x.target)

theorem Relates.crosses {path : Json} {x : ExternalRelationship} (h : r.Relates a' path x)
    (hpared : r.Pared folders a a') : r.Crosses a a' x := by
  obtain ⟨before, key, n, after, hbefore, hn, hdeletes, -, hlists, hafter, rfl⟩ := h
  rw [hpared.strays] at hbefore
  obtain ⟨hash, hhash, hnode⟩ := hlists.isNodeId hpared.strays fun hmem => (hpared.of_mem hmem).1
  cases hafter.symm.trans hhash
  exact .deleted n.path before rfl hdeletes.path hbefore rfl hnode

section
variable (h : r.Pared folders a a') (ha : a.Drawn e) (hrecorded : a.Recorded [])
  (hpaths : (Json.texts (r.changes.map FileChange.path)).Nodup) (htold : a.table.TellsPaths)
include h ha hpaths htold

/-- Nodes that share an identifier still do so after a review. -/
theorem Pared.id_congr (hn : a.table.get? key = some n) (hn' : a.table.get? key' = some n')
    (hid : a.table.id key = a.table.id key') :
    n.path = n'.path ∧ a'.table.id key = a'.table.id key' := by
  have hpath := htold key key' n n' hn hn' hid
  rw [ha.sound.id_eq hn, ha.sound.id_eq hn'] at hid
  have hidentity : n.identity = n'.identity := Except.ok.inj hid
  have hspell : spell n.trail = spell n'.trail := by
    simpa only [Node.identity, ha.sound.environment hn, ha.sound.environment hn',
      String.append_right_inj] using hidentity
  refine ⟨hpath, ?_⟩
  by_cases hchanges : r.Changes a.table key
  · have hchanges' := hchanges.congr_path ha hn hn' hpath
    rw [(h.id_eq ha hpaths hn).1 hchanges, (h.id_eq ha hpaths hn').1 hchanges']
    simp [Node.identity, Node.within, hspell]
  · have hnot : ¬r.Changes a.table key' :=
      fun hchanges' => hchanges (hchanges'.congr_path ha hn' hn hpath.symm)
    rw [(h.id_eq ha hpaths hn).2 hchanges, (h.id_eq ha hpaths hn').2 hnot, hidentity]

include hrecorded

/-- All nodes at the paths that are kept are listed, also those whose place in the graph another
node has taken. -/
theorem Pared.lists (hn : a.table.get? key = some n) (hretains : r.Retains folders n.path) :
    a'.Lists key := by
  obtain ⟨id, hid, hlisted⟩ := (hrecorded.listed (lt_size hn)).resolve_left (by simp)
  obtain ⟨⟨id, key'⟩, hentry, rfl⟩ := List.mem_map.mp hlisted
  have hid' := hrecorded.ids hentry
  obtain ⟨n', hn'⟩ := exists_of_id hid'
  obtain ⟨hpath, hsame⟩ := h.id_congr ha hpaths htold hn hn' (hid.trans hid'.symm)
  obtain ⟨after, hafter, hmem⟩ := h.listed (List.mem_map_of_mem hentry) hn' (hpath ▸ hretains)
  exact ⟨after, hsame.trans hafter, hmem⟩

theorem Pared.anchors (hkey : key < a.table.nodes.size) :
    ∃ hash, a'.table.hashedId key = .ok hash ∧ r.Anchors a a' (.str hash) := by
  obtain ⟨n, hn⟩ := get?_of_lt hkey
  by_cases hretains : r.Retains folders n.path
  · obtain ⟨hash, hhash, hnode⟩ :=
      (h.lists ha hrecorded hpaths htold hn hretains).isNodeId h.strays
        fun hmem => (h.of_mem hmem).1
    exact ⟨hash, hhash, Or.inl hnode⟩
  · have hremains : n.path ∉ Json.texts (FileChange.remaining r.changes) :=
      fun hmem => hretains (Or.inr hmem)
    have hnot : ¬r.Changes a.table key := by
      rintro ⟨_, d, hk, hd, hmem⟩
      cases hn.symm.trans hk
      exact hremains hmem
    have hid := (h.id_eq ha hpaths hn).2 hnot
    exact ⟨_, hashedId_of_id h.strays hid, Or.inr ⟨key, n, _, hn, hremains,
      hashedId_of_id ha.sound.tidy.strays_eq (ha.sound.id_eq hn), rfl⟩⟩

/-- The edges that lead from one stored node to another, or out of the review. -/
theorem Pared.exists_edgeRecords : ∃ edges, a'.graph.edgeRecords a'.table = .ok edges ∧
    ∀ x ∈ edges, r.Anchors a a' x.source ∧ r.Anchors a a' x.target := by
  obtain ⟨groups, hgroups, hall⟩ := h.exists_relationships ha
  refine Graph.exists_edgeRecords (Graph.relationships_eq hgroups) fun x hx => ?_
  have hjoins := hall x hx
  exact ⟨h.anchors ha hrecorded hpaths htold hjoins.1, h.anchors ha hrecorded hpaths htold hjoins.2⟩

theorem Pared.crosses_of_renews {x : ExternalRelationship} (hx : r.Renews a a' key x) :
    r.Crosses a a' x := by
  obtain ⟨n, hn, hlabel, hpath, hold, hid, rfl⟩ := hx
  have hretains : r.Retains folders n.path :=
    Or.inr (FileChange.mem_texts_remaining_of_modified hpath)
  have hlists := h.lists ha hrecorded hpaths htold hn hretains
  obtain ⟨hash, hhash, hnode⟩ := hlists.isNodeId h.strays fun hmem => (h.of_mem hmem).1
  cases (hashedId_of_id h.strays hid).symm.trans hhash
  exact .modified key n _ rfl hnode hn hlabel hpath
    (hashedId_of_id ha.sound.tidy.strays_eq hold) rfl

end

end Review

/-- Whatever the servers say, the edges of a review that succeeds are known. Each end of an edge is
a node that is stored, or a node of the project as it was, at a path that is neither new nor
modified; and a relationship to another graph has a stored node at one end and a file of the
project, as it was, at the other. No edge can lead to an identifier of the review that is not
stored, since all nodes that have moved to its environment are. -/
theorem edges_of_review_anchored {r : Review} {b created b' : Builder}
    (hd : r.project.workspace.disk.Proper)
    (hpaths : (Json.texts (r.changes.map FileChange.path)).Nodup) (hb : b.atlas = {})
    (hcreated : (Builder.addProject r.project).perform b = (.ok (), created))
    (hids : ∀ key key' n n', created.atlas.table.get? key = some n →
      created.atlas.table.get? key' = some n' →
      created.atlas.table.id key = created.atlas.table.id key' → n.path = n'.path)
    (hbuild : r.build.perform b = (.ok (), b')) :
    ∃ edges, b'.atlas.graph.edgeRecords b'.atlas.table = .ok edges ∧
      (∀ x ∈ edges, r.Anchors created.atlas b'.atlas x.source ∧
        r.Anchors created.atlas b'.atlas x.target) ∧
      (∀ x ∈ b'.atlas.external, r.Crosses created.atlas b'.atlas x) ∧
      ∀ key n, created.atlas.table.get? key = some n →
        n.path ∈ Json.texts (FileChange.remaining r.changes) → b'.atlas.Lists key := by
  obtain ⟨created', folders, modified, deleted, hcreated', hdrawn, -, hpared, hmodified, hdeleted,
    hexternal⟩ := (Review.ends_build hd hpaths hb).of_ok hbuild
  cases hcreated.symm.trans hcreated'
  have hrecorded : created.atlas.Recorded [] :=
    (Builder.ends_addProject_recorded (hb ▸ Atlas.recorded_empty) r.project).of_ok hcreated
  obtain ⟨edges, hedges, hends⟩ := hpared.exists_edgeRecords hdrawn hrecorded hpaths hids
  refine ⟨edges, hedges, hends, fun x hx => ?_, fun key n hn hpath => ?_⟩
  · rw [hexternal, List.mem_append] at hx
    rcases hx with hx | hx
    · obtain ⟨key, -, hrenews⟩ := Outcome.exists_of_forall₂ hmodified hx
      exact hpared.crosses_of_renews hdrawn hrecorded hpaths hids hrenews
    · obtain ⟨path, -, hrelates⟩ := Outcome.exists_of_forall₂ hdeleted hx
      exact hrelates.crosses hpared
  · exact hpared.lists hdrawn hrecorded hpaths hids hn (Or.inr hpath)

def TwoFiles.callerChanged : List FileChange :=
  [⟨.str "file:///r/b.js", .str "+b", .modified⟩]

/-- A folder and the modified file are stored, and the call leads from there to a function that is
not. -/
theorem TwoFiles.call_anchored : ∃ built created edges,
    reviewed callerChanged = (.ok (), built) ∧ drawn = (.ok (), created) ∧
    Assoc.values built.atlas.graph.nodes = [0, 3] ∧
    built.atlas.graph.references.map (fun x => (x.start, x.stop)) = [(3, 2)] ∧
    built.atlas.external.length = 1 ∧
    built.atlas.graph.edgeRecords built.atlas.table = .ok edges ∧
    (∀ x ∈ edges, (review callerChanged).Anchors created.atlas built.atlas x.source ∧
      (review callerChanged).Anchors created.atlas built.atlas x.target) ∧
    ∀ x ∈ built.atlas.external, (review callerChanged).Crosses created.atlas built.atlas x := by
  have hrun : (reviewed callerChanged).1.isOk = true ∧
      Assoc.values (reviewed callerChanged).2.atlas.graph.nodes = [0, 3] ∧
      (reviewed callerChanged).2.atlas.graph.references.map (fun x => (x.start, x.stop)) =
        [(3, 2)] ∧
      (reviewed callerChanged).2.atlas.external.length = 1 := by
    decide +kernel
  have hdrawn : drawn.1.isOk = true ∧ drawn.2.atlas.table.nodes.size = 4 ∧
      ∀ k < 4, ∀ k' < 4,
        (drawn.2.atlas.table.id k).toOption = (drawn.2.atlas.table.id k').toOption →
          (drawn.2.atlas.table.get? k).map Node.path =
            (drawn.2.atlas.table.get? k').map Node.path := by
    decide +kernel
  obtain ⟨hok, hnodes, hreferences, hexternal⟩ := hrun
  obtain ⟨hadded, hsize, hunique⟩ := hdrawn
  obtain ⟨built, hbuilt⟩ := Action.exists_of_isOk hok
  obtain ⟨created, hcreated⟩ := Action.exists_of_isOk hadded
  have hsecond : (reviewed callerChanged).2 = built := congrArg Prod.snd hbuilt
  have hfirst : drawn.2 = created := congrArg Prod.snd hcreated
  rw [hsecond] at hnodes hreferences hexternal
  rw [hfirst] at hsize hunique
  have hids : ∀ key key' n n', created.atlas.table.get? key = some n →
      created.atlas.table.get? key' = some n' →
      created.atlas.table.id key = created.atlas.table.id key' → n.path = n'.path := by
    intro key key' n n' hn hn' hid
    have hpaths := hunique key (hsize ▸ lt_size hn) key' (hsize ▸ lt_size hn') (by rw [hid])
    simpa [hn, hn'] using hpaths
  obtain ⟨edges, hedges, hends, hcrosses, -⟩ := edges_of_review_anchored (r := review callerChanged)
    (proper_disk _ _) (by decide) rfl hcreated hids hbuilt
  exact ⟨built, created, edges, hbuilt, hcreated, hnodes, hreferences, hexternal, hedges, hends,
    hcrosses⟩

end CodeAtlas
