import CodeAtlas.Proofs.Build.Identity
import CodeAtlas.Proofs.Build.Review

namespace CodeAtlas
open NodeTable CodeAtlas.Path

namespace NodeTable
variable {t : NodeTable} {key : NodeKey} {n : Node}

/-- A node of an environment has a stored form as soon as its identifier is known. -/
theorem exists_record {e : Environment} {id : String} (hs : t.strays = [])
    (hn : t.get? key = some n) (he : n.environment = some e) (hid : t.id key = .ok id) :
    ∃ attributes, t.record key = .ok (match n.content with
      | .definition d => ⟨n.label, d.extraLabels, definitionAttributes d attributes⟩
      | _ => ⟨n.label, [], attributes⟩) := by
  cases hc : n.content with
  | definition d =>
    simp only [record, Outcome.bind_eq_ok, node_eq_ok]
    exact ⟨_, n, hn, _, hashedId_of_id hs hid, _, hid, by rw [he, hc]; rfl⟩
  | _ => simp [record, node_eq_ok.mpr hn, hashedId_of_id hs hid, hid, he, hc]

/-- An attribute that a review has added is stored, unless the code of the node has one of that
name. -/
theorem get?_definitionAttributes {d : Definition} {name : String} {value : Json}
    (hd : d.extraAttributes = [(.str name, value)])
    (hname : name ∉ ["start_line", "end_line", "text"]) (attributes : Json.Members) :
    Assoc.get? (definitionAttributes d attributes) name = some value := by
  simp only [List.mem_cons, List.not_mem_nil, or_false, not_or] at hname
  obtain ⟨hstart, hend, htext⟩ := hname
  cases hscope : d.scope <;>
    simp [definitionAttributes, hd, hscope, Json.keyName, Json.key?, Assoc.get?_insert, hstart,
      hend, htext]

end NodeTable

namespace Review
variable {r : Review} {a a' : Atlas} {folders : List String} {key : NodeKey} {n : Node}
  {base new : Environment}

theorem touch_content (r : Review) (change : FileChange) {d : Definition}
    (hd : n.content = .definition d) (hu : d.Unmarked) :
    ∃ d', (r.touch change n).content = .definition d' ∧
      d'.extraLabels = [.str "DIFF", .str change.type.name] ∧
      d'.extraAttributes = [(.str "diff_text", change.text)] := by
  obtain ⟨hlabels, hattributes⟩ := hu
  refine ⟨{ d with
    extraLabels := d.extraLabels ++ [.str "DIFF"] ++ [.str change.type.name]
    extraAttributes := Assoc.insert d.extraAttributes (.str "diff_text") change.text },
    ?_, ?_, ?_⟩
  · simp [touch, Node.within, Node.withAttribute, Node.withLabel, Node.updateDefinition, hd]
  · simp [hlabels]
  · simp [hattributes, Assoc.insert]

/-- Does the stored form of a node say what a review makes of it? -/
inductive Stores (r : Review) (base new : Environment) (n : Node) (record : NodeRecord) : Prop
  | folder (label : record.label = .folder) (environment : n.environment = some base)
      (labels : record.extraLabels = [])
  | changed (change : FileChange) (label : record.label ∈ [.file, .class_, .function])
      (environment : n.environment = some new) (mem : change ∈ r.changes)
      (remains : change.type ≠ .deleted) (path : change.path = .str n.path)
      (labels : record.extraLabels = [.str "DIFF", .str change.type.name])
      (text : Assoc.get? record.attributes "diff_text" = some change.text)
  | deleted (label : record.label = .deleted) (environment : n.environment = some new)
      (path : .str n.path ∈ FileChange.paths r.changes .deleted) (labels : record.extraLabels = [])

/-- A definition that is changed is stored with the marks of its change. -/
theorem Pared.stores_changed (h : r.Pared folders a a') (ha : a.Drawn (some base))
    (hnew : r.environment = some new)
    (hpaths : (Json.texts (r.changes.map FileChange.path)).Nodup) (hn : a.table.get? key = some n)
    (hchanges : r.Changes a.table key) {id : String} (hid : a'.table.id key = .ok id) :
    ∃ n' record, a'.table.get? key = some n' ∧ a'.table.record key = .ok record ∧
      r.Stores base new n' record := by
  obtain ⟨n', hn', hkin, -⟩ := h.node hn
  obtain ⟨change, hmem, htype, hpath, hremake⟩ := hchanges.exists_change hpaths hn
  have hkin := hkin hchanges
  rw [hremake] at hkin
  obtain ⟨n₀, d, hn₀, hd, -⟩ := hchanges
  cases hn.symm.trans hn₀
  obtain ⟨d₁, hd₁, hlabels, hattributes⟩ := r.touch_content change hd (ha.sound.unmarked hn hd)
  obtain ⟨d', hd', hblank⟩ := hkin.definition hd₁
  obtain ⟨-, -, -, -, -, -, hlabels', hattributes'⟩ := Definition.mk.inj hblank
  have henvironment : n'.environment = some new := hkin.environment.trans hnew
  obtain ⟨attributes, hrecord⟩ := exists_record h.strays hn' henvironment hid
  rw [hd'] at hrecord
  refine ⟨n', _, hn', hrecord, .changed change ?_ henvironment hmem htype ?_
    (hlabels'.trans hlabels)
    (get?_definitionAttributes (hattributes'.trans hattributes) (by decide) _)⟩
  · simp only [Node.label, hd']
    cases d'.scope <;> simp [Scope.label]
  · rw [hpath, hkin.path, ((r.gentle_touch change).alike n).path]

theorem Pared.stores_folder (h : r.Pared folders a a') (ha : a.Drawn (some base))
    (hn : a.table.get? key = some n) (hc : n.content = .folder) {id : String}
    (hid : a'.table.id key = .ok id) :
    ∃ n' record, a'.table.get? key = some n' ∧ a'.table.record key = .ok record ∧
      r.Stores base new n' record := by
  have hnot : ¬r.Changes a.table key := by
    rintro ⟨n₀, d, hn₀, hd, -⟩
    cases hn.symm.trans hn₀
    cases hc.symm.trans hd
  obtain ⟨n', hn', -, hkin⟩ := h.node hn
  have hkin := hkin hnot
  have hc' := hkin.folder hc
  have henvironment : n'.environment = some base := hkin.environment.trans (ha.sound.environment hn)
  obtain ⟨attributes, hrecord⟩ := exists_record h.strays hn' henvironment hid
  rw [hc'] at hrecord
  exact ⟨n', _, hn', hrecord, .folder (by simp [Node.label, hc']) henvironment rfl⟩

theorem Deletes.stores {t : NodeTable} (h : r.Deletes key n) (hnew : r.environment = some new)
    (hs : t.strays = []) (hn : t.get? key = some n) {id : String} (hid : t.id key = .ok id) :
    ∃ record, t.record key = .ok record ∧ r.Stores base new n record := by
  have henvironment : n.environment = some new := h.environment.trans hnew
  obtain ⟨attributes, hrecord⟩ := exists_record hs hn henvironment hid
  rw [h.content] at hrecord
  exact ⟨_, hrecord, .deleted (by simp [Node.label, h.content]) henvironment h.path rfl⟩

/-- If no change lies below a file, the definitions that are kept are those that are changed. -/
theorem Pared.stores (h : r.Pared folders a a') (ha : a.Drawn (some base))
    (hnew : r.environment = some new)
    (hpaths : (Json.texts (r.changes.map FileChange.path)).Nodup)
    (hkept : ∀ {key n d}, a.table.get? key = some n → n.content = .definition d → n.path ∉ folders)
    {id : String} (hmem : (id, key) ∈ a'.graph.nodes) :
    ∃ n record, a'.table.get? key = some n ∧ a'.table.record key = .ok record ∧
      r.Stores base new n record := by
  obtain ⟨hid, ⟨n, hn, hretains⟩ | ⟨n, hn, hdeletes⟩⟩ := h.of_mem hmem
  · rcases (ha.sound.lineage hn).content_eq with hc | ⟨d, hd⟩
    · exact h.stores_folder ha hn hc hid
    · have hchanges : r.Changes a.table key :=
        ⟨n, d, hn, hd, hretains.resolve_left (hkept hn hd)⟩
      exact h.stores_changed ha hnew hpaths hn hchanges hid
  · obtain ⟨record, hrecord, hstores⟩ := hdeletes.stores hnew h.strays hn hid
    exact ⟨n, record, hn, hrecord, hstores⟩

/-- Does a relationship lead from a modified file to the same file in the old environment? -/
def Supersedes (base new : Environment) (a a' : Atlas) (key : NodeKey) (x : ExternalRelationship) :
    Prop :=
  ∃ own, a.table.id key = .ok (base.spelling ++ own) ∧
    a'.table.id key = .ok (new.spelling ++ own) ∧
    x = ⟨.str (Digest.hex (new.spelling ++ own)), .str (Digest.hex (base.spelling ++ own)),
      .modified⟩

theorem Renews.supersedes (ha : a.Drawn (some base)) (hnew : r.environment = some new)
    {x : ExternalRelationship} (h : r.Renews a a' key x) : Supersedes base new a a' key x := by
  obtain ⟨n, hn, -, -, hold, hid, hx⟩ := h
  have hbefore : n.identity = base.spelling ++ spell n.trail := by
    simp [Node.identity, ha.sound.environment hn]
  have hafter : (n.within r.environment).identity = new.spelling ++ spell n.trail := by
    simp [Node.identity, Node.within, hnew]
  rw [hbefore] at hold hx
  rw [hafter] at hid hx
  exact ⟨spell n.trail, hold, hid, hx⟩

/-- Does a relationship lead from a file of the old environment to the node that says that it is
deleted? -/
def Removes (base new : Environment) (a : Atlas) (path : Json) (x : ExternalRelationship) : Prop :=
  ∃ below key n, a.table.get? key = some n ∧ n.label = .deleted ∧ n.environment = some new ∧
    path = .str n.path ∧ base.belowRoot (.str n.purePath) = .ok below ∧ a.Lists key ∧
    a.table.id key = .ok (new.spelling ++ below) ∧
    x = ⟨.str (Environment.hashedFileId base.stage base.change below),
      .str (Digest.hex (new.spelling ++ below)), .deleted⟩

/-- In environments with one root, a path has the same identifier up to their spelling. -/
theorem Relates.removes (hbase : r.project.environment = some base)
    (hnew : r.environment = some new) (hroot : base.root = new.root) {path : Json}
    {x : ExternalRelationship} (h : r.Relates a path x) : Removes base new a path x := by
  obtain ⟨before, key, n, after, hbefore, hn, hdeletes, hpath, hlists, hafter, rfl⟩ := h
  simp only [Environment.idOfFile, hbase, Outcome.bind_eq_ok, Outcome.pure_eq_ok] at hbefore
  obtain ⟨below, hbelow, _, -, rfl⟩ := hbefore
  have henvironment : n.environment = some new := hdeletes.environment.trans hnew
  have hsame : new.belowRoot (.str n.purePath) = .ok below := by
    rw [Environment.belowRoot, ← hroot]
    exact hbelow
  have hown := identifier_removed hn hdeletes.trail henvironment hsame
  have hid := id_of_identifier hn henvironment hown
  obtain ⟨_, hid', -, rfl⟩ := hashedId_eq_ok.mp hafter
  cases hid.symm.trans hid'
  exact ⟨below, key, n, hn, by simp [Node.label, hdeletes.content], henvironment, hpath, hbelow,
    hlists, hid, rfl⟩

/-- The definitions of a project stand at its files, so that no folder above a path is one of them
if the path does not lie below a file. -/
theorem not_mem_folders (hd : r.project.workspace.disk.Proper)
    (hbelow : ∀ path ∈ Json.texts (FileChange.remaining r.changes), ∀ file ∈ r.project.files,
      isAbove file.uri path = false)
    {b created : Builder} (hb : b.atlas = {})
    (hcreated : (Builder.addProject r.project).perform b = (.ok (), created))
    {e : Option Environment}
    (hfolders : Environment.parentsOfAll e (FileChange.remaining r.changes) = .ok folders)
    {d : Definition} (hn : created.atlas.table.get? key = some n) (hc : n.content = .definition d) :
    n.path ∉ folders := by
  obtain ⟨c, -, hchart⟩ := Builder.exists_chart hd hb
  rw [hcreated] at hchart
  obtain ⟨-, ⟨hfolder, -⟩ | ⟨file, hfile, hpath, -⟩⟩ := hchart.placed hn
  · cases hfolder.symm.trans hc
  · intro hmem
    rcases Environment.isAbove_of_mem_parentsOfAll hfolders hmem with hempty | ⟨path, hp, habove⟩
    · rw [hpath] at hempty
      simpa [ProjectFile.uri, toUri, scheme] using congrArg String.toList hempty
    · rw [hpath, hbelow path (Json.mem_texts.mpr hp) file hfile] at habove
      cases habove

end Review

/-- The effect of a review. Every node that it stores is a folder as it was, a definition with the
marks of the change to its path, or a deleted file; all nodes at the paths that are changed and
still there are stored; and it is related to other graphs through its modified files, and then
through what is deleted, and through nothing else. -/
theorem review_stores_changes {r : Review} {base new : Environment} {b b' : Builder}
    (hd : r.project.workspace.disk.Proper) (hbase : r.project.environment = some base)
    (hnew : r.environment = some new) (hroot : base.root = new.root)
    (hpaths : (Json.texts (r.changes.map FileChange.path)).Nodup)
    (hbelow : ∀ path ∈ Json.texts (FileChange.remaining r.changes), ∀ file ∈ r.project.files,
      isAbove file.uri path = false)
    (hb : b.atlas = {}) (hbuild : r.build.perform b = (.ok (), b')) :
    ∃ created, (Builder.addProject r.project).perform b = (.ok (), created) ∧
      (∃ records, b'.atlas.graph.nodeRecords b'.atlas.table = .ok records ∧
        List.Forall₂ (fun key record => ∃ n, b'.atlas.table.get? key = some n ∧
          r.Stores base new n record) (Assoc.values b'.atlas.graph.nodes) records) ∧
      (∀ key ∈ Assoc.values created.atlas.graph.nodes, ∀ n,
        created.atlas.table.get? key = some n →
        n.path ∈ Json.texts (FileChange.remaining r.changes) → b'.atlas.Lists key) ∧
      ∃ modified deleted, b'.atlas.external = modified ++ deleted ∧
        List.Forall₂ (Review.Supersedes base new created.atlas b'.atlas)
          ((Json.texts (FileChange.paths r.changes .modified)).filterMap
            created.atlas.graph.fileAt?) modified ∧
        List.Forall₂ (Review.Removes base new b'.atlas) (FileChange.paths r.changes .deleted)
          deleted := by
  obtain ⟨created, folders, modified, deleted, hcreated, hdrawn, hfolders, hpared, hmodified,
    hdeleted, hexternal⟩ := (Review.ends_build hd hpaths hb).of_ok hbuild
  rw [hbase] at hdrawn
  have hrecord : ∀ key ∈ Assoc.values b'.atlas.graph.nodes, ∃ record,
      b'.atlas.table.record key = .ok record ∧ ∃ n, b'.atlas.table.get? key = some n ∧
        r.Stores base new n record := by
    intro key hkey
    obtain ⟨⟨id, key⟩, hmem, rfl⟩ := List.mem_map.mp hkey
    obtain ⟨n, record, hn, hrecord, hstores⟩ := hpared.stores hdrawn hnew hpaths
      (Review.not_mem_folders hd hbelow hb hcreated hfolders) hmem
    exact ⟨record, hrecord, n, hn, hstores⟩
  refine ⟨created, hcreated, Outcome.exists_mapM_forall₂ hrecord, ?_, modified, deleted, hexternal,
    hmodified.imp fun _ _ h => h.supersedes hdrawn hnew,
    hdeleted.imp fun _ _ h => h.removes hbase hnew hroot⟩
  intro key hkey n hn hpath
  exact hpared.listed hkey hn (Or.inr hpath)

/-- A review of the project of two files, in an environment of its own. -/
def TwoFiles.review (changes : List FileChange) : Review :=
  ⟨project plain "/r", changes, some ⟨.str "dev", .str "7", .str "/r"⟩⟩

/-- The first part of every review of the two files. -/
def TwoFiles.drawn : Except Fault Unit × Builder :=
  (Builder.addProject (project plain "/r")).perform (start 0)

def TwoFiles.reviewed (changes : List FileChange) : Except Fault Unit × Builder :=
  (review changes).build.perform (start 0)

/-- The file with the function is modified, the other one is new, and a third one is deleted. -/
def TwoFiles.allChanged : List FileChange :=
  [⟨.str "file:///r/gone.js", .str "", .deleted⟩, ⟨.str "file:///r/a.js", .str "+m", .modified⟩,
    ⟨.str "file:///r/b.js", .str "+b", .added⟩]

/-- The five nodes of this review are a folder, the three definitions and the deleted file, and it
is related to other graphs by the modified file and the deleted one. -/
theorem TwoFiles.review_stores_allChanged : ∃ built created base new,
    (review allChanged).project.environment = some base ∧
    (review allChanged).environment = some new ∧
    reviewed allChanged = (.ok (), built) ∧ drawn = (.ok (), created) ∧
    (∃ records, built.atlas.graph.nodeRecords built.atlas.table = .ok records ∧
      records.map NodeRecord.label = [.folder, .file, .function, .file, .deleted] ∧
      List.Forall₂ (fun key record => ∃ n, built.atlas.table.get? key = some n ∧
        (review allChanged).Stores base new n record) (Assoc.values built.atlas.graph.nodes)
        records) ∧
    ∃ x y, built.atlas.external = [x, y] ∧
      Review.Supersedes base new created.atlas built.atlas 1 x ∧
      Review.Removes base new built.atlas (.str "file:///r/gone.js") y := by
  have hrun : (reviewed allChanged).1.isOk = true ∧
      ((reviewed allChanged).2.atlas.graph.nodeRecords
        (reviewed allChanged).2.atlas.table).toOption.map (List.map NodeRecord.label) =
          some [.folder, .file, .function, .file, .deleted] ∧
      drawn.2.atlas.graph.fileAt? "file:///r/a.js" = some 1 ∧
      ∀ path ∈ Json.texts (FileChange.remaining allChanged),
        ∀ file ∈ (project plain "/r").files, isAbove file.uri path = false := by
    decide +kernel
  obtain ⟨hok, hlabels, hfile, hbelow⟩ := hrun
  obtain ⟨built, hbuilt⟩ := Action.exists_of_isOk hok
  obtain ⟨created, hcreated, ⟨records, hrecords, hstores⟩, -, modified, deleted, hexternal,
    hmodified, hdeleted⟩ := review_stores_changes (r := review allChanged) (proper_disk _ _) rfl rfl
      rfl (by decide) hbelow rfl hbuilt
  have hsecond : (reviewed allChanged).2 = built := congrArg Prod.snd hbuilt
  have hfirst : drawn.2 = created := congrArg Prod.snd hcreated
  rw [hsecond, hrecords] at hlabels
  rw [hfirst] at hfile
  have hkeys : (Json.texts (FileChange.paths allChanged .modified)).filterMap
      created.atlas.graph.fileAt? = [1] := by
    have htexts : Json.texts (FileChange.paths allChanged .modified) = ["file:///r/a.js"] := by
      decide
    simp [htexts, hfile]
  obtain ⟨x, _, hx, hnil, rfl⟩ := List.forall₂_cons_left_iff.mp (hkeys ▸ hmodified)
  obtain ⟨y, _, hy, hnil', rfl⟩ := List.forall₂_cons_left_iff.mp hdeleted
  cases hnil
  cases hnil'
  exact ⟨built, created, _, _, rfl, rfl, hbuilt, hcreated,
    ⟨records, hrecords, Option.some.inj hlabels, hstores⟩, x, y, hexternal, hx, hy⟩

end CodeAtlas
