import CodeAtlas.Proofs.Build.Chart
import CodeAtlas.Proofs.Build.Uses
import CodeAtlas.Proofs.Graph.Filter
import CodeAtlas.Proofs.Path.Above

namespace CodeAtlas
open Server CodeAtlas.Path

/-- Does an update of paths keep what stands at a path? It keeps the paths and the folders above
them. -/
def Review.keeps (paths : List String) (path : String) : Bool :=
  paths.contains path || paths.any (isAbove path)

def NodeTable.isAt (t : NodeTable) (kind : String → Bool) (key : NodeKey) : Bool :=
  (t.get? key).any fun n => kind n.path

theorem NodeTable.isAt_of_get? {t : NodeTable} {key : NodeKey} {n : Node}
    (h : t.get? key = some n) (kind : String → Bool) : t.isAt kind key = kind n.path := by
  simp [isAt, h]

theorem NodeTable.isAt_iff {t : NodeTable} {kind : String → Bool} {key : NodeKey} :
    t.isAt kind key = true ↔ ∃ n, t.get? key = some n ∧ kind n.path = true := by
  rw [isAt]
  cases t.get? key <;> simp

theorem Path.below_eq_append (root : String) (way : List String) :
    ∃ rest, below root way = root ++ rest := by
  by_cases hne : way = []
  · exact ⟨"", by simp [hne]⟩
  · rw [below_of_ne_nil hne]
    by_cases hend : Text.endsWith root "/" = true
    · obtain ⟨start, rfl⟩ := Text.endsWith_iff.mp hend
      exact ⟨"/".intercalate way, by rw [dropSlash_append_slash]⟩
    · exact ⟨"/" ++ "/".intercalate way, by rw [dropSlash, if_neg hend, String.append_assoc]⟩

/-- The relationships of members stand before the references. -/
theorem Graph.relationships_eq {t : NodeTable} {g : Graph} {groups : List (List Relationship)}
    (h : (Assoc.values g.nodes).mapM t.relationships = .ok groups) :
    g.relationships t = .ok (groups.flatten ++ g.references) :=
  Outcome.bind_eq_ok.mpr ⟨groups, h, rfl⟩

/-- To pass over items is to gather nothing from them. -/
theorem flatMap_filter_eq {α β : Type} {xs : List α} {p : α → Bool} {f g : α → List β}
    (h : ∀ x ∈ xs, (if p x then f x else []) = g x) : (xs.filter p).flatMap f = xs.flatMap g := by
  induction xs with
  | nil => rfl
  | cons x xs ih =>
    obtain ⟨hx, hxs⟩ := List.forall_mem_cons.mp h
    rw [List.filter_cons, List.flatMap_cons, ← hx, ← ih hxs]
    split <;> simp

namespace Surroundings
variable {c : Surroundings} {files : List ProjectFile} {m : Atlas} {key : NodeKey} {n : Node}

/-- In a chart all relationships of members are known. -/
theorem Chart.exists_relationships (h : c.Chart files m) :
    ∃ groups, (Assoc.values m.graph.nodes).mapM m.table.relationships = .ok groups :=
  Graph.exists_relationships h.tidy h.indexed.id

/-- All nodes of a chart stand at the root or below it. -/
theorem Chart.path_eq (h : c.Chart files m)
    (hfiles : ∀ file ∈ files, ∃ way, file.path = below c.root way)
    (hn : m.table.get? key = some n) : ∃ rest, n.path = toUri c.root ++ rest := by
  have hway : ∃ way, n.path = toUri (below c.root way) := by
    obtain ⟨-, ⟨-, way, -, hpath, -⟩ | ⟨file, hfile, hpath, -⟩⟩ := h.placed hn
    · exact ⟨way, hpath⟩
    · obtain ⟨way, hway⟩ := hfiles file hfile
      exact ⟨way, by rw [hpath, ProjectFile.uri, hway]⟩
  obtain ⟨way, hpath⟩ := hway
  obtain ⟨rest, hrest⟩ := below_eq_append c.root way
  exact ⟨rest, by rw [hpath, hrest, toUri, toUri, String.append_assoc]⟩

/-- A filter for paths and the folders that an environment finds above them keeps what an update
keeps. -/
theorem Chart.stands_eq (h : c.Chart files m)
    (hfiles : ∀ file ∈ files, ∃ way, file.path = below c.root way)
    (hroot : ∀ e root, c.environment = some e → e.root = .str root →
      Text.contains root (toUri c.root) = true) {paths folders : List String}
    (hfolders : Environment.parentsOfAll c.environment (paths.map .str) = .ok folders)
    (key : NodeKey) : m.table.stands (.arr (folders.map .str ++ paths.map .str)) key =
      m.table.isAt (Review.keeps paths) key := by
  cases hn : m.table.get? key with
  | none => rw [NodeTable.stands_of_none hn, NodeTable.isAt, hn, Option.any_none]
  | some n =>
    obtain ⟨rest, hrest⟩ := h.path_eq hfiles hn
    have hne : n.path ≠ "" := by
      intro hempty
      rw [hempty] at hrest
      simpa [toUri, scheme] using congrArg String.toList hrest
    have hoccurs : ∀ e root, c.environment = some e → e.root = .str root →
        Text.contains root n.path = true := by
      intro e root he hr
      rw [hrest]
      exact Text.contains_append (hroot e root he hr) rest
    rw [NodeTable.stands_of_get? hn, NodeTable.isAt_of_get? hn, Bool.eq_iff_iff, Review.keeps,
      List.any_append, Bool.or_eq_true, Bool.or_eq_true, Json.any_same_str, Json.any_same_str,
      Json.texts_map_str, Json.texts_map_str, Environment.mem_parentsOfAll hfolders hne hoccurs,
      or_comm]
    simp

/-- A list of paths without repetition gives files without repetition, the files at these paths. -/
theorem Chart.filterMap_fileAt?_perm (h : c.Chart files m) {paths : List String}
    (hpaths : paths.Nodup) :
    (paths.filterMap m.graph.fileAt?).Perm
      ((m.graph.nodesLabelled .file).filter (m.table.isAt paths.contains)) := by
  have hnodup : (paths.filterMap m.graph.fileAt?).Nodup := by
    refine hpaths.filterMap fun path path' key hkey hkey' => ?_
    obtain ⟨n, hn, hpath, -⟩ := h.indexed.file_at hkey
    obtain ⟨n', hn', hpath', -⟩ := h.indexed.file_at hkey'
    cases hn.symm.trans hn'
    exact hpath.symm.trans hpath'
  rw [List.perm_ext_iff_of_nodup hnodup ((h.indexed.labelled_nodup .file).filter _)]
  intro key
  rw [List.mem_filterMap, List.mem_filter, h.indexed.files]
  constructor
  · rintro ⟨path, hpath, hkey⟩
    obtain ⟨n, hn, rfl, -⟩ := h.indexed.file_at hkey
    exact ⟨⟨_, hkey⟩, by rw [NodeTable.isAt_of_get? hn]; simpa using hpath⟩
  · rintro ⟨⟨path, hkey⟩, hat⟩
    obtain ⟨n, hn, rfl, -⟩ := h.indexed.file_at hkey
    rw [NodeTable.isAt_of_get? hn] at hat
    exact ⟨_, by simpa using hat, hkey⟩

/-- The ends of a relationship into a file of a chart: one is in the file, the other in some
file. -/
theorem Chart.ends_of_mem_into (h : c.Chart files m) {a : Answers} {found : List Relationship}
    (hinto : m.relationshipsInto a key = .ok found) (hn : m.table.get? key = some n)
    {r : Relationship} (hr : r ∈ found) :
    (∀ kind, m.table.isAt kind r.stop = kind n.path) ∧
      ∃ path file, m.graph.fileAt? path = some file ∧
        ∀ kind, m.table.isAt kind r.start = kind path := by
  obtain ⟨n', hn', hstop, _, _, _, -, -, -, place, -, hat⟩ := Atlas.mem_relationshipsInto hinto hr
  cases hn.symm.trans hn'
  obtain ⟨stop, hgetstop, hpath⟩ := h.indexed.at_path (List.mem_filter.mp hstop).1
  obtain ⟨⟨file, hfile⟩, start, d, hgetstart, -, hpath'⟩ :=
    References.start_definedAt h.tidy h.indexed hat
  refine ⟨fun kind => ?_, place.uri, file, hfile, fun kind => ?_⟩
  · rw [NodeTable.isAt_of_get? hgetstop, hpath]
  · rw [NodeTable.isAt_of_get? hgetstart, hpath']

/-- The relationships into the files at paths are those of all relationships that end there. -/
theorem Chart.found_perm (h : c.Chart files m) {a : Answers} {paths : List String}
    (hpaths : paths.Nodup) {groups all : List (List Relationship)}
    (hgroups : (paths.filterMap m.graph.fileAt?).mapM (m.relationshipsInto a) = .ok groups)
    (hall : (m.graph.nodesLabelled .file).mapM (m.relationshipsInto a) = .ok all) :
    groups.flatten.Perm (all.flatten.filter fun r => m.table.isAt paths.contains r.stop) := by
  rw [Outcome.flatten_of_mapM_eq_ok hgroups, Outcome.flatten_of_mapM_eq_ok hall,
    List.filter_flatMap]
  refine ((h.filterMap_fileAt?_perm hpaths).flatMap_right _).trans (.of_eq ?_)
  refine flatMap_filter_eq fun key hkey => ?_
  obtain ⟨path, hfile⟩ := h.indexed.files.mp hkey
  obtain ⟨n, hn, rfl, -⟩ := h.indexed.file_at hfile
  rw [NodeTable.isAt_of_get? hn]
  cases hinto : m.relationshipsInto a key with
  | error fault => simp [Except.toOption]
  | ok found =>
    change (if _ then found else []) = found.filter _
    have hstop : ∀ r ∈ found, m.table.isAt paths.contains r.stop = paths.contains n.path :=
      fun r hr => (h.ends_of_mem_into hinto hn hr).1 _
    rw [List.filter_congr hstop]
    cases paths.contains n.path <;> simp

end Surroundings

section
variable {p : Project} {a : Answers} {b : Builder} {m : Atlas}

theorem Builder.settled_addProject (hs : b.servers.Ready a)
    (hm : ((Builder.addProject p).perform b).2.atlas = m) {b₁ : Builder}
    (hb₁ : b₁ = ((Builder.addProject p).perform b).2) : b₁.Settled a m := by
  rw [hb₁]
  exact ⟨hm, Builder.preserves_addProject p b hs⟩

/-- The full build adds to the first part the relationships into all files. -/
theorem Builder.ends_build (hs : b.servers.Ready a)
    (hm : ((Builder.addProject p).perform b).2.atlas = m) :
    (Builder.build p).Ends b
      (fun _ full => ∃ all, (m.graph.nodesLabelled .file).mapM (m.relationshipsInto a) = .ok all ∧
        full.atlas = { m with graph := m.graph.addReferences all.flatten })
      (fun _ => True) := by
  rw [Builder.build, Action.ends_bind]
  refine (Action.ends_self _ b).mono (fun _ b₁ hb₁ => ?_) fun _ h => h
  have h₁ := Builder.settled_addProject hs hm hb₁
  rw [Action.ends_bind]
  refine (Builder.ends_print h₁ _).mono (fun _ b₂ h₂ => ?_) fun _ h => h
  rw [Action.ends_bind]
  refine (Builder.ends_pause h₂ _).mono (fun _ b₃ h₃ => ?_) fun _ h => h
  rw [Action.ends_bind]
  refine (Builder.ends_print h₃ _).mono (fun _ b₄ h₄ => ?_) fun _ h => h
  rw [Action.ends_bind]
  refine Builder.ends_graph ?_
  rw [h₄.atlas]
  refine (Builder.ends_addReferences h₄ _).mono ?_ fun _ h => h
  rintro _ full ⟨all, hall, h⟩
  exact ⟨all, hall, h.atlas⟩

/-- An update adds to the first part what it finds, and keeps a part. -/
theorem Review.ends_rebuild_found (hs : b.servers.Ready a)
    (hm : ((Builder.addProject p).perform b).2.atlas = m) (paths : List String) :
    (ofUpdate p (paths.map .str)).rebuild.Ends b
      (fun _ part => ((Builder.addProject p).perform b).1.isOk = true ∧ ∃ found folders,
        m.relationshipsFor a (ofUpdate p (paths.map .str)) = .ok found ∧
        Environment.parentsOfAll p.environment (paths.map .str) = .ok folders ∧
        (Atlas.filter (.arr (folders.map .str ++ paths.map .str))).perform
          { m with graph := m.graph.addReferences found } = (.ok (), part.atlas))
      (fun _ => True) := by
  rw [rebuild, Action.ends_bind]
  refine ((Action.ends_self _ b).and (Action.ends_isOk _ b)).mono ?_ fun _ _ => trivial
  rintro _ b₁ ⟨hb₁, hok⟩
  obtain ⟨b₂, hb₂, hsettled⟩ := perform_addReferences (Builder.settled_addProject hs hm hb₁)
    (ofUpdate p (paths.map .str))
  rw [Action.ends_bind]
  refine Action.ends_iff.mpr ⟨fun _ b₂' hb₂' => ?_, fun _ _ _ => trivial⟩
  obtain ⟨hmap, rfl⟩ := Prod.mk.inj (hb₂.symm.trans hb₂')
  obtain ⟨found, hfound, -⟩ := Outcome.map_eq_ok.mp hmap
  rw [keepChanged, remaining_ofUpdate, Action.ends_bind]
  refine Action.ends_ofExcept (fun folders hfolders => ?_) trivial
  rw [Builder.onAtlas, Action.ends_zoom, (hsettled found hfound).atlas]
  refine Action.ends_iff.mpr ⟨fun _ part hpart => ?_, fun _ _ _ => trivial⟩
  exact ⟨hok, found, folders, hfound, hfolders, hpart⟩

/-- The parts of an update that finds something. -/
theorem Review.ends_rebuild {c : Surroundings} {files : List ProjectFile} (hc : c.Chart files m)
    (hs : b.servers.Ready a) (hm : ((Builder.addProject p).perform b).2.atlas = m)
    {paths : List String} (hpaths : paths.Nodup) :
    (ofUpdate p (paths.map .str)).rebuild.Ends b
      (fun _ part => ∃ others groups folders, (paths ++ others).Nodup ∧
        (∀ key ∈ paths.filterMap m.graph.fileAt?, ∃ places, m.table.uses key = .ok places) ∧
        (∀ uri, uri ∈ others ↔ uri ∈ m.usedBy a paths ∧ uri ∉ paths) ∧
        ((paths ++ others).filterMap m.graph.fileAt?).mapM (m.relationshipsInto a) = .ok groups ∧
        Environment.parentsOfAll p.environment (paths.map .str) = .ok folders ∧
        Atlas.PartAt (.arr (folders.map .str ++ paths.map .str))
          { m with graph := m.graph.addReferences groups.flatten } part.atlas)
      (fun _ => True) := by
  refine (ends_rebuild_found hs hm paths).mono ?_ fun _ h => h
  rintro _ part ⟨-, found, folders, hfound, hfolders, hpart⟩
  obtain ⟨others, groups, hnodup, huses, hothers, hgroups, rfl⟩ := relationshipsFor_eq_ok hfound
  have hsifted := (Atlas.ends_filter (m := { m with graph := m.graph.addReferences groups.flatten })
    hc.tidy.grouped).of_ok hpart
  refine ⟨others, groups, folders, ?_, huses, hothers, hgroups, hfolders,
    hsifted.partAt hc.indexed.ids_nodup fun e he => hc.indexed.id he⟩
  exact List.Nodup.append hpaths hnodup fun uri hold hnew => ((hothers uri).mp hnew).2 hold

end

namespace TwoFiles
open Source

def library : Piece :=
  .node "program" none true [.node "function_declaration" none true [.text "function ",
    .node "identifier" (some "name") true [.text "m"],
    .node "formal_parameters" (some "parameters") true [.text "()"], .text " ",
    .node "statement_block" (some "body") true [.text "{}"]]]

def user (callee : Piece) : Piece :=
  .node "program" none true [.node "expression_statement" none true [
    .node "call_expression" none true [callee,
      .node "arguments" (some "arguments") true [.text "()"]]]]

def plain : Piece := .node "identifier" (some "function") true [.text "m"]

def member : Piece :=
  .node "member_expression" (some "function") true [
    .node "identifier" (some "object") true [.text "ns"], .text ".",
    .node "property_identifier" (some "property") true [.text "m"]]

def blob (tree : Piece) : Blob :=
  ⟨Text.Utf8.bytes tree.source, tree.source.length, false⟩

/-- A project of two files, one of which calls a function of the other. -/
def project (callee : Piece) (root : String) : Project where
  workspace :=
    { disk := (({} : Disk).addFile "/r/a.js" (blob library)).addFile "/r/b.js" (blob (user callee))
      grammar := Grammar.ofPieces [library, user callee] }
  rules := { root := .str "/r" }
  environment := some ⟨.str "dev", .str "main", .str root⟩

def mark (character : Int) : Mark := ⟨.int 0, .int character⟩

def nameAt (uri : String) (character : Int) : Json :=
  .arr [.obj [("uri", .str uri),
    ("range", .obj [("start", (mark character).toJson), ("end", (mark (character + 1)).toJson)])]]

/-- The tables of servers that know where in its row the function is called. -/
def answers (character : Int) : Answers where
  references := [⟨.str "file:///r/a.js", mark 9, nameAt "file:///r/b.js" character⟩]
  definitions := [⟨.str "file:///r/b.js", mark character, nameAt "file:///r/a.js" 9⟩]

def start (character : Int) : Builder :=
  { servers := (Servers.start.perform (Servers.make (.str "/r") (.str "localhost") (.int 5000)
      (answers character).reply)).2 }

theorem ready_start (character : Int) : (start character).servers.Ready (answers character) := by
  obtain ⟨servers, hstart, hready⟩ := Servers.ready_start (.str "/r") (.str "localhost")
    (.int 5000) (answers character)
  rw [start, hstart]
  exact hready

theorem proper_disk (callee : Piece) (root : String) :
    (project callee root).workspace.disk.Proper :=
  (Disk.proper_empty.addFile _ _).addFile _ _

def full (callee : Piece) (root : String) (character : Int) : Except Fault Unit × Builder :=
  (Builder.build (project callee root)).perform (start character)

def update (callee : Piece) (root : String) (character : Int) (path : String) :
    Except Fault Unit × Builder :=
  (Review.ofUpdate (project callee root) ([path].map .str)).rebuild.perform (start character)

end TwoFiles

end CodeAtlas
