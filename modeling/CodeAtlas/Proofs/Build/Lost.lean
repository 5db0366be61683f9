import CodeAtlas.Proofs.Build.Update

namespace CodeAtlas
open Server Source CodeAtlas.Path

namespace Atlas
variable {a : Answers} {m : Atlas} {path : String} {key : NodeKey} {place : Place}

def tree? (m : Atlas) (path : String) : Option Cursor := do
  let n ← m.table.get? (← m.graph.fileAt? path)
  (← n.definition?).cursor

/-- Does a syntax node stand in the file at a path, at a place? -/
def Occurs (m : Atlas) (path : String) (s : SyntaxNode) (place : Place) : Prop :=
  ∃ c, m.tree? path = some c ∧ s ∈ c.node.preorder ∧ Hierarchy.placeOf s.range path = .ok place

/-- Does the name of a definition in the file at a path stand at a place? -/
def named (m : Atlas) (path : String) (place : Place) : Bool :=
  (m.graph.fileAt? path).any fun file =>
    ((m.table.nameRanges file).toOption.getD []).any place.agrees

def refersTo (a : Answers) (m : Atlas) (place : Place) (key : NodeKey) : Bool :=
  (m.table.get? key).any fun n => n.definition?.any fun d =>
    ((a.placesOf n d.nameRange).toOption.getD []).any fun found =>
      found.uri == place.uri && found.extent.start.same place.extent.start

/-- Do the tables agree? What stands somewhere in the code is defined in a file with definitions
exactly if it refers to one of these. -/
def Agree (a : Answers) (m : Atlas) : Prop :=
  ∀ path s place, m.Occurs path s place → ∀ file, m.definitionsAt file ≠ [] →
    (a.definitionUri? place = some file ↔ ∃ key ∈ m.definitionsAt file, m.refersTo a place key)

/-- Does an identifier at one of the paths, which names no definition there, refer to a definition
in a file? -/
def Leads (a : Answers) (m : Atlas) (paths : List String) (file : String) : Prop :=
  ∃ path ∈ paths, ∃ s place, m.Occurs path s place ∧ s.kind = "identifier" ∧
    m.named path place = false ∧ ∃ key ∈ m.definitionsAt file, m.refersTo a place key

theorem fileAt?_of_tree? {c : Cursor} (h : m.tree? path = some c) :
    ∃ file, m.graph.fileAt? path = some file := by
  simp only [tree?, Option.bind_eq_bind, Option.bind_eq_some_iff] at h
  obtain ⟨file, hfile, -⟩ := h
  exact ⟨file, hfile⟩

/-- Agreement is a matter of the files and paths that the graph has. -/
theorem agree_iff : (∀ path ∈ Assoc.keys m.graph.files, ∀ c ∈ m.tree? path,
    ∀ s ∈ c.node.preorder, ∀ place ∈ (Hierarchy.placeOf s.range path).toOption,
    ∀ file ∈ Assoc.keys m.graph.byPath, m.definitionsAt file ≠ [] →
      (a.definitionUri? place = some file ↔ ∃ key ∈ m.definitionsAt file, m.refersTo a place key)) ↔
    m.Agree a := by
  constructor
  · rintro h path s place ⟨c, hc, hs, hplace⟩ file hfile
    obtain ⟨user, huser⟩ := fileAt?_of_tree? hc
    obtain ⟨keys, hkeys⟩ : ∃ keys, Assoc.get? m.graph.byPath file = some keys := by
      cases hget : Assoc.get? m.graph.byPath file with
      | some keys => exact ⟨keys, rfl⟩
      | none => simp [definitionsAt, Graph.nodesAt, hget] at hfile
    exact h path (Assoc.mem_keys_of_get? huser) c hc s hs place (by rw [hplace]; rfl) file
      (Assoc.mem_keys_of_get? hkeys) hfile
  · intro h path _ c hc s hs place hplace file _ hfile
    refine h path s place ⟨c, hc, hs, ?_⟩ file hfile
    cases hp : Hierarchy.placeOf s.range path with
    | ok place' =>
      rw [hp] at hplace
      cases hplace
      rfl
    | error fault =>
      rw [hp] at hplace
      cases hplace

instance (a : Answers) (m : Atlas) : Decidable (m.Agree a) := decidable_of_iff _ agree_iff

theorem tree?_eq_some {file : NodeKey} {d : Definition} (hfile : m.graph.fileAt? path = some file)
    (hd : m.table.definition file = .ok d) : m.tree? path = d.cursor := by
  obtain ⟨n, hn, hcontent⟩ := NodeTable.definition_eq_ok.mp hd
  simp [tree?, hfile, hn, Node.definition?, hcontent]

theorem mem_identifiers (hg : m.graph.Indexed m.table) (hfile : m.graph.fileAt? path = some key)
    {places : List Place} (h : Hierarchy.identifiers m.table key = .ok places) :
    place ∈ places ↔ ∃ s, m.Occurs path s place ∧ s.kind = "identifier" := by
  obtain ⟨n, hn, rfl, -⟩ := hg.file_at hfile
  simp only [Hierarchy.identifiers, Outcome.bind_eq_ok, NodeTable.node_eq_ok] at h
  obtain ⟨n', hn', d, hd, h⟩ := h
  cases hn.symm.trans hn'
  have htree := tree?_eq_some hfile hd
  split at h
  · cases h
  · rename_i c hc
    rw [hc] at htree
    rw [Outcome.mem_iff_of_mapM_eq_ok h]
    constructor
    · rintro ⟨s, hs, hplace⟩
      obtain ⟨hs, hkind⟩ := List.mem_filter.mp hs
      exact ⟨s, ⟨c, htree, hs, hplace⟩, by simpa using hkind⟩
    · rintro ⟨s, ⟨c', hc', hs, hplace⟩, hkind⟩
      cases htree.symm.trans hc'
      exact ⟨s, List.mem_filter.mpr ⟨hs, by simpa using hkind⟩, hplace⟩

theorem mem_withoutNames {names places : List Place} :
    place ∈ withoutNames names places ↔ place ∈ places ∧ ¬names.any place.agrees = true := by
  rw [withoutNames, List.mem_filter, Bool.not_eq_true', Bool.not_eq_true]

/-- What a file uses, by its syntax nodes. -/
theorem mem_uses (hg : m.graph.Indexed m.table) (hfile : m.graph.fileAt? path = some key)
    {places : List Place} (h : m.table.uses key = .ok places) :
    place ∈ places ↔
      ∃ s, m.Occurs path s place ∧ s.kind = "identifier" ∧ m.named path place = false := by
  simp only [NodeTable.uses, Outcome.bind_eq_ok] at h
  obtain ⟨d, hd, h⟩ := h
  split at h
  · rename_i hnone
    cases h
    refine ⟨fun hmem => absurd hmem List.not_mem_nil, ?_⟩
    rintro ⟨s, ⟨c, hc, -⟩, -⟩
    rw [tree?_eq_some hfile hd] at hc
    simp [hc] at hnone
  · simp only [Outcome.bind_eq_ok, Outcome.pure_eq_ok] at h
    obtain ⟨names, hnames, found, hfound, rfl⟩ := h
    have hnamed : m.named path place = names.any place.agrees := by
      simp [named, hfile, hnames, Except.toOption]
    rw [mem_withoutNames, mem_identifiers hg hfile hfound, hnamed, Bool.not_eq_true]
    constructor
    · rintro ⟨⟨s, hs, hkind⟩, hname⟩
      exact ⟨s, hs, hkind, hname⟩
    · rintro ⟨s, hs, hkind, hname⟩
      exact ⟨⟨s, hs, hkind⟩, hname⟩

/-- The files that an update looks into besides its own: those that an identifier leads to. -/
theorem mem_usedBy {paths : List String} {uri : String} :
    uri ∈ m.usedBy a paths ↔ ∃ path ∈ paths, ∃ file places, m.graph.fileAt? path = some file ∧
      m.table.uses file = .ok places ∧ ∃ place ∈ places, a.definitionUri? place = some uri := by
  simp only [usedBy, List.mem_flatMap, List.mem_filterMap]
  constructor
  · rintro ⟨file, ⟨path, hpath, hfile⟩, place, hplace, huri⟩
    cases huses : m.table.uses file with
    | error fault => simp [huses, Except.toOption] at hplace
    | ok places => exact ⟨path, hpath, file, places, hfile, huses,
        place, by simpa [huses, Except.toOption] using hplace, huri⟩
  · rintro ⟨path, hpath, file, places, hfile, huses, place, hplace, huri⟩
    exact ⟨file, ⟨path, hpath, hfile⟩, place, by simpa [huses, Except.toOption] using hplace, huri⟩

/-- If the tables agree, an update looks into the files with definitions that identifiers lead
to. -/
theorem mem_usedBy_iff_leads (hg : m.graph.Indexed m.table) (hagree : m.Agree a)
    {paths : List String}
    (huses : ∀ key ∈ paths.filterMap m.graph.fileAt?, ∃ places, m.table.uses key = .ok places)
    {file : String} (hfile : m.definitionsAt file ≠ []) :
    file ∈ m.usedBy a paths ↔ m.Leads a paths file := by
  rw [mem_usedBy]
  constructor
  · rintro ⟨path, hpath, user, places, huser, hplaces, place, hplace, huri⟩
    obtain ⟨s, hs, hkind, hname⟩ := (mem_uses hg huser hplaces).mp hplace
    exact ⟨path, hpath, s, place, hs, hkind, hname, (hagree path s place hs file hfile).mp huri⟩
  · rintro ⟨path, hpath, s, place, hs, hkind, hname, hrefers⟩
    obtain ⟨c, hc, -⟩ := id hs
    obtain ⟨user, huser⟩ := fileAt?_of_tree? hc
    obtain ⟨places, hplaces⟩ := huses user (List.mem_filterMap.mpr ⟨path, hpath, huser⟩)
    exact ⟨path, hpath, user, places, huser, hplaces, place,
      (mem_uses hg huser hplaces).mpr ⟨s, hs, hkind, hname⟩,
      (hagree path s place hs file hfile).mpr hrefers⟩

/-- Relationships end at classes and functions. -/
theorem stop_mem_definitionsAt {keys : List NodeKey} {all : List (List Relationship)}
    (hall : keys.mapM (m.relationshipsInto a) = .ok all) {r : Relationship}
    (hr : r ∈ all.flatten) : ∃ file, r.stop ∈ m.definitionsAt file := by
  obtain ⟨found, hfound, hr⟩ := List.mem_flatten.mp hr
  obtain ⟨key, -, hinto⟩ := Outcome.mem_of_mapM_eq_ok hall hfound
  obtain ⟨n, -, hstop, -⟩ := mem_relationshipsInto hinto hr
  exact ⟨n.path, hstop⟩

end Atlas

section
variable {p : Project} {a : Answers} {b : Builder}

/-- A relationship of the full build that begins at a path of an update is in the graph of the
update exactly if it ends at one of the paths too, or if an identifier at one of the paths, which
names no definition there, refers to a definition in the file where it ends. -/
theorem mem_update_iff_leads (hd : p.workspace.disk.Proper) {root : String}
    (hr : p.rules.root = .str root) (hroot : root ≠ "") {paths : List String}
    (hpaths : paths.Nodup) (hb : b.atlas = {}) (hs : b.servers.Ready a) {full part : Builder}
    (hfull : (Builder.build p).perform b = (.ok (), full))
    (hpart : (Review.ofUpdate p (paths.map .str)).rebuild.perform b = (.ok (), part))
    (hagree : full.atlas.Agree a) {r : Relationship} (hmem : r ∈ full.atlas.graph.references)
    (hstart : full.atlas.table.isAt paths.contains r.start = true) :
    r ∈ part.atlas.graph.references ↔ ∃ file, r.stop ∈ full.atlas.definitionsAt file ∧
      (file ∈ paths ∨ full.atlas.Leads a paths file) := by
  obtain ⟨m, hm⟩ : ∃ m, ((Builder.addProject p).perform b).2.atlas = m := ⟨_, rfl⟩
  obtain ⟨top, hc, -⟩ := Builder.addProject_chart hd hr hroot hb
  rw [hm] at hc
  obtain ⟨all, hall, hfa⟩ := (Builder.ends_build hs hm).of_ok hfull
  obtain ⟨others, groups, folders, hnodup, huses, hothers, hgroups, -, hpa⟩ :=
    (Review.ends_rebuild hc hs hm hpaths).of_ok hpart
  rw [hfa] at hagree hmem hstart ⊢
  change m.Agree a at hagree
  change m.table.isAt paths.contains r.start = true at hstart
  change _ ↔ ∃ file, r.stop ∈ m.definitionsAt file ∧ (file ∈ paths ∨ m.Leads a paths file)
  simp only [Graph.addReferences, hc.references, List.nil_append] at hmem
  -- what begins at the paths passes the filter, so it is kept if it was looked for at all
  have hkept : r ∈ part.atlas.graph.references ↔
      m.table.isAt (paths ++ others).contains r.stop = true := by
    have hstands : m.table.stands (.arr (folders.map .str ++ paths.map .str)) r.start = true := by
      obtain ⟨n, hn, hpath⟩ := NodeTable.isAt_iff.mp hstart
      rw [NodeTable.stands_of_get? hn, List.any_append, Bool.or_eq_true]
      exact Or.inr (Json.any_same_str.mpr (by simpa using hpath))
    have hfound := (hc.found_perm hnodup hgroups hall).mem_iff (a := r)
    rw [hpa.references, List.mem_filter]
    simp only [Graph.addReferences, hc.references, List.nil_append]
    rw [hfound, List.mem_filter, hstands, Bool.true_or]
    exact ⟨fun h => h.1.2, fun h => ⟨⟨hmem, h⟩, rfl⟩⟩
  have hat : ∀ {file}, r.stop ∈ m.definitionsAt file →
      ∃ n, m.table.get? r.stop = some n ∧ n.path = file :=
    fun h => hc.indexed.at_path (List.mem_filter.mp h).1
  obtain ⟨file, hfile⟩ := Atlas.stop_mem_definitionsAt hall hmem
  obtain ⟨n, hn, rfl⟩ := hat hfile
  have hsame : ∀ file, r.stop ∈ m.definitionsAt file ↔ file = n.path := by
    intro file
    constructor
    · intro h
      obtain ⟨n', hn', rfl⟩ := hat h
      cases hn.symm.trans hn'
      rfl
    · rintro rfl
      exact hfile
  -- the files that were looked into besides the paths are those that identifiers lead to
  simp only [hsame, exists_eq_left]
  rw [hkept, NodeTable.isAt_of_get? hn, List.contains_iff_mem, List.mem_append, hothers,
    ← Atlas.mem_usedBy_iff_leads hc.indexed hagree huses (List.ne_nil_of_mem hfile)]
  tauto

end

namespace TwoFiles

theorem exists_call (callee : Source.Piece) (character : Int)
    (hfull : (full callee "/r" character).1.isOk = true)
    (hpart : (update callee "/r" character "file:///r/b.js").1.isOk = true)
    (hends : (full callee "/r" character).2.atlas.graph.references.map
      (fun r => (r.start, r.stop)) = [(3, 2)]) :
    ∃ whole part r, full callee "/r" character = (.ok (), whole) ∧
      update callee "/r" character "file:///r/b.js" = (.ok (), part) ∧
      r ∈ whole.atlas.graph.references ∧ r.start = 3 ∧ r.stop = 2 := by
  obtain ⟨whole, hwhole⟩ := Action.exists_of_isOk hfull
  obtain ⟨part, hpart⟩ := Action.exists_of_isOk hpart
  change full callee "/r" character = _ at hwhole
  rw [hwhole] at hends
  have hmem : (3, 2) ∈ whole.atlas.graph.references.map (fun r => (r.start, r.stop)) := by
    rw [hends]
    exact List.mem_singleton_self _
  obtain ⟨r, hr, hpair⟩ := List.mem_map.mp hmem
  exact ⟨whole, part, r, hwhole, hpart, hr, (Prod.mk.inj hpair).1, (Prod.mk.inj hpair).2⟩

/-- The call of the function by its own name, for which an update looks. -/
theorem plain_call_kept_iff_leads : ∃ whole part r,
    full plain "/r" 0 = (.ok (), whole) ∧
    update plain "/r" 0 "file:///r/b.js" = (.ok (), part) ∧ whole.atlas.Agree (answers 0) ∧
    r ∈ whole.atlas.graph.references ∧
    (r ∈ part.atlas.graph.references ↔ ∃ file, r.stop ∈ whole.atlas.definitionsAt file ∧
      (file ∈ ["file:///r/b.js"] ∨ whole.atlas.Leads (answers 0) ["file:///r/b.js"] file)) := by
  have hrun : (full plain "/r" 0).1.isOk = true ∧
      (update plain "/r" 0 "file:///r/b.js").1.isOk = true ∧
      (full plain "/r" 0).2.atlas.graph.references.map (fun r => (r.start, r.stop)) = [(3, 2)] ∧
      (full plain "/r" 0).2.atlas.Agree (answers 0) ∧
      (full plain "/r" 0).2.atlas.table.isAt ["file:///r/b.js"].contains 3 = true := by
    decide +kernel
  obtain ⟨hfull, hpart, hends, hagree, hat⟩ := hrun
  obtain ⟨whole, part, r, hwhole, hpart, hr, hstart, -⟩ := exists_call plain 0 hfull hpart hends
  rw [hwhole] at hagree hat
  rw [← hstart] at hat
  exact ⟨whole, part, r, hwhole, hpart, hagree, hr,
    mem_update_iff_leads (proper_disk plain "/r") rfl (by decide) (List.nodup_singleton _) rfl
      (ready_start 0) hwhole hpart hagree hr hat⟩

/-- The call of the function as a member of what was imported is lost: no identifier leads to it. -/
theorem member_call_lost : ∃ whole part r,
    full member "/r" 3 = (.ok (), whole) ∧
    update member "/r" 3 "file:///r/b.js" = (.ok (), part) ∧ whole.atlas.Agree (answers 3) ∧
    whole.atlas.definitionsAt "file:///r/a.js" = [r.stop] ∧
    r ∈ whole.atlas.graph.references ∧
    whole.atlas.table.isAt ["file:///r/b.js"].contains r.start = true ∧
    r ∉ part.atlas.graph.references := by
  have hrun : (full member "/r" 3).1.isOk = true ∧
      (update member "/r" 3 "file:///r/b.js").1.isOk = true ∧
      (full member "/r" 3).2.atlas.graph.references.map (fun r => (r.start, r.stop)) = [(3, 2)] ∧
      (full member "/r" 3).2.atlas.Agree (answers 3) ∧
      (full member "/r" 3).2.atlas.table.isAt ["file:///r/b.js"].contains 3 = true ∧
      (full member "/r" 3).2.atlas.definitionsAt "file:///r/a.js" = [2] ∧
      (update member "/r" 3 "file:///r/b.js").2.atlas.graph.references.isEmpty = true := by
    decide +kernel
  obtain ⟨hfull, hpart, hends, hagree, hat, hdefined, hnone⟩ := hrun
  obtain ⟨whole, part, r, hwhole, hpart, hr, hstart, hstop⟩ :=
    exists_call member 3 hfull hpart hends
  rw [hwhole] at hagree hat hdefined
  rw [hpart, List.isEmpty_iff] at hnone
  refine ⟨whole, part, r, hwhole, hpart, hagree, ?_, hr, ?_, ?_⟩
  · rw [hstop, hdefined]
  · rw [hstart, hat]
  · rw [hnone]
    exact List.not_mem_nil

end TwoFiles
end CodeAtlas
