import CodeAtlas.Proofs.Build.Stages
import CodeAtlas.Proofs.Outline.Traversal
import CodeAtlas.Proofs.Source.Cursor

namespace CodeAtlas
open Source NodeTable

namespace Workspace

/-- The syntax tree of a file that is read as a text. -/
def tree (w : Workspace) (file : ProjectFile) (l : Language) (text : String) : SyntaxNode :=
  w.grammar.parse l file.extension text

/-- Is a file read in a language, and as which text? -/
structure Reads (w : Workspace) (file : ProjectFile) (l : Language) (text : String) : Prop where
  language : Language.ofExtension? file.extension = some l
  text : Hierarchy.sourceText w.disk file = .ok text

end Workspace

/-- Code that was read off a file: off a file without a tree, off the root of a tree, or off a class
or function in it. -/
inductive Definition.ReadOff (w : Workspace) (file : ProjectFile) (d : Definition) : Prop where
  | plain (unread : Language.ofExtension? file.extension = none) (scope : d.scope = .file)
      (cursor : d.cursor = none) (range : d.range.extent = .ofRange .zero)
  | whole {l : Language} {text : String} (reads : w.Reads file l text) (scope : d.scope = .file)
      (cursor : d.cursor = some (.root (w.tree file l text)))
      (range : d.range.extent = .ofRange (w.tree file l text).range)
  | inner {l : Language} {text : String} {c : Cursor} {s : Sketch} (reads : w.Reads file l text)
      (below : (Cursor.root (w.tree file l text)).LeadsTo c) (sketch : Outline.sketch l c = .ok s)
      (scope : d.scope = s.scope) (cursor : d.cursor = some c)
      (range : d.range.extent = .ofRange c.node.range)
      (nameRange : d.nameRange.extent = .ofRange s.nameRange)

/-- Do all definitions of a table come from files of a project? -/
def Project.Supplies (p : Project) (t : NodeTable) : Prop :=
  ∀ {key n d}, t.get? key = some n → n.content = .definition d →
    ∃ file ∈ p.files, n.path = file.uri ∧ d.ReadOff p.workspace file

section Definition
variable {w : Workspace} {file : ProjectFile} {d d' : Definition}

/-- Where code comes from is not a matter of its text. -/
theorem Definition.ReadOff.kin (h : d.ReadOff w file) (hb : d'.blank = d.blank) :
    d'.ReadOff w file := by
  obtain ⟨hscope, hname, hrange, -, -, hcursor, -⟩ := Definition.mk.inj hb
  have hname' : d'.nameRange = d.nameRange := hname
  have hrange' : d'.range = d.range := hrange
  cases h with
  | plain unread scope cursor range =>
    exact .plain unread (hscope.trans scope) (hcursor.trans cursor) (by rw [hrange', range])
  | whole reads scope cursor range =>
    exact .whole reads (hscope.trans scope) (hcursor.trans cursor) (by rw [hrange', range])
  | inner reads below sketch scope cursor range nameRange =>
    exact .inner reads below sketch (hscope.trans scope) (hcursor.trans cursor)
      (by rw [hrange', range]) (by rw [hname', nameRange])

/-- All code stands between two points of whole numbers. -/
theorem Definition.ReadOff.exists_range (h : d.ReadOff w file) :
    ∃ r, d.range.extent = .ofRange r := by
  cases h with
  | plain _ _ _ range => exact ⟨_, range⟩
  | whole _ _ _ range => exact ⟨_, range⟩
  | inner _ _ _ _ _ range _ => exact ⟨_, range⟩

/-- A cursor of a definition is one into the tree of its file. -/
theorem Definition.ReadOff.exists_tree (h : d.ReadOff w file) {c : Cursor}
    (hc : d.cursor = some c) : ∃ l text, w.Reads file l text ∧
      (Cursor.root (w.tree file l text)).LeadsTo c ∧ d.range.extent = .ofRange c.node.range := by
  cases h with
  | plain _ _ cursor _ => cases cursor.symm.trans hc
  | whole reads _ cursor range =>
    cases cursor.symm.trans hc
    exact ⟨_, _, reads, .refl, range⟩
  | inner reads below _ _ cursor range _ =>
    cases cursor.symm.trans hc
    exact ⟨_, _, reads, below, range⟩

end Definition

namespace Project.Supplies
variable {p : Project} {t t' : NodeTable}

theorem push_folder (h : p.Supplies t) {n : Node} (hn : n.content = .folder) :
    p.Supplies (t.push n) := by
  intro key m d hm hd
  rcases of_get?_push hm with ⟨-, rfl⟩ | hm
  · cases hn.symm.trans hd
  · exact h hm hd

theorem retold (h : p.Supplies t) (hretold : t.Retold t') : p.Supplies t' := by
  intro key n' d' hn' hd'
  obtain ⟨n, hn, hkin⟩ := hretold.get? hn'
  obtain ⟨d, hd, hblank⟩ := hkin.symm.definition hd'
  obtain ⟨file, hfile, hpath, hfrom⟩ := h hn hd
  exact ⟨file, hfile, hkin.path.trans hpath, hfrom.kin hblank.symm⟩

end Project.Supplies

namespace Outline
variable {l : Language} {address : List Nat} {around : Option (List Nat)}
  {above : List SyntaxNode} {n root : SyntaxNode} {x : Site}

/-- The cursors of the definitions at and below a node are those that it leads to. -/
theorem leadsTo_of_mem_sites (h : x ∈ sites l address around above n) :
    Cursor.LeadsTo ⟨n, above⟩ x.cursor := by
  induction n using SyntaxNode.by_children generalizing address around above with
  | node n ih =>
    have hbelow : ∀ around', x ∈ sitesFrom l address around' (n :: above) 0 n.children →
        Cursor.LeadsTo ⟨n, above⟩ x.cursor := by
      intro around' hx
      obtain ⟨j, child, hchild, -, hx⟩ := mem_sitesFrom.mp hx
      have hmem := List.mem_of_getElem? hchild
      exact (Cursor.LeadsTo.child hmem).trans (ih child hmem hx)
    by_cases hdef : l.isDefinition n = true
    · rw [sites_of_definition hdef] at h
      rcases List.mem_cons.mp h with rfl | h
      · exact .refl
      · exact hbelow _ h
    · rw [sites_of_other hdef] at h
      exact hbelow _ h

end Outline

theorem Language.contains_of_ofExtension? {extension : String} {l : Language}
    (h : ofExtension? extension = some l) : l.extensions.contains extension = true :=
  List.find?_some (p := fun l : Language => l.extensions.contains extension) h

namespace Hierarchy
variable {w : Workspace} {file : ProjectFile} {e : Option Environment} {above : Option NodeKey}
  {level : Int} {t t' : NodeTable} {keys : List NodeKey} {key : NodeKey} {n : Node}

/-- The nodes that a file is planted with are read off the file. -/
theorem readOff_of_plantFile (ht : t.Regular)
    (hplant : (plantFile w (Language.ofExtension? file.extension) e above file
      (.int level)).perform t = (.ok keys, t')) (hle : t.nodes.size ≤ key)
    (hn : t'.get? key = some n) :
    n.path = file.uri ∧ ∃ d, n.content = .definition d ∧ d.ReadOff w file := by
  cases hl : Language.ofExtension? file.extension with
  | none =>
    rw [hl] at hplant
    cases (perform_plantFile_plain (w := w) (l := none) rfl e above level t).symm.trans hplant
    obtain ⟨rfl, rfl⟩ | hold := of_get?_push hn
    · exact ⟨rfl, _, rfl, .plain hl rfl rfl rfl⟩
    · exact absurd (lt_size hold) (Nat.not_lt_of_le hle)
  | some l =>
    rw [hl] at hplant
    have hext := Language.contains_of_ofExtension? hl
    obtain ⟨-, text, htext⟩ := readable_of_plantFile (isReadBy_of_extension hext) hplant
    obtain ⟨t₁, hgrafted, hfails, hrun⟩ := plantFile_grafted hext htext e above level ht
    have hfault : (Outline.read l [] (w.tree file l text)).fault = none := by
      cases hfault : (Outline.read l [] (w.tree file l text)).fault with
      | none => rfl
      | some fault => cases (hfails hfault).symm.trans hplant
    cases (hrun hfault).symm.trans hplant
    rcases hgrafted.lt_or_new (lt_size hn) with hlt | ⟨i, g, hg, rfl⟩
    · -- the node of the file itself
      rw [size_push] at hlt
      obtain rfl := Nat.le_antisymm hle (Nat.le_of_lt_succ hlt)
      cases (hgrafted.get? (t.get?_push_self _)).symm.trans hn
      exact ⟨rfl, _, rfl, .whole ⟨hl, htext⟩ rfl rfl rfl⟩
    · -- the node of a class or function
      obtain ⟨-, parent, n', -, hn', hmakes⟩ := hgrafted.new hg
      cases hn'.symm.trans hn
      obtain ⟨x, hx, hrenders⟩ := Outcome.exists_of_forall₂
        (Outline.read_rendered t.nodes.size hfault) (List.mem_of_getElem? hg)
      obtain ⟨nameRange, range, hname, hrange, hcontent⟩ := hmakes.content
      rw [placeOf_eq (isUri_uri file), Except.ok.injEq] at hname hrange
      subst hname hrange
      have hcursor := (Outline.sketch_cursor hrenders.sketch).1
      refine ⟨hmakes.path, _, hcontent, ?_⟩
      refine .inner ⟨hl, htext⟩ (Outline.leadsTo_of_mem_sites hx) hrenders.sketch rfl ?_ ?_ rfl
      · exact congrArg some hcursor
      · rw [← hcursor]
        rfl

end Hierarchy

namespace Builder
variable {p : Project} {b b' : Builder}

theorem stays_supplied (p : Project) : Stays p fun a => p.Supplies a.table where
  folder h hn := h.push_folder hn
  planted {a folder file keys t} h ht hfile hplant := by
    intro key n d hn hd
    by_cases hlt : key < a.table.nodes.size
    · obtain ⟨-, hfiled, -⟩ := (Hierarchy.plantFile_filed _ _ _ _ _ _ ht).of_ok hplant
      exact h ((hfiled.old hlt).symm.trans hn) hd
    · obtain ⟨hpath, d', hd', hfrom⟩ :=
        Hierarchy.readOff_of_plantFile ht.toRegular hplant (Nat.le_of_not_lt hlt) hn
      cases hd.symm.trans hd'
      exact ⟨file, hfile, hpath, hfrom⟩
  retold h hretold := h.retold hretold
  contained h := by
    intro k n d hn hd
    rw [get?_appendMembers] at hn
    exact h hn hd
  listed h _ := h

/-- After the first part of a build all code comes from files of the project. -/
theorem supplies_of_addProject (hb : b.atlas = {})
    (h : (addProject p).perform b = (.ok (), b')) : p.Supplies b'.atlas.table := by
  refine (((stays_supplied p).ends_addProject ?_).of_ok h).1
  rw [hb]
  refine ⟨?_, tidy_empty⟩
  intro key n d hn
  simp [NodeTable.get?] at hn

end Builder
end CodeAtlas
