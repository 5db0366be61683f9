import CodeAtlas.Proofs.Graph.Kin
import CodeAtlas.Proofs.Hierarchy
import CodeAtlas.Proofs.Source.Layout

namespace CodeAtlas
open Source

/-- The code of a node stands for a part of a syntax tree and has its body there, if any. -/
structure Definition.StandsFor (d : Definition) (n : SyntaxNode) : Prop where
  cursor : ∃ c, d.cursor = some c ∧ c.node = n
  fits : n.Fits
  body : ∀ b, d.body = some b → n.Encloses b

theorem Sketch.standsFor {s : Sketch} (hfits : s.cursor.node.Fits)
    (hbody : ∀ b, s.body = some b → s.cursor.node.Encloses b) (nameRange range : Place) :
    (s.definition nameRange range).StandsFor s.cursor.node :=
  ⟨⟨s.cursor, rfl, rfl⟩, hfits, hbody⟩

mutual
/-- Does all that an outline names stand below a syntax node? -/
def Outline.Within (n : SyntaxNode) : Outline → Prop
  | .of s members => n.Encloses s.cursor.node ∧ (∀ b, s.body = some b → s.cursor.node.Encloses b) ∧
      WithinAll s.cursor.node members

def WithinAll (n : SyntaxNode) : List Outline → Prop
  | [] => True
  | o :: os => o.Within n ∧ WithinAll n os
end

theorem withinAll_append {n : SyntaxNode} {os os' : List Outline} (h : WithinAll n os)
    (h' : WithinAll n os') : WithinAll n (os ++ os') := by
  induction os with
  | nil => exact h'
  | cons o os ih => exact ⟨h.1, ih h.2⟩

namespace Outline

theorem bodyField_encloses {n b : SyntaxNode} (h : Language.bodyField n = .ok b) :
    n.Encloses b := by
  unfold Language.bodyField at h
  split at h
  · rename_i hchild
    cases h
    exact SyntaxNode.encloses_of_child? hchild
  · cases h

theorem bodyNode_encloses {l : Language} {n b : SyntaxNode} (h : l.bodyNode n = .ok (some b)) :
    n.Encloses b := by
  have hfield : (Language.bodyField n).map some = .ok (some b) → n.Encloses b := by
    intro h
    obtain ⟨b', hb', heq⟩ := Outcome.map_eq_ok.mp h
    cases heq
    exact bodyField_encloses hb'
  -- the body of an arrow function stands in the value of the variable
  have harrow : (if Language.isArrowFunction n then
        Except.ok ((n.child? "value").bind (·.child? "body"))
      else (Language.bodyField n).map some) = .ok (some b) → n.Encloses b := by
    intro h
    split at h
    · obtain ⟨value, hvalue, hbody⟩ := Option.bind_eq_some_iff.mp (Except.ok.inj h)
      exact (SyntaxNode.encloses_of_child? hvalue).trans (SyntaxNode.encloses_of_child? hbody)
    · exact hfield h
  cases l with
  | python => exact hfield h
  | javascript => exact harrow h
  | typescript => exact harrow h
  | ruby => exact hfield h

theorem bodyOf_encloses {l : Language} {n b : SyntaxNode} (h : bodyOf l n = some b) :
    n.Encloses b := by
  unfold bodyOf at h
  split at h
  · rename_i hbody
    exact bodyNode_encloses (h ▸ hbody)
  · cases h

theorem sketch_cursor {l : Language} {c : Cursor} {s : Sketch} (h : sketch l c = .ok s) :
    s.cursor = c ∧ ∀ b, s.body = some b → c.node.Encloses b := by
  simp only [sketch, Outcome.bind_eq_ok, Outcome.pure_eq_ok] at h
  obtain ⟨_, _, _, _, _, _, rfl⟩ := h
  exact ⟨rfl, fun b hb => bodyOf_encloses hb⟩

mutual
theorem read_within (l : Language) (above : List SyntaxNode) {n : SyntaxNode} :
    (m : SyntaxNode) → n.Encloses m → WithinAll n (read l above m).members
  | .mk kind field named start stop text children => by
    intro hm
    have hchildren : ∀ c ∈ children, n.Encloses c := fun c hc => hm.tail hc
    rw [read]
    split
    · split
      · trivial
      · rename_i s hs
        obtain ⟨hcursor, hbody⟩ := sketch_cursor hs
        refine ⟨⟨?_, ?_, ?_⟩, trivial⟩
        · rw [hcursor]
          exact hm
        · rw [hcursor]
          exact hbody
        · rw [hcursor]
          exact readAll_within l _ children fun c hc => .single hc
    · exact readAll_within l _ children hchildren

theorem readAll_within (l : Language) (above : List SyntaxNode) {n : SyntaxNode} :
    (ms : List SyntaxNode) → (∀ m ∈ ms, n.Encloses m) → WithinAll n (readAll l above ms).members
  | [] => fun _ => trivial
  | m :: ms => by
    intro hms
    obtain ⟨hm, hms⟩ := List.forall_mem_cons.mp hms
    have hfirst : WithinAll n (if m.named then read l above m else {}).members := by
      split
      · exact read_within l above m hm
      · trivial
    rw [readAll]
    generalize (if m.named then read l above m else {}) = first at hfirst ⊢
    dsimp only
    split
    · exact hfirst
    · exact withinAll_append hfirst (readAll_within l above ms hms)
end

end Outline

namespace NodeTable
variable {t t' : NodeTable} {base : Nat}

/-- A node that stands for a part of a syntax tree. -/
def Shows (t : NodeTable) (key : NodeKey) (n : SyntaxNode) : Prop :=
  ∃ d, t.definition key = .ok d ∧ d.StandsFor n

theorem Shows.of_get? {key : NodeKey} {n : SyntaxNode} (h : t.Shows key n)
    (hget : ∀ node, t.get? key = some node → t'.get? key = some node) : t'.Shows key n := by
  obtain ⟨d, hd, hn⟩ := h
  obtain ⟨node, hnode, hcontent⟩ := definition_eq_ok.mp hd
  exact ⟨d, definition_eq_ok.mpr ⟨node, hget node hnode, hcontent⟩, hn⟩

theorem Shows.push {key : NodeKey} {n : SyntaxNode} (h : t.Shows key n) (node : Node) :
    (t.push node).Shows key n :=
  h.of_get? fun _ => get?_push_of_some

theorem Shows.appendMembers {key : NodeKey} {n : SyntaxNode} (h : t.Shows key n)
    (other : NodeKey) (added : List NodeKey) : (t.appendMembers other added).Shows key n :=
  h.of_get? fun _ hget => (get?_appendMembers ..).trans hget

/-- A table in which, from a place on, all nodes are definitions with known identifiers, and the
members of each stand after it and for parts of its syntax. -/
structure Legible (base : Nat) (t : NodeTable) : Prop where
  tidy : t.Tidy
  known : ∀ {key}, base ≤ key → key < t.nodes.size →
    (∃ d, t.definition key = .ok d) ∧ ∃ id, t.id key = .ok id
  below : ∀ {key m}, base ≤ key → m ∈ t.members key →
    key < m ∧ ∃ n n', t.Shows key n ∧ t.Shows m n' ∧ n.Encloses n'

/-- A node below one with a known identifier has a known identifier. -/
theorem exists_id_push {parent : Option NodeKey} (d : Definition) (uri name : String)
    (level : Json) (e : Option Environment)
    (hp : ∀ p, parent = some p → ∃ id, t.id p = .ok id) :
    ∃ id, (t.push (t.fresh (.definition d) uri (.str name) level parent e)).id t.nodes.size =
      .ok id := by
  have htrail : ∃ texts, List.Forall₂ (fun s text => t.segmentText s = .ok text)
      (((parent.bind t.get?).map Node.trail).getD []) texts := by
    cases parent with
    | none => exact ⟨[], .nil⟩
    | some p =>
      obtain ⟨id, hid⟩ := hp p rfl
      simp only [NodeTable.id, identifier, Outcome.bind_eq_ok, node_eq_ok,
        Outcome.mapM_eq_ok] at hid
      obtain ⟨n, hn, _, ⟨n', hn', texts, htexts, _⟩, _⟩ := hid
      cases hn.symm.trans hn'
      refine ⟨texts, ?_⟩
      rw [Option.bind_some, hn]
      exact htexts
  obtain ⟨texts, htexts⟩ := htrail
  have hkeeps := keeps_push (t := t) (t.fresh (.definition d) uri (.str name) level parent e)
  have hown : List.Forall₂ (fun s text => (t.push (t.fresh (.definition d) uri (.str name) level
      parent e)).segmentText s = .ok text)
      (t.trailBelow parent (.named d.scope.mark (.str name))) (texts ++ [d.scope.mark ++ name]) :=
    List.rel_append (htexts.imp fun _ _ => hkeeps.segmentText) (.cons rfl .nil)
  have hget := t.get?_push_self (t.fresh (.definition d) uri (.str name) level parent e)
  simp only [NodeTable.id, identifier, Outcome.bind_eq_ok, Outcome.pure_eq_ok, node_eq_ok,
    Outcome.mapM_eq_ok]
  exact ⟨_, _, hget, _, ⟨_, hget, _, hown, rfl⟩, rfl⟩

theorem shows_push (t : NodeTable) {d : Definition} {n : SyntaxNode} (hd : d.StandsFor n)
    (uri : String) (name level : Json) (parent : Option NodeKey) (e : Option Environment) :
    (t.push (t.fresh (.definition d) uri name level parent e)).Shows t.nodes.size n :=
  ⟨d, definition_eq_ok.mpr ⟨_, t.get?_push_self _, rfl⟩, hd⟩

/-- A new node, if its identifier is known. -/
theorem Legible.push (h : Legible base t) {parent : Option NodeKey} (d : Definition)
    (uri name : String) (level : Json) (e : Option Environment)
    (hp : ∀ p, parent = some p → ∃ id, t.id p = .ok id) :
    Legible base (t.push (t.fresh (.definition d) uri (.str name) level parent e)) where
  tidy := h.tidy.push rfl
  known {key} hle hlt := by
    rw [size_push] at hlt
    by_cases hkey : key = t.nodes.size
    · subst hkey
      exact ⟨⟨d, definition_eq_ok.mpr ⟨_, t.get?_push_self _, rfl⟩⟩,
        exists_id_push d uri name level e hp⟩
    · obtain ⟨⟨d', hd'⟩, id, hid⟩ := h.known hle (by omega)
      obtain ⟨n, hn, hcontent⟩ := definition_eq_ok.mp hd'
      exact ⟨⟨d', definition_eq_ok.mpr ⟨n, get?_push_of_some hn, hcontent⟩⟩, id,
        (keeps_push _).id hid⟩
  below {key m} hle hm := by
    rw [h.tidy.members_push rfl] at hm
    obtain ⟨hlt, n, n', hn, hn', henc⟩ := h.below hle hm
    exact ⟨hlt, n, n', hn.push _, hn'.push _, henc⟩

/-- New members, if they stand after their node and for parts of its syntax. -/
theorem Legible.appendMembers (h : Legible base t) {parent : NodeKey} (hlt : parent < t.nodes.size)
    {added : List NodeKey} (htidy : (t.appendMembers parent added).Tidy)
    (hadded : ∀ m ∈ added, parent < m ∧ ∃ n n', t.Shows parent n ∧ t.Shows m n' ∧ n.Encloses n') :
    Legible base (t.appendMembers parent added) where
  tidy := htidy
  known {key} hle hlt := by
    rw [size_appendMembers] at hlt
    obtain ⟨⟨d, hd⟩, id, hid⟩ := h.known hle hlt
    refine ⟨⟨d, ?_⟩, id, (keeps_appendMembers _ _).id hid⟩
    rw [definition_eq_ok] at hd ⊢
    simpa only [get?_appendMembers] using hd
  below {key m} hle hm := by
    have hbelow : key < m ∧ ∃ n n', t.Shows key n ∧ t.Shows m n' ∧ n.Encloses n' := by
      rw [h.tidy.members_appendMembers hlt] at hm
      split at hm
      · rename_i hkey
        subst hkey
        exact (List.mem_append.mp hm).elim (h.below hle) (hadded m)
      · exact h.below hle hm
    obtain ⟨hkm, n, n', hn, hn', henc⟩ := hbelow
    exact ⟨hkm, n, n', hn.appendMembers _ _, hn'.appendMembers _ _, henc⟩

/-- A class or function below a node whose syntax encloses its own. -/
theorem Legible.add (h : Legible base t) {uri : String} {parent : NodeKey} (hle : base ≤ parent)
    (hbelow : Hierarchy.Below uri parent t) {n n' : SyntaxNode} (hn : t.Shows parent n)
    (henc : n.Encloses n') {d : Definition} (hscope : d.scope ≠ .file) (hd : d.StandsFor n')
    (name : String) (level : Json) (e : Option Environment) :
    Legible base ((t.push (t.fresh (.definition d) uri (.str name) level (some parent)
      e)).appendMembers parent [t.nodes.size]) := by
  have hlt : parent < t.nodes.size := by
    obtain ⟨node, _, hnode, _⟩ := hbelow
    exact lt_size hnode
  have hid : ∀ p, some parent = some p → ∃ id, t.id p = .ok id := by
    intro p hp
    cases hp
    exact (h.known hle hlt).2
  obtain ⟨⟨htidy, _⟩, _⟩ :=
    Hierarchy.planted_one e hscope (.str name) level h.tidy hbelow
  apply (h.push d uri name level e hid).appendMembers _ htidy
  · intro m hm
    rw [List.mem_singleton] at hm
    subst hm
    exact ⟨hlt, n, n', hn.push _, t.shows_push hd .., henc⟩
  · rw [size_push]
    exact Nat.lt_succ_of_lt hlt

end NodeTable

namespace Hierarchy
open NodeTable
variable {uri : String} {e : Option Environment} {base : Nat}

mutual
theorem plant_legible : (o : Outline) → o.Inner → ∀ {n parent t}, o.Within n → n.Fits →
    Legible base t → base ≤ parent → t.Shows parent n → Below uri parent t →
    (plant uri e parent o).Ends t (fun _ t' => Legible base t') (fun _ => True)
  | .of s members, ⟨hs, hmembers⟩, n, parent, t, ⟨hcursor, hbody, hwithin⟩, hfits, ht, hle, hn,
      hp => by
    rw [plant, Action.ends_bind]
    refine Action.ends_ofExcept (fun nameRange _ => ?_) trivial
    rw [Action.ends_bind]
    refine Action.ends_ofExcept (fun range _ => ?_) trivial
    rw [Action.ends_bind, Action.ends_get, Action.ends_bind]
    refine Action.ends_ofExcept (fun _ _ => ?_) trivial
    rw [Action.ends_bind]
    refine Action.ends_ofExcept (fun level _ => ?_) trivial
    rw [Action.ends_bind]
    refine ends_insert (fun _ => ?_) trivial
    have hfits' := hfits.of_encloses hcursor
    have hd := Sketch.standsFor hfits' hbody nameRange range
    have hscope : (s.definition nameRange range).scope ≠ .file := hs
    have hadd := ht.add hle hp hn hcursor hscope hd s.name level e
    obtain ⟨hone, hbelow⟩ := planted_one e hscope (.str s.name) level ht.tidy hp
    have hnew := (t.shows_push hd uri (.str s.name) level (some parent) e).appendMembers parent
      [t.nodes.size]
    have hsize : base ≤ t.nodes.size := by
      obtain ⟨_, _, hnode, _⟩ := hp
      exact Nat.le_trans hle (Nat.le_of_lt (lt_size hnode))
    rw [Action.ends_bind, Action.ends_modify, Action.ends_bind]
    exact (plantAll_legible members hmembers hwithin hfits' hadd hsize hnew hbelow).mono
      (fun _ _ h => Action.ends_pure.mpr h) fun _ h => h

theorem plantAll_legible : (os : List Outline) → InnerAll os → ∀ {n parent t}, WithinAll n os →
    n.Fits → Legible base t → base ≤ parent → t.Shows parent n → Below uri parent t →
    (plantAll uri e parent os).Ends t (fun _ t' => Legible base t') (fun _ => True)
  | [], _, n, parent, t, _, _, ht, _, _, _ => by
    rw [plantAll, Action.ends_pure]
    exact ht
  | o :: os, ⟨ho, hos⟩, n, parent, t, ⟨hwithin, hwithins⟩, hfits, ht, hle, hn, hp => by
    rw [plantAll, Action.ends_bind]
    refine ((plant_legible o ho hwithin hfits ht hle hn hp).and
      (plant_planted o ho ht.tidy hp)).mono (fun keys t' h => ?_) fun _ _ => trivial
    obtain ⟨ht', _, hgrown, _⟩ := h
    rw [Action.ends_bind]
    exact (plantAll_legible os hos hwithins hfits ht' hle
      (hn.of_get? fun _ => hgrown.get?) (hp.grown hgrown)).mono
      (fun _ _ h => Action.ends_pure.mpr h) fun _ h => h
end

theorem plantReading_legible {key : NodeKey} {reading : Outline.Reading} {n : SyntaxNode}
    {t : NodeTable} (hinner : InnerAll reading.members) (hwithin : WithinAll n reading.members)
    (hfits : n.Fits) (ht : Legible base t) (hle : base ≤ key) (hn : t.Shows key n)
    (hp : Below uri key t) :
    (plantReading uri e (some key) reading).Ends t (fun _ t' => Legible base t')
      (fun _ => True) := by
  unfold plantReading
  dsimp only
  split
  · exact Action.ends_bind.mpr (Action.ends_pure.mpr (ends_fault ht trivial _))
  · exact absurd ‹some key = none› (by simp)
  · rename_i heq _
    cases heq
    exact Action.ends_bind.mpr ((plantAll_legible _ hinner hwithin hfits ht hle hn hp).mono
      (fun _ _ h => ends_fault h trivial _) fun _ h => h)

/-- A file is planted with the syntax of all that is in it. -/
theorem plantFile_legible (w : Workspace) (l : Option Language)
    (e : Option Environment) {above : Option NodeKey} (file : ProjectFile) (level : Json)
    {t : NodeTable} (ht : t.Tidy) (hp : ∀ p, above = some p → ∃ id, t.id p = .ok id) :
    (plantFile w l e above file level).Ends t
      (fun _ t' => Legible t.nodes.size t') (fun _ => True) := by
  have hstart : Legible t.nodes.size t := by
    refine ⟨ht, fun hle hlt => absurd hlt (Nat.not_lt_of_le hle), ?_⟩
    intro key m hle hm
    rw [members, get?_eq_none.mpr hle] at hm
    cases hm
  rw [plantFile]
  split
  · rw [plantPlainFile, Action.ends_bind]
    refine Action.ends_ofExcept (fun range _ => ?_) trivial
    rw [Action.ends_bind]
    refine ends_insert (fun _ => ?_) trivial
    exact Action.ends_pure.mpr (hstart.push _ file.uri file.name level e hp)
  · rename_i l _
    rw [Action.ends_bind]
    refine Action.ends_ofExcept (fun text _ => ?_) trivial
    dsimp only
    split
    · exact Action.ends_bind.mpr (Action.ends_throw.mpr trivial)
    · rw [Action.ends_bind]
      refine Action.ends_ofExcept (fun range _ => ?_) trivial
      rw [Action.ends_bind]
      refine ends_insert (fun _ => ?_) trivial
      have hfits := w.grammar.parse_fits l file.extension text
      generalize w.grammar.parse l file.extension text = root at hfits ⊢
      let d : Definition :=
        ⟨.file, range, range, .str text, some root, some (.root root), [], []⟩
      have hd : d.StandsFor root :=
        ⟨⟨_, rfl, rfl⟩, hfits, fun b hb => by cases hb; exact .refl⟩
      have hpush := hstart.push d file.uri file.name level e hp
      have hroot := t.shows_push hd file.uri (.str file.name) level above e
      rw [Action.ends_bind]
      exact (plantReading_legible (Outline.read_inner l [] root)
        (Outline.read_within l [] root .refl) hfits hpush (Nat.le_refl _) hroot (below_push t)).mono
        (fun _ _ h => Action.ends_pure.mpr h) fun _ h => h

end Hierarchy
end CodeAtlas
