import CodeAtlas.Proofs.Build.Processing
import CodeAtlas.Proofs.Outline.Attribution
import CodeAtlas.Proofs.Source.Quotes

namespace CodeAtlas
open Source NodeTable

/-- The trees of the code of a project quote the nodes around them. -/
theorem Project.Supplies.faithful {p : Project} {t : NodeTable} (h : p.Supplies t)
    {key : NodeKey} {d : Definition} (hd : t.definition key = .ok d) {c : Cursor}
    (hc : d.cursor = some c) :
    ∃ tree, tree.Faithful ∧ (Cursor.root tree).LeadsTo c := by
  obtain ⟨n, hn, hcontent⟩ := definition_eq_ok.mp hd
  obtain ⟨file, -, -, hfrom⟩ := h hn hcontent
  obtain ⟨l, text, -, hbelow, -⟩ := hfrom.exists_tree hc
  refine ⟨_, ?_, hbelow⟩
  exact (p.workspace.grammar.parse_quotes _ _ _).2

namespace References
variable {l : Language} {t : NodeTable} {g : Graph} {key user : NodeKey} {n : Node}
  {d : Definition} {place : Place} {c at_ : Cursor} {type : RelationType} {scope : SyntaxNode}

/-- The node that shows a use is the nearest around it that the language classifies. -/
theorem usageAt_scope (hn : t.node key = .ok n) (hd : t.definition user = .ok d)
    (hc : d.cursor = some c) (hlocate : c.locate place.extent = .ok at_)
    (h : usageAt (some l) t key place.extent user = .ok ⟨type, some scope⟩) :
    Reached (fun x => l.classify n.label x = .ok none) at_.chain scope ∧
      l.classify n.label scope = .ok (some type) := by
  rw [usageAt_eq hn hd hc hlocate, Outcome.map_eq_ok] at h
  obtain ⟨found, hfound, heq⟩ := h
  cases found with
  | none => cases heq
  | some usage =>
    obtain rfl : usage = ⟨type, some scope⟩ := heq
    rw [Language.usage?_eq_nearest] at hfound
    obtain ⟨x, hreached, hclassify, hscope⟩ := Language.nearest_eq_some.mp hfound
    cases hscope
    exact ⟨hreached, hclassify⟩

theorem relationshipAt_of_usage {l : Option Language} {usage : Language.Usage} {own other : String}
    (h : Attributed t g key place user) (hown : t.id key = .ok own) (hother : t.id user = .ok other)
    (husage : usageAt l t key place.extent user = .ok usage) :
    relationshipAt l t g key place =
      .ok (some ⟨user, key, usage.type, .str ((usage.scope.map SyntaxNode.text).getD "")⟩) := by
  obtain ⟨file, hfile, hsearch⟩ := h.found
  have hne : own ≠ other := by
    intro heq
    apply h.other
    rw [hown, hother, heq]
  simp [relationshipAt, hfile, hsearch, hown, hother, hne, husage, bind, Except.bind, pure,
    Except.pure]

end References

/-- Where a language classifies the use of a definition in another one, the node that shows the use
is part of the user exactly if some node from the reference up to the user's own is classified. Its
words are then words of the user; otherwise it is above the user, and the words of the user are some
of its own. A reference that is attributed to the user is made a relationship with its words. -/
theorem scope_inside_iff_classified_inside {p : Project} (hdisk : p.workspace.disk.Proper)
    {b b' : Builder} (hb : b.atlas = {})
    (hproject : (Builder.addProject p).perform b = (.ok (), b'))
    {l : Language} {key user : NodeKey} {n : Node} {d : Definition} {c : Cursor} {place : Place}
    {r : Range} {type : RelationType} {scope : SyntaxNode}
    (hn : b'.atlas.table.get? key = some n) (hd : b'.atlas.table.definition user = .ok d)
    (hc : d.cursor = some c) (hplace : place.extent = .ofRange r)
    (husage : References.usageAt (some l) b'.atlas.table key place.extent user =
      .ok ⟨type, some scope⟩) :
    (∃ at_ way, c.locate place.extent = .ok at_ ∧ at_.chain = way ++ c.above ∧
      (∀ x ∈ way, c.node.Encloses x) ∧
      (c.node.Encloses scope ↔ ∃ x ∈ way, ∃ other, l.classify n.label x = .ok (some other)) ∧
      (c.node.Encloses scope → scope.Quotes c.node.start c.node.text) ∧
      (¬c.node.Encloses scope → scope ∈ c.above ∧ c.node.Quotes scope.start scope.text)) ∧
    (References.Attributed b'.atlas.table b'.atlas.graph key place user →
      References.relationshipAt (some l) b'.atlas.table b'.atlas.graph key place =
        .ok (some ⟨user, key, type, .str scope.text⟩)) := by
  have hdrawn := Builder.drawn_of_addProject hdisk hb hproject
  have hsupplies : p.Supplies b'.atlas.table := Builder.supplies_of_addProject hb hproject
  obtain ⟨tree, htree, hbelow⟩ := Project.Supplies.faithful hsupplies hd hc
  obtain ⟨m, hm, -⟩ := definition_eq_ok.mp hd
  refine ⟨?_, fun huser => References.relationshipAt_of_usage huser (hdrawn.sound.id_eq hn)
    (hdrawn.sound.id_eq hm) husage⟩
  obtain ⟨at_, hlocate⟩ := c.exists_locate r
  rw [← hplace] at hlocate
  obtain ⟨hreached, hclassified⟩ :=
    References.usageAt_scope (node_eq_ok.mpr hn) hd hc hlocate husage
  obtain ⟨way, hway, hinside⟩ := (Cursor.locate_leadsTo hlocate).exists_way
  rw [hway] at hreached
  have hsplit : scope ∈ way ∨ scope ∈ c.above := List.mem_append.mp hreached.mem
  refine ⟨at_, way, hlocate, hway, hinside, ⟨?_, ?_⟩, ?_, ?_⟩
  · intro hencloses
    have hnot : scope ∉ c.above := fun habove =>
      Cursor.not_encloses_of_mem_above hbelow habove hencloses
    exact ⟨scope, hsplit.resolve_right hnot, type, hclassified⟩
  · rintro ⟨x, hx, other, hother⟩
    apply hinside scope
    apply hreached.mem_left hx
    rw [hother]
    simp
  · intro hencloses
    exact (htree.of_encloses hbelow.encloses).quotes hencloses
  · intro houtside
    have habove := hsplit.resolve_left fun hmem => houtside (hinside scope hmem)
    obtain ⟨hscope, hnode⟩ := hbelow.encloses_of_mem_above habove
    exact ⟨habove, (htree.of_encloses hscope).quotes hnode⟩

namespace PassedMethod

def source (body : Piece) : Piece :=
  .node "program" none true [.node "expression_statement" none true [
    .node "call_expression" none true [.node "identifier" (some "function") true [.text "run"],
      .node "arguments" (some "arguments") true [.text "(", .node "object" none true [.text "\x7b ",
        .node "method_definition" none true [
          .node "property_identifier" (some "name") true [.text "k"],
          .node "formal_parameters" (some "parameters") true [.text "()"], .text " ",
          .node "statement_block" (some "body") true [.text "\x7b ", body, .text " \x7d"]],
        .text " \x7d"], .text ")"]]]]

def naming : Piece :=
  .node "expression_statement" none true [.node "identifier" none true [.text "m"]]

def calling : Piece :=
  .node "expression_statement" none true [.node "call_expression" none true [TwoFiles.plain,
    .node "arguments" (some "arguments") true [.text "()"]]]

def project (body : Piece) : Project :=
  OneUser.projectWith "/r/b.js" (source body)

def created (body : Piece) : Except Fault Unit × Builder :=
  (Builder.addProject (project body)).perform (TwoFiles.start 12)

def used : Range :=
  ⟨⟨0, 12⟩, ⟨0, 13⟩⟩

def use : Place :=
  ⟨.ofRange used, "file:///r/b.js"⟩

/-- The name is found in the method, which has the words `text`, and the words `shown` show a call
of the function. -/
structure Finds (b : Builder) (text shown : String) (n : Node) (d : Definition) (c : Cursor)
    (scope : SyntaxNode) : Prop where
  node : b.atlas.table.get? 2 = some n
  attributed : References.Attributed b.atlas.table b.atlas.graph 2 use 4
  definition : b.atlas.table.definition 4 = .ok d
  cursor : d.cursor = some c
  text : c.node.text = text
  holds : c.node.range.Holds used
  usage : References.usageAt (some .javascript) b.atlas.table 2 use.extent 4 =
    .ok ⟨.calls, some scope⟩
  shown : scope.text = shown

/-- The words of the method, whether it holds the name, how the function is used there, and the
words that show it. -/
def view (b : Builder) : Option (String × Bool × RelationType × Option String) := do
  let d ← (b.atlas.table.definition 4).toOption
  let c ← d.cursor
  let usage ← (References.usageAt (some .javascript) b.atlas.table 2 use.extent 4).toOption
  pure (c.node.text, c.node.range.Holds used, usage.type, usage.scope.map SyntaxNode.text)

theorem exists_finds (body : Piece) (text shown : String)
    (h : (created body).1.isOk = true ∧ ((created body).2.atlas.table.get? 2).isSome = true ∧
      (created body).2.atlas.graph.fileAt? use.uri = some 3 ∧
      ((created body).2.atlas.table.referenceSearch use.extent 3).toOption = some 4 ∧
      ((created body).2.atlas.table.id 2).toOption ≠
        ((created body).2.atlas.table.id 4).toOption ∧
      view (created body).2 = some (text, true, .calls, some shown)) :
    ∃ b' n d c scope, created body = (.ok (), b') ∧ Finds b' text shown n d c scope := by
  obtain ⟨hok, hnode, hfile, hsearch, hother, hview⟩ := h
  obtain ⟨b', hb'⟩ := Action.exists_of_isOk hok
  have heq : (created body).2 = b' := congrArg Prod.snd hb'
  rw [heq] at hnode hfile hsearch hother hview
  obtain ⟨n, hn⟩ := Option.isSome_iff_exists.mp hnode
  obtain ⟨d, hd, hview⟩ := Option.bind_eq_some_iff.mp hview
  obtain ⟨c, hc, hview⟩ := Option.bind_eq_some_iff.mp hview
  obtain ⟨⟨type, scope?⟩, husage, hview⟩ := Option.bind_eq_some_iff.mp hview
  simp only [Option.pure_def, Option.some.injEq, Prod.mk.injEq, decide_eq_true_eq,
    Option.map_eq_some_iff] at hview
  obtain ⟨htext, hholds, rfl, scope, rfl, hshown⟩ := hview
  have hne : b'.atlas.table.id 2 ≠ b'.atlas.table.id 4 := fun heq => hother (by rw [heq])
  exact ⟨b', n, d, c, scope, hb', hn, ⟨⟨3, hfile, Outcome.eq_ok_of_toOption hsearch⟩, hne⟩,
    Outcome.eq_ok_of_toOption hd, hc, htext, hholds, Outcome.eq_ok_of_toOption husage, hshown⟩

end PassedMethod

open PassedMethod in
/-- The call in the method shows that the function is called. -/
theorem PassedMethod.call_shown_inside : ∃ b' n d c scope, created calling = (.ok (), b') ∧
    Finds b' "k() { m() }" "m()" n d c scope ∧ c.node.Encloses scope ∧
    References.relationshipAt (some .javascript) b'.atlas.table b'.atlas.graph 2 use =
      .ok (some ⟨4, 2, .calls, .str "m()"⟩) := by
  obtain ⟨b', n, d, c, scope, hb', hfinds⟩ :=
    exists_finds calling "k() { m() }" "m()" (by decide +kernel)
  obtain ⟨⟨-, -, -, -, -, -, -, houtside⟩, hrelationship⟩ := scope_inside_iff_classified_inside
    (OneUser.proper_disk _ _) rfl hb' hfinds.node hfinds.definition hfinds.cursor rfl
    hfinds.usage
  have hrelationship := hrelationship hfinds.attributed
  rw [hfinds.shown] at hrelationship
  refine ⟨b', n, d, c, scope, hb', hfinds, ?_, hrelationship⟩
  -- otherwise the words of the method would be some of those of the call
  by_contra hnot
  have hlength := (houtside hnot).2.length_le
  rw [hfinds.text, hfinds.shown] at hlength
  exact absurd hlength (by decide)

open PassedMethod in
/-- Where the method names the function only, the call around the method shows a call. -/
theorem PassedMethod.name_shown_outside : ∃ b' n d c scope, created naming = (.ok (), b') ∧
    Finds b' "k() { m }" "run({ k() { m } })" n d c scope ∧ ¬c.node.Encloses scope := by
  obtain ⟨b', n, d, c, scope, hb', hfinds⟩ :=
    exists_finds naming "k() { m }" "run({ k() { m } })" (by decide +kernel)
  refine ⟨b', n, d, c, scope, hb', hfinds, fun hencloses => ?_⟩
  obtain ⟨tree, htree, hbelow⟩ := Project.Supplies.faithful
    (Builder.supplies_of_addProject rfl hb') hfinds.definition hfinds.cursor
  have hlength := ((htree.of_encloses hbelow.encloses).quotes hencloses).length_le
  rw [hfinds.text, hfinds.shown] at hlength
  exact absurd hlength (by decide)

end CodeAtlas
