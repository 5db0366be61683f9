import CodeAtlas.Proofs.Build.Asked
import CodeAtlas.Proofs.Build.Sources
import CodeAtlas.Proofs.Server.Contents
import CodeAtlas.Proofs.Source.Columns

namespace CodeAtlas
open Source Server NodeTable

theorem Text.not_mem_foldNewlines (cs : List Char) : '\r' ∉ foldNewlines cs := by
  fun_induction foldNewlines cs with
  | case1 => simp
  | case2 r ih => simpa using ih
  | case3 c r _ ih =>
    rw [List.mem_cons, not_or]
    refine ⟨?_, ih⟩
    split
    · decide
    · exact fun h => absurd h.symm ‹_›

/-- A text that was read has one kind of line breaks. -/
theorem Hierarchy.not_mem_sourceText {d : Disk} {file : ProjectFile} {text : String}
    (h : sourceText d file = .ok text) : '\r' ∉ text.toList := by
  unfold sourceText at h
  split at h
  · cases h
    simp
  · simp only [Disk.readText, Outcome.bind_eq_ok] at h
    obtain ⟨bytes, -, h⟩ := h
    split at h
    · cases h
      rw [String.toList_ofList]
      exact Text.not_mem_foldNewlines _
    · cases h

theorem Outline.sketch_name {l : Language} {c : Cursor} {s : Sketch} (h : sketch l c = .ok s) :
    ∃ name, c.node.child? "name" = some name ∧ s.nameRange = name.range := by
  simp only [sketch, Outcome.bind_eq_ok, Outcome.pure_eq_ok] at h
  obtain ⟨name, hname, -, -, -, -, rfl⟩ := h
  unfold Language.nameNode at hname
  split at hname
  · rename_i child hchild
    cases hname
    exact ⟨name, hchild, rfl⟩
  · cases hname

/-- Does the name of a definition stand in a text after `before`, where its syntax says and at the
point that the definition keeps for it? -/
structure Definition.NamedAfter (d : Definition) (text before : String) : Prop where
  name : ∃ c name after, d.cursor = some c ∧ c.node.child? "name" = some name ∧
    text = before ++ name.text ++ after ∧ name.start = Spot.zero.after before
  point : d.nameRange.extent.start = .ofPoint (.inBytes before)

/-- The name of a class or function stands in the text that its file is read as. -/
theorem Definition.ReadOff.exists_named {w : Workspace} {file : ProjectFile} {d : Definition}
    (h : d.ReadOff w file) (hscope : d.scope ≠ .file) :
    ∃ l text before, w.Reads file l text ∧ d.NamedAfter text before := by
  cases h with
  | plain _ scope _ _ => exact absurd scope hscope
  | whole _ scope _ _ => exact absurd scope hscope
  | @inner l text c s reads below sketch _ cursor _ nameRange =>
    obtain ⟨name, hname, hrange⟩ := Outline.sketch_name sketch
    have htree := w.grammar.parse_quotes l file.extension text
    have hencloses := below.encloses.trans (SyntaxNode.encloses_of_child? hname)
    obtain ⟨before, after, htext, hstart⟩ := (htree.2.quotes hencloses).trans htree.1
    refine ⟨l, text, before, reads, ⟨c, name, after, cursor, hname, htext, hstart⟩, ?_⟩
    rw [nameRange, hrange, Extent.ofRange, SyntaxNode.range, hstart, Spot.point_after]

/-- There is a server for every language. -/
theorem Language.exists_server {extension : String} {l : Language}
    (h : ofExtension? extension = some l) :
    ∃ name, ServerName.ofExtension extension = .ok name := by
  have hall : ∀ l : Language, ∀ e ∈ l.extensions, (ServerName.ofExtension e).isOk = true := by
    intro l
    cases l <;> decide
  have hmem : extension ∈ l.extensions := by
    simpa using Language.contains_of_ofExtension? h
  have hok := hall l extension hmem
  cases hname : ServerName.ofExtension extension with
  | ok name => exact ⟨name, rfl⟩
  | error fault => simp [hname, Except.isOk, Except.toBool] at hok

/-- What a build says about documents: it tells files, and asks for what refers to the names of
classes and functions. -/
inductive Project.Says (p : Project) (t : NodeTable) (m : Json) : Prop
  | tells {file : ProjectFile} (mem : file ∈ p.files) (tells : Tells p.workspace.disk file m)
  | asks {key : NodeKey} {n : Node} {d : Definition} {point : Point}
      (node : t.get? key = some n) (content : n.content = .definition d)
      (label : n.label = .class_ ∨ n.label = .function)
      (start : d.nameRange.extent.start = .ofPoint point) (asks : Asks n point m)

/-- Servers to which nothing else was said about documents. -/
def Server.Servers.Hear (p : Project) (t : NodeTable) (servers : Servers) : Prop :=
  ∀ x ∈ servers.sent, (Mention.of? x.1 x.2).isSome = true → p.Says t x.2

namespace Server.Servers.Hear
variable {p : Project} {t : NodeTable} {servers servers' : Servers}

theorem of_quiet (h : servers.mentions = []) : servers.Hear p t := by
  intro x hx hmention
  obtain ⟨y, hy⟩ := Option.isSome_iff_exists.mp hmention
  have hmem : y ∈ servers.mentions := List.mem_filterMap.mpr ⟨x, hx, hy⟩
  simp [h] at hmem

theorem more (h : servers.Hear p t)
    (hsent : ∀ x ∈ servers'.sent, x ∈ servers.sent ∨ p.Says t x.2) : servers'.Hear p t :=
  fun x hx hmention => (hsent x hx).elim (fun hold => h x hold hmention) fun hnew => hnew

end Server.Servers.Hear

namespace Node
variable {n : Node} {d : Definition}

theorem label_of_definition (h : n.content = .definition d) : n.label = d.scope.label := by
  rw [label, h]

theorem scope_ne_file (h : n.content = .definition d)
    (hlabel : n.label = .class_ ∨ n.label = .function) : d.scope ≠ .file := by
  intro hscope
  rw [label_of_definition h, hscope] at hlabel
  simp [Scope.label] at hlabel

theorem class_or_function (h : n.content = .definition d) (hlabel : n.label ≠ .file) :
    n.label = .class_ ∨ n.label = .function := by
  rw [label_of_definition h] at hlabel ⊢
  cases hscope : d.scope with
  | file => simp [hscope, Scope.label] at hlabel
  | class_ => exact .inl rfl
  | function => exact .inr rfl

end Node

namespace Builder
variable {p : Project} {b b₁ : Builder}

/-- After its first part a build does no more to the servers than to ask for references. -/
theorem build_servers {I : Servers → Prop}
    (hproject : (addProject p).perform b = (.ok (), b₁))
    (hasked : ∀ {key n d}, b₁.atlas.table.get? key = some n → n.content = .definition d →
      n.label ≠ .file →
      ∀ servers, I servers → I ((Servers.referencesTo n d.nameRange).perform servers).2)
    (h : I b₁.servers) : I ((build p).perform b).2.servers := by
  refine Action.Ends.snd (P := fun b' : Builder => I b'.servers) ?_
  rw [build, Action.ends_bind]
  refine Action.ends_iff.mpr ⟨fun _ b₂ h₂ => ?_, fun fault b₂ h₂ => ?_⟩
  · cases hproject.symm.trans h₂
    rw [Action.ends_bind, print, Action.ends_modify, Action.ends_bind, pause, Action.ends_modify,
      Action.ends_bind, print, Action.ends_modify, Action.ends_bind]
    refine ends_graph ?_
    exact (Action.ends_snd _ _).mono
      (fun _ b' hb' => hb' ▸ addReferences_servers hasked _ rfl h)
      fun b' hb' => hb' ▸ addReferences_servers hasked _ rfl h
  · cases hproject.symm.trans h₂

/-- Whatever becomes of a build, it says nothing else about documents. -/
theorem hear_of_build (hb : b.atlas = {}) (hquiet : b.servers.mentions = [])
    (hproject : (addProject p).perform b = (.ok (), b₁)) :
    ((build p).perform b).2.servers.Hear p b₁.atlas.table := by
  have hsupplies : p.Supplies b₁.atlas.table := supplies_of_addProject hb hproject
  refine build_servers (I := Servers.Hear p b₁.atlas.table) hproject ?_ ?_
  · intro key n d hn hcontent hlabel servers hservers
    have hlabel := Node.class_or_function hcontent hlabel
    obtain ⟨file, -, -, hfrom⟩ := hsupplies hn hcontent
    obtain ⟨_, _, before, _, hnamed⟩ :=
      hfrom.exists_named (Node.scope_ne_file hcontent hlabel)
    refine hservers.more fun x hx => ?_
    exact (Servers.sent_referencesTo n hnamed.point servers x hx).imp_right
      (.asks hn hcontent hlabel hnamed.point)
  · have htold : Action.Preserves (fun b : Builder => b.servers.Hear p b₁.atlas.table)
        (addProject p) := by
      refine preserves_addProject_servers fun f hf file hfile servers hservers => ?_
      refine hservers.more fun x hx => ?_
      exact (Servers.sent_announce _ file servers x hx).imp_right
        (.tells (List.mem_flatMap.mpr ⟨f, hf, hfile⟩))
    have hheard := htold b (.of_quiet hquiet)
    rw [hproject] at hheard
    exact hheard

/-- All files are told. -/
theorem told_of_build (hproject : (addProject p).perform b = (.ok (), b₁)) :
    ((build p).perform b).2.servers.Told p.files := by
  refine build_servers (I := Servers.Told p.files) hproject ?_
    ((ends_addProject_told p b).of_ok hproject)
  intro key n d _ _ _ servers hservers
  exact hservers.adds (Servers.ends_referencesTo n d.nameRange servers).snd

end Builder

/-- A file is told as the text that it is read as. -/
theorem Server.Tells.text_eq {p : Project} {file file' : ProjectFile} {l : Language}
    {text : String} {m : Json} (h : Tells p.workspace.disk file' m)
    (hreads : p.workspace.Reads file l text) (hsubject : subjectOf m = some file.uri) :
    textOf m = some text := by
  obtain ⟨text', language, htext, rfl⟩ := h
  have huri : file'.uri = file.uri := Option.some.inj hsubject
  have hpath : file'.path = file.path := Path.toUri_injective huri
  rw [hpath] at htext
  have heq : text' = text := Except.ok.inj (htext.symm.trans hreads.text)
  rw [← heq]
  rfl

/-- Every question for references that a build sends about a document is at the point of the name of
a class or function there. The name stands in the text that was told as the document's, and its
point is the line and the number of bytes before the name on it. That is the line and the number of
UTF-16 code units exactly if all characters before the name on its line are ASCII. -/
theorem names_asked_for_by_bytes {p : Project} {b b₁ : Builder} (hb : b.atlas = {})
    (hquiet : b.servers.mentions = [])
    (hproject : (Builder.addProject p).perform b = (.ok (), b₁)) :
    let said := ((Builder.build p).perform b).2.servers.sent
    (∀ x ∈ said, methodOf x.2 = some "textDocument/references" →
      ∀ uri, subjectOf x.2 = some uri → ∃ key n d point,
        b₁.atlas.table.get? key = some n ∧ n.content = .definition d ∧ n.path = uri ∧
        (n.label = .class_ ∨ n.label = .function) ∧
        d.nameRange.extent.start = .ofPoint point ∧ pointOf x.2 = some point) ∧
    ∀ {key n d}, b₁.atlas.table.get? key = some n → n.content = .definition d →
      (n.label = .class_ ∨ n.label = .function) →
      ∃ text before, d.NamedAfter text before ∧ '\r' ∉ text.toList ∧
        (∃ x ∈ said, methodOf x.2 = some "textDocument/didOpen" ∧ subjectOf x.2 = some n.path) ∧
        (∀ x ∈ said, methodOf x.2 = some "textDocument/didOpen" → subjectOf x.2 = some n.path →
          textOf x.2 = some text) ∧
        (d.nameRange.extent.start = .ofPoint (.inUnits before) ↔
          ∀ c ∈ Text.lastLine before, c.toNat < 0x80) := by
  intro said
  have hhear : ∀ x ∈ said, (Mention.of? x.1 x.2).isSome = true → p.Says b₁.atlas.table x.2 :=
    Builder.hear_of_build hb hquiet hproject
  have hmention : ∀ {x : ServerName × Json} {method uri : String}, methodOf x.2 = some method →
      subjectOf x.2 = some uri → (Mention.of? x.1 x.2).isSome = true := by
    intro x method uri hmethod hsubject
    have hx : Mention.of? x.1 x.2 = some ⟨x.1, method, uri⟩ :=
      Mention.of?_eq_some.mpr ⟨rfl, hmethod, hsubject⟩
    rw [hx]
    rfl
  constructor
  · intro x hx hmethod uri hsubject
    cases hhear x hx (hmention hmethod hsubject) with
    | tells _ tells =>
      obtain ⟨text, language, -, heq⟩ := tells
      rw [heq] at hmethod
      exact absurd (Option.some.inj hmethod) (by decide)
    | @asks key n d point node content label start asks =>
      have hpath : n.path = uri := Option.some.inj (asks.subject.symm.trans hsubject)
      exact ⟨key, n, d, point, node, content, hpath, label, start, asks.point⟩
  · intro key n d hn hcontent hlabel
    obtain ⟨file, hfile, hpath, hfrom⟩ := Builder.supplies_of_addProject hb hproject hn hcontent
    obtain ⟨l, text, before, hreads, hnamed⟩ :=
      hfrom.exists_named (Node.scope_ne_file hcontent hlabel)
    refine ⟨text, before, hnamed, Hierarchy.not_mem_sourceText hreads.text, ?_, ?_, ?_⟩
    · obtain ⟨name, hname⟩ := Language.exists_server hreads.language
      have htold := Builder.told_of_build hproject file hfile name hname
      obtain ⟨x, hx, hopening⟩ := List.mem_filterMap.mp htold
      obtain ⟨-, hmethod, hsubject⟩ := Mention.of?_eq_some.mp hopening
      exact ⟨x, hx, hmethod, hsubject.trans (congrArg some hpath.symm)⟩
    · intro x hx hmethod hsubject
      cases hhear x hx (hmention hmethod hsubject) with
      | tells _ tells => exact tells.text_eq hreads (hpath ▸ hsubject)
      | asks _ _ _ _ asks =>
        exact absurd (Option.some.inj (asks.method.symm.trans hmethod)) (by decide)
    · rw [hnamed.point, ← Point.inBytes_eq_inUnits]
      exact Mark.ofPoint_inj

namespace Remarked

/-- A function with a remark before it on its line. -/
def source (remark : String) : Piece :=
  .node "program" none true [.node "comment" none true [.text remark], .text " ",
    .node "function_declaration" none true [.text "function ",
      .node "identifier" (some "name") true [.text "f"],
      .node "formal_parameters" (some "parameters") true [.text "()"], .text " ",
      .node "statement_block" (some "body") true [.text "\x7b\x7d"]]]

def project (remark : String) : Project where
  workspace :=
    { disk := ({} : Disk).addFile "/r/a.js" (TwoFiles.blob (source remark))
      grammar := .ofPieces [source remark] }
  rules := { root := .str "/r" }
  environment := some ⟨.str "dev", .str "main", .str "/r"⟩

def created (remark : String) : Except Fault Unit × Builder :=
  (Builder.addProject (project remark)).perform (TwoFiles.start 0)

def said (remark : String) : List (ServerName × Json) :=
  ((Builder.build (project remark)).perform (TwoFiles.start 0)).2.servers.sent

end Remarked

/-- A remark in ASCII does not move the name for the server. -/
theorem Remarked.asked_at_the_name : ∃ b₁ n d before, created "/*e*/" = (.ok (), b₁) ∧
    b₁.atlas.table.get? 2 = some n ∧ n.content = .definition d ∧ n.label = .function ∧
    d.NamedAfter "/*e*/ function f() {}" before ∧
    d.nameRange.extent.start = .ofPoint (.inUnits before) := by
  have hrun : (created "/*e*/").1.isOk = true ∧
      ((created "/*e*/").2.atlas.table.definition 2).toOption.map Definition.scope =
        some .function ∧
      (TwoFiles.start 0).servers.mentions = [] ∧
      ∀ x ∈ said "/*e*/", methodOf x.2 = some "textDocument/didOpen" →
        textOf x.2 = some "/*e*/ function f() {}" := by
    decide +kernel
  obtain ⟨hok, hscope, hquiet, htext⟩ := hrun
  obtain ⟨b₁, hb₁⟩ := Action.exists_of_isOk hok
  have heq : (created "/*e*/").2 = b₁ := congrArg Prod.snd hb₁
  rw [heq] at hscope
  obtain ⟨d, hd, hscope⟩ := Option.map_eq_some_iff.mp hscope
  obtain ⟨n, hn, hcontent⟩ := definition_eq_ok.mp (Outcome.eq_ok_of_toOption hd)
  have hlabel : n.label = .function := by
    rw [Node.label_of_definition hcontent, hscope]
    rfl
  obtain ⟨text, before, hnamed, -, ⟨x, hx, hmethod, hsubject⟩, htold, hunits⟩ :=
    (names_asked_for_by_bytes rfl hquiet hb₁).2 hn hcontent (.inr hlabel)
  obtain rfl : "/*e*/ function f() {}" = text :=
    Option.some.inj ((htext x hx hmethod).symm.trans (htold x hx hmethod hsubject))
  refine ⟨b₁, n, d, before, hb₁, hn, hcontent, hlabel, hnamed, hunits.mpr fun c hc => ?_⟩
  -- what is before the name is part of the text, which is ASCII
  obtain ⟨-, name, after, -, -, hsplit, -⟩ := hnamed.name
  have hmem : c ∈ "/*e*/ function f() {}".toList := by
    rw [hsplit, String.toList_append, String.toList_append, List.mem_append, List.mem_append]
    exact .inl (.inl ((List.rtakeWhile_suffix _ _).subset hc))
  have hascii : "/*e*/ function f() {}".toList.all (fun c => c.toNat < 0x80) = true := by decide
  exact of_decide_eq_true (List.all_eq_true.mp hascii c hmem)

/-- The name after `/*é*/ function ` is asked for one unit too far to the right. -/
theorem Remarked.asked_past_the_name :
    (∃ x ∈ said "/*é*/", methodOf x.2 = some "textDocument/didOpen" ∧
      subjectOf x.2 = some "file:///r/a.js" ∧
      textOf x.2 = some ("/*é*/ function " ++ "f" ++ "() {}")) ∧
    (∃ x ∈ said "/*é*/", methodOf x.2 = some "textDocument/references" ∧
      subjectOf x.2 = some "file:///r/a.js") ∧
    (∀ x ∈ said "/*é*/", methodOf x.2 = some "textDocument/references" →
      pointOf x.2 = some ⟨0, 16⟩) ∧
    Point.inUnits "/*é*/ function " = ⟨0, 15⟩ := by
  decide +kernel

end CodeAtlas
