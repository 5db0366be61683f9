import CodeAtlas.Proofs.Build.Mark
import CodeAtlas.Proofs.Build.Sources
import CodeAtlas.Proofs.Build.Update
import CodeAtlas.Proofs.Language.Usage

namespace CodeAtlas
open Source NodeTable

theorem Extent.exists_holdsLines (r r' : Range) :
    ∃ answer, (Extent.ofRange r).holdsLines (.ofRange r') = .ok answer := by
  simp only [Extent.holdsLines, Extent.ofRange, Mark.ofPoint, Json.le_int, bind, Except.bind]
  split <;> exact ⟨_, rfl⟩

namespace NodeTable
variable {t : NodeTable} {key : NodeKey} {r : Range}

/-- Members are definitions after the one that they belong to, and stand between whole numbers. -/
structure Searchable (t : NodeTable) : Prop where
  member : ∀ {key d m}, t.definition key = .ok d → m ∈ t.members key →
    key < m ∧ ∃ d' r, t.definition m = .ok d' ∧ d'.range.extent = .ofRange r

theorem exists_searchAmong {inside : NodeKey → Except Fault NodeKey} {ms : List NodeKey}
    (hms : ∀ m ∈ ms, ∃ d r, t.definition m = .ok d ∧ d.range.extent = .ofRange r)
    (hinside : ∀ m ∈ ms, ∃ user, inside m = .ok user) :
    ∃ user, t.searchAmong (.ofRange r) inside key ms = .ok user := by
  induction ms with
  | nil => exact ⟨key, rfl⟩
  | cons m ms ih =>
    obtain ⟨⟨d, r', hd, hextent⟩, hms⟩ := List.forall_mem_cons.mp hms
    obtain ⟨hm, hinside⟩ := List.forall_mem_cons.mp hinside
    obtain ⟨holds, hholds⟩ := Extent.exists_holdsLines r' r
    simp only [searchAmong, hd, hextent, hholds, bind, Except.bind]
    split
    · exact hm
    · simp only [Extent.ofRange, Mark.ofPoint, Json.lt_int]
      split
      · exact ⟨key, rfl⟩
      · exact ih hms hinside

/-- Each step of a search goes to a later key, so there is an end to it. -/
theorem Searchable.exists_searchFrom (h : t.Searchable) (r : Range) (depth : Nat) {d : Definition}
    (hd : t.definition key = .ok d) (hdepth : t.nodes.size < key + depth) :
    ∃ user, t.searchFrom (.ofRange r) depth key = .ok user := by
  induction depth generalizing key d with
  | zero =>
    obtain ⟨n, hn, -⟩ := definition_eq_ok.mp hd
    exact absurd (lt_size hn) (Nat.not_lt_of_lt hdepth)
  | succ depth ih =>
    apply exists_searchAmong
    · intro m hm
      exact (h.member hd hm).2
    · intro m hm
      obtain ⟨hlt, d', -, hd', -⟩ := h.member hd hm
      apply ih hd'
      have hstep : key + (depth + 1) ≤ m + depth := by
        rw [Nat.add_comm depth 1, ← Nat.add_assoc]
        exact Nat.add_le_add_right hlt depth
      exact Nat.lt_of_lt_of_le hdepth hstep

end NodeTable

section Drawn
variable {p : Project} {e : Option Environment} {a : Atlas}

theorem Atlas.Drawn.searchable (h : a.Drawn e) (hs : p.Supplies a.table) : a.table.Searchable := by
  refine ⟨fun {key d m} hd hm => ?_⟩
  obtain ⟨n, hn, hcontent⟩ := definition_eq_ok.mp hd
  obtain ⟨member, hmember, hparent⟩ := (h.sound.members.mp hm).1
  cases h.sound.lineage hmember with
  | top _ parent _ => cases hparent.symm.trans parent
  | entry above _ folder _ parent _ =>
    cases hparent.symm.trans parent
    cases above.symm.trans hn
    cases folder.symm.trans hcontent
  | @inner _ _ d' _ above before _ _ content _ parent _ =>
    cases hparent.symm.trans parent
    obtain ⟨file, -, -, hfrom⟩ := hs hmember content
    obtain ⟨r, hr⟩ := hfrom.exists_range
    exact ⟨before, d', r, definition_eq_ok.mpr ⟨member, hmember, content⟩, hr⟩

/-- A search in a file of the graph does not leave the file. -/
theorem Atlas.Drawn.definedAt (h : a.Drawn e) {uri : String} {file user : NodeKey} {x : Extent}
    (hfile : a.graph.fileAt? uri = some file)
    (hsearch : a.table.referenceSearch x file = .ok user) :
    a.table.DefinedAt uri user := by
  obtain ⟨n, d, hn, hcontent, -, hpath⟩ := h.file_at hfile
  obtain ⟨-, -, hsearch⟩ := Outcome.bind_eq_ok.mp hsearch
  exact h.sound.tidy.searchFrom_definedAt ⟨n, d, hn, hcontent, hpath⟩ hsearch

theorem Atlas.Drawn.exists_search (h : a.Drawn e) (hs : p.Supplies a.table) {uri : String}
    {file : NodeKey} (hfile : a.graph.fileAt? uri = some file) (r : Range) :
    ∃ user, a.table.referenceSearch (.ofRange r) file = .ok user := by
  obtain ⟨n, d, hn, hcontent, -, -⟩ := h.file_at hfile
  have hd := definition_eq_ok.mpr ⟨n, hn, hcontent⟩
  have hdepth : a.table.nodes.size < file + a.table.depth :=
    Nat.lt_of_lt_of_le (Nat.lt_succ_self _) (Nat.le_add_left _ _)
  obtain ⟨user, hsearch⟩ := (h.searchable hs).exists_searchFrom r _ hd hdepth
  refine ⟨user, ?_⟩
  rw [referenceSearch, hd]
  exact hsearch

end Drawn

namespace References
variable {l : Option Language} {t : NodeTable} {g : Graph} {key user : NodeKey} {n : Node}
  {d : Definition} {place : Place} {r : Range} {fault : Fault}

/-- Is a place attributed to a definition, and that not the one that it refers to? -/
structure Attributed (t : NodeTable) (g : Graph) (key : NodeKey) (place : Place)
    (user : NodeKey) : Prop where
  found : ∃ file, g.fileAt? place.uri = some file ∧
    t.referenceSearch place.extent file = .ok user
  other : t.id key ≠ t.id user

/-- A place that cannot be made a relationship: the definition that it is attributed to has no
syntax tree, or around it stands a call that Ruby cannot tell, before anything that means
something. -/
inductive Stumbles (l : Option Language) (t : NodeTable) (g : Graph) (key : NodeKey)
    (place : Place) : Fault → Prop where
  | treeless {user : NodeKey} {d : Definition} (attributed : Attributed t g key place user)
      (definition : t.definition user = .ok d) (cursor : d.cursor = none) :
      Stumbles l t g key place .noSyntaxTree
  | obscure {user : NodeKey} {d : Definition} {n : Node} {c c' : Cursor} {x : SyntaxNode}
      (attributed : Attributed t g key place user) (definition : t.definition user = .ok d)
      (cursor : d.cursor = some c) (located : c.locate place.extent = .ok c')
      (node : t.node key = .ok n) (ruby : l = some .ruby)
      (reached : Reached (fun m => ∀ type, ¬Language.ruby.Means n.label m type) c'.chain x)
      (call : Language.ruby.Obscure n.label x) :
      Stumbles l t g key place .callWithoutMethod

theorem usageAt_of_treeless (hd : t.definition user = .ok d) (hc : d.cursor = none) (e : Extent) :
    usageAt l t key e user = .error .noSyntaxTree := by
  simp [usageAt, hd, hc, bind, Except.bind]

theorem usageAt_of_none (hn : t.node key = .ok n) (hd : t.definition user = .ok d) {c c' : Cursor}
    (hc : d.cursor = some c) {e : Extent} (hlocate : c.locate e = .ok c') :
    usageAt none t key e user = .ok ⟨.uses, none⟩ := by
  simp [usageAt, hd, hc, hn, hlocate, bind, Except.bind, pure, Except.pure]

theorem relationshipAt_eq_error {file : NodeKey} (hfile : g.fileAt? place.uri = some file)
    (hsearch : t.referenceSearch place.extent file = .ok user) {own other : String}
    (hown : t.id key = .ok own) (hother : t.id user = .ok other) :
    relationshipAt l t g key place = .error fault ↔
      own ≠ other ∧ usageAt l t key place.extent user = .error fault := by
  simp only [relationshipAt, hfile, hsearch, hown, hother, bind, Except.bind, beq_iff_eq]
  split
  · rename_i heq
    simp [heq, pure, Except.pure]
  · rename_i hne
    cases usageAt l t key place.extent user <;> simp [hne, pure, Except.pure]

/-- Telling the use at a place comes to a fault only where there is no syntax tree, or a call
without a method in Ruby. -/
theorem usageAt_eq_error (hn : t.node key = .ok n)
    (hlabel : n.label = .class_ ∨ n.label = .function) (hd : t.definition user = .ok d) :
    usageAt l t key (.ofRange r) user = .error fault ↔
      fault = .noSyntaxTree ∧ d.cursor = none ∨
      fault = .callWithoutMethod ∧ l = some .ruby ∧ ∃ c c' x, d.cursor = some c ∧
        c.locate (.ofRange r) = .ok c' ∧
        Reached (fun m => ∀ type, ¬Language.ruby.Means n.label m type) c'.chain x ∧
        Language.ruby.Obscure n.label x := by
  cases hc : d.cursor with
  | none => simp [usageAt_of_treeless hd hc, eq_comm]
  | some c =>
    obtain ⟨c', hlocate⟩ := c.exists_locate r
    cases l with
    | none => simp [usageAt_of_none hn hd hc hlocate]
    | some l =>
      have herror : usageAt (some l) t key (.ofRange r) user = .error fault ↔
          l.usage? n.label c'.chain = .error fault := by
        rw [usageAt_eq hn hd hc hlocate]
        cases l.usage? n.label c'.chain <;> simp [Functor.map, Except.map]
      rw [herror, Language.usage?_eq_error hlabel]
      constructor
      · rintro ⟨rfl, x, hreached, hobscure⟩
        obtain rfl := hobscure.ruby
        exact .inr ⟨rfl, rfl, c, c', x, rfl, hlocate, hreached, hobscure⟩
      · rintro (⟨-, hnone⟩ | ⟨rfl, hl, c₁, c₂, x, hsome, hlocate', hreached, hobscure⟩)
        · cases hnone
        · cases hl
          cases hsome
          cases hlocate.symm.trans hlocate'
          exact ⟨rfl, x, hreached, hobscure⟩

/-- A place comes to a fault exactly if it stumbles. -/
theorem relationshipAt_stumbles {p : Project} {e : Option Environment} {a : Atlas}
    (h : a.Drawn e) (hs : p.Supplies a.table) (hn : a.table.get? key = some n)
    (hlabel : n.label = .class_ ∨ n.label = .function) (hplace : place.extent = .ofRange r) :
    relationshipAt l a.table a.graph key place = .error fault ↔
      Stumbles l a.table a.graph key place fault := by
  cases hfile : a.graph.fileAt? place.uri with
  | none =>
    have hnone : relationshipAt l a.table a.graph key place = .ok none := by
      rw [relationshipAt, hfile]
      rfl
    rw [hnone]
    refine ⟨fun h => (by cases h), fun h => ?_⟩
    cases h with
    | treeless attributed _ _ | obscure attributed _ _ _ _ _ _ _ =>
      obtain ⟨file, hsome, -⟩ := attributed.found
      cases hfile.symm.trans hsome
  | some file =>
    obtain ⟨user, hsearch⟩ := h.exists_search hs hfile r
    rw [← hplace] at hsearch
    obtain ⟨n', d, hn', hcontent, -⟩ := h.definedAt hfile hsearch
    have hd := definition_eq_ok.mpr ⟨n', hn', hcontent⟩
    have hnode := node_eq_ok.mpr hn
    have hown := h.sound.id_eq hn
    have hother := h.sound.id_eq hn'
    rw [relationshipAt_eq_error hfile hsearch hown hother, hplace, usageAt_eq_error hnode hlabel hd]
    have huser : ∀ {user'}, Attributed a.table a.graph key place user' → user' = user := by
      intro user' hattributed
      obtain ⟨file', hfile', hsearch'⟩ := hattributed.found
      cases hfile.symm.trans hfile'
      exact Except.ok.inj (hsearch'.symm.trans hsearch)
    constructor
    · rintro ⟨hne, hcases⟩
      have hattributed : Attributed a.table a.graph key place user := by
        refine ⟨⟨file, hfile, hsearch⟩, fun heq => hne ?_⟩
        rw [hown, hother] at heq
        exact Except.ok.inj heq
      rcases hcases with ⟨rfl, hc⟩ | ⟨rfl, hl, c, c', x, hc, hlocate, hreached, hobscure⟩
      · exact .treeless hattributed hd hc
      · exact .obscure hattributed hd hc (hplace ▸ hlocate) hnode hl hreached hobscure
    · intro hstumbles
      cases hstumbles with
      | treeless attributed definition cursor =>
        obtain rfl := huser attributed
        cases hd.symm.trans definition
        refine ⟨fun heq => attributed.other ?_, .inl ⟨rfl, cursor⟩⟩
        rw [hown, hother, heq]
      | obscure attributed definition cursor located node ruby reached call =>
        obtain rfl := huser attributed
        cases hd.symm.trans definition
        cases hnode.symm.trans node
        refine ⟨fun heq => attributed.other ?_,
          .inr ⟨rfl, ruby, _, _, _, cursor, hplace ▸ located, reached, call⟩⟩
        rw [hown, hother, heq]

theorem relationshipsTo_eq_error {places : List Place} :
    relationshipsTo l t g key places = .error fault ↔
      places.mapM (relationshipAt l t g key) = .error fault := by
  rw [relationshipsTo]
  cases places.mapM (relationshipAt l t g key) <;>
    simp [bind, Except.bind, pure, Except.pure]

theorem exists_relationshipsTo {places : List Place} :
    (∃ found, relationshipsTo l t g key places = .ok found) ↔
      ∀ place ∈ places, ∀ fault, relationshipAt l t g key place ≠ .error fault := by
  constructor
  · rintro ⟨found, h⟩ place hplace
    obtain ⟨results, hresults, -⟩ := Outcome.bind_eq_ok.mp h
    exact Outcome.exists_ok_iff.mp (Outcome.exists_of_mapM_eq_ok hresults hplace)
  · intro h
    obtain ⟨results, hresults⟩ := Outcome.exists_mapM_eq_ok fun place hplace =>
      Outcome.exists_ok_iff.mpr (h place hplace)
    exact ⟨_, Outcome.bind_eq_ok.mpr ⟨results, hresults, rfl⟩⟩

/-- Where there is no syntax tree, the place is in a file that is read in no language. -/
theorem Stumbles.exists_file {p : Project} {e : Option Environment} {a : Atlas} (h : a.Drawn e)
    (hs : p.Supplies a.table) (hstumbles : Stumbles l a.table a.graph key place fault)
    (hn : a.table.get? key = some n) (hl : l ≠ some .ruby ∨ n.label ≠ .class_) :
    ∃ file ∈ p.files, place.uri = file.uri ∧ Language.ofExtension? file.extension = none := by
  cases hstumbles with
  | treeless attributed definition cursor =>
    obtain ⟨file, hfile, hsearch⟩ := attributed.found
    obtain ⟨n', d, hn', hcontent, hpath⟩ := h.definedAt hfile hsearch
    cases (definition_eq_ok.mpr ⟨n', hn', hcontent⟩).symm.trans definition
    obtain ⟨file, hmem, huri, hread⟩ := hs hn' hcontent
    refine ⟨file, hmem, hpath.symm.trans huri, ?_⟩
    cases hread with
    | plain unread _ _ _ => exact unread
    | whole _ _ cursor' _ => cases cursor.symm.trans cursor'
    | inner _ _ _ _ cursor' _ _ => cases cursor.symm.trans cursor'
  | obscure attributed definition cursor located node ruby reached call =>
    cases (node_eq_ok.mp node).symm.trans hn
    rcases hl with hl | hl
    · exact absurd ruby hl
    · exact absurd call.class_ hl

end References

/-- The references to a class or function of a project come to the fault of the first one that
stumbles, and to relationships if none does. In a project all of whose files are read in some
language, none does but for classes in Ruby. -/
theorem references_fail_iff_one_stumbles {p : Project} (hdisk : p.workspace.disk.Proper)
    {b b' : Builder} (hb : b.atlas = {})
    (hproject : (Builder.addProject p).perform b = (.ok (), b')) {key : NodeKey} {n : Node}
    (hn : b'.atlas.table.get? key = some n) (hlabel : n.label = .class_ ∨ n.label = .function)
    {places : List Place} (hplaces : ∀ place ∈ places, ∃ r, place.extent = .ofRange r) :
    let t := b'.atlas.table
    let g := b'.atlas.graph
    let l := Language.ofExtension? n.extension
    (∀ fault, References.relationshipsTo l t g key places = .error fault ↔
      ∃ place, Reached (fun other => ∀ f, ¬References.Stumbles l t g key other f) places place ∧
        References.Stumbles l t g key place fault) ∧
    ((∃ found, References.relationshipsTo l t g key places = .ok found) ↔
      ∀ place ∈ places, ∀ f, ¬References.Stumbles l t g key place f) ∧
    ((∀ place ∈ places, ∀ file ∈ p.files, place.uri = file.uri →
        Language.ofExtension? file.extension ≠ none) →
      (l ≠ some .ruby ∨ n.label ≠ .class_) →
      ∃ found, References.relationshipsTo l t g key places = .ok found) := by
  intro t g l
  have hdrawn := Builder.drawn_of_addProject hdisk hb hproject
  have hsupplies : p.Supplies t := Builder.supplies_of_addProject hb hproject
  have hstumbles : ∀ place ∈ places, ∀ fault,
      References.relationshipAt l t g key place = .error fault ↔
        References.Stumbles l t g key place fault := by
    intro place hplace fault
    obtain ⟨r, hr⟩ := hplaces place hplace
    exact References.relationshipAt_stumbles hdrawn hsupplies hn hlabel hr
  have hquiet : ∀ place ∈ places,
      (∀ fault, References.relationshipAt l t g key place ≠ .error fault) ↔
        ∀ fault, ¬References.Stumbles l t g key place fault := by
    intro place hplace
    exact forall_congr' fun fault => not_congr (hstumbles place hplace fault)
  have hok : (∃ found, References.relationshipsTo l t g key places = .ok found) ↔
      ∀ place ∈ places, ∀ f, ¬References.Stumbles l t g key place f := by
    rw [References.exists_relationshipsTo]
    exact forall₂_congr hquiet
  refine ⟨fun fault => ?_, hok, fun hread hruby => ?_⟩
  · rw [References.relationshipsTo_eq_error, Outcome.mapM_eq_error]
    constructor
    · rintro ⟨place, hreached, hfault⟩
      exact ⟨place, hreached.imp fun y hy => (hquiet y hy).mp,
        (hstumbles place hreached.mem fault).mp hfault⟩
    · rintro ⟨place, hreached, hfault⟩
      exact ⟨place, hreached.imp fun y hy => (hquiet y hy).mpr,
        (hstumbles place hreached.mem fault).mpr hfault⟩
  · rw [hok]
    intro place hplace f hf
    obtain ⟨file, hfile, huri, hnone⟩ := hf.exists_file hdrawn hsupplies hn hruby
    exact hread place hplace file hfile huri hnone

namespace OneUser
open Server

def projectWith (path : String) (tree : Piece) : Project where
  workspace :=
    { disk := (({} : Disk).addFile "/r/a.js" (TwoFiles.blob TwoFiles.library)).addFile path
        (TwoFiles.blob tree)
      grammar := .ofPieces [TwoFiles.library, tree] }
  rules := { root := .str "/r" }
  environment := some ⟨.str "dev", .str "main", .str "/r"⟩

theorem proper_disk (path : String) (tree : Piece) :
    (projectWith path tree).workspace.disk.Proper :=
  (Disk.proper_empty.addFile _ _).addFile _ _

def project (path : String) : Project :=
  projectWith path (TwoFiles.user TwoFiles.plain)

def start (path : String) : Builder :=
  let answers : Answers :=
    { references := [⟨.str "file:///r/a.js", TwoFiles.mark 9,
        TwoFiles.nameAt (Path.toUri path) 0⟩] }
  { servers := (Servers.start.perform (Servers.make (.str "/r") (.str "localhost") (.int 5000)
      answers.reply)).2 }

def created (path : String) : Except Fault Unit × Builder :=
  (Builder.addProject (project path)).perform (start path)

def place (path : String) : Place :=
  ⟨.ofRange ⟨⟨0, 0⟩, ⟨0, 1⟩⟩, Path.toUri path⟩

end OneUser

/-- The use of a function in another file of its language is made a relationship. -/
theorem OneUser.use_in_source_processed : ∃ b' n found, created "/r/b.js" = (.ok (), b') ∧
    b'.atlas.table.get? 2 = some n ∧ n.label = .function ∧
    References.relationshipsTo (Language.ofExtension? n.extension) b'.atlas.table b'.atlas.graph 2
      [place "/r/b.js"] = .ok found := by
  have hrun : (created "/r/b.js").1.isOk = true ∧
      ((created "/r/b.js").2.atlas.table.get? 2).map Node.label = some .function ∧
      ∀ file ∈ (project "/r/b.js").files, Language.ofExtension? file.extension ≠ none := by
    decide +kernel
  obtain ⟨hok, hlabel, hread⟩ := hrun
  obtain ⟨b', hb'⟩ := Action.exists_of_isOk hok
  have heq : (created "/r/b.js").2 = b' := congrArg Prod.snd hb'
  rw [heq] at hlabel
  obtain ⟨n, hn, hlabel⟩ := Option.map_eq_some_iff.mp hlabel
  have hplaces : ∀ q ∈ [place "/r/b.js"], ∃ r, q.extent = .ofRange r := by
    simpa using ⟨_, rfl⟩
  obtain ⟨-, -, hprocessed⟩ :=
    references_fail_iff_one_stumbles (proper_disk _ _) rfl hb' hn (.inr hlabel) hplaces
  obtain ⟨found, hfound⟩ := hprocessed (fun _ _ file hfile _ => hread file hfile)
    (.inr (by rw [hlabel]; decide))
  exact ⟨b', n, found, hb', hn, hlabel, hfound⟩

/-- The use in a file that is read in no language is a fault, which ends the build. -/
theorem OneUser.use_in_raw_file_fails : ∃ b' n, created "/r/b.mjs" = (.ok (), b') ∧
    b'.atlas.table.get? 2 = some n ∧ n.label = .function ∧
    References.relationshipsTo (Language.ofExtension? n.extension) b'.atlas.table b'.atlas.graph 2
      [place "/r/b.mjs"] = .error .noSyntaxTree ∧
    ((Builder.build (project "/r/b.mjs")).perform (start "/r/b.mjs")).1 = .error .noSyntaxTree := by
  have hrun : (created "/r/b.mjs").1.isOk = true ∧
      ((created "/r/b.mjs").2.atlas.table.get? 2).map (fun n => (n.label, n.extension)) =
        some (.function, ".js") ∧
      Outcome.fault? (References.relationshipsTo (Language.ofExtension? ".js")
        (created "/r/b.mjs").2.atlas.table (created "/r/b.mjs").2.atlas.graph 2
        [place "/r/b.mjs"]) = some .noSyntaxTree ∧
      Outcome.fault? ((Builder.build (project "/r/b.mjs")).perform (start "/r/b.mjs")).1 =
        some .noSyntaxTree := by
    decide +kernel
  obtain ⟨hok, hnode, hfault, hbuild⟩ := hrun
  obtain ⟨b', hb'⟩ := Action.exists_of_isOk hok
  have heq : (created "/r/b.mjs").2 = b' := congrArg Prod.snd hb'
  rw [heq] at hnode hfault
  obtain ⟨n, hn, hnode⟩ := Option.map_eq_some_iff.mp hnode
  obtain ⟨hlabel, hextension⟩ := Prod.mk.inj hnode
  refine ⟨b', n, hb', hn, hlabel, ?_, Outcome.eq_error_of_fault? hbuild⟩
  rw [hextension]
  exact Outcome.eq_error_of_fault? hfault

end CodeAtlas
