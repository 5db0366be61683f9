import CodeAtlas.Proofs.Build.Growth
import CodeAtlas.Proofs.Build.Identity
import CodeAtlas.Proofs.Build.Update
import CodeAtlas.Proofs.Graph.Trail
import Mathlib.Data.List.Induction

namespace CodeAtlas
open CodeAtlas.Path NodeTable

/-- In two texts, the last marks are the same and the same stands around them. -/
theorem append_mark_inj {marks start start' rest rest' : List Char} {mark mark' : Char}
    (hm : mark ∈ marks) (hm' : mark' ∈ marks) (hr : ∀ c ∈ rest, c ∉ marks)
    (hr' : ∀ c ∈ rest', c ∉ marks) (h : start ++ mark :: rest = start' ++ mark' :: rest') :
    start = start' ∧ mark = mark' ∧ rest = rest' := by
  have hshort : ∀ {as bs : List Char} {a b : Char} {more : List Char}, a ∈ marks →
      (∀ c ∈ bs, c ∉ marks) → b :: bs = more ++ a :: as → more = [] := by
    intro as bs a b more ha hbs heq
    cases more with
    | nil => rfl
    | cons c more =>
      obtain ⟨-, heq⟩ := List.cons.inj heq
      exact absurd ha (hbs a (by simp [heq]))
  rcases List.append_eq_append_iff.mp h with ⟨more, rfl, hmore⟩ | ⟨more, rfl, hmore⟩
  · obtain rfl := hshort hm' hr hmore
    obtain ⟨rfl, rfl⟩ := List.cons.inj hmore
    simp
  · obtain rfl := hshort hm hr' hmore
    obtain ⟨rfl, rfl⟩ := List.cons.inj hmore
    simp

namespace Segment
variable {marks : List Char} {s s' : Segment} {trail trail' : List Segment} {start start' : String}

/-- A name behind a mark, with no mark in it. -/
def Delimited (marks : List Char) (s : Segment) : Prop :=
  ∃ mark ∈ marks, ∃ name, s = .named (.singleton mark) (.str name) ∧ ∀ c ∈ name.toList, c ∉ marks

theorem Delimited.spelling_inj (h : s.Delimited marks) (h' : s'.Delimited marks)
    (heq : start ++ s.spelling = start' ++ s'.spelling) : start = start' ∧ s = s' := by
  obtain ⟨mark, hm, name, rfl, hname⟩ := h
  obtain ⟨mark', hm', name', rfl, hname'⟩ := h'
  have hchars := congrArg String.toList heq
  simp only [Segment.spelling, String.toList_append, String.toList_singleton,
    List.singleton_append] at hchars
  obtain ⟨hstart, rfl, hrest⟩ := append_mark_inj hm hm' hname hname' hchars
  rw [String.toList_inj] at hstart hrest
  exact ⟨hstart, by rw [hrest]⟩

/-- What ends in delimited names can be read from its end, up to the shorter list of names. -/
theorem spell_cases (ht : ∀ s ∈ trail, s.Delimited marks) (ht' : ∀ s ∈ trail', s.Delimited marks)
    (h : start ++ spell trail = start' ++ spell trail') :
    (∃ outer, trail = outer ++ trail' ∧ start' = start ++ spell outer) ∨
      ∃ outer, trail' = outer ++ trail ∧ start = start' ++ spell outer := by
  induction trail using List.reverseRecOn generalizing trail' with
  | nil => exact Or.inr ⟨trail', by simp, by simpa using h⟩
  | append_singleton trail s ih =>
    rcases List.eq_nil_or_concat' trail' with rfl | ⟨trail', s', rfl⟩
    · exact Or.inl ⟨trail ++ [s], by simp, by simpa using h.symm⟩
    · simp only [List.mem_append, List.mem_singleton, or_imp, forall_and, forall_eq] at ht ht'
      simp only [spell_append, spell_cons, spell_nil, String.append_empty,
        ← String.append_assoc] at h
      obtain ⟨hstart, rfl⟩ := ht.2.spelling_inj ht'.2 h
      rcases ih ht.1 ht'.1 hstart with ⟨outer, rfl, hout⟩ | ⟨outer, rfl, hout⟩
      · exact Or.inl ⟨outer, by simp, hout⟩
      · exact Or.inr ⟨outer, by simp, hout⟩

theorem Delimited.spelling_ne_empty (h : s.Delimited marks) : s.spelling ≠ "" := by
  obtain ⟨mark, -, name, rfl, -⟩ := h
  simp [Segment.spelling]

theorem spell_eq_empty (ht : ∀ s ∈ trail, s.Delimited marks) (h : spell trail = "") :
    trail = [] := by
  cases trail with
  | nil => rfl
  | cons s trail =>
    rw [spell_cons, String.append_eq_empty_iff] at h
    exact absurd h.1 (ht s List.mem_cons_self).spelling_ne_empty

theorem no_slash_spell {trail : List Segment} (h : ∀ s ∈ trail, '/' ∉ s.spelling.toList) :
    '/' ∉ (spell trail).toList := by
  induction trail with
  | nil => simp
  | cons s trail ih =>
    obtain ⟨hs, htrail⟩ := List.forall_mem_cons.mp h
    simpa [hs] using ih htrail

/-- Delimited names can be read from their text. -/
theorem spell_inj (ht : ∀ s ∈ trail, s.Delimited marks) (ht' : ∀ s ∈ trail', s.Delimited marks)
    (h : spell trail = spell trail') : trail = trail' := by
  have hnone : ∀ {outer rest : List Segment}, (∀ s ∈ outer ++ rest, s.Delimited marks) →
      "" = "" ++ spell outer → outer = [] := by
    intro outer rest hs ho
    refine spell_eq_empty (fun s hmem => hs s (List.mem_append_left _ hmem)) ?_
    simpa using ho.symm
  have hempty : "" ++ spell trail = "" ++ spell trail' := by rw [h]
  rcases spell_cases ht ht' hempty with ⟨outer, rfl, ho⟩ | ⟨outer, rfl, ho⟩
  · rw [hnone ht ho, List.nil_append]
  · rw [hnone ht' ho, List.nil_append]

end Segment

/-- Names without slashes can be read from the text of their trail. -/
theorem spell_trailOf_inj {names names' : List String} (h : ∀ name ∈ names, '/' ∉ name.toList)
    (h' : ∀ name ∈ names', '/' ∉ name.toList)
    (heq : spell (trailOf names) = spell (trailOf names')) : names = names' := by
  have hdelimited : ∀ {names : List String}, (∀ name ∈ names, '/' ∉ name.toList) →
      ∀ s ∈ trailOf names, s.Delimited ['/'] := by
    intro names h s hs
    obtain ⟨name, hname, rfl⟩ := List.mem_map.mp hs
    refine ⟨'/', by simp, name, rfl, fun c hc hmark => ?_⟩
    rw [List.mem_singleton] at hmark
    exact h name hname (hmark ▸ hc)
  have htrail := Segment.spell_inj (hdelimited h) (hdelimited h') heq
  refine List.map_injective_iff.mpr (fun name name' hname => ?_) htrail
  cases hname
  rfl

theorem spell_trailOf_concat (names : List String) (name text : String) :
    spell (trailOf (names ++ [name])) ++ text = spell (trailOf (names ++ [name ++ text])) := by
  simp [trailOf, Segment.spelling, String.append_assoc]

theorem Path.below_concat_append (root : String) (way : List String) (name text : String) :
    below root (way ++ [name ++ text]) = below root (way ++ [name]) ++ text := by
  rw [below_of_ne_nil (by simp), below_of_ne_nil (by simp)]
  by_cases hne : way = []
  · simp [hne, String.append_assoc]
  · rw [String.intercalate_append_of_ne_nil hne (by simp),
      String.intercalate_append_of_ne_nil hne (by simp)]
    simp [String.append_assoc]

/-- A name stays one when a text without slashes is put after it. -/
theorem Path.IsName.append {name text : String} (h : IsName name) (ht : '/' ∉ text.toList) :
    IsName (name ++ text) where
  ne_empty heq := h.ne_empty (String.append_eq_empty_iff.mp heq).1
  ne_dot heq := by
    have hchars := congrArg String.toList heq
    rw [String.toList_append] at hchars
    rcases List.append_eq_singleton_iff.mp hchars with ⟨hname, -⟩ | ⟨hname, -⟩
    · exact h.ne_empty (by simpa using hname)
    · exact h.ne_dot (String.toList_inj.mp hname)
  ne_dots heq := by
    have hchars := congrArg String.toList heq
    rw [String.toList_append] at hchars
    rcases List.append_eq_cons_iff.mp hchars with ⟨hname, -⟩ | ⟨rest, hname, hrest⟩
    · exact h.ne_empty (by simpa using hname)
    · rcases List.append_eq_singleton_iff.mp hrest.symm with ⟨rfl, -⟩ | ⟨rfl, -⟩
      · exact h.ne_dot (String.toList_inj.mp hname)
      · exact h.ne_dots (String.toList_inj.mp hname)
  no_slash := by
    rw [String.toList_append, List.mem_append]
    exact fun hmem => hmem.elim h.no_slash ht

def Segment.isEntry : Segment → Bool
  | .named mark _ => mark == "/"
  | _ => false

def Node.scopes (n : Node) : List Segment :=
  n.trail.filter fun s => !s.isEntry

/-- Does the trail of a node run into the path of another one? The path of the other is its own and
the names of outer scopes, and the other has the scopes that are left. -/
def Node.RunsInto (n n' : Node) : Prop :=
  ∃ outer, outer ≠ [] ∧ n.scopes = outer ++ n'.scopes ∧ n'.path = n.path ++ spell outer

/-- A text in which no mark of an identifier stands. -/
def NoMarks (text : String) : Prop :=
  ∀ c ∈ text.toList, c ∉ ['/', '#', '.']

instance (text : String) : Decidable (NoMarks text) :=
  List.decidableBAll (· ∉ ['/', '#', '.']) text.toList

namespace Surroundings
variable {c : Surroundings} {files : List ProjectFile} {way way' : List String} {n n' : Node}

/-- A node at the end of a way, or in the file there. -/
structure Along (c : Surroundings) (way : List String) (n : Node) : Prop where
  names : ∀ name ∈ way, IsName name
  path : n.path = toUri (below c.root way)
  trail : n.trail = trailOf (c.top ++ way) ++ n.scopes
  scopes : ∀ s ∈ n.scopes, s.Delimited ['#', '.'] ∧ '/' ∉ s.spelling.toList
  of_nil : way = [] → n.content = .folder ∧ n.scopes = []

theorem scopes_eq_nil {names : List String} (h : n.trail = trailOf names) : n.scopes = [] := by
  simp [Node.scopes, h, trailOf, Segment.isEntry]

theorem Along.spell_trail (h : c.Along way n) :
    spell n.trail = spell (trailOf c.top) ++ (spell (trailOf way) ++ spell n.scopes) := by
  rw [h.trail]
  simp [trailOf]

/-- The folders and the files are at the end of their ways. -/
theorem Placed.along (h : c.Placed files n) (hn : n.containable = true) :
    ∃ way, c.Along way n := by
  cases hc : n.content with
  | folder =>
    obtain ⟨-, ⟨-, way, hnames, hpath, htrail⟩ | ⟨file, -, -, d, hd, -⟩⟩ := h
    · have hnone := scopes_eq_nil htrail
      exact ⟨way, hnames, hpath, by rw [hnone, htrail, List.append_nil], by simp [hnone],
        fun _ => ⟨hc, hnone⟩⟩
    · cases hc.symm.trans hd
  | definition d =>
    have hscope : d.scope = .file := by simpa [Node.containable, hc] using hn
    have hlabel : n.label = .file := by simp [Node.label, hc, hscope, Scope.label]
    obtain ⟨way, hne, hnames, hpath, htrail⟩ := h.file hlabel
    have hnone := scopes_eq_nil htrail
    exact ⟨way, hnames, hpath, by rw [hnone, htrail, List.append_nil], by simp [hnone],
      fun hnil => absurd hnil hne⟩
  | bare label => simp [Node.containable, hc] at hn
  | deleted label => simp [Node.containable, hc] at hn

/-- A class or function is along the way of what stands around it. -/
theorem Along.inner {m : Node} {d d' : Definition} {text : String} (h : c.Along way m)
    (hm : m.content = .definition d') (hpath : m.path = n.path) (hscope : d.scope ≠ .file)
    (hname : n.name = .str text) (htext : NoMarks text)
    (htrail : n.trail = m.trail ++ [.named d.scope.mark n.name]) : c.Along way n := by
  have hinner : d.scope.mark = "#" ∨ d.scope.mark = "." := by
    cases hs : d.scope with
    | file => exact absurd hs hscope
    | class_ => exact Or.inl rfl
    | function => exact Or.inr rfl
  have hown : n.scopes = m.scopes ++ [.named d.scope.mark (.str text)] := by
    rcases hinner with hmark | hmark <;> simp [Node.scopes, htrail, hname, hmark, Segment.isEntry]
  refine ⟨h.names, hpath ▸ h.path, ?_, fun s hs => ?_, fun hnil => ?_⟩
  · rw [htrail, h.trail, hown, hname, List.append_assoc]
  · rw [hown, List.mem_append, List.mem_singleton] at hs
    rcases hs with hs | rfl
    · exact h.scopes s hs
    · have hslash : '/' ∉ text.toList := fun hc => htext _ hc (by simp)
      have hmarks : ∀ c ∈ text.toList, c ∉ ['#', '.'] := fun c hc hmark =>
        htext c hc (List.mem_cons_of_mem _ hmark)
      rcases hinner with hmark | hmark
      · rw [hmark]
        exact ⟨⟨'#', by simp, text, rfl, hmarks⟩, by simpa [Segment.spelling] using hslash⟩
      · rw [hmark]
        exact ⟨⟨'.', by simp, text, rfl, hmarks⟩, by simpa [Segment.spelling] using hslash⟩
  · cases hm.symm.trans (h.of_nil hnil).1

theorem exists_along {t : NodeTable} {e : Option Environment} (hs : Growth.Sound e ⟨[], t⟩)
    (hplaced : ∀ {key n}, t.get? key = some n → c.Placed files n)
    (hnames : ∀ key n text, t.get? key = some n → n.containable = false → n.name = .str text →
      NoMarks text) {key : NodeKey} (hn : t.get? key = some n) : ∃ way, c.Along way n := by
  induction key using Nat.strongRecOn generalizing n with
  | ind key ih =>
    cases hs.lineage hn with
    | top content parent trail =>
      exact (hplaced hn).along (by simp [Node.containable, content])
    | entry above before folder content parent trail => exact (hplaced hn).along content
    | inner above before around path content scope parent trail =>
      obtain ⟨way, h⟩ := ih _ before above
      obtain ⟨text, hname⟩ := hs.named hn
      have htext := hnames key n text hn (by simp [Node.containable, content, scope]) hname
      exact ⟨way, h.inner around path scope hname htext trail⟩

theorem Along.names_append {front : List String} {last text : String}
    (h : c.Along (front ++ [last]) n) (ht : '/' ∉ text.toList) :
    ∀ name ∈ front ++ [last ++ text], IsName name := by
  intro name hname
  rcases List.mem_append.mp hname with hname | hname
  · exact h.names name (List.mem_append_left _ hname)
  · obtain rfl := List.mem_singleton.mp hname
    exact (h.names last (by simp)).append ht

/-- Where texts are the same, the ways are, up to their last names. -/
theorem Along.read (h : c.Along way n) (h' : c.Along way' n')
    (heq : spell (trailOf way) ++ spell n.scopes = spell (trailOf way') ++ spell n'.scopes) :
    way = way' ∨ ∃ front last last', way = front ++ [last] ∧ way' = front ++ [last'] ∧
      last ++ spell n.scopes = last' ++ spell n'.scopes := by
  -- the scopes are part of the last name, or there are neither
  have hfull : ∀ {way n}, c.Along way n → ∃ names, (∀ name ∈ names, '/' ∉ name.toList) ∧
      spell (trailOf way) ++ spell n.scopes = spell (trailOf names) ∧
      (way = [] ∧ names = [] ∨ ∃ front last, way = front ++ [last] ∧
        names = front ++ [last ++ spell n.scopes]) := by
    intro way n h
    rcases List.eq_nil_or_concat' way with rfl | ⟨front, last, rfl⟩
    · exact ⟨[], by simp, by simp [(h.of_nil rfl).2], Or.inl ⟨rfl, rfl⟩⟩
    · have hscopes := Segment.no_slash_spell fun s hs => (h.scopes s hs).2
      exact ⟨front ++ [last ++ spell n.scopes],
        fun name hname => (h.names_append hscopes name hname).no_slash,
        spell_trailOf_concat front last _, Or.inr ⟨front, last, rfl, rfl⟩⟩
  obtain ⟨names, hnames, hspell, hcase⟩ := hfull h
  obtain ⟨names', hnames', hspell', hcase'⟩ := hfull h'
  have hsame : names = names' :=
    spell_trailOf_inj hnames hnames' (by rw [← hspell, ← hspell', heq])
  subst hsame
  rcases hcase with ⟨rfl, rfl⟩ | ⟨front, last, rfl, rfl⟩
  · rcases hcase' with ⟨rfl, -⟩ | ⟨front', last', -, hnil⟩
    · exact Or.inl rfl
    · simp at hnil
  · rcases hcase' with ⟨-, hnil⟩ | ⟨front', last', rfl, hlast⟩
    · simp at hnil
    · obtain ⟨rfl, hlast⟩ := List.append_inj' hlast rfl
      exact Or.inr ⟨front, last, last', rfl, rfl, by simpa using hlast⟩

theorem Along.runsInto {front : List String} {last : String} {outer : List Segment}
    (h : c.Along (front ++ [last]) n) (h' : c.Along (front ++ [last ++ spell outer]) n')
    (hscopes : n.scopes = outer ++ n'.scopes) (hne : n.path ≠ n'.path) : n.RunsInto n' := by
  have hpath : n'.path = n.path ++ spell outer := by
    rw [h.path, h'.path, below_concat_append, toUri, toUri, String.append_assoc]
  refine ⟨outer, ?_, hscopes, hpath⟩
  rintro rfl
  exact hne (by simpa using hpath.symm)

theorem Along.identity_eq_of_runsInto (h : c.Along way n) (h' : c.Along way' n')
    (he : n.environment = n'.environment) (hr : n.RunsInto n') :
    n.identity = n'.identity ∧ n.path ≠ n'.path := by
  obtain ⟨outer, hne, hscopes, hpath⟩ := hr
  have houter : ∀ s ∈ outer, s.Delimited ['#', '.'] ∧ '/' ∉ s.spelling.toList := fun s hs =>
    h.scopes s (hscopes ▸ List.mem_append_left _ hs)
  rcases List.eq_nil_or_concat' way with rfl | ⟨front, last, rfl⟩
  · rw [(h.of_nil rfl).2] at hscopes
    exact absurd (List.append_eq_nil_iff.mp hscopes.symm).1 hne
  · have huri :
        toUri (below c.root way') = toUri (below c.root (front ++ [last ++ spell outer])) := by
      rw [← h'.path, hpath, h.path, below_concat_append, toUri, toUri, String.append_assoc]
    have hnames := h.names_append (Segment.no_slash_spell fun s hs => (houter s hs).2)
    obtain rfl := below_injective h'.names hnames (toUri_injective huri)
    have htext : spell (trailOf (front ++ [last])) ++ spell n.scopes =
        spell (trailOf (front ++ [last ++ spell outer])) ++ spell n'.scopes := by
      rw [hscopes, spell_append, ← String.append_assoc, spell_trailOf_concat]
    constructor
    · rw [Node.identity, Node.identity, he, h.spell_trail, h'.spell_trail, htext]
    · intro heq
      rw [hpath] at heq
      exact hne (Segment.spell_eq_empty (fun s hs => (houter s hs).1) (by simpa using heq.symm))

/-- Two nodes are namesakes at different paths exactly if the trail of one runs into the path of the
other. -/
theorem Along.clash_iff (h : c.Along way n) (h' : c.Along way' n')
    (he : n.environment = n'.environment) :
    n.identity = n'.identity ∧ n.path ≠ n'.path ↔ n.RunsInto n' ∨ n'.RunsInto n := by
  constructor
  · intro hclash
    obtain ⟨hid, hne⟩ := hclash
    simp only [Node.identity, he, h.spell_trail, h'.spell_trail, String.append_right_inj] at hid
    rcases h.read h' hid with rfl | ⟨front, last, last', rfl, rfl, hlast⟩
    · exact absurd (h.path.trans h'.path.symm) hne
    · have hcases := Segment.spell_cases (fun s hs => (h.scopes s hs).1)
        (fun s hs => (h'.scopes s hs).1) hlast
      rcases hcases with ⟨outer, hscopes, rfl⟩ | ⟨outer, hscopes, rfl⟩
      · exact Or.inl (h.runsInto h' hscopes hne)
      · exact Or.inr (h'.runsInto h hscopes hne.symm)
  · intro hruns
    rcases hruns with hruns | hruns
    · exact h.identity_eq_of_runsInto h' he hruns
    · obtain ⟨hid, hne⟩ := h'.identity_eq_of_runsInto h he.symm hruns
      exact ⟨hid.symm, hne.symm⟩

end Surroundings

/-- In the graph of a project in which classes and functions have names without marks, two nodes
have one identifier and different paths exactly if the trail of one runs into the path of the
other. -/
theorem namesakes_apart_iff_runsInto {p : Project} {b b' : Builder}
    (hd : p.workspace.disk.Proper) (hb : b.atlas = {})
    (hbuild : (Builder.addProject p).perform b = (.ok (), b'))
    (hnames : ∀ key n text, b'.atlas.table.get? key = some n → n.containable = false →
      n.name = .str text → NoMarks text)
    {key key' : NodeKey} {n n' : Node} (hn : b'.atlas.table.get? key = some n)
    (hn' : b'.atlas.table.get? key' = some n') :
    ∃ id id', b'.atlas.table.id key = .ok id ∧ b'.atlas.table.id key' = .ok id' ∧
      (id = id' ∧ n.path ≠ n'.path ↔ n.RunsInto n' ∨ n'.RunsInto n) := by
  obtain ⟨places, htraced⟩ := (Builder.ends_addProject_traced hd hb).of_ok hbuild
  obtain ⟨c, -, hchart⟩ := Builder.exists_chart hd hb
  rw [hbuild] at hchart
  have hsound := htraced.sound
  obtain ⟨way, h⟩ := Surroundings.exists_along hsound hchart.placed hnames hn
  obtain ⟨way', h'⟩ := Surroundings.exists_along hsound hchart.placed hnames hn'
  have he : n.environment = n'.environment :=
    (hsound.environment hn).trans (hsound.environment hn').symm
  exact ⟨n.identity, n'.identity, hsound.id_eq hn, hsound.id_eq hn', h.clash_iff h' he⟩

namespace Suffixed
open Source

def function (name : String) (inner : List Piece) : Piece :=
  .node "function_declaration" none true [.text "function ",
    .node "identifier" (some "name") true [.text name],
    .node "formal_parameters" (some "parameters") true [.text "()"], .text " ",
    .node "statement_block" (some "body") true (.text "\x7b" :: inner ++ [.text "\x7d"])]

/-- A project with two files, the path of the second being that of the first with more after it. -/
def project (first : Piece) (suffix : String) (second : Piece) : Project where
  workspace :=
    { disk := (({} : Disk).addFile "/r/app.js" (TwoFiles.blob first)).addFile
        ("/r/app.js" ++ suffix) (TwoFiles.blob second)
      grammar := Grammar.ofPieces [first, second] }
  rules := { root := .str "/r" }
  environment := some ⟨.str "dev", .str "main", .str "/r"⟩

def created (p : Project) : Except Fault Unit × Builder :=
  (Builder.addProject p).perform (TwoFiles.start 0)

/-- A function `js` with a function in it, and a file that has the identifier of `js`. -/
def nested : Project :=
  project (.node "program" none true [function "js" [function "f" []]]) ".js"
    (.node "program" none true [function "f" []])

def flat : Project :=
  project (.node "program" none true [function "map" []]) ".map" (.text "\x7b\x7d")

end Suffixed

/-- The functions `f` of the two files are namesakes. -/
theorem Suffixed.inner_runsInto : ∃ b' n n', created nested = (.ok (), b') ∧
    b'.atlas.table.get? 3 = some n ∧ b'.atlas.table.get? 5 = some n' ∧
    b'.atlas.table.id 3 = b'.atlas.table.id 5 ∧ n.path ≠ n'.path ∧
    (n.RunsInto n' ∨ n'.RunsInto n) := by
  have hrun : (created nested).1.isOk = true ∧ (created nested).2.atlas.table.nodes.size = 6 ∧
      ((created nested).2.atlas.table.id 3).toOption =
        ((created nested).2.atlas.table.id 5).toOption ∧
      (((created nested).2.atlas.table.get? 3).map Node.path) = some "file:///r/app.js" ∧
      (((created nested).2.atlas.table.get? 5).map Node.path) = some "file:///r/app.js.js" ∧
      ∀ k < 6, ((created nested).2.atlas.table.get? k).all (fun n => n.containable ||
        (Json.texts [n.name]).all fun text => NoMarks text) := by
    decide +kernel
  obtain ⟨hok, hsize, hid, hpath, hpath', hnamed⟩ := hrun
  obtain ⟨b', hb'⟩ := Action.exists_of_isOk hok
  have heq : (created nested).2 = b' := congrArg Prod.snd hb'
  rw [heq] at hsize hid hpath hpath' hnamed
  have hnames : ∀ key n text, b'.atlas.table.get? key = some n → n.containable = false →
      n.name = .str text → NoMarks text := by
    intro key n text hn hinner hname
    have hcheck := hnamed key (hsize ▸ lt_size hn)
    simpa [hn, hinner, hname, Json.texts] using hcheck
  obtain ⟨n, hn, hpath⟩ := Option.map_eq_some_iff.mp hpath
  obtain ⟨n', hn', hpath'⟩ := Option.map_eq_some_iff.mp hpath'
  have hdisk : nested.workspace.disk.Proper := (Disk.proper_empty.addFile _ _).addFile _ _
  have hne : n.path ≠ n'.path := by
    rw [hpath, hpath']
    decide
  obtain ⟨id, id', hid₁, hid₂, hiff⟩ := namesakes_apart_iff_runsInto hdisk rfl hb' hnames hn hn'
  rw [hid₁, hid₂] at hid
  obtain rfl := Option.some.inj hid
  exact ⟨b', n, n', hb', hn, hn', hid₁.trans hid₂.symm, hne, hiff.mp ⟨rfl, hne⟩⟩

/-- The file has the identifier of the function, so the graph has a node for the file and none for
the function. -/
theorem Suffixed.file_replaces_function : ∃ b', created flat = (.ok (), b') ∧
    (b'.atlas.table.get? 2).map (fun n => (n.label, n.path)) =
      some (.function, "file:///r/app.js") ∧
    (b'.atlas.table.get? 3).map (fun n => (n.label, n.path)) =
      some (.file, "file:///r/app.js.map") ∧
    b'.atlas.table.id 2 = .ok "/dev/main/r/app.js.map" ∧
    b'.atlas.table.id 3 = .ok "/dev/main/r/app.js.map" ∧
    Assoc.values b'.atlas.graph.nodes = [0, 1, 3] := by
  have hrun : (created flat).1.isOk = true ∧
      ((created flat).2.atlas.table.get? 2).map (fun n => (n.label, n.path)) =
        some (.function, "file:///r/app.js") ∧
      ((created flat).2.atlas.table.get? 3).map (fun n => (n.label, n.path)) =
        some (.file, "file:///r/app.js.map") ∧
      ((created flat).2.atlas.table.id 2).toOption = some "/dev/main/r/app.js.map" ∧
      ((created flat).2.atlas.table.id 3).toOption = some "/dev/main/r/app.js.map" ∧
      Assoc.values (created flat).2.atlas.graph.nodes = [0, 1, 3] := by
    decide +kernel
  obtain ⟨hok, hfunction, hfile, hid, hid', hnodes⟩ := hrun
  obtain ⟨b', hb'⟩ := Action.exists_of_isOk hok
  have heq : (created flat).2 = b' := congrArg Prod.snd hb'
  rw [heq] at hfunction hfile hid hid' hnodes
  exact ⟨b', hb', hfunction, hfile, Outcome.eq_ok_of_toOption hid, Outcome.eq_ok_of_toOption hid',
    hnodes⟩

end CodeAtlas
