import CodeAtlas.Proofs.Assoc
import CodeAtlas.Proofs.Marking.Words

namespace CodeAtlas.Marking
open Text

/-- The text with the uses of all names marked at once. -/
def markText (names : List String) (text : String) : String :=
  String.ofList (marked names text.toList)

theorem markText_markText (names names' : List String) (text : String) :
    markText names (markText names' text) = markText (names ++ names') text := by
  rw [markText, markText, markText, String.toList_ofList, marked_marked]

theorem markText_congr {names names' : List String} (h : ∀ name, name ∈ names ↔ name ∈ names') :
    markText names = markText names' := by
  funext text
  rw [markText, markText, marked_congr h]

theorem marked_no_names (text : List Char) : marked [] text = text := by
  induction text using word_induction with
  | nil => exact marked_nil _
  | other c rest hc ih => rw [marked_cons hc, ih]
  | word word after hw ha ih => rw [marked_word hw ha, ih]; rfl

theorem markText_nil (text : String) : markText [] text = text := by
  rw [markText, marked_no_names, String.ofList_toList]

theorem markText_empty (names : List String) : markText names "" = "" := by
  rw [markText, String.toList_empty, marked_nil, String.ofList_nil]

def text? (node : Json) : Option Json :=
  (node.member? "attributes").bind (Json.member? "text")

def setText (text : String) : Json → Json
  | .obj members =>
    match Assoc.get? members "attributes" with
    | some (.obj attributes) =>
      .obj (Assoc.insert members "attributes" (.obj (Assoc.insert attributes "text" (.str text))))
    | _ => .obj members
  | node => node

theorem exists_attributes {node text : Json} (h : text? node = some text) :
    ∃ members attributes, node = .obj members ∧
      Assoc.get? members "attributes" = some (.obj attributes) ∧
      Assoc.get? attributes "text" = some text := by
  obtain ⟨value, hvalue, htext⟩ := Option.bind_eq_some_iff.mp h
  cases node with
  | obj members =>
    cases value with
    | obj attributes => exact ⟨members, attributes, rfl, hvalue, htext⟩
    | _ => cases htext
  | _ => cases hvalue

theorem setText_obj {members attributes : Json.Members}
    (h : Assoc.get? members "attributes" = some (.obj attributes)) (text : String) :
    setText text (.obj members) = .obj (Assoc.insert members "attributes"
      (.obj (Assoc.insert attributes "text" (.str text)))) := by
  rw [setText, h]

theorem text?_setText {node old : Json} (h : text? node = some old) (text : String) :
    text? (setText text node) = some (.str text) := by
  obtain ⟨members, attributes, rfl, hattributes, -⟩ := exists_attributes h
  rw [setText_obj hattributes]
  simp [text?, Json.member?, Assoc.get?_insert_self]

theorem setText_setText {node old : Json} (h : text? node = some old) (text text' : String) :
    setText text (setText text' node) = setText text node := by
  obtain ⟨members, attributes, rfl, hattributes, -⟩ := exists_attributes h
  rw [setText_obj hattributes, setText_obj hattributes, setText_obj (Assoc.get?_insert_self ..),
    Assoc.insert_insert, Assoc.insert_insert]

theorem setText_self {node : Json} {text : String} (h : text? node = some (.str text)) :
    setText text node = node := by
  obtain ⟨members, attributes, rfl, hattributes, htext⟩ := exists_attributes h
  rw [setText_obj hattributes, Assoc.insert_of_get? htext, Assoc.insert_of_get? hattributes]

theorem nameOf_setText {node old : Json} (h : text? node = some old) (text : String) :
    nameOf (setText text node) = nameOf node := by
  obtain ⟨members, attributes, rfl, hattributes, -⟩ := exists_attributes h
  have hname : Assoc.get? (Assoc.insert attributes "text" (.str text)) (.text "name") =
      Assoc.get? attributes (.text "name") :=
    Assoc.get?_insert_of_ne _ _ (by decide)
  rw [setText_obj hattributes, nameOf, nameOf, Json.field, Json.field, Assoc.get?_insert_self,
    hattributes]
  dsimp only [bind, Except.bind]
  rw [Json.field, Json.field, hname]

/-- Puts what is made of the text of a node in its place. -/
def retext (f : String → String) (node : Json) : Json :=
  match text? node with
  | some (.str text) => setText (f text) node
  | _ => node

theorem retext_of_text {node : Json} {text : String} (h : text? node = some (.str text))
    (f : String → String) : retext f node = setText (f text) node := by
  rw [retext, h]

/-- Is the text of a node a text, or nothing to mark? -/
def IsPlain (node : Json) : Prop :=
  ∀ text, text? node = some text → text.isVoid = true ∨ ∃ s, text = .str s

theorem isPlain_setText {node old : Json} (h : text? node = some old) (text : String) :
    IsPlain (setText text node) := by
  intro new hnew
  rw [text?_setText h] at hnew
  exact .inr ⟨text, (Option.some.inj hnew).symm⟩

theorem isPlain_retext {node : Json} (h : IsPlain node) (f : String → String) :
    IsPlain (retext f node) := by
  rw [retext]
  split
  case h_1 text htext => exact isPlain_setText htext _
  case h_2 => exact h

theorem nameOf_retext (f : String → String) (node : Json) :
    nameOf (retext f node) = nameOf node := by
  rw [retext]
  split
  case h_1 text htext => exact nameOf_setText htext _
  case h_2 => rfl

theorem retext_retext (f g : String → String) (node : Json) :
    retext f (retext g node) = retext (fun text => f (g text)) node := by
  cases htext : text? node with
  | none => simp only [retext, htext]
  | some text =>
    cases text with
    | str text =>
      rw [retext_of_text htext, retext_of_text htext, retext_of_text (text?_setText htext _),
        setText_setText htext]
    | _ => simp only [retext, htext]

theorem retext_id (node : Json) : retext id node = node := by
  rw [retext]
  split
  case h_1 text htext => exact setText_self htext
  case h_2 => rfl

theorem markNode_ok {name result : String} {node : Json} {text : String}
    (h : text? node = some (.str text)) (hmark : markName name (.str text) = .ok result) :
    markNode name (.str text) node = .ok (setText result node) := by
  obtain ⟨members, attributes, rfl, hattributes, -⟩ := exists_attributes h
  rw [setText_obj hattributes, markNode, Outcome.bind_eq_ok]
  refine ⟨_, hmark, ?_⟩
  dsimp only
  rw [hattributes]
  rfl

def Passes (pass : String → String → String → Prop) : List String → String → String → Prop
  | [], text, result => result = text
  | name :: names, text, result =>
    ∃ between, pass name text between ∧ Passes pass names between result

/-- A node becomes another one by passes over its text, and stays the same without a text. -/
def Passed (pass : String → String → String → Prop) (names : List String) (node node' : Json) :
    Prop :=
  ∃ f, node' = retext f node ∧
    ∀ text, text? node = some (.str text) → Passes pass names text (f text)

/-- Marking a name succeeds in every text and is a pass over it. -/
structure MarksBy (pass : String → String → String → Prop) (name : String) : Prop where
  marks : ∀ text, text ≠ "" → ∃ result, markName name (.str text) = .ok result ∧
    pass name text result
  keeps : pass name "" ""

section Passes
variable {pass : String → String → String → Prop} {names : List String}

/-- Names that are marked one after the other make as many passes. -/
theorem markNames_passes (hnames : ∀ name ∈ names, MarksBy pass name) :
    ∀ {node : Json}, IsPlain node → ∀ missing, ∃ node' missing',
      markNames node missing names = (node', missing', none) ∧ Passed pass names node node' := by
  induction names with
  | nil =>
    intro node _ missing
    exact ⟨node, missing, rfl, id, (retext_id node).symm, fun _ _ => rfl⟩
  | cons name names ih =>
    intro node hplain missing
    obtain ⟨hname, hnames⟩ := List.forall_mem_cons.mp hnames
    rw [markNames, ← text?]
    cases htext : text? node with
    | none =>
      obtain ⟨node', missing', hmarked, f, hnode', -⟩ := ih hnames hplain (missing + 1)
      exact ⟨node', missing', hmarked, f, hnode', by simp [htext]⟩
    | some text =>
      dsimp only
      cases hvoid : text.isVoid with
      | true =>
        obtain ⟨node', missing', hmarked, f, hnode', hpasses⟩ := ih hnames hplain (missing + 1)
        refine ⟨node', missing', by rw [if_pos rfl, hmarked], f, hnode', fun text' htext' => ?_⟩
        obtain rfl := Option.some.inj (htext.symm.trans htext')
        obtain rfl : text' = "" := by simpa [Json.isVoid] using hvoid
        exact ⟨"", hname.keeps, hpasses "" htext⟩
      | false =>
        obtain ⟨text, rfl⟩ := (hplain text htext).resolve_left (by simp [hvoid])
        obtain ⟨between, hmark, hpass⟩ := hname.marks text (by simpa [Json.isVoid] using hvoid)
        have hbetween := text?_setText htext between
        obtain ⟨node', missing', hmarked, f, hnode', hpasses⟩ :=
          ih hnames (isPlain_setText htext between) missing
        refine ⟨node', missing', ?_, fun _ => f between, ?_, fun text' htext' => ?_⟩
        · rw [if_neg Bool.false_ne_true, markNode_ok htext hmark]
          exact hmarked
        · rw [hnode', retext_of_text hbetween, setText_setText htext, retext_of_text htext]
        · obtain rfl := Json.str.inj (Option.some.inj (htext.symm.trans htext'))
          exact ⟨between, hpass, hpasses between hbetween⟩

theorem markNodes_passes (hnames : ∀ name ∈ names, MarksBy pass name) :
    ∀ {nodes : List Json}, (∀ node ∈ nodes, IsPlain node) → ∀ missing, ∃ nodes' missing',
      markNodes names nodes missing = (nodes', missing', none) ∧
        List.Forall₂ (Passed pass names) nodes nodes' := by
  intro nodes
  induction nodes with
  | nil => exact fun _ missing => ⟨[], missing, rfl, .nil⟩
  | cons node nodes ih =>
    intro hplain missing
    obtain ⟨hnode, hnodes⟩ := List.forall_mem_cons.mp hplain
    obtain ⟨node', between, hmarked, hpassed⟩ := markNames_passes hnames hnode missing
    obtain ⟨nodes', missing', hothers, hall⟩ := ih hnodes between
    exact ⟨node' :: nodes', missing', by rw [markNodes, hmarked]; dsimp only; rw [hothers],
      .cons hpassed hall⟩

end Passes

def namesOf (nodes : List Json) : List String :=
  nodes.filterMap fun node => (nameOf node).toOption

theorem mem_namesOf {nodes : List Json} {name : String} :
    name ∈ namesOf nodes ↔ ∃ node ∈ nodes, nameOf node = .ok name := by
  rw [namesOf, List.mem_filterMap]
  constructor
  · rintro ⟨node, hnode, hname⟩
    exact ⟨node, hnode, Outcome.eq_ok_of_toOption hname⟩
  · rintro ⟨node, hnode, hname⟩
    exact ⟨node, hnode, by rw [hname]; rfl⟩

theorem namesOf_of_mapM {nodes : List Json} {names : List String}
    (h : nodes.mapM nameOf = .ok names) : namesOf nodes = names := by
  have hall := Outcome.mapM_eq_ok.mp h
  clear h
  induction hall with
  | nil => rfl
  | @cons node name nodes names hname _ ih =>
    have hsome : (nameOf node).toOption = some name := by
      rw [hname]
      rfl
    rw [namesOf, List.filterMap_cons, hsome, ← ih]
    rfl

/-- If marking is a pass for each name, every node gets as many passes as there are names. -/
theorem markAll_passes {pass : String → String → String → Prop} {nodes : List Json}
    (hnames : ∀ node ∈ nodes, ∃ name, nameOf node = .ok name ∧ MarksBy pass name)
    (hplain : ∀ node ∈ nodes, IsPlain node) :
    (markAll nodes).fault = none ∧
      List.Forall₂ (Passed pass (namesOf nodes)) nodes (markAll nodes).nodes := by
  obtain ⟨names, hmap⟩ := Outcome.exists_mapM_eq_ok fun node hnode =>
    (hnames node hnode).imp fun _ hname => hname.1
  have hmarks : ∀ name ∈ names, MarksBy pass name := by
    intro name hname
    obtain ⟨node, hnode, heq⟩ := (Outcome.mem_iff_of_mapM_eq_ok hmap).mp hname
    obtain ⟨name', heq', hmarks⟩ := hnames node hnode
    rwa [Except.ok.inj (heq.symm.trans heq')]
  obtain ⟨nodes', missing, hmarked, hall⟩ := markNodes_passes hmarks hplain 0
  rw [markAll, hmap, namesOf_of_mapM hmap]
  dsimp only
  rw [hmarked]
  exact ⟨rfl, hall⟩

/-- Marking a name that is a word marks it in every text. -/
theorem marksBy_word {name : String} (hn : IsWhole name.toList) :
    MarksBy (fun name text result => result = markText [name] text) name :=
  ⟨fun text _ => ⟨_, markName_word hn text, rfl⟩, (markText_empty _).symm⟩

/-- Words that are marked one after the other are marked at once. -/
theorem eq_markText_of_passes {names : List String} {text result : String}
    (h : Passes (fun name text result => result = markText [name] text) names text result) :
    result = markText names text := by
  induction names generalizing text with
  | nil => rw [markText_nil, h]
  | cons name names ih =>
    obtain ⟨between, rfl, hothers⟩ := h
    have hboth : markText (names ++ [name]) = markText (name :: names) :=
      markText_congr fun _ => by simp [or_comm]
    rw [ih hothers, markText_markText, hboth]

theorem eq_retext_of_passed {names : List String} {node node' : Json}
    (h : Passed (fun name text result => result = markText [name] text) names node node') :
    node' = retext (markText names) node := by
  obtain ⟨f, rfl, hpasses⟩ := h
  cases htext : text? node with
  | none => simp only [retext, htext]
  | some text =>
    cases text with
    | str text =>
      rw [retext_of_text htext, retext_of_text htext, eq_markText_of_passes (hpasses text htext)]
    | _ => simp only [retext, htext]

/-- Names that are marked one after the other are marked at once. -/
theorem markNames_words {names : List String} (hnames : ∀ name ∈ names, IsWhole name.toList)
    {node : Json} (hplain : IsPlain node) (missing : Nat) : ∃ missing',
      markNames node missing names = (retext (markText names) node, missing', none) := by
  obtain ⟨node', missing', hmarked, hpassed⟩ :=
    markNames_passes (fun name hname => marksBy_word (hnames name hname)) hplain missing
  exact ⟨missing', by rw [hmarked, eq_retext_of_passed hpassed]⟩

/-- A node with a name that is a word, and with a text or none. -/
structure Markable (node : Json) : Prop where
  name : ∃ name, nameOf node = .ok name ∧ IsWhole name.toList
  text : IsPlain node

theorem Markable.retext {node : Json} (h : Markable node) (f : String → String) :
    Markable (retext f node) :=
  ⟨by rw [nameOf_retext]; exact h.name, isPlain_retext h.text f⟩

theorem Markable.isWhole {nodes : List Json} (h : ∀ node ∈ nodes, Markable node) {name : String}
    (hname : name ∈ namesOf nodes) : IsWhole name.toList := by
  obtain ⟨node, hnode, heq⟩ := mem_namesOf.mp hname
  obtain ⟨name', heq', hw⟩ := (h node hnode).name
  rwa [Except.ok.inj (heq.symm.trans heq')]

/-- A node with the uses of the names of some nodes marked in its text, word by word. -/
def markedIn (nodes : List Json) : Json → Json :=
  retext (markText (namesOf nodes))

theorem markedIn_congr {nodes nodes' : List Json}
    (h : ∀ name, name ∈ namesOf nodes ↔ name ∈ namesOf nodes') :
    markedIn nodes = markedIn nodes' := by
  rw [markedIn, markedIn, markText_congr h]

theorem namesOf_map_markedIn (nodes nodes' : List Json) :
    namesOf (nodes'.map (markedIn nodes)) = namesOf nodes' := by
  rw [namesOf, List.filterMap_map, namesOf]
  congr 1
  funext node
  rw [Function.comp_apply, markedIn, nameOf_retext]

theorem markedIn_markedIn (nodes : List Json) (node : Json) :
    markedIn nodes (markedIn nodes node) = markedIn nodes node := by
  have hnames : markText (namesOf nodes ++ namesOf nodes) = markText (namesOf nodes) :=
    markText_congr fun name => by rw [List.mem_append, or_self]
  rw [markedIn, retext_retext]
  simp only [markText_markText, hnames]

theorem markAll_words {nodes : List Json} (h : ∀ node ∈ nodes, Markable node) :
    (markAll nodes).nodes = nodes.map (markedIn nodes) ∧ (markAll nodes).fault = none := by
  obtain ⟨hfault, hpassed⟩ := markAll_passes
    (fun node hnode => (h node hnode).name.imp fun _ hname => hname.imp_right marksBy_word)
    (fun node hnode => (h node hnode).text)
  refine ⟨?_, hfault⟩
  rw [← List.forall₂_eq_eq_eq, List.forall₂_map_right_iff]
  exact hpassed.flip.imp fun _ _ => eq_retext_of_passed

/-- If the names of nodes are words, each node gets the same text in whatever order and however
often the nodes stand in the list: the one in which the words that are names and used are marked. A
node that is marked twice is marked as once, be it within a run or by a second run. -/
theorem marked_alike_in_every_order {nodes nodes' : List Json}
    (hmarkable : ∀ node ∈ nodes, Markable node) (hsame : ∀ node, node ∈ nodes' ↔ node ∈ nodes) :
    ((markAll nodes').nodes = nodes'.map (markedIn nodes) ∧ (markAll nodes').fault = none) ∧
    (∀ node ∈ nodes, ∀ missing, ∃ missing',
      markNames (markedIn nodes node) missing (namesOf nodes') =
        (markedIn nodes node, missing', none)) ∧
    (markAll (markAll nodes').nodes).nodes = (markAll nodes').nodes ∧
      (markAll (markAll nodes').nodes).fault = none := by
  have hmarkable' : ∀ node ∈ nodes', Markable node :=
    fun node hnode => hmarkable node ((hsame node).mp hnode)
  have hnames : markedIn nodes' = markedIn nodes :=
    markedIn_congr fun name => by simp only [mem_namesOf, hsame]
  obtain ⟨hfirst, hfault⟩ := markAll_words hmarkable'
  rw [hnames] at hfirst
  refine ⟨⟨hfirst, hfault⟩, ?_, ?_⟩
  · intro node hnode missing
    obtain ⟨missing', htwice⟩ := markNames_words (fun _ hname => Markable.isWhole hmarkable' hname)
      ((hmarkable node hnode).retext (markText (namesOf nodes))).text missing
    have hagain : markedIn nodes' (markedIn nodes node) = markedIn nodes node := by
      rw [hnames, markedIn_markedIn]
    exact ⟨missing', htwice.trans (congrArg (·, missing', none) hagain)⟩
  · have hagain : markedIn (nodes'.map (markedIn nodes)) = markedIn nodes :=
      (markedIn_congr fun name => by rw [namesOf_map_markedIn]).trans hnames
    have hmarked : ∀ node ∈ nodes'.map (markedIn nodes), Markable node := by
      refine List.forall_mem_map.mpr fun node hnode => ?_
      exact (hmarkable' node hnode).retext _
    obtain ⟨hsecond, hfault'⟩ := markAll_words hmarked
    rw [hagain, List.map_map] at hsecond
    rw [hfirst]
    refine ⟨hsecond.trans (List.map_congr_left fun node _ => ?_), hfault'⟩
    exact markedIn_markedIn nodes node

namespace TwoNames

def nodeOf (name text : String) : Json :=
  .obj [("attributes", .obj [("name", .str name), ("text", .str text)])]

theorem markable_nodeOf {name : String} (h : IsWhole name.toList) (text : String) :
    Markable (nodeOf name text) :=
  ⟨⟨name, rfl, h⟩, fun _ htext => .inr ⟨text, (Option.some.inj htext).symm⟩⟩

def short : Json :=
  nodeOf "a" "ab.a(ab) a : <<<ab>>>."

def long : Json :=
  nodeOf "ab" "a\n (ab: aab("

theorem markable_short : Markable short :=
  markable_nodeOf ⟨by decide, List.all_eq_true.mp (by decide)⟩ _

theorem markable_long : Markable long :=
  markable_nodeOf ⟨by decide, List.all_eq_true.mp (by decide)⟩ _

/-- A name that is the beginning of another one, with a node that stands twice. -/
theorem long_first_and_twice_alike :
    (∀ node ∈ [short, long], Markable node) ∧
    (∀ node, node ∈ [long, short, long] ↔ node ∈ [short, long]) ∧
    (markAll [long, short, long]).nodes =
      [long, short, long].map (markedIn [short, long]) ∧
    (markAll (markAll [long, short, long]).nodes).nodes = (markAll [long, short, long]).nodes := by
  have hmarkable : ∀ node ∈ [short, long], Markable node := by
    simp [markable_short, markable_long]
  have hsame : ∀ node, node ∈ [long, short, long] ↔ node ∈ [short, long] := by
    intro node
    simp only [List.mem_cons, List.not_mem_nil, or_false]
    tauto
  obtain ⟨hfirst, -, hsecond⟩ := marked_alike_in_every_order hmarkable hsame
  exact ⟨hmarkable, hsame, hfirst.1, hsecond.1⟩

example : (markAll [long, short]).nodes =
    [nodeOf "ab" "<<<a>>>\n (<<<ab>>>: aab(",
      nodeOf "a" "<<<ab>>>.<<<a>>>(ab) <<<a>>> : <<<ab>>>."] :=
  rfl

end TwoNames
end CodeAtlas.Marking
