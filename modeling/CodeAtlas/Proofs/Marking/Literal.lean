import CodeAtlas.Proofs.Marking.Faults
import CodeAtlas.Proofs.Marking.Fits
import Mathlib.Data.Set.Basic

namespace CodeAtlas.Marking
open Text Text.Expression

/-- The text of some characters, with another text in each place that is left open. -/
def filled (piece : List Char) (parts : List (Option Char)) : List Char :=
  parts.flatMap fun part => part.elim piece ([·])

/-- The characters of a text, with the places of the fits left open. -/
def opened : Pattern.Span → Option Char
  | .kept c => some c
  | .found _ _ => none

theorem filled_opened (piece : List Char) (spans : List Pattern.Span) :
    filled piece (spans.map opened) = spans.flatMap (shown piece) := by
  rw [filled, List.flatMap_map]
  apply List.flatMap_congr
  intro span _
  cases span <;> rfl

/-- One text is another one with brackets around pieces that are the name: without these brackets it
is the other text. -/
def Encloses (name text result : String) : Prop :=
  ∃ parts, filled name.toList parts = text.toList ∧
    filled (bracketed name.toList) parts = result.toList

/-- If a name does not stand in a text, there is nothing to put brackets around. -/
theorem Encloses.eq_of_not_mem {name text result : String} (h : Encloses name text result)
    {c : Char} (hname : c ∈ name.toList) (htext : c ∉ text.toList) : result = text := by
  obtain ⟨parts, hparts, hresult⟩ := h
  have hnone : ∀ part ∈ parts, part ≠ none := by
    rintro _ hmem rfl
    apply htext
    rw [← hparts]
    exact List.mem_flatMap.mpr ⟨none, hmem, hname⟩
  have hsame : filled (bracketed name.toList) parts = filled name.toList parts := by
    apply List.flatMap_congr
    intro part hmem
    obtain ⟨d, rfl⟩ := Option.ne_none_iff_exists'.mp (hnone part hmem)
    rfl
  rw [← String.toList_inj, ← hresult, hsame, hparts]

/-- A name is taken literally if marking it succeeds in every text, and only puts brackets around
pieces that are the name. An empty text has nothing to mark. -/
def TakenLiterally (name : String) : Prop :=
  ∀ text, text ≠ "" → ∃ result, markName name (.str text) = .ok result ∧ Encloses name text result

theorem TakenLiterally.marksBy {name : String} (h : TakenLiterally name) : MarksBy Encloses name :=
  ⟨h, [], rfl, rfl⟩

/-- A pattern that fits nothing but a name. -/
structure FitsOnly (p : Pattern) (name : List Char) : Prop where
  fits : ∀ {advance : Bool} {s t : Cursor}, s.marks = [] → p.fit? advance s = some t →
    name <+: s.rest ∧ t = s.skip name ∧ (advance = true → name ≠ [])

/-- The pieces of a text with the name in the place of each fit are the text. -/
theorem FitsOnly.shown_spansFrom {p : Pattern} {name : List Char} (h : FitsOnly p name)
    (text : List Char) (index : Nat) (before : List Char) :
    (p.spansFrom 0 index before text).flatMap (shown name) = text := by
  induction hlength : text.length using Nat.strong_induction_on
    generalizing text index before with
  | _ n ih =>
    cases text with
    | nil =>
      rw [Pattern.spansFrom]
      cases hfit : p.fit? false ⟨index, before, [], []⟩ with
      | none => rfl
      | some stop =>
        obtain ⟨hname, -, -⟩ := h.fits rfl hfit
        obtain rfl := List.prefix_nil.mp hname
        rfl
    | cons c rest =>
      have hrest := ih rest.length (by simp [← hlength]) rest (index + 1) (c :: before) rfl
      rw [Pattern.spansFrom]
      cases hfit : p.fit? false ⟨index, before, c :: rest, []⟩ with
      | none =>
        dsimp only
        rw [List.flatMap_cons, hrest]
        rfl
      | some stop =>
        obtain ⟨⟨after, hafter⟩, rfl, -⟩ := h.fits rfl hfit
        have hindex : index + name.length - index = name.length := Nat.add_sub_cancel_left ..
        dsimp only [Cursor.skip] at hafter ⊢
        rw [hindex]
        -- behind a fit of no characters none is looked for that takes some
        cases name with
        | nil =>
          have hnone : p.fit? true ⟨index, before, c :: rest, []⟩ = none := by
            apply Option.eq_none_iff_forall_ne_some.mpr
            intro t ht
            exact (h.fits rfl ht).2.2 rfl rfl
          dsimp only [List.length_nil]
          rw [hnone, List.flatMap_cons, List.flatMap_cons, hrest]
          rfl
        | cons d name =>
          rw [List.cons_append] at hafter
          obtain ⟨rfl, rfl⟩ := List.cons.inj hafter
          have hshorter : after.length < n := by
            rw [← hlength, List.length_cons, List.length_append]
            omega
          dsimp only [List.length_cons]
          rw [List.flatMap_cons, spansFrom_skip, ih after.length hshorter _ _ _ rfl]
          rfl

theorem exists_found_here {p : Pattern} {index : Nat} {before text : List Char} {t : Cursor}
    (h : p.fit? false ⟨index, before, text, []⟩ = some t) :
    ∃ first last, .found first last ∈ p.spansFrom 0 index before text := by
  refine ⟨⟨index, before, text, []⟩, t, ?_⟩
  cases text with
  | nil => simp [Pattern.spansFrom, h]
  | cons c rest =>
    rw [Pattern.spansFrom, h]
    dsimp only
    split <;> exact List.mem_cons_self

/-- If a pattern fits somewhere in a text, a fit is found there or before it. -/
theorem exists_found {p : Pattern} {start rest : List Char} {index : Nat} {before : List Char}
    {t : Cursor}
    (h : p.fit? false ⟨index + start.length, start.reverse ++ before, rest, []⟩ = some t) :
    ∃ first last, .found first last ∈ p.spansFrom 0 index before (start ++ rest) := by
  induction start generalizing index before with
  | nil => exact exists_found_here h
  | cons c start ih =>
    cases hfit : p.fit? false ⟨index, before, c :: start ++ rest, []⟩ with
    | none =>
      have hnext : p.fit? false
          ⟨index + 1 + start.length, start.reverse ++ c :: before, rest, []⟩ = some t := by
        simpa [Nat.add_assoc, Nat.add_comm 1] using h
      obtain ⟨first, last, hmem⟩ := ih hnext
      refine ⟨first, last, ?_⟩
      rw [List.cons_append] at hfit ⊢
      rw [Pattern.spansFrom, hfit]
      exact List.mem_cons_of_mem _ hmem
    | some stop => exact exists_found_here hfit

section Spelled
variable {items : List Item}

theorem isMember_of_mem_inner {item : Item} {c : Char} (h : c ∈ item.inner) :
    '[' ∈ item.spelled ∧ isMember c = true := by
  have hslot : ∀ slot : Slot, c ∈ slot.inner → '[' ∈ slot.spelled ∧ isMember c = true := by
    intro slot hc
    cases slot with
    | char d => simp [Slot.inner] at hc
    | any => simp [Slot.inner] at hc
    | among m => exact ⟨by simp [Slot.spelled], m.all_isMember c hc⟩
  cases item with
  | once slot => exact hslot slot h
  | counted slot sign lazily =>
    exact (hslot slot h).imp_left fun hmem => List.mem_append_left _ hmem
  | ending => simp [Item.inner] at h

/-- A part that does not stand for itself is spelled with a character that does not, and that stands
between no brackets. -/
theorem exists_mem_spelled (h : items.all Item.isPlain = false) :
    ∃ c ∈ spelled items, isOwn c = false ∧ c ≠ '(' ∧ c ∉ innerOf items := by
  by_cases hinner : innerOf items = []
  · obtain ⟨item, hmem, hitem⟩ := List.all_eq_false.mp h
    suffices hc : ∃ c ∈ item.spelled, isOwn c = false ∧ c ≠ '(' by
      obtain ⟨c, hc, hown⟩ := hc
      exact ⟨c, List.mem_flatMap.mpr ⟨item, hmem, hc⟩, hown.1, hown.2, by simp [hinner]⟩
    cases item with
    | once slot =>
      cases slot with
      | char c => simp [Item.isPlain] at hitem
      | any => exact ⟨'.', by decide, by decide, by decide⟩
      | among m => exact ⟨'[', by simp [Item.spelled, Slot.spelled], by decide, by decide⟩
    | counted slot sign lazily =>
      refine ⟨sign.spelled, by simp [Item.spelled], ?_⟩
      cases sign <;> decide
    | ending => exact ⟨'$', by decide, by decide, by decide⟩
  · obtain ⟨c, hc⟩ := List.exists_mem_of_ne_nil _ hinner
    obtain ⟨item, hmem, hc⟩ := List.mem_flatMap.mp hc
    refine ⟨'[', List.mem_flatMap.mpr ⟨item, hmem, (isMember_of_mem_inner hc).1⟩, by decide,
      by decide, ?_⟩
    intro hbracket
    obtain ⟨_, -, hbracket⟩ := List.mem_flatMap.mp hbracket
    exact absurd (isMember_of_mem_inner hbracket).2 (by decide)

theorem backslash_not_mem_slot (slot : Slot) : '\\' ∉ slot.spelled := by
  intro h
  cases slot with
  | char c =>
    have hc := c.2
    rw [← List.mem_singleton.mp h] at hc
    exact absurd hc (by decide)
  | any => exact absurd h (by decide)
  | among m =>
    have hmem : '\\' ∈ m.chars := by simpa [Slot.spelled] using h
    exact absurd (m.all_isMember _ hmem) (by decide)

theorem backslash_not_mem_spelled : '\\' ∉ spelled items := by
  intro h
  obtain ⟨item, -, hitem⟩ := List.mem_flatMap.mp h
  cases item with
  | once slot => exact backslash_not_mem_slot slot hitem
  | counted slot sign lazily =>
    rcases List.mem_append.mp hitem with hitem | hitem
    · exact backslash_not_mem_slot slot hitem
    · cases sign <;> cases lazily <;> exact absurd hitem (by decide)
  | ending => exact absurd hitem (by decide)

theorem markName_spelled (items : List Item) (text : String) :
    markName (String.ofList (spelled items)) (.str text) = .ok (String.ofList
      (((patternOf items).spans text.toList).flatMap (shown (bracketed (spelled items))))) := by
  have hplain : '\\' ∉ (String.ofList (spelled items)).toList := by
    rw [String.toList_ofList]
    exact backslash_not_mem_spelled
  rw [markName_of_ofText (ofText_spelled items) hplain, String.toList_ofList]

/-- Parts that stand for themselves take the name alone. -/
theorem eq_spelled_of_takes {taken after : List Char} (h : Takes items taken after)
    (hplain : items.all Item.isPlain = true) : taken = spelled items := by
  induction h with
  | nil => rfl
  | @once slot items c taken after first others ih =>
    rw [List.all_cons, Bool.and_eq_true] at hplain
    cases slot with
    | char d =>
      rw [Slot.takes_char.mp first, ih hplain.2]
      rfl
    | any => simp [Item.isPlain] at hplain
    | among m => simp [Item.isPlain] at hplain
  | counted => simp [Item.isPlain] at hplain
  | ending => simp [Item.isPlain] at hplain

/-- If all parts stand for themselves, or cannot end behind a word character, the expression fits
nothing but the name. -/
theorem fitsOnly_patternOf (h : items.all Item.isPlain = true ∨ mayEnd true items = false) :
    FitsOnly (patternOf items) (spelled items) := by
  constructor
  intro advance s t hs hfit
  obtain ⟨taken, after, hrest, huse, ht, hadvance⟩ := isUse_of_fit? hs hfit
  rcases h with hplain | hend
  · obtain rfl := eq_spelled_of_takes huse.takes hplain
    exact ⟨⟨after, hrest.symm⟩, ht, hadvance⟩
  · simp [mayEnd_of_isUse huse] at hend

theorem encloses_of_fitsOnly (h : FitsOnly (patternOf items) (spelled items)) (text : String) :
    Encloses (String.ofList (spelled items)) text (String.ofList
      (((patternOf items).spans text.toList).flatMap (shown (bracketed (spelled items))))) := by
  refine ⟨((patternOf items).spans text.toList).map opened, ?_, ?_⟩
  · rw [filled_opened, String.toList_ofList]
    exact h.shown_spansFrom text.toList 0 []
  · rw [filled_opened, String.toList_ofList, String.toList_ofList]

/-- If the parts may end behind a word character, there is a text in which marking finds the name,
of characters that stand for themselves or between its brackets, and a parenthesis. -/
theorem exists_mem_found (h : mayEnd true items = true) :
    ∃ text : String, text ≠ "" ∧
      (∀ c ∈ text.toList, (isOwn c = true ∨ c ∈ innerOf items) ∨ c = '(') ∧
      ∃ first last, .found first last ∈ (patternOf items).spans text.toList := by
  obtain ⟨before, taken, huse, hcs⟩ := exists_isUse h
  obtain ⟨t, hfit⟩ := exists_fit?_of_isUse (s := ⟨before.length, before, taken ++ ['('], []⟩)
    rfl rfl huse
  refine ⟨String.ofList (before.reverse ++ (taken ++ ['('])), ?_, ?_, ?_⟩
  · intro hempty
    simpa using congrArg String.toList hempty
  · intro c hc
    simp only [String.toList_ofList, List.mem_append, List.mem_reverse, List.mem_singleton] at hc
    rcases hc with hc | hc | hc
    · exact .inl (hcs c (by simp [hc]))
    · exact .inl (hcs c (by simp [hc]))
    · exact .inr hc
  · rw [String.toList_ofList]
    apply exists_found (t := t)
    simpa using hfit

/-- A name that is made of parts is taken literally exactly if all of them stand for themselves, or
if they cannot end behind a word character. -/
theorem takenLiterally_spelled_iff (items : List Item) :
    TakenLiterally (String.ofList (spelled items)) ↔
      items.all Item.isPlain = true ∨ mayEnd true items = false := by
  constructor
  · intro h
    by_contra hnot
    rw [not_or, Bool.not_eq_true, Bool.not_eq_false] at hnot
    obtain ⟨c, hc, hown, hparen, hinner⟩ := exists_mem_spelled hnot.1
    obtain ⟨text, hne, hcs, first, last, hfound⟩ := exists_mem_found hnot.2
    obtain ⟨result, hmark, hencloses⟩ := h text hne
    -- the character stands in the mark of the name, but not in the text
    have hresult : c ∈ result.toList := by
      obtain rfl := Except.ok.inj ((markName_spelled items text).symm.trans hmark)
      rw [String.toList_ofList]
      exact List.mem_flatMap.mpr ⟨_, hfound, by simp [shown, bracketed, hc]⟩
    have htext : c ∉ text.toList := by
      intro hmem
      rcases hcs c hmem with (hc' | hc') | hc'
      · simp [hown] at hc'
      · exact hinner hc'
      · exact hparen hc'
    have hname : c ∈ (String.ofList (spelled items)).toList := by
      rwa [String.toList_ofList]
    rw [hencloses.eq_of_not_mem hname htext] at hresult
    exact htext hresult
  · intro h text _
    exact ⟨_, markName_spelled items text, encloses_of_fitsOnly (fitsOnly_patternOf h) text⟩

end Spelled

/-- Marking some nodes succeeds, and for each name it only puts brackets around pieces of the texts
that are the name. -/
def MarkedLiterally (nodes : List Json) : Prop :=
  (markAll nodes).fault = none ∧
    List.Forall₂ (Passed Encloses (namesOf nodes)) nodes (markAll nodes).nodes

section Single
open TwoNames
variable {name text : String} (htext : text ≠ "")

include htext in
/-- What marking a single node comes to is what marking its name in its text comes to. -/
theorem markAll_nodeOf (name : String) :
    (∃ fault, markName name (.str text) = .error fault ∧
      markAll [nodeOf name text] = ⟨[nodeOf name text], [], some fault⟩) ∨
    ∃ result, markName name (.str text) = .ok result ∧
      markAll [nodeOf name text] = ⟨[nodeOf name result], [], none⟩ := by
  have hnames : [nodeOf name text].mapM nameOf = .ok [name] := rfl
  have hnode : text? (nodeOf name text) = some (.str text) := rfl
  have hvoid : ¬(Json.str text).isVoid = true := by simpa [Json.isVoid] using htext
  rw [markAll, hnames]
  dsimp only [markNodes]
  rw [markNames, ← text?, hnode]
  dsimp only
  rw [if_neg hvoid]
  cases hmark : markName name (.str text) with
  | error fault =>
    have hfault : markNode name (.str text) (nodeOf name text) = .error fault := by
      rw [markNode, hmark]
      rfl
    exact .inl ⟨fault, rfl, by rw [hfault]; rfl⟩
  | ok result =>
    exact .inr ⟨result, rfl, by rw [markNode_ok hnode hmark]; rfl⟩

include htext in
/-- If a single node is marked literally, so is its name in its text. -/
theorem exists_of_markedLiterally (h : MarkedLiterally [nodeOf name text]) :
    ∃ result, markName name (.str text) = .ok result ∧ Encloses name text result := by
  obtain ⟨hfault, hpassed⟩ := h
  rcases markAll_nodeOf htext name with ⟨fault, -, hmarked⟩ | ⟨result, hmark, hmarked⟩
  · simp [hmarked] at hfault
  · rw [hmarked] at hpassed
    obtain ⟨f, hnode, hpasses⟩ := (List.forall₂_cons.mp hpassed).1
    obtain ⟨between, hencloses, hlast⟩ := hpasses text rfl
    have hretext : retext f (nodeOf name text) = nodeOf name (f text) := rfl
    obtain rfl : result = f text := by
      rw [hretext] at hnode
      simpa [nodeOf] using hnode
    obtain rfl : f text = between := hlast
    exact ⟨f text, hmark, hencloses⟩

end Single

/-- Names are taken literally one by one. Nodes with names of a set are marked literally, whatever
texts they have and in whatever number they stand in the list, exactly if each of the names is taken
literally by itself. A name that is made of parts is, exactly if all the parts stand for themselves,
or if they cannot end behind a word character: then nothing is marked. A name that cannot be read
makes marking fail for all nodes, as soon as one of them has a text. -/
theorem marked_literally_iff (names : Set String) :
    ((∀ nodes, (∀ node ∈ nodes, IsPlain node ∧ ∃ name ∈ names, nameOf node = .ok name) →
        MarkedLiterally nodes) ↔
      ∀ name ∈ names, TakenLiterally name) ∧
    (∀ items, TakenLiterally (String.ofList (spelled items)) ↔
      items.all Item.isPlain = true ∨ mayEnd true items = false) ∧
    (∀ nodes, (∃ name ∈ namesOf nodes, Unreadable name.toList) → (∃ node ∈ nodes, HasText node) →
      (markAll nodes).fault ≠ none) := by
  refine ⟨⟨?_, ?_⟩, takenLiterally_spelled_iff, ?_⟩
  · intro h name hname text htext
    apply exists_of_markedLiterally htext
    apply h
    intro node hnode
    obtain rfl := List.mem_singleton.mp hnode
    refine ⟨fun _ hvalue => .inr ⟨text, (Option.some.inj hvalue).symm⟩, name, hname, rfl⟩
  · intro h nodes hnodes
    apply markAll_passes
    · intro node hnode
      obtain ⟨-, name, hname, heq⟩ := hnodes node hnode
      exact ⟨name, heq, (h name hname).marksBy⟩
    · exact fun node hnode => (hnodes node hnode).1
  · rintro nodes ⟨name, hmem, hunreadable⟩ ⟨node, hnode, htext⟩
    apply markAll_fault _ hmem hnode htext
    intro text result
    simp [markName_of_unreadable hunreadable]

namespace Signs
open TwoNames

def own (c : Char) (h : isOwn c = true := by decide) : Item :=
  .once (.char ⟨c, h⟩)

def iterator : Members where
  chars := "Symbol.iterator".toList
  ne_nil := by decide
  all_isMember := List.all_eq_true.mp (by decide)

/-- A hyphen stands for itself, and nothing stands behind the end of a text. A question mark and
square brackets are read as signs. -/
theorem literal_and_other_names :
    MarkedLiterally [nodeOf "a-b" "x a-b(1) axb(2)", nodeOf "$el" "$el.a-b()"] ∧
    ¬TakenLiterally "empty?" ∧ ¬TakenLiterally "[Symbol.iterator]" ∧
    (markAll [nodeOf "[]" "", nodeOf "at" "at(0)"]).fault ≠ none := by
  obtain ⟨hlists, hparts, hfault⟩ := marked_literally_iff {"a-b", "$el"}
  refine ⟨hlists.mpr ?_ _ ?_, ?_, ?_, hfault _ ?_ ?_⟩
  · rintro name (rfl | rfl)
    · exact (hparts [own 'a', own '-', own 'b']).mpr (.inl rfl)
    · exact (hparts [.ending, own 'e', own 'l']).mpr (.inr rfl)
  · intro node hnode
    simp only [List.mem_cons, List.not_mem_nil, or_false] at hnode
    rcases hnode with rfl | rfl
    · exact ⟨fun _ h => .inr ⟨_, (Option.some.inj h).symm⟩, "a-b", .inl rfl, rfl⟩
    · exact ⟨fun _ h => .inr ⟨_, (Option.some.inj h).symm⟩, "$el", .inr rfl, rfl⟩
  · have hend := (hparts
      [own 'e', own 'm', own 'p', own 't', .counted (.char ⟨'y', by decide⟩) .maybe false]).not
    exact hend.mpr (by decide)
  · exact (hparts [.once (.among iterator)]).not.mpr (by decide)
  · exact ⟨"[]", mem_namesOf.mpr ⟨_, List.mem_cons_self, rfl⟩, .unclosed [] (by decide)⟩
  · exact ⟨_, List.mem_cons_of_mem _ List.mem_cons_self, _, rfl, rfl⟩

/-- The period in the name of a file is read as any character, so another name is marked and lost.
The name of an operator is no expression at all. -/
theorem names_read_as_expressions :
    ¬MarkedLiterally [nodeOf "a.py" "axpy(1)"] ∧ ¬MarkedLiterally [nodeOf "[]" "at(0)"] := by
  constructor
  · intro h
    obtain ⟨result, hmark, hencloses⟩ := exists_of_markedLiterally (by decide) h
    have hlost : markName "a.py" (.str "axpy(1)") = .ok "<<<a.py>>>(1)" := rfl
    rw [hencloses.eq_of_not_mem (c := '.') (by decide) (by decide), hlost] at hmark
    exact absurd (Except.ok.inj hmark) (by decide)
  · intro h
    exact absurd h.1 (by decide)

end Signs
end CodeAtlas.Marking
