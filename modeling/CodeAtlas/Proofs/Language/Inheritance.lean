import CodeAtlas.Proofs.Language.Usage
import CodeAtlas.Proofs.Outline.Attribution

namespace CodeAtlas
open Source

namespace Mark

theorem le_ofPoint_eq (p q : Point) : (ofPoint p).le (ofPoint q) = .ok (decide (p.Le q)) := by
  simp only [le, ofPoint, Json.same_int, Json.le_int, Point.Le]
  by_cases hline : p.line = q.line
  · by_cases hchar : p.character = q.character <;> simp [hline, hchar]
  · simp only [hline, decide_false, Bool.not_false, if_true, false_and, or_false, Except.ok.injEq,
      decide_eq_decide]
    omega

theorem lt_ofPoint_eq (p q : Point) : (ofPoint p).lt (ofPoint q) = .ok (decide ¬q.Le p) := by
  simp only [lt, ofPoint, Json.same_int, Json.lt_int, Point.Le]
  by_cases hline : p.line = q.line
  · by_cases hchar : p.character = q.character <;> simp [hline, hchar]
  · have hcompare : p.line < q.line ↔ ¬q.line < p.line := by omega
    simp only [hline, Ne.symm hline, decide_false, Bool.not_false, if_true, false_and, or_false,
      hcompare]

end Mark

namespace Source
variable {n m : SyntaxNode} {r : Range}

theorem Spot.Reaches.le {s s' : Spot} (h : s.Reaches s') : s.point.Le s'.point := by
  have hpoint := h.point
  simp only [Point.Le, Spot.point]
  omega

/-- What is below a node of a tree that was laid out stands inside it. -/
theorem SyntaxNode.StandsIn.encloses {first last : Spot} (h : n.StandsIn first last)
    (hm : n.Encloses m) : m.StandsIn n.start n.stop := by
  induction hm with
  | refl => exact standsIn_iff.mpr ⟨.refl _, .refl _, (standsIn_iff.mp h).2.2⟩
  | tail _ hk ih =>
    obtain ⟨hfirst, hlast, hchildren⟩ := standsIn_iff.mp ih
    obtain ⟨i, hi⟩ := List.mem_iff_getElem?.mp hk
    exact (hchildren.child hi).mono hfirst hlast

section
variable {above others : List SyntaxNode}

theorem locateIn_of_before (h : m.stop.point.Le r.start) :
    locateIn (.ofRange r) n above (m :: others) = locateIn (.ofRange r) n above others := by
  rw [locateIn]
  simp only [Extent.ofRange, Spot.mark, Mark.lt_ofPoint_eq, Mark.le_ofPoint_eq, h, bind,
    Except.bind, decide_true, pure, Except.pure]
  by_cases hshort : r.stop.Le m.stop.point <;> simp [hshort]

theorem locateIn_of_holds (h : m.range.Holds r) (hr : ¬r.stop.Le r.start) :
    locateIn (.ofRange r) n above (m :: others) = m.locate (.ofRange r) (n :: above) := by
  obtain ⟨hstart, hstop⟩ := h
  have hafter : ¬m.stop.point.Le r.start := by
    simp only [Point.Le, SyntaxNode.range] at *
    omega
  rw [locateIn]
  simp only [SyntaxNode.range] at hstart hstop
  simp only [Extent.ofRange, Spot.mark, Mark.lt_ofPoint_eq, Mark.le_ofPoint_eq, hstart, hstop,
    hafter, bind, Except.bind, not_true, decide_false, Bool.false_eq_true, if_false]

/-- The search goes into the child that holds a range: those before it end where the range begins,
or before. -/
theorem locateIn_of_mem {first last : Spot} (h : StandIn first last others) (hm : m ∈ others)
    (hholds : m.range.Holds r) (hr : ¬r.stop.Le r.start) :
    locateIn (.ofRange r) n above others = m.locate (.ofRange r) (n :: above) := by
  induction others generalizing first with
  | nil => cases hm
  | cons k others ih =>
    obtain ⟨between, hk, hothers⟩ := h
    rcases List.mem_cons.mp hm with rfl | hm
    · exact locateIn_of_holds hholds hr
    · obtain ⟨i, hi⟩ := List.mem_iff_getElem?.mp hm
      have hbefore : k.stop.Reaches m.start :=
        (SyntaxNode.standsIn_iff.mp hk).2.1.trans
          (SyntaxNode.standsIn_iff.mp (hothers.child hi)).1
      have hle : k.stop.point.Le r.start := by
        have hspots := hbefore.le
        have hstart := hholds.1
        simp only [Point.Le, SyntaxNode.range] at *
        omega
      rw [locateIn_of_before hle, ih hothers hm]

end

namespace Cursor
variable {c d : Cursor}

theorem LeadsTo.exists_between (h : c.LeadsTo d) :
    ∃ between, d.chain = between ++ c.chain ∧ ∀ m ∈ between, c.node.Encloses m := by
  induction h with
  | refl => exact ⟨[], rfl, by simp⟩
  | @tail d d' hd hchild ih =>
    obtain ⟨m, hm, rfl⟩ := mem_children.mp hchild
    obtain ⟨between, hbetween, hinside⟩ := ih
    refine ⟨m :: between, ?_, List.forall_mem_cons.mpr ⟨(encloses hd).tail hm, hinside⟩⟩
    rw [List.cons_append, ← hbetween]
    rfl

/-- A range that a node of a tree holds is located at the node or below it. -/
theorem LeadsTo.locate_of_holds {first last : Spot} (h : c.LeadsTo d)
    (hc : c.node.StandsIn first last) (hholds : d.node.range.Holds r) (hr : ¬r.stop.Le r.start) :
    ∃ found, c.locate (.ofRange r) = .ok found ∧ d.LeadsTo found := by
  induction h using Relation.ReflTransGen.head_induction_on generalizing first last with
  | refl =>
    obtain ⟨found, hfound⟩ := exists_locate d r
    exact ⟨found, hfound, locate_leadsTo hfound⟩
  | @head c child hchild hd ih =>
    obtain ⟨m, hm, rfl⟩ := mem_children.mp hchild
    have hstands := hc.encloses (.single hm)
    obtain ⟨found, hfound, hleads⟩ := ih hstands
    obtain ⟨hstart, hstop, -⟩ := SyntaxNode.standsIn_iff.mp (hstands.encloses (LeadsTo.encloses hd))
    refine ⟨found, ?_, hleads⟩
    rw [← hfound, locate, SyntaxNode.locate_eq,
      locateIn_of_mem (SyntaxNode.standsIn_iff.mp hc).2.2 hm (hholds.outer hstart hstop) hr]
    rfl

end Cursor
end Source

namespace Language

/-- Does a cursor stand at the clause of a class that names its base classes? In Python this is the
child of a class with that field, in the other languages a kind of node. -/
def IsBaseClause (l : Language) (c : Cursor) : Prop :=
  match l with
  | python => c.node.kind = "argument_list" ∧ c.node.field = some "superclasses" ∧
      c.above.head?.map SyntaxNode.kind = some "class_definition"
  | javascript | typescript => c.node.kind = "class_heritage"
  | ruby => c.node.kind = "superclass"

variable {l : Language} {c clause : Cursor} {n : SyntaxNode} {type : RelationType}

theorem mem_table_of_means {label : Label} {table : Assoc String RelationType} (hl : l ≠ .ruby)
    (htable : l.relationTable label = some table) (h : l.Means label n type) :
    (n.kind, type) ∈ table := by
  cases h with
  | listed _ hsome kind =>
    cases htable.symm.trans hsome
    exact kind
  | _ => exact absurd rfl hl

theorem IsBaseClause.silent (h : python.IsBaseClause clause) :
    python.Silent .class_ clause.node where
  meaningless type hmeans := by
    have hlisted := mem_table_of_means (by decide) rfl hmeans
    rw [h.1] at hlisted
    simp at hlisted
  clear hobscure := by cases hobscure.ruby

theorem IsBaseClause.means (h : l.IsBaseClause clause) (hl : l ≠ .python) :
    l.Means .class_ clause.node .inherits := by
  cases l with
  | python => exact absurd rfl hl
  | javascript => exact .listed (by decide) rfl (by simp [show clause.node.kind = _ from h])
  | typescript => exact .listed (by decide) rfl (by simp [show clause.node.kind = _ from h])
  | ruby => exact .inherits h

/-- Only a node that means it tells that a class is inherited from. -/
theorem exists_of_inherits {chain : List SyntaxNode} {usage : Usage}
    (h : (fun found => found.getD ⟨.uses, none⟩) <$> l.usage? .class_ chain = .ok usage)
    (htype : usage.type = .inherits) :
    ∃ m ∈ chain, l.Means .class_ m .inherits ∧ usage.scope = some m := by
  obtain ⟨found, hfound, rfl⟩ := Outcome.map_eq_ok.mp h
  cases found with
  | none => cases htype
  | some usage =>
    obtain ⟨m, hreached, hmeans, hscope⟩ := (usage?_eq_some (.inl rfl)).mp hfound
    rw [Option.getD_some] at htype
    exact ⟨m, hreached.mem, htype ▸ hmeans, hscope⟩

/-- Where no node says anything the search goes on behind it. -/
theorem usage?_append {label : Label} (hlabel : label = .class_ ∨ label = .function)
    {before : List SyntaxNode} (h : ∀ m ∈ before, l.Silent label m) (after : List SyntaxNode) :
    l.usage? label (before ++ after) = l.usage? label after := by
  induction before with
  | nil => rfl
  | cons m before ih =>
    obtain ⟨hm, hbefore⟩ := List.forall_mem_cons.mp h
    rw [← ih hbefore, usage?_eq_nearest, usage?_eq_nearest, List.cons_append,
      nearest_of_none ((classify_eq_none hlabel).mpr hm)]

/-- In Python the search goes on behind the clause, as if it were not there. -/
theorem IsBaseClause.usage?_python (h : python.IsBaseClause clause) {between : List SyntaxNode}
    (hbetween : ∀ m ∈ between, ∀ type, ¬python.Means .class_ m type) :
    python.usage? .class_ (between ++ clause.chain) = python.usage? .class_ clause.above := by
  have hquiet : ∀ m ∈ between ++ [clause.node], python.Silent .class_ m := by
    intro m hm
    rcases List.mem_append.mp hm with hm | hm
    · exact ⟨hbetween m hm, fun hobscure => by cases hobscure.ruby⟩
    · rw [List.mem_singleton.mp hm]
      exact h.silent
  have habove := usage?_append (.inl rfl) hquiet clause.above
  rw [List.append_assoc, List.singleton_append] at habove
  exact habove

/-- In the other languages the clause tells, unless the search does not come to it. -/
theorem IsBaseClause.usage?_eq_inherits_iff (h : l.IsBaseClause clause) (hl : l ≠ .python)
    {between : List SyntaxNode} (hbetween : ∀ m ∈ between, ∀ type, ¬l.Means .class_ m type) :
    (fun found => found.getD ⟨.uses, none⟩) <$> l.usage? .class_ (between ++ clause.chain) =
        .ok ⟨.inherits, some clause.node⟩ ↔ ∀ m ∈ between, ¬l.Obscure .class_ m := by
  constructor
  · intro hinherits m hm hobscure
    obtain ⟨before, after, rfl⟩ := List.append_of_mem hm
    have hfault : l.usage? .class_ (before ++ m :: after ++ clause.chain) =
        .error .callWithoutMethod := by
      refine (usage?_eq_error (.inl rfl)).mpr ⟨rfl, m, ?_, hobscure⟩
      exact ⟨before, after ++ clause.chain, by simp, fun k hk => hbetween k (by simp [hk])⟩
    rw [hfault] at hinherits
    cases hinherits
  · intro hclear
    have hquiet : ∀ m ∈ between, l.Silent .class_ m := fun m hm => ⟨hbetween m hm, hclear m hm⟩
    have hmeans := (classify_eq_some (.inl rfl)).mpr (h.means hl)
    rw [usage?_append (.inl rfl) hquiet, Cursor.chain, usage?_eq_nearest,
      nearest_of_some hmeans]
    rfl

end Language

/-- What stands in the clause of a class that names its base classes, with no other node in between
that means anything, is told by the clause to be inherited from, unless a call that Ruby cannot
tell stands in between or the language is Python. In Python the use is told by what stands above
the clause, and hence is no inheritance. All that lies in the clause is located in it. -/
theorem inherits_iff_base_clause {l : Language} {t : NodeTable} {key user : NodeKey} {n : Node}
    {d : Definition} {first clause : Cursor} (hn : t.node key = .ok n) (hlabel : n.label = .class_)
    (hd : t.definition user = .ok d) (hfirst : d.cursor = some first)
    (hbase : l.IsBaseClause clause) :
    (∀ e c between, first.locate e = .ok c → c.chain = between ++ clause.chain →
      (∀ m ∈ between, ∀ type, ¬l.Means .class_ m type) →
        (References.usageAt (some l) t key e user = .ok ⟨.inherits, some clause.node⟩ ↔
          l ≠ .python ∧ ∀ m ∈ between, ¬l.Obscure .class_ m) ∧
        (l = .python →
          References.usageAt (some l) t key e user =
            (fun found => found.getD ⟨.uses, none⟩) <$> l.usage? .class_ clause.above ∧
          ((∀ m ∈ clause.above, m.kind ≠ "superclasses") → ∀ usage,
            References.usageAt (some l) t key e user = .ok usage → usage.type ≠ .inherits))) ∧
      ∀ tree start stop r, tree.StandsIn start stop → (Cursor.root tree).LeadsTo first →
        first.LeadsTo clause → clause.node.range.Holds r → ¬r.stop.Le r.start →
        ∃ c between, first.locate (.ofRange r) = .ok c ∧ c.chain = between ++ clause.chain ∧
          ∀ m ∈ between, clause.node.Encloses m := by
  refine ⟨fun e c between hlocate hchain hbetween => ?_, ?_⟩
  · rw [References.usageAt_eq hn hd hfirst hlocate, hlabel, hchain]
    by_cases hl : l = .python
    · subst hl
      rw [hbase.usage?_python hbetween]
      refine ⟨⟨fun hinherits => ?_, fun h => absurd rfl h.1⟩, fun _ => ⟨rfl, ?_⟩⟩
      · obtain ⟨m, -, hmeans, hscope⟩ := Language.exists_of_inherits hinherits rfl
        obtain rfl := Option.some.inj hscope
        exact absurd hmeans (hbase.silent.meaningless _)
      · intro hnone usage husage htype
        obtain ⟨m, hm, hmeans, -⟩ := Language.exists_of_inherits husage htype
        have hlisted := Language.mem_table_of_means (by decide) rfl hmeans
        exact hnone m hm (by simpa using hlisted)
    · rw [hbase.usage?_eq_inherits_iff hl hbetween]
      exact ⟨(and_iff_right hl).symm, fun h => absurd h hl⟩
  · intro tree start stop r htree hfirst hclause hholds hr
    obtain ⟨c, hlocate, hleads⟩ :=
      hclause.locate_of_holds (htree.encloses hfirst.encloses) hholds hr
    obtain ⟨between, hchain, hinside⟩ := hleads.exists_between
    exact ⟨c, between, hlocate, hchain, hinside⟩

namespace BaseClause

/-- A class with a clause for its base class, as each language writes it. -/
def source (rootKind kind : String) (clause : List Piece) (block : Piece) : Piece :=
  .node rootKind none true [.node kind none true
    ([.text "class ", .node "identifier" (some "name") true [.text "B"]] ++ clause ++ [block])]

def base : Piece :=
  .node "identifier" none true [.text "A"]

def heritage : Piece :=
  source "program" "class_declaration"
    [.node "class_heritage" none true [.text " extends ", base]]
    (.node "class_body" (some "body") true [.text " {}"])

def arguments : Piece :=
  source "module" "class_definition"
    [.node "argument_list" (some "superclasses") true [.text "(", base, .text ")"]]
    (.node "block" (some "body") true [.text ": pass"])

/-- The tree of a source, which is the same in all languages. -/
def tree (source : Piece) : SyntaxNode :=
  (Grammar.ofPieces [source]).parse .javascript ".js" source.source

def below (c : Cursor) (i : Nat) : Cursor :=
  c.children[i]?.getD c

theorem leadsTo_below (c : Cursor) (i : Nat) : c.LeadsTo (below c i) := by
  cases h : c.children[i]? with
  | none => simpa [below, h] using .refl
  | some child => simpa [below, h] using .single (List.mem_of_getElem? h)

def heir (source : Piece) : Cursor :=
  below (.root (tree source)) 0

def clause (source : Piece) : Cursor :=
  below (heir source) 1

def node (cursor : Option Cursor) : Node where
  content := .definition ⟨.class_, ⟨.zero, "/r/a"⟩, ⟨.zero, "/r/a"⟩, .null, none, cursor, [], []⟩
  path := "file:///r/a"
  name := .null
  level := .int 2
  parent := none
  trail := []
  environment := none
  members := 0

def table (source : Piece) : NodeTable where
  nodes := #[node none, node (some (heir source))]

/-- Inside the clause there is but the name of the base class. -/
theorem located {source : Piece} {r : Range} {kinds : List String}
    (hclause : (clause source).chain.map SyntaxNode.kind = kinds)
    (hlocated : ((heir source).locate (.ofRange r)).toOption.map
      (fun c => c.chain.map SyntaxNode.kind) = some ("identifier" :: kinds))
    {c : Cursor} {between : List SyntaxNode} (hlocate : (heir source).locate (.ofRange r) = .ok c)
    (hchain : c.chain = between ++ (clause source).chain) :
    ∀ m ∈ between, m.kind = "identifier" := by
  rw [hlocate] at hlocated
  have hkinds : c.chain.map SyntaxNode.kind = "identifier" :: kinds := Option.some.inj hlocated
  rw [hchain, List.map_append, hclause, ← List.singleton_append] at hkinds
  intro m hm
  have hmem := List.mem_map_of_mem (f := SyntaxNode.kind) hm
  rw [List.append_cancel_right hkinds] at hmem
  exact List.mem_singleton.mp hmem

def heritageUse : Range :=
  ⟨⟨0, 16⟩, ⟨0, 17⟩⟩

def argumentsUse : Range :=
  ⟨⟨0, 8⟩, ⟨0, 9⟩⟩

end BaseClause

open BaseClause in
theorem BaseClause.heritage_tells :
    References.usageAt (some .javascript) (table heritage) 0 (.ofRange heritageUse) 1 =
      .ok ⟨.inherits, some (clause heritage).node⟩ := by
  have hbase : Language.javascript.IsBaseClause (clause heritage) := by
    change (clause heritage).node.kind = _
    decide +kernel
  have hclass : (table heritage).node 0 = .ok (node none) := rfl
  have hheir : (table heritage).definition 1 = .ok _ := rfl
  obtain ⟨htells, hlocates⟩ := inherits_iff_base_clause hclass rfl hheir rfl hbase
  obtain ⟨last, hstands⟩ := (Grammar.ofPieces [heritage]).parse_standsIn .javascript ".js"
    heritage.source
  obtain ⟨c, between, hlocate, hchain, -⟩ := hlocates (tree heritage) _ _ heritageUse hstands
    (leadsTo_below _ _) (leadsTo_below _ _) (by decide +kernel) (by decide)
  have hkinds := located rfl (by decide +kernel) hlocate hchain
  refine (htells _ c between hlocate hchain ?_).1.mpr ⟨by decide, ?_⟩
  · intro m hm type hmeans
    have hlisted := Language.mem_table_of_means (by decide) rfl hmeans
    simp [hkinds m hm] at hlisted
  · intro m _ hobscure
    cases hobscure.ruby

open BaseClause in
/-- In Python the name of the base class is a plain use of it. -/
theorem BaseClause.arguments_tell_nothing :
    Language.python.IsBaseClause (clause arguments) ∧
      (∃ c between, (heir arguments).locate (.ofRange argumentsUse) = .ok c ∧
        c.chain = between ++ (clause arguments).chain ∧
        ∀ m ∈ between, ∀ type, ¬Language.python.Means .class_ m type) ∧
      References.usageAt (some .python) (table arguments) 0 (.ofRange argumentsUse) 1 =
        .ok ⟨.uses, none⟩ := by
  have hbase : Language.python.IsBaseClause (clause arguments) :=
    ⟨by decide +kernel, by decide +kernel, by decide +kernel⟩
  obtain ⟨last, hstands⟩ := (Grammar.ofPieces [arguments]).parse_standsIn .javascript ".js"
    arguments.source
  have hheir := leadsTo_below (.root (tree arguments)) 0
  obtain ⟨c, hlocate, hleads⟩ := (leadsTo_below (heir arguments) 1).locate_of_holds
    (hstands.encloses hheir.encloses) (r := argumentsUse) (by decide +kernel) (by decide)
  obtain ⟨between, hchain, -⟩ := hleads.exists_between
  have hkinds := located rfl (by decide +kernel) hlocate hchain
  refine ⟨hbase, ⟨c, between, hlocate, hchain, fun m hm type hmeans => ?_⟩, ?_⟩
  · have hlisted := Language.mem_table_of_means (by decide) rfl hmeans
    simp [hkinds m hm] at hlisted
  · have hrun : (References.usageAt (some .python) (table arguments) 0 (.ofRange argumentsUse)
        1).toOption.map (fun usage => (usage.type, usage.scope.isNone)) = some (.uses, true) := by
      decide +kernel
    obtain ⟨usage, husage, heq⟩ := Option.map_eq_some_iff.mp hrun
    rw [Prod.mk.injEq, Option.isNone_iff_eq_none] at heq
    obtain ⟨type, scope⟩ := usage
    obtain ⟨rfl, rfl⟩ := heq
    exact Outcome.eq_ok_of_toOption husage

end CodeAtlas
