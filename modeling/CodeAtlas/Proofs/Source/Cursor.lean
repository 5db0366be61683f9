import CodeAtlas.Proofs.Json
import CodeAtlas.Proofs.Outcome
import CodeAtlas.Proofs.Source.Address

namespace CodeAtlas

namespace Mark

theorem ofPoint_inj {p q : Point} : ofPoint p = ofPoint q ↔ p = q := by
  cases p
  cases q
  simp [ofPoint]

theorem lt_ofPoint (p q : Point) : ∃ answer, (ofPoint p).lt (ofPoint q) = .ok answer := by
  simp only [lt, ofPoint, Json.lt_int]
  split
  · exact ⟨_, rfl⟩
  · split <;> exact ⟨_, rfl⟩

theorem le_ofPoint (p q : Point) : ∃ answer, (ofPoint p).le (ofPoint q) = .ok answer := by
  simp only [le, ofPoint, Json.le_int]
  split
  · exact ⟨_, rfl⟩
  · split <;> exact ⟨_, rfl⟩

end Mark

namespace Source

namespace SyntaxNode
variable {n m : SyntaxNode}

theorem sizeOf_lt_of_mem (h : m ∈ n.children) : sizeOf m < sizeOf n := by
  obtain ⟨kind, field, named, start, stop, text, children⟩ := n
  have hlt : sizeOf m < sizeOf children := List.sizeOf_lt_of_mem h
  simp only [SyntaxNode.mk.sizeOf_spec]
  omega

theorem Encloses.sizeOf_le (h : n.Encloses m) : sizeOf m ≤ sizeOf n := by
  induction h with
  | refl => exact Nat.le_refl _
  | tail _ hm ih => exact Nat.le_trans (Nat.le_of_lt (sizeOf_lt_of_mem hm)) ih

theorem locate_eq (e : Extent) (above : List SyntaxNode) (n : SyntaxNode) :
    n.locate e above = locateIn e n above n.children := by
  cases n
  rfl

end SyntaxNode

/-- A search among children goes past one, stays at the node, or goes into the child. -/
theorem locateIn_cons {e : Extent} {n child : SyntaxNode} {above others : List SyntaxNode}
    {d : Cursor} (h : locateIn e n above (child :: others) = .ok d) :
    locateIn e n above others = .ok d ∨ d = ⟨n, above⟩ ∨ child.locate e (n :: above) = .ok d := by
  rw [locateIn] at h
  obtain ⟨short, -, h⟩ := Outcome.bind_eq_ok.mp h
  have hrest : ∀ passed, (if passed = true then locateIn e n above others
      else do
        if ← e.start.lt child.start.mark then pure ⟨n, above⟩
        else child.locate e (n :: above)) = .ok d →
      locateIn e n above others = .ok d ∨ d = ⟨n, above⟩ ∨
        child.locate e (n :: above) = .ok d := by
    intro passed h
    split at h
    · exact .inl h
    · obtain ⟨starts, -, h⟩ := Outcome.bind_eq_ok.mp h
      split at h
      · exact .inr (.inl (Outcome.pure_eq_ok.mp h).symm)
      · exact .inr (.inr h)
  split at h
  · exact hrest true h
  · obtain ⟨passed, -, h⟩ := Outcome.bind_eq_ok.mp h
    exact hrest passed h

namespace Cursor
variable {c d : Cursor} {n : SyntaxNode}

theorem mem_children : d ∈ c.children ↔ ∃ n ∈ c.node.children, d = ⟨n, c.chain⟩ := by
  simp [children, chain, eq_comm]

/-- Does a cursor come to another one by going down, each time to a child? -/
def LeadsTo : Cursor → Cursor → Prop :=
  Relation.ReflTransGen fun c child => child ∈ c.children

namespace LeadsTo

theorem child (h : n ∈ c.node.children) : c.LeadsTo ⟨n, c.chain⟩ :=
  .single (mem_children.mpr ⟨n, h, rfl⟩)

theorem encloses (h : c.LeadsTo d) : c.node.Encloses d.node := by
  induction h with
  | refl => exact .refl
  | tail _ hd ih =>
    obtain ⟨n, hn, rfl⟩ := mem_children.mp hd
    exact ih.tail hn

/-- The way back leads to the node that the cursor came from, and then on as from there. -/
theorem exists_way (h : c.LeadsTo d) :
    ∃ way, d.chain = way ++ c.above ∧ ∀ n ∈ way, c.node.Encloses n := by
  induction h with
  | refl => exact ⟨[c.node], rfl, by simpa using .refl⟩
  | @tail d d' hd hchild ih =>
    obtain ⟨n, hn, rfl⟩ := mem_children.mp hchild
    obtain ⟨way, hway, hinside⟩ := ih
    refine ⟨n :: way, ?_, List.forall_mem_cons.mpr ⟨(encloses hd).tail hn, hinside⟩⟩
    rw [List.cons_append, ← hway]
    rfl

/-- What is passed on the way down is part of the tree, and encloses what comes after it. -/
theorem encloses_of_mem_above {tree : SyntaxNode} (h : (root tree).LeadsTo d) (hn : n ∈ d.above) :
    tree.Encloses n ∧ n.Encloses d.node := by
  induction h with
  | refl => simp [root] at hn
  | tail hd hchild ih =>
    obtain ⟨m, hm, rfl⟩ := mem_children.mp hchild
    rcases List.mem_cons.mp hn with rfl | hn
    · exact ⟨encloses hd, .single hm⟩
    · obtain ⟨htree, hbelow⟩ := ih hn
      exact ⟨htree, hbelow.tail hm⟩

/-- What stands above a node of the tree is larger. -/
theorem lt_of_mem_above (h : c.LeadsTo d) (hc : ∀ n ∈ c.above, sizeOf c.node < sizeOf n) :
    ∀ n ∈ d.above, sizeOf d.node < sizeOf n := by
  induction h with
  | refl => exact hc
  | tail _ hd ih =>
    obtain ⟨n, hn, rfl⟩ := mem_children.mp hd
    have hlt := SyntaxNode.sizeOf_lt_of_mem hn
    exact List.forall_mem_cons.mpr ⟨hlt, fun m hm => Nat.lt_trans hlt (ih m hm)⟩

end LeadsTo

/-- A node of a tree does not enclose what is above it. -/
theorem not_encloses_of_mem_above {tree : SyntaxNode} (h : (root tree).LeadsTo c)
    (hn : n ∈ c.above) : ¬c.node.Encloses n := by
  intro hencloses
  have hlt := h.lt_of_mem_above (by simp [root]) n hn
  exact absurd hencloses.sizeOf_le (Nat.not_le_of_lt hlt)

theorem locate_leadsTo {e : Extent} (h : c.locate e = .ok d) : c.LeadsTo d := by
  obtain ⟨n, above⟩ := c
  change n.locate e above = .ok d at h
  -- the recursion of `locate`: over the tree, and at each node over its children
  induction n using SyntaxNode.by_children generalizing above with
  | node n ih =>
    rw [SyntaxNode.locate_eq] at h
    suffices hlist : ∀ others, others ⊆ n.children → locateIn e n above others = .ok d →
        LeadsTo ⟨n, above⟩ d from hlist n.children (List.Subset.refl _) h
    intro others
    induction others with
    | nil =>
      intro _ h
      cases h
      exact .refl
    | cons child others ihothers =>
      intro hsub h
      obtain ⟨hchild, hothers⟩ := List.cons_subset.mp hsub
      rcases locateIn_cons h with h | rfl | h
      · exact ihothers hothers h
      · exact .refl
      · exact (LeadsTo.child hchild).trans (ih child hchild _ h)

/-- Whole numbers can be located in every tree. -/
theorem exists_locate (c : Cursor) (r : Range) : ∃ d, c.locate (.ofRange r) = .ok d := by
  obtain ⟨n, above⟩ := c
  change ∃ d, n.locate (.ofRange r) above = .ok d
  induction n using SyntaxNode.by_children generalizing above with
  | node n ih =>
    rw [SyntaxNode.locate_eq]
    suffices hlist : ∀ others, others ⊆ n.children →
        ∃ d, locateIn (.ofRange r) n above others = .ok d from hlist n.children (List.Subset.refl _)
    intro others
    induction others with
    | nil => exact fun _ => ⟨_, rfl⟩
    | cons child others ihothers =>
      intro hsub
      obtain ⟨hchild, hothers⟩ := List.cons_subset.mp hsub
      obtain ⟨short, hshort⟩ := Mark.lt_ofPoint child.stop.point r.stop
      obtain ⟨ends, hends⟩ := Mark.le_ofPoint child.stop.point r.start
      obtain ⟨starts, hstarts⟩ := Mark.lt_ofPoint r.start child.start.point
      obtain ⟨d, hd⟩ := ihothers hothers
      obtain ⟨d', hd'⟩ := ih child hchild (n :: above)
      simp only [locateIn, Outcome.bind_eq_ok, Extent.ofRange, Spot.mark] at hd ⊢
      cases short <;> cases ends <;> cases starts <;>
        simp_all [Extent.ofRange]

end Cursor
end Source
end CodeAtlas
