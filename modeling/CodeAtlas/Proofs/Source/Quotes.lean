import CodeAtlas.Proofs.Source.Layout

namespace CodeAtlas.Source

namespace SyntaxNode

/-- Does a node have the words that stand at its place in a text, which begins at `first`? -/
def Quotes (n : SyntaxNode) (first : Spot) (text : String) : Prop :=
  ∃ before after, text = before ++ n.text ++ after ∧ n.start = first.after before

namespace Quotes
variable {n m : SyntaxNode} {first : Spot} {text : String}

theorem refl (n : SyntaxNode) : n.Quotes n.start n.text :=
  ⟨"", "", by simp, rfl⟩

theorem trans (h : m.Quotes n.start n.text) (h' : n.Quotes first text) : m.Quotes first text := by
  obtain ⟨before, after, htext, hstart⟩ := h
  obtain ⟨before', after', htext', hstart'⟩ := h'
  refine ⟨before' ++ before, after ++ after', ?_, ?_⟩
  · rw [htext', htext]
    simp only [String.append_assoc]
  · rw [hstart, hstart', Spot.after_append]

theorem followed (h : n.Quotes first text) (more : String) : n.Quotes first (text ++ more) := by
  obtain ⟨before, after, rfl, hstart⟩ := h
  exact ⟨before, after ++ more, by simp only [String.append_assoc], hstart⟩

theorem preceded {more : String} (h : n.Quotes (first.after more) text) :
    n.Quotes first (more ++ text) := by
  obtain ⟨before, after, rfl, hstart⟩ := h
  refine ⟨more ++ before, after, by simp only [String.append_assoc], ?_⟩
  rw [hstart, Spot.after_append]

theorem length_le (h : n.Quotes first text) : n.text.length ≤ text.length := by
  obtain ⟨before, after, rfl, -⟩ := h
  simp only [String.length_append]
  omega

end Quotes

/-- A tree in which the children of each node quote it. -/
def Faithful (n : SyntaxNode) : Prop :=
  ∀ m, n.Encloses m → ∀ k ∈ m.children, k.Quotes m.start m.text

variable {n m : SyntaxNode}

theorem Faithful.of_encloses (h : n.Faithful) (hm : n.Encloses m) : m.Faithful :=
  fun k hk => h k (hm.trans hk)

theorem Faithful.quotes (h : n.Faithful) (hm : n.Encloses m) : m.Quotes n.start n.text := by
  induction hm with
  | refl => exact .refl n
  | tail hk hm ih => exact (h _ hk _ hm).trans ih

theorem faithful_of_children (h : ∀ m ∈ n.children, m.Quotes n.start n.text ∧ m.Faithful) :
    n.Faithful := by
  intro m hm
  rcases Relation.ReflTransGen.cases_head hm with rfl | ⟨k, hk, hm⟩
  · exact fun k hk => (h k hk).1
  · exact (h k hk).2 m hm

end SyntaxNode

mutual
theorem layOut_quotes (start : Spot) : (piece : Piece) → ∀ n ∈ piece.layOut start,
    n.Quotes start piece.source ∧ n.Faithful
  | .text _ => by simp [Piece.layOut]
  | .node kind field named pieces => by
    intro n hn
    rw [Piece.layOut, List.mem_singleton] at hn
    subst hn
    exact ⟨.refl _, SyntaxNode.faithful_of_children (layOutAll_quotes start pieces)⟩

theorem layOutAll_quotes (start : Spot) : (pieces : List Piece) → ∀ n ∈ layOutAll start pieces,
    n.Quotes start (sourceAll pieces) ∧ n.Faithful
  | [] => by simp [layOutAll]
  | piece :: pieces => by
    intro n hn
    rw [layOutAll, List.mem_append] at hn
    rw [sourceAll]
    rcases hn with hn | hn
    · obtain ⟨hquotes, hfaithful⟩ := layOut_quotes start piece n hn
      exact ⟨hquotes.followed _, hfaithful⟩
    · obtain ⟨hquotes, hfaithful⟩ := layOutAll_quotes (start.after piece.source) pieces n hn
      exact ⟨hquotes.preceded, hfaithful⟩
end

/-- The root of a tree quotes the source, and so do all nodes. -/
theorem Grammar.parse_quotes (g : Grammar) (l : Language) (extension source : String) :
    (g.parse l extension source).Quotes .zero source ∧ (g.parse l extension source).Faithful := by
  obtain ⟨before, piece, after, hsource, hlay⟩ := g.exists_layOut l extension source
  have hmem : g.parse l extension source ∈ piece.layOut (Spot.zero.after before) := by
    rw [hlay]
    exact List.mem_singleton_self _
  obtain ⟨hquotes, hfaithful⟩ := layOut_quotes _ piece _ hmem
  have hall := hquotes.preceded.followed after
  rw [← hsource] at hall
  exact ⟨hall, hfaithful⟩

end CodeAtlas.Source
