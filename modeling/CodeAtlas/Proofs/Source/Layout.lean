import CodeAtlas.Source.Grammar
import Mathlib.Logic.Relation

namespace CodeAtlas.Source
open Text (Utf8.bytes Utf8.encode)

namespace Spot

theorem byte_afterChar (s : Spot) (c : Char) : (s.afterChar c).byte = s.byte + c.utf8Size := by
  unfold afterChar
  split
  · rename_i h
    subst h
    rfl
  · rfl

theorem byte_after (s : Spot) (text : String) :
    (s.after text).byte = s.byte + (Utf8.bytes text).length := by
  have hfold : ∀ (cs : List Char) (s : Spot),
      (cs.foldl afterChar s).byte = s.byte + (Utf8.encode cs).length := by
    intro cs
    induction cs with
    | nil => intro s; rfl
    | cons c cs ih =>
      intro s
      have hlen := String.length_utf8EncodeChar c
      simp only [List.foldl_cons, ih, byte_afterChar, Utf8.encode, List.flatMap_cons,
        List.length_append, hlen]
      omega
  exact hfold text.toList s

theorem after_append (s : Spot) (text text' : String) :
    s.after (text ++ text') = (s.after text).after text' := by
  simp [after]

end Spot

namespace SyntaxNode

def Encloses : SyntaxNode → SyntaxNode → Prop :=
  Relation.ReflTransGen fun n m => m ∈ n.children

/-- A node that takes up as many bytes as its text has, with its children inside it. -/
structure Spans (n : SyntaxNode) : Prop where
  length : n.stop.byte = n.start.byte + (Utf8.bytes n.text).length
  inside : ∀ m ∈ n.children, n.start.byte ≤ m.start.byte ∧ m.stop.byte ≤ n.stop.byte

/-- The same of all nodes of a tree. -/
def Fits (n : SyntaxNode) : Prop :=
  ∀ m, n.Encloses m → m.Spans

variable {n m : SyntaxNode}

theorem Fits.of_encloses (h : n.Fits) (hm : n.Encloses m) : m.Fits :=
  fun k hk => h k (hm.trans hk)

theorem Fits.bounds (h : n.Fits) (hm : n.Encloses m) :
    n.start.byte ≤ m.start.byte ∧ m.start.byte ≤ m.stop.byte ∧ m.stop.byte ≤ n.stop.byte := by
  have hlength := (h m hm).length
  suffices hinside : n.start.byte ≤ m.start.byte ∧ m.stop.byte ≤ n.stop.byte by omega
  induction hm with
  | refl => exact ⟨Nat.le_refl _, Nat.le_refl _⟩
  | tail hk hm ih =>
    have hspans := h _ hk
    have hinside := hspans.inside _ hm
    obtain ⟨hfirst, hlast⟩ := ih hspans.length
    omega

theorem fits_of_children (h : n.Spans) (hc : ∀ m ∈ n.children, m.Fits) : n.Fits := by
  intro m hm
  rcases Relation.ReflTransGen.cases_head hm with rfl | ⟨k, hk, hm⟩
  · exact h
  · exact hc k hk m hm

theorem encloses_of_child? {field : String} (h : n.child? field = some m) : n.Encloses m :=
  .single (List.mem_of_find?_eq_some h)

end SyntaxNode

structure Between (start stop : Spot) (n : SyntaxNode) : Prop where
  fits : n.Fits
  first : start.byte ≤ n.start.byte
  last : n.stop.byte ≤ stop.byte

theorem Between.mono {start stop start' stop' : Spot} {n : SyntaxNode}
    (h : Between start stop n) (hfirst : start'.byte ≤ start.byte)
    (hlast : stop.byte ≤ stop'.byte) : Between start' stop' n where
  fits := h.fits
  first := Nat.le_trans hfirst h.first
  last := Nat.le_trans h.last hlast

theorem Spot.le_after (s : Spot) (text : String) : s.byte ≤ (s.after text).byte := by
  rw [Spot.byte_after]
  exact Nat.le_add_right _ _

mutual
theorem layOut_between (start : Spot) : (piece : Piece) → ∀ n ∈ piece.layOut start,
    Between start (start.after piece.source) n
  | .text _ => by simp [Piece.layOut]
  | .node kind field named pieces => by
    intro n hn
    rw [Piece.layOut, List.mem_singleton] at hn
    subst hn
    refine ⟨?_, Nat.le_refl _, Nat.le_refl _⟩
    have hchildren := layOutAll_between start pieces
    apply SyntaxNode.fits_of_children
    · exact ⟨Spot.byte_after .., fun m hm => ⟨(hchildren m hm).first, (hchildren m hm).last⟩⟩
    · exact fun m hm => (hchildren m hm).fits

theorem layOutAll_between (start : Spot) : (pieces : List Piece) → ∀ n ∈ layOutAll start pieces,
    Between start (start.after (sourceAll pieces)) n
  | [] => by simp [layOutAll]
  | piece :: pieces => by
    intro n hn
    rw [layOutAll, List.mem_append] at hn
    rw [sourceAll, Spot.after_append]
    rcases hn with hn | hn
    · exact (layOut_between start piece n hn).mono (Nat.le_refl _) (Spot.le_after ..)
    · exact (layOutAll_between _ pieces n hn).mono (Spot.le_after ..) (Nat.le_refl _)
end

theorem Piece.layOut_of_head? {piece : Piece} {start : Spot} {n : SyntaxNode}
    (h : (piece.layOut start).head? = some n) : piece.layOut start = [n] := by
  cases piece with
  | text content => simp [layOut] at h
  | node kind field named pieces => simpa [layOut] using h

/-- Whatever the grammar knows, the tree of a source is laid out somewhere in it. -/
theorem Grammar.exists_layOut (g : Grammar) (l : Language) (extension source : String) :
    ∃ (before : String) (piece : Piece) (after : String), source = before ++ piece.source ++ after ∧
      piece.layOut (Spot.zero.after before) = [g.parse l extension source] := by
  unfold Grammar.parse
  dsimp only
  cases hknown : g.findSome? fun s =>
      if s.language = l ∧ s.extension = extension ∧ s.source = source then s.root? else none with
  | none =>
    refine ⟨"", .node l.rootKind none true [.text source], "", ?_, ?_⟩
    · simp [Piece.source, sourceAll]
    · simp [Piece.layOut, layOutAll, sourceAll, Piece.source, Spot.after]
  | some n =>
    obtain ⟨s, -, hs⟩ := List.exists_of_findSome?_eq_some hknown
    split at hs
    · rename_i hkey
      exact ⟨s.before, s.tree, s.after, hkey.2.2.symm, Piece.layOut_of_head? hs⟩
    · cases hs

theorem Grammar.parse_fits (g : Grammar) (l : Language) (extension source : String) :
    (g.parse l extension source).Fits := by
  obtain ⟨before, piece, -, -, hlay⟩ := g.exists_layOut l extension source
  exact (layOut_between (Spot.zero.after before) piece _ (by simp [hlay])).fits

end CodeAtlas.Source
