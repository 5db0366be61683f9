import CodeAtlas.Proofs.Source.Layout
import Mathlib.Data.List.Lex

namespace CodeAtlas.Source

mutual
/-- A fact about all trees may be shown of a node from the same about its children. -/
theorem SyntaxNode.by_children {motive : SyntaxNode → Prop}
    (node : ∀ n : SyntaxNode, (∀ child ∈ n.children, motive child) → motive n) :
    (n : SyntaxNode) → motive n
  | .mk _ _ _ _ _ _ children => node _ (SyntaxNode.all_by_children node children)

theorem SyntaxNode.all_by_children {motive : SyntaxNode → Prop}
    (node : ∀ n : SyntaxNode, (∀ child ∈ n.children, motive child) → motive n) :
    (ns : List SyntaxNode) → ∀ n ∈ ns, motive n
  | [] => by simp
  | n :: ns => List.forall_mem_cons.mpr ⟨n.by_children node, SyntaxNode.all_by_children node ns⟩
end

attribute [elab_as_elim] SyntaxNode.by_children

/-- The node at an address. Only named children have one. -/
def SyntaxNode.at? : SyntaxNode → List Nat → Option SyntaxNode
  | n, [] => some n
  | n, i :: address => (n.children[i]?.filter SyntaxNode.named).bind fun child => child.at? address

@[simp] theorem SyntaxNode.at?_nil (n : SyntaxNode) : n.at? [] = some n := by
  cases n
  rfl

theorem SyntaxNode.at?_cons_eq_some {n m : SyntaxNode} {i : Nat} {address : List Nat} :
    n.at? (i :: address) = some m ↔
      ∃ child, n.children[i]? = some child ∧ child.named = true ∧ child.at? address = some m := by
  rw [at?]
  simp [Option.bind_eq_some_iff, and_assoc]

theorem SyntaxNode.at?_append (n : SyntaxNode) (address rest : List Nat) :
    n.at? (address ++ rest) = (n.at? address).bind fun m => m.at? rest := by
  induction address generalizing n with
  | nil => simp
  | cons i address ih => simp [at?, Option.bind_assoc, ih]

/-- Does an address come before another one, when the tree is read? -/
def Precedes : List Nat → List Nat → Prop :=
  List.Lex (· < ·)

namespace Precedes
variable {a b : List Nat}

theorem asymm (h : Precedes a b) : ¬Precedes b a :=
  (List.Lex.asymm fun i j : Nat => i < j).asymm a b h

theorem ne (h : Precedes a b) : a ≠ b := by
  intro heq
  subst heq
  exact h.asymm h

theorem of_extends (h : a <+: b) (hne : a ≠ b) : Precedes a b := by
  obtain ⟨rest, rfl⟩ := h
  have hrest : rest ≠ [] := by
    rintro rfl
    exact hne (List.append_nil a).symm
  obtain ⟨i, rest, rfl⟩ := List.exists_cons_of_ne_nil hrest
  have hbefore : Precedes (a ++ []) (a ++ i :: rest) := List.Lex.append_left _ .nil a
  rwa [List.append_nil] at hbefore

end Precedes

/-- Is a place another one, or further on in a source? -/
def Spot.Reaches (s s' : Spot) : Prop :=
  ∃ text, s' = s.after text

namespace Spot.Reaches
variable {s s' s'' : Spot}

theorem refl (s : Spot) : s.Reaches s := ⟨"", rfl⟩

theorem after (s : Spot) (text : String) : s.Reaches (s.after text) := ⟨text, rfl⟩

theorem trans (h : s.Reaches s') (h' : s'.Reaches s'') : s.Reaches s'' := by
  obtain ⟨text, rfl⟩ := h
  obtain ⟨text', rfl⟩ := h'
  exact ⟨text ++ text', (Spot.after_append s text text').symm⟩

/-- What is further on is on a later line, or further on in the line. -/
theorem point (h : s.Reaches s') : s.row < s'.row ∨ s.row = s'.row ∧ s.column ≤ s'.column := by
  have hfold : ∀ (cs : List Char) (s : Spot), s.row < (cs.foldl afterChar s).row ∨
      s.row = (cs.foldl afterChar s).row ∧ s.column ≤ (cs.foldl afterChar s).column := by
    intro cs
    induction cs with
    | nil => simp
    | cons c cs ih =>
      intro s
      have hstep : s.row < (s.afterChar c).row ∨
          s.row = (s.afterChar c).row ∧ s.column ≤ (s.afterChar c).column := by
        unfold afterChar
        split <;> simp
      have hrest := ih (s.afterChar c)
      simp only [List.foldl_cons]
      omega
  obtain ⟨text, rfl⟩ := h
  exact hfold text.toList s

theorem row (h : s.Reaches s') : s.row ≤ s'.row := by
  have hpoint := h.point
  omega

end Spot.Reaches

mutual
/-- Does a tree stand between two places, with its children one after the other inside it? -/
def SyntaxNode.StandsIn (first last : Spot) : SyntaxNode → Prop
  | .mk _ _ _ start stop _ children =>
    first.Reaches start ∧ stop.Reaches last ∧ StandIn start stop children

def StandIn (first last : Spot) : List SyntaxNode → Prop
  | [] => first.Reaches last
  | n :: ns => ∃ between, n.StandsIn first between ∧ StandIn between last ns
end

section
variable {first last first' last' : Spot} {n m k : SyntaxNode} {ns ns' : List SyntaxNode}

theorem SyntaxNode.standsIn_iff : n.StandsIn first last ↔
    first.Reaches n.start ∧ n.stop.Reaches last ∧ StandIn n.start n.stop n.children := by
  cases n
  exact Iff.rfl

theorem SyntaxNode.StandsIn.mono (h : n.StandsIn first last) (hfirst : first'.Reaches first)
    (hlast : last.Reaches last') : n.StandsIn first' last' := by
  rw [standsIn_iff] at h ⊢
  exact ⟨hfirst.trans h.1, h.2.1.trans hlast, h.2.2⟩

theorem StandIn.append {between : Spot} (h : StandIn first between ns)
    (h' : StandIn between last ns') : StandIn first last (ns ++ ns') := by
  induction ns generalizing first with
  | nil =>
    cases ns' with
    | nil => exact Spot.Reaches.trans h h'
    | cons n ns' =>
      obtain ⟨next, hn, hns'⟩ := h'
      exact ⟨next, hn.mono h (.refl next), hns'⟩
  | cons n ns ih =>
    obtain ⟨next, hn, hns⟩ := h
    exact ⟨next, hn, ih hns⟩

mutual
theorem layOut_standIn (start : Spot) : (piece : Piece) →
    StandIn start (start.after piece.source) (piece.layOut start)
  | .text content => .after start content
  | .node _ _ _ pieces =>
    ⟨start.after (sourceAll pieces),
      ⟨.refl start, .refl _, layOutAll_standIn start pieces⟩, .refl _⟩

theorem layOutAll_standIn (start : Spot) : (pieces : List Piece) →
    StandIn start (start.after (sourceAll pieces)) (layOutAll start pieces)
  | [] => .refl start
  | piece :: pieces => by
    rw [layOutAll, sourceAll, Spot.after_append]
    exact (layOut_standIn start piece).append (layOutAll_standIn _ pieces)
end

/-- The tree of a source stands in the source. -/
theorem Grammar.parse_standsIn (g : Grammar) (l : Language) (extension source : String) :
    ∃ last, (g.parse l extension source).StandsIn Spot.zero last := by
  obtain ⟨before, piece, -, -, hlay⟩ := g.exists_layOut l extension source
  have hstand := layOut_standIn (Spot.zero.after before) piece
  rw [hlay] at hstand
  obtain ⟨between, htree, -⟩ := hstand
  exact ⟨between, htree.mono (.after _ before) (.refl between)⟩

mutual
/-- A node ends where it begins, or further on. -/
theorem SyntaxNode.StandsIn.reaches : {n : SyntaxNode} → {first last : Spot} →
    n.StandsIn first last → n.start.Reaches n.stop
  | .mk .., _, _, ⟨_, _, hchildren⟩ => hchildren.reaches

theorem StandIn.reaches : {ns : List SyntaxNode} → {first last : Spot} →
    StandIn first last ns → first.Reaches last
  | [], _, _, h => h
  | _ :: _, _, _, ⟨_, hn, hns⟩ => by
    have hends := SyntaxNode.standsIn_iff.mp hn
    exact (hends.1.trans (hn.reaches.trans hends.2.1)).trans hns.reaches
end

/-- A child stands in a part of the source of its own. -/
theorem StandIn.child (h : StandIn first last ns) {i : Nat} (hn : ns[i]? = some n) :
    n.StandsIn first last := by
  induction ns generalizing first i with
  | nil => simp at hn
  | cons m ns ih =>
    obtain ⟨between, hm, hns⟩ := h
    cases i with
    | zero =>
      obtain rfl : m = n := by simpa using hn
      exact hm.mono (.refl first) hns.reaches
    | succ i =>
      have hrest : n.StandsIn between last := ih hns (by simpa using hn)
      have hends := SyntaxNode.standsIn_iff.mp hm
      exact hrest.mono (hends.1.trans (hm.reaches.trans hends.2.1)) (.refl last)

/-- A later child begins where an earlier one ends, or further on. -/
theorem StandIn.apart (h : StandIn first last ns) {i j : Nat} (hij : i < j) (hn : ns[i]? = some n)
    (hm : ns[j]? = some m) :
    ∃ between, n.StandsIn first between ∧ m.StandsIn between last := by
  induction ns generalizing first i j with
  | nil => simp at hn
  | cons k ns ih =>
    obtain ⟨between, hk, hns⟩ := h
    obtain ⟨j, rfl⟩ := Nat.exists_eq_succ_of_ne_zero (Nat.ne_zero_of_lt hij)
    have hm' : ns[j]? = some m := by simpa using hm
    cases i with
    | zero =>
      obtain rfl : k = n := by simpa using hn
      exact ⟨between, hk, hns.child hm'⟩
    | succ i =>
      obtain ⟨next, hn', hlater⟩ := ih hns (Nat.lt_of_succ_lt_succ hij) (by simpa using hn) hm'
      have hends := SyntaxNode.standsIn_iff.mp hk
      exact ⟨next, hn'.mono (hends.1.trans (hk.reaches.trans hends.2.1)) (.refl next), hlater⟩

namespace SyntaxNode

/-- What is below a node stands inside it. -/
theorem StandsIn.at? (h : n.StandsIn first last) {address : List Nat}
    (hm : n.at? address = some m) : m.StandsIn n.start n.stop := by
  induction address generalizing n first last with
  | nil =>
    obtain rfl : n = m := by simpa using hm
    have hends := standsIn_iff.mp h
    exact standsIn_iff.mpr ⟨.refl _, .refl _, hends.2.2⟩
  | cons i address ih =>
    obtain ⟨child, hchild, -, hm⟩ := at?_cons_eq_some.mp hm
    have hstands := (standsIn_iff.mp h).2.2.child hchild
    have hends := standsIn_iff.mp hstands
    exact (ih hstands hm).mono hends.1 hends.2.1

/-- What is read later begins no earlier. -/
theorem StandsIn.start_reaches (h : n.StandsIn first last) {address later : List Nat}
    (horder : Precedes address later) (hm : n.at? address = some m) (hk : n.at? later = some k) :
    m.start.Reaches k.start := by
  unfold Precedes at horder
  induction horder generalizing n first last with
  | nil =>
    obtain rfl : n = m := by simpa using hm
    exact (standsIn_iff.mp (h.at? hk)).1
  | rel hlt =>
    obtain ⟨child, hchild, -, hm⟩ := at?_cons_eq_some.mp hm
    obtain ⟨child', hchild', -, hk⟩ := at?_cons_eq_some.mp hk
    obtain ⟨between, hbefore, hafter⟩ := (standsIn_iff.mp h).2.2.apart hlt hchild hchild'
    have hfirst := standsIn_iff.mp ((hbefore.at? hm).mono (.refl _) (standsIn_iff.mp hbefore).2.1)
    have hsecond := standsIn_iff.mp ((hafter.at? hk).mono (standsIn_iff.mp hafter).1 (.refl _))
    exact ((hbefore.at? hm).reaches.trans hfirst.2.1).trans hsecond.1
  | cons _ ih =>
    obtain ⟨child, hchild, -, hm⟩ := at?_cons_eq_some.mp hm
    obtain ⟨child', hchild', -, hk⟩ := at?_cons_eq_some.mp hk
    cases hchild.symm.trans hchild'
    exact ih ((standsIn_iff.mp h).2.2.child hchild) hm hk

end SyntaxNode
end
end CodeAtlas.Source
