import CodeAtlas.Outline
import CodeAtlas.Proofs.Outcome
import CodeAtlas.Proofs.Source.Address

namespace CodeAtlas
open Source

def DefinesAt (l : Language) (root : SyntaxNode) (address : List Nat) : Prop :=
  ∃ n, root.at? address = some n ∧ l.isDefinition n = true

/-- Is there a definition without a name at an address? -/
def NamelessAt (l : Language) (root : SyntaxNode) (address : List Nat) : Prop :=
  ∃ n, root.at? address = some n ∧ l.isDefinition n = true ∧ n.child? "name" = none

/-- The nearest definition around an address, or none if there is none. -/
structure Nearest (l : Language) (root : SyntaxNode) (around : Option (List Nat))
    (address : List Nat) : Prop where
  encloses : ∀ a ∈ around, DefinesAt l root a ∧ a <+: address ∧ a ≠ address
  innermost : ∀ a, DefinesAt l root a → a <+: address → a ≠ address → ∃ b ∈ around, a <+: b

/-- A definition of a tree, with its address and that of the nearest one around it. -/
structure Site where
  address : List Nat
  around : Option (List Nat)
  cursor : Cursor

/-- What is said of a definition without a name. -/
def Site.fault? (x : Site) : Option Fault :=
  match Language.nameNode x.cursor.node with
  | .ok _ => none
  | .error fault => some fault

namespace Outline

mutual
/-- The definitions at and below a node, each before those in it. -/
def sites (l : Language) (address : List Nat) (around : Option (List Nat))
    (above : List SyntaxNode) : SyntaxNode → List Site
  | .mk kind field named start stop text children =>
    let node := SyntaxNode.mk kind field named start stop text children
    if l.isDefinition node then
      ⟨address, around, ⟨node, above⟩⟩ ::
        sitesFrom l address (some address) (node :: above) 0 children
    else sitesFrom l address around (node :: above) 0 children

def sitesFrom (l : Language) (address : List Nat) (around : Option (List Nat))
    (above : List SyntaxNode) (i : Nat) : List SyntaxNode → List Site
  | [] => []
  | n :: ns =>
    (if n.named then sites l (address ++ [i]) around above n else []) ++
      sitesFrom l address around above (i + 1) ns
end

variable {l : Language} {address : List Nat} {around : Option (List Nat)}
  {above : List SyntaxNode} {n root : SyntaxNode} {ns : List SyntaxNode} {x : Site} {i : Nat}

theorem sites_of_definition (h : l.isDefinition n = true) :
    sites l address around above n = ⟨address, around, ⟨n, above⟩⟩ ::
      sitesFrom l address (some address) (n :: above) 0 n.children := by
  cases n
  rw [sites, if_pos h]
  rfl

theorem sites_of_other (h : l.isDefinition n ≠ true) :
    sites l address around above n = sitesFrom l address around (n :: above) 0 n.children := by
  cases n
  rw [sites, if_neg h]
  rfl

theorem mem_sitesFrom : x ∈ sitesFrom l address around above i ns ↔ ∃ j child,
    ns[j]? = some child ∧ child.named = true ∧
      x ∈ sites l (address ++ [i + j]) around above child := by
  induction ns generalizing i with
  | nil => simp [sitesFrom]
  | cons n ns ih =>
    rw [sitesFrom, List.mem_append, ih]
    constructor
    · intro h
      rcases h with h | ⟨j, child, hchild, hnamed, hx⟩
      · split at h
        · exact ⟨0, n, rfl, by assumption, h⟩
        · cases h
      · exact ⟨j + 1, child, by simpa using hchild, hnamed, by
          rwa [show i + (j + 1) = i + 1 + j by omega]⟩
    · rintro ⟨j, child, hchild, hnamed, hx⟩
      cases j with
      | zero =>
        obtain rfl : n = child := by simpa using hchild
        left
        rw [if_pos hnamed]
        exact hx
      | succ j =>
        right
        exact ⟨j, child, by simpa using hchild, hnamed, by
          rwa [show i + 1 + j = i + (j + 1) by omega]⟩

/-- All that is listed are definitions at and below the node. -/
theorem of_mem_sites (h : x ∈ sites l address around above n) :
    ∃ rest, x.address = address ++ rest ∧ n.at? rest = some x.cursor.node ∧
      l.isDefinition x.cursor.node = true := by
  induction n using SyntaxNode.by_children generalizing address around above with
  | node n ih =>
    have hbelow : ∀ around', x ∈ sitesFrom l address around' (n :: above) 0 n.children →
        ∃ rest, x.address = address ++ rest ∧ n.at? rest = some x.cursor.node ∧
          l.isDefinition x.cursor.node = true := by
      intro around' hx
      obtain ⟨j, child, hchild, hnamed, hx⟩ := mem_sitesFrom.mp hx
      obtain ⟨rest, haddress, hat, hdef⟩ := ih child (List.mem_of_getElem? hchild) hx
      refine ⟨j :: rest, by simpa using haddress, ?_, hdef⟩
      exact SyntaxNode.at?_cons_eq_some.mpr ⟨child, hchild, hnamed, hat⟩
    by_cases hdef : l.isDefinition n = true
    · rw [sites_of_definition hdef] at h
      rcases List.mem_cons.mp h with rfl | h
      · exact ⟨[], by simp, by simp, hdef⟩
      · exact hbelow _ h
    · rw [sites_of_other hdef] at h
      exact hbelow _ h

/-- All definitions at and below the node are listed. -/
theorem exists_site (address : List Nat) (around : Option (List Nat)) (above : List SyntaxNode)
    {rest : List Nat} {m : SyntaxNode} (hm : n.at? rest = some m)
    (hdef : l.isDefinition m = true) :
    ∃ x ∈ sites l address around above n, x.address = address ++ rest := by
  induction rest generalizing n address around above with
  | nil =>
    obtain rfl : n = m := by simpa using hm
    rw [sites_of_definition hdef]
    exact ⟨_, List.mem_cons_self, by simp⟩
  | cons j rest ih =>
    obtain ⟨child, hchild, hnamed, hm⟩ := SyntaxNode.at?_cons_eq_some.mp hm
    have hbelow : ∀ around', ∃ x ∈ sitesFrom l address around' (n :: above) 0 n.children,
        x.address = address ++ j :: rest := by
      intro around'
      obtain ⟨x, hx, haddress⟩ := ih (address ++ [j]) around' (n :: above) hm
      refine ⟨x, mem_sitesFrom.mpr ⟨j, child, hchild, hnamed, ?_⟩, by simpa using haddress⟩
      simpa using hx
    by_cases hn : l.isDefinition n = true
    · rw [sites_of_definition hn]
      obtain ⟨x, hx, haddress⟩ := hbelow (some address)
      exact ⟨x, List.mem_cons_of_mem _ hx, haddress⟩
    · rw [sites_of_other hn]
      exact hbelow around

theorem address_of_mem_sitesFrom (h : x ∈ sitesFrom l address around above i ns) :
    ∃ j rest, i ≤ j ∧ x.address = address ++ j :: rest := by
  obtain ⟨j, child, -, -, hx⟩ := mem_sitesFrom.mp h
  obtain ⟨rest, haddress, -⟩ := of_mem_sites hx
  exact ⟨i + j, rest, by omega, by simpa using haddress⟩

theorem sitesFrom_preorder (h : ∀ child ∈ ns, ∀ address around above,
    (sites l address around above child).Pairwise fun x y => Precedes x.address y.address) :
    (sitesFrom l address around above i ns).Pairwise fun x y =>
      Precedes x.address y.address := by
  induction ns generalizing i with
  | nil => simp [sitesFrom]
  | cons n ns ih =>
    obtain ⟨hn, hns⟩ := List.forall_mem_cons.mp h
    rw [sitesFrom, List.pairwise_append]
    refine ⟨?_, ih hns, ?_⟩
    · split
      · exact hn _ _ _
      · exact List.Pairwise.nil
    · intro x hx y hy
      split at hx
      · obtain ⟨rest, haddress, -⟩ := of_mem_sites hx
        obtain ⟨j, rest', hj, haddress'⟩ := address_of_mem_sitesFrom hy
        rw [haddress, haddress', List.append_assoc]
        exact List.Lex.append_left _ (.rel (by omega)) address
      · cases hx

/-- The definitions are listed in the order of their addresses, and none twice. -/
theorem sites_preorder (l : Language) (address : List Nat) (around : Option (List Nat))
    (above : List SyntaxNode) (n : SyntaxNode) :
    (sites l address around above n).Pairwise fun x y => Precedes x.address y.address := by
  induction n using SyntaxNode.by_children generalizing address around above with
  | node n ih =>
    have hbelow : ∀ around', (sitesFrom l address around' (n :: above) 0 n.children).Pairwise
        fun x y => Precedes x.address y.address := fun around' =>
      sitesFrom_preorder fun child hchild _ _ _ => ih child hchild _ _ _
    by_cases hdef : l.isDefinition n = true
    · rw [sites_of_definition hdef, List.pairwise_cons]
      refine ⟨fun y hy => ?_, hbelow _⟩
      obtain ⟨j, rest, -, haddress⟩ := address_of_mem_sitesFrom hy
      rw [haddress]
      exact .of_extends (List.prefix_append address _) (by simp)
    · rw [sites_of_other hdef]
      exact hbelow around

/-- One step down, the nearest definition around is the one just left, if that is one. -/
theorem nearest_step (h : Nearest l root around address) (hn : root.at? address = some n)
    (j : Nat) :
    Nearest l root (if l.isDefinition n then some address else around) (address ++ [j]) := by
  have hprefix : ∀ {a : List Nat}, a <+: address ++ [j] → a ≠ address ++ [j] → a <+: address := by
    intro a ha hne
    rcases List.prefix_concat_iff.mp ha with heq | ha
    · exact absurd heq hne
    · exact ha
  constructor
  · intro a ha
    split at ha
    · rename_i hdef
      obtain rfl : address = a := by simpa using ha
      exact ⟨⟨n, hn, hdef⟩, List.prefix_append _ _, by simp⟩
    · obtain ⟨hdef, hpre, -⟩ := h.encloses a ha
      refine ⟨hdef, hpre.trans (List.prefix_append _ _), fun heq => ?_⟩
      have hlength := hpre.length_le
      rw [heq, List.length_append, List.length_singleton] at hlength
      omega
  · intro a hdef hpre hne
    have hpre' := hprefix hpre hne
    by_cases heq : a = address
    · subst heq
      obtain ⟨m, hm, hm'⟩ := hdef
      cases hn.symm.trans hm
      exact ⟨a, by simp [hm'], List.prefix_rfl⟩
    · split
      · exact ⟨address, rfl, hpre'⟩
      · exact h.innermost a hdef hpre' heq

/-- Each definition is listed with the nearest one around it. -/
theorem sites_nearest (hn : root.at? address = some n) (h : Nearest l root around address)
    (hx : x ∈ sites l address around above n) : Nearest l root x.around x.address := by
  induction n using SyntaxNode.by_children generalizing address around above with
  | node n ih =>
    have hbelow : ∀ around', around' = (if l.isDefinition n then some address else around) →
        x ∈ sitesFrom l address around' (n :: above) 0 n.children →
        Nearest l root x.around x.address := by
      rintro _ rfl hx
      obtain ⟨j, child, hchild, hnamed, hx⟩ := mem_sitesFrom.mp hx
      rw [Nat.zero_add] at hx
      apply ih child (List.mem_of_getElem? hchild) _ (nearest_step h hn j) hx
      rw [SyntaxNode.at?_append, hn]
      exact SyntaxNode.at?_cons_eq_some.mpr ⟨child, hchild, hnamed, by simp⟩
    by_cases hdef : l.isDefinition n = true
    · rw [sites_of_definition hdef] at hx
      rcases List.mem_cons.mp hx with rfl | hx
      · exact h
      · exact hbelow _ (by simp [hdef]) hx
    · rw [sites_of_other hdef] at hx
      exact hbelow _ (by simp [hdef]) hx

/-- The label of a definition is that of a class or a function. -/
theorem exists_scope (h : l.isDefinition n = true) :
    ∃ label scope, l.labelOf n.kind = .ok label ∧ Scope.ofLabel label = .ok scope := by
  have hscript : (if n.kind == "variable_declarator" then Language.isArrowFunction n else
      ["class_declaration", "function_declaration", "method_definition"].contains n.kind) = true →
      n.kind = "variable_declarator" ∨ n.kind = "class_declaration" ∨
        n.kind = "function_declaration" ∨ n.kind = "method_definition" := by
    intro h
    split at h <;> simp_all
  cases l with
  | python =>
    simp only [Language.isDefinition, Language.definitionKinds, List.contains_iff_mem,
      List.mem_cons, List.not_mem_nil, or_false] at h
    rcases h with h | h <;> rw [h] <;> exact ⟨_, _, rfl, rfl⟩
  | javascript => rcases hscript h with h | h | h | h <;> rw [h] <;> exact ⟨_, _, rfl, rfl⟩
  | typescript => rcases hscript h with h | h | h | h <;> rw [h] <;> exact ⟨_, _, rfl, rfl⟩
  | ruby =>
    simp only [Language.isDefinition, Language.definitionKinds, List.contains_iff_mem,
      List.mem_cons, List.not_mem_nil, or_false] at h
    rcases h with h | h | h <;> rw [h] <;> exact ⟨_, _, rfl, rfl⟩

theorem sketch_of_named {c : Cursor} {name : SyntaxNode} (h : l.isDefinition c.node = true)
    (hname : Language.nameNode c.node = .ok name) : ∃ s, sketch l c = .ok s := by
  obtain ⟨label, scope, hlabel, hscope⟩ := exists_scope h
  refine ⟨⟨scope, name.text, name.range, c, bodyOf l c.node⟩, ?_⟩
  simp [sketch, hname, hlabel, hscope]

theorem sketch_of_nameless {c : Cursor} {fault : Fault}
    (hname : Language.nameNode c.node = .error fault) : sketch l c = .error fault := by
  unfold sketch
  rw [hname]
  rfl

theorem read_of_other (h : l.isDefinition n ≠ true) :
    read l above n = readAll l (n :: above) n.children := by
  cases n
  rw [read, if_neg h]
  rfl

theorem read_of_sketch {s : Sketch} (h : l.isDefinition n = true)
    (hs : sketch l ⟨n, above⟩ = .ok s) :
    read l above n = ⟨[.of s (readAll l (n :: above) n.children).members],
      (readAll l (n :: above) n.children).fault⟩ := by
  cases n
  rw [read, if_pos h, hs]
  rfl

theorem read_of_fault {fault : Fault} (h : l.isDefinition n = true)
    (hs : sketch l ⟨n, above⟩ = .error fault) : read l above n = ⟨[], some fault⟩ := by
  cases n
  rw [read, if_pos h, hs]

theorem readAll_fault (h : ∀ child ∈ ns, ∀ address around above,
    (read l above child).fault = (sites l address around above child).findSome? Site.fault?) :
    (readAll l above ns).fault = (sitesFrom l address around above i ns).findSome? Site.fault? := by
  induction ns generalizing i with
  | nil => simp [readAll, sitesFrom]
  | cons n ns ih =>
    obtain ⟨hn, hns⟩ := List.forall_mem_cons.mp h
    have hfirst : (if n.named then read l above n else {}).fault =
        (if n.named then sites l (address ++ [i]) around above n else []).findSome?
          Site.fault? := by
      split
      · exact hn _ _ _
      · rfl
    rw [readAll, sitesFrom, List.findSome?_append, ← hfirst, ← ih hns]
    generalize (if n.named then read l above n else {}) = first
    dsimp only
    cases hfault : first.fault <;> simp [hfault]

/-- Reading comes to the fault of the first definition without a name. -/
theorem read_fault (l : Language) (address : List Nat) (around : Option (List Nat))
    (above : List SyntaxNode) (n : SyntaxNode) :
    (read l above n).fault = (sites l address around above n).findSome? Site.fault? := by
  induction n using SyntaxNode.by_children generalizing address around above with
  | node n ih =>
    have hbelow : ∀ around', (readAll l (n :: above) n.children).fault =
        (sitesFrom l address around' (n :: above) 0 n.children).findSome? Site.fault? :=
      fun around' => readAll_fault fun child hchild address around above =>
        ih child hchild address around above
    by_cases hdef : l.isDefinition n = true
    · rw [sites_of_definition hdef, List.findSome?_cons, Site.fault?]
      cases hname : Language.nameNode n with
      | ok name =>
        obtain ⟨s, hs⟩ := sketch_of_named (c := ⟨n, above⟩) hdef hname
        rw [read_of_sketch hdef hs]
        exact hbelow _
      | error fault => rw [read_of_fault hdef (sketch_of_nameless hname)]
    · rw [sites_of_other hdef, read_of_other hdef]
      exact hbelow around

theorem Site.fault?_eq_some {x : Site} {fault : Fault} : x.fault? = some fault ↔
    x.cursor.node.child? "name" = none ∧
      fault = .nameNodeNotFound x.cursor.node.kind x.cursor.node.start x.cursor.node.stop := by
  unfold Site.fault? Language.nameNode
  cases x.cursor.node.child? "name" <;> simp [eq_comm]

/-- What a reading comes to is that a definition has no name. -/
theorem exists_of_read_fault {fault : Fault} (h : (read l [] root).fault = some fault) :
    ∃ a n, root.at? a = some n ∧ l.isDefinition n = true ∧ n.child? "name" = none ∧
      fault = .nameNodeNotFound n.kind n.start n.stop := by
  rw [read_fault l [] none [] root] at h
  obtain ⟨x, hx, hfault⟩ := List.exists_of_findSome?_eq_some h
  obtain ⟨a, -, hn, hdef⟩ := of_mem_sites hx
  obtain ⟨hname, hfault⟩ := Site.fault?_eq_some.mp hfault
  exact ⟨a, _, hn, hdef, hname, hfault⟩

theorem read_fault_eq_none_iff :
    (read l [] root).fault = none ↔ ¬∃ a, NamelessAt l root a := by
  constructor
  · rintro h ⟨a, n, hn, hdef, hname⟩
    rw [read_fault l [] none [] root, List.findSome?_eq_none_iff] at h
    obtain ⟨x, hx, haddress⟩ := exists_site [] none [] hn hdef
    obtain ⟨rest, hrest, hat, -⟩ := of_mem_sites hx
    rw [haddress, List.nil_append, List.nil_append] at hrest
    subst hrest
    cases hn.symm.trans hat
    have hnone := h x hx
    rw [Site.fault?_eq_some.mpr ⟨hname, rfl⟩] at hnone
    cases hnone
  · intro h
    cases hfault : (read l [] root).fault with
    | none => rfl
    | some fault =>
      obtain ⟨a, n, hn, hdef, hname, -⟩ := exists_of_read_fault hfault
      exact absurd ⟨a, n, hn, hdef, hname⟩ h

end Outline
end CodeAtlas
