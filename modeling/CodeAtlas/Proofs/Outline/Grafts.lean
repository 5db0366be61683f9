import CodeAtlas.Proofs.Hierarchy
import CodeAtlas.Proofs.Outline.Sites
import CodeAtlas.Proofs.Path

namespace CodeAtlas
open Source NodeTable

structure Graft where
  sketch : Sketch
  parent : NodeKey

mutual
/-- The grafts of an outline below a node, if the first one gets the given key. -/
def Outline.grafts (key parent : NodeKey) : Outline → List Graft
  | .of s members => ⟨s, parent⟩ :: graftsAll (key + 1) key members

def graftsAll (key parent : NodeKey) : List Outline → List Graft
  | [] => []
  | o :: os => o.grafts key parent ++ graftsAll (key + (o.grafts key parent).length) parent os
end

theorem graftsAll_append (key parent : NodeKey) (os os' : List Outline) :
    graftsAll key parent (os ++ os') = graftsAll key parent os ++
      graftsAll (key + (graftsAll key parent os).length) parent os' := by
  induction os generalizing key with
  | nil => simp [graftsAll]
  | cons o os ih => simp [graftsAll, ih, Nat.add_assoc]

mutual
/-- Grafts stand below the given node, or below one that comes with them. -/
theorem Outline.le_parent_of_mem {g : Graft} : (o : Outline) → ∀ {key parent : NodeKey},
    parent ≤ key → g ∈ o.grafts key parent → parent ≤ g.parent
  | .of s members, key, parent, hle, hg => by
    rw [Outline.grafts] at hg
    rcases List.mem_cons.mp hg with rfl | hg
    · exact Nat.le_refl parent
    · exact Nat.le_trans hle (le_parent_of_mem_graftsAll members (Nat.le_succ key) hg)

theorem le_parent_of_mem_graftsAll {g : Graft} : (os : List Outline) → ∀ {key parent : NodeKey},
    parent ≤ key → g ∈ graftsAll key parent os → parent ≤ g.parent
  | [], _, _, _, hg => by cases hg
  | o :: os, key, parent, hle, hg => by
    rw [graftsAll] at hg
    rcases List.mem_append.mp hg with hg | hg
    · exact o.le_parent_of_mem hle hg
    · exact le_parent_of_mem_graftsAll os (Nat.le_add_right_of_le hle) hg
end

/-- A graft of a definition, below the node of the nearest definition around it. Outermost
definitions stand below the file. -/
structure Graft.Renders (g : Graft) (l : Language) (file : NodeKey) (keyOf : List Nat → NodeKey)
    (x : Site) : Prop where
  sketch : Outline.sketch l x.cursor = .ok g.sketch
  parent : g.parent = (x.around.map keyOf).getD file

namespace Outline
variable {l : Language} (file : NodeKey) {key : NodeKey} {keyOf : List Nat → NodeKey}
  {address : List Nat} {around : Option (List Nat)} {above : List SyntaxNode}

/-- Keys that follow each other do so in both parts of a list. -/
theorem keys_of_append {xs ys : List Site}
    (h : (xs ++ ys).map (fun x => keyOf x.address) = List.range' key (xs ++ ys).length) :
    xs.map (fun x => keyOf x.address) = List.range' key xs.length ∧
      ys.map (fun x => keyOf x.address) = List.range' (key + xs.length) ys.length := by
  rw [List.map_append, List.length_append, ← List.range'_append_1] at h
  exact List.append_inj h (by simp)

theorem readAll_grafts {ns : List SyntaxNode} {i : Nat}
    (h : ∀ child ∈ ns, ∀ {address key}, (read l above child).fault = none →
      (sites l address around above child).map (fun x => keyOf x.address) =
        List.range' key (sites l address around above child).length →
      List.Forall₂ (fun x g => g.Renders l file keyOf x) (sites l address around above child)
        (graftsAll key ((around.map keyOf).getD file) (read l above child).members))
    (hfault : (readAll l above ns).fault = none)
    (hkeys : (sitesFrom l address around above i ns).map (fun x => keyOf x.address) =
      List.range' key (sitesFrom l address around above i ns).length) :
    List.Forall₂ (fun x g => g.Renders l file keyOf x) (sitesFrom l address around above i ns)
      (graftsAll key ((around.map keyOf).getD file) (readAll l above ns).members) := by
  induction ns generalizing i key with
  | nil => simp [sitesFrom, readAll, graftsAll]
  | cons n ns ih =>
    obtain ⟨hn, hns⟩ := List.forall_mem_cons.mp h
    rw [sitesFrom] at hkeys ⊢
    obtain ⟨hfirst, hrest⟩ := keys_of_append hkeys
    rw [readAll] at hfault ⊢
    have hnode : (if n.named then read l above n else {}).fault = none →
        List.Forall₂ (fun x g => g.Renders l file keyOf x)
          (if n.named then sites l (address ++ [i]) around above n else [])
          (graftsAll key ((around.map keyOf).getD file)
            (if n.named then read l above n else {}).members) := by
      intro hnone
      split at hnone
      · rename_i hnamed
        rw [if_pos hnamed] at hfirst ⊢
        rw [if_pos hnamed]
        exact hn hnone hfirst
      · rename_i hnamed
        rw [if_neg hnamed, if_neg hnamed]
        simp [graftsAll]
    generalize (if n.named then read l above n else {}) = first at hnode hfault ⊢
    dsimp only at hfault ⊢
    cases hnone : first.fault with
    | some fault => simp [hnone] at hfault
    | none =>
      simp only [hnone, Option.isSome_none, Bool.false_eq_true, if_false] at hfault ⊢
      have hgrafts := hnode hnone
      rw [graftsAll_append, ← hgrafts.length_eq]
      exact List.rel_append hgrafts (ih hns hfault hrest)

/-- What is read of a tree is planted definition by definition, each below the nearest one around
it. -/
theorem read_grafts {n : SyntaxNode} (hfault : (read l above n).fault = none)
    (hkeys : (sites l address around above n).map (fun x => keyOf x.address) =
      List.range' key (sites l address around above n).length) :
    List.Forall₂ (fun x g => g.Renders l file keyOf x) (sites l address around above n)
      (graftsAll key ((around.map keyOf).getD file) (read l above n).members) := by
  induction n using SyntaxNode.by_children generalizing address around above key with
  | node n ih =>
    by_cases hdef : l.isDefinition n = true
    · cases hname : Language.nameNode n with
      | error fault =>
        rw [read_of_fault hdef (sketch_of_nameless hname)] at hfault
        cases hfault
      | ok name =>
        obtain ⟨s, hs⟩ := sketch_of_named (c := ⟨n, above⟩) hdef hname
        rw [read_of_sketch hdef hs] at hfault ⊢
        rw [sites_of_definition hdef] at hkeys ⊢
        rw [List.map_cons, List.length_cons, List.range'_succ, List.cons.injEq] at hkeys
        obtain ⟨hkey, hbelow⟩ := hkeys
        have hmembers := readAll_grafts file
          (fun child hchild => ih child hchild) hfault hbelow
        rw [Option.map_some, Option.getD_some, hkey] at hmembers
        simpa [graftsAll, grafts] using ⟨⟨hs, rfl⟩, hmembers⟩
    · rw [read_of_other hdef] at hfault ⊢
      rw [sites_of_other hdef] at hkeys ⊢
      exact readAll_grafts file (fun child hchild => ih child hchild) hfault hkeys

end Outline

/-- The keys of the grafts below a node, if the first graft gets the given key. -/
def keysBelow (parent first : NodeKey) (gs : List Graft) : List NodeKey :=
  ((gs.zipIdx first).filter fun x => x.1.parent == parent).map Prod.snd

theorem keysBelow_append (parent first : NodeKey) (gs gs' : List Graft) :
    keysBelow parent first (gs ++ gs') =
      keysBelow parent first gs ++ keysBelow parent (first + gs.length) gs' := by
  simp [keysBelow, List.zipIdx_append]

/-- A node that was made of a graft, below its parent. -/
structure Graft.Makes (g : Graft) (uri : String) (e : Option Environment) (above n : Node) :
    Prop where
  content : ∃ nameRange range, Hierarchy.placeOf g.sketch.nameRange uri = .ok nameRange ∧
    Hierarchy.placeOf g.sketch.cursor.node.range uri = .ok range ∧
    n.content = .definition (g.sketch.definition nameRange range)
  path : n.path = uri
  name : n.name = .str g.sketch.name
  environment : n.environment = e
  parent : n.parent = some g.parent
  level : above.level.successor = .ok n.level
  trail : n.trail = above.trail ++ [.named g.sketch.scope.mark (.str g.sketch.name)]

namespace NodeTable
variable {uri : String} {e : Option Environment} {t t' t'' : NodeTable} {gs gs' : List Graft}

/-- A table with the nodes of grafts, one after the other, and nothing else that is new. -/
structure Grafted (uri : String) (e : Option Environment) (t : NodeTable) (gs : List Graft)
    (t' : NodeTable) : Prop where
  regular : t'.Regular
  size : t'.nodes.size = t.nodes.size + gs.length
  old : ∀ {key}, key < t.nodes.size → t'.get? key = t.get? key
  new : ∀ {i g}, gs[i]? = some g → g.parent < t.nodes.size + i ∧
    ∃ parent n, t'.get? g.parent = some parent ∧ t'.get? (t.nodes.size + i) = some n ∧
      g.Makes uri e parent n
  members : ∀ key, t'.members key = t.members key ++ keysBelow key t.nodes.size gs

theorem Grafted.nil (ht : t.Regular) : Grafted uri e t [] t where
  regular := ht
  size := by simp
  old _ := rfl
  new h := by simp at h
  members key := by simp [keysBelow]

theorem Grafted.get? (h : Grafted uri e t gs t') {key : NodeKey} {n : Node}
    (hn : t.get? key = some n) : t'.get? key = some n :=
  (h.old (lt_size hn)).trans hn

/-- What is there stood there before, or was made of a graft. -/
theorem Grafted.lt_or_new (h : Grafted uri e t gs t') {key : NodeKey}
    (hlt : key < t'.nodes.size) :
    key < t.nodes.size ∨ ∃ i g, gs[i]? = some g ∧ key = t.nodes.size + i := by
  rcases Nat.lt_or_ge key t.nodes.size with hold | hnew
  · exact .inl hold
  · obtain ⟨i, rfl⟩ := Nat.exists_eq_add_of_le hnew
    rw [h.size] at hlt
    exact .inr ⟨i, _, List.getElem?_eq_getElem (Nat.lt_of_add_lt_add_left hlt), rfl⟩

theorem Grafted.append (h : Grafted uri e t gs t') (h' : Grafted uri e t' gs' t'') :
    Grafted uri e t (gs ++ gs') t'' where
  regular := h'.regular
  size := by rw [h'.size, h.size, List.length_append, Nat.add_assoc]
  old hlt := (h'.old (by rw [h.size]; omega)).trans (h.old hlt)
  new {i g} hg := by
    by_cases hi : i < gs.length
    · rw [List.getElem?_append_left hi] at hg
      obtain ⟨hlt, parent, n, hparent, hn, hmakes⟩ := h.new hg
      exact ⟨hlt, parent, n, h'.get? hparent, h'.get? hn, hmakes⟩
    · rw [List.getElem?_append_right (Nat.le_of_not_lt hi)] at hg
      have hkey : t'.nodes.size + (i - gs.length) = t.nodes.size + i := by
        rw [h.size]
        omega
      rw [← hkey]
      exact h'.new hg
  members key := by
    rw [h'.members, h.members, keysBelow_append, List.append_assoc, h.size]

/-- One class or function more, as a member of the node it stands below. -/
theorem grafted_one (ht : t.Regular) {g : Graft} {parent : Node}
    (hparent : t.get? g.parent = some parent) {level : Json}
    (hlevel : parent.level.successor = .ok level) {nameRange range : Place}
    (hname : Hierarchy.placeOf g.sketch.nameRange uri = .ok nameRange)
    (hrange : Hierarchy.placeOf g.sketch.cursor.node.range uri = .ok range) :
    Grafted uri e t [g] ((t.push (t.fresh (.definition (g.sketch.definition nameRange range)) uri
      (.str g.sketch.name) level (some g.parent) e)).appendMembers g.parent [t.nodes.size]) := by
  have hlt := lt_size hparent
  have hlt' : g.parent < (t.push (t.fresh (.definition (g.sketch.definition nameRange range)) uri
      (.str g.sketch.name) level (some g.parent) e)).nodes.size := by
    rw [size_push]
    exact Nat.lt_succ_of_lt hlt
  constructor
  · exact (ht.push rfl).appendMembers _ _
  · simp
  · intro key hkey
    simp only [get?_appendMembers, get?_push, if_neg (Nat.ne_of_lt hkey)]
  · intro i g' hg'
    obtain ⟨rfl, rfl⟩ : i = 0 ∧ g = g' := by
      cases i <;> simp_all
    refine ⟨hlt, parent, _, ?_, (get?_appendMembers ..).trans (t.get?_push_self _), ?_⟩
    · rw [get?_appendMembers]
      exact get?_push_of_some hparent
    · refine ⟨⟨nameRange, range, hname, hrange, rfl⟩, rfl, rfl, rfl, rfl, hlevel, ?_⟩
      simp [fresh, trailBelow, hparent, Sketch.definition]
  · intro key
    rw [(ht.push rfl).members_appendMembers hlt', ht.members_push rfl, ht.members_push rfl]
    by_cases hkey : key = g.parent
    · subst hkey
      simp [keysBelow]
    · simp [keysBelow, hkey, Ne.symm hkey]

end NodeTable

namespace Hierarchy
variable {uri : String} {e : Option Environment} {t : NodeTable}

theorem ends_insert_uri (huri : Path.isUri uri = true) {content : Content} {name level : Json}
    {parent : Option NodeKey} {done : NodeKey → NodeTable → Prop} {failed : NodeTable → Prop}
    (h : done t.nodes.size (t.push (t.fresh content uri name level parent e))) :
    (NodeTable.insert content uri name level parent e).Ends t done failed := by
  rw [Action.ends_iff, perform_insert, if_pos huri]
  constructor
  · intro key t' heq
    cases heq
    exact h
  · intro fault t' heq
    cases heq

theorem placeOf_eq (huri : Path.isUri uri = true) (range : Range) :
    placeOf range uri = .ok ⟨.ofRange range, Text.Percent.decode uri⟩ := by
  have hvoid : (Json.str uri).isVoid = false := by
    obtain ⟨rest, rfl⟩ := Text.startsWith_iff.mp huri
    simp [Json.isVoid, Path.scheme]
  unfold placeOf Place.make
  rw [hvoid]
  rfl

/-- A node that others can be planted below has a whole number as its level. -/
def Levelled (t : NodeTable) (key : NodeKey) : Prop :=
  ∃ n level, t.get? key = some n ∧ n.level = .int level

mutual
/-- An outline is planted as its grafts say. -/
theorem plant_grafted (huri : Path.isUri uri = true) : (o : Outline) → ∀ {parent t},
    t.Regular → Levelled t parent →
    (plant uri e parent o).Ends t (fun keys t' =>
      keys = List.range' t.nodes.size (o.grafts t.nodes.size parent).length ∧
        Grafted uri e t (o.grafts t.nodes.size parent) t') fun _ => False
  | .of s members, parent, t, ht, ⟨n, level, hn, hlevel⟩ => by
    have hnode : t.node parent = .ok n := node_eq_ok.mpr hn
    have hnext : n.level.successor = .ok (.int (level + 1)) := by
      rw [hlevel]
      rfl
    have hone := grafted_one (e := e) ht (g := ⟨s, parent⟩) hn hnext (placeOf_eq huri s.nameRange)
      (placeOf_eq huri s.cursor.node.range)
    rw [plant, placeOf_eq huri, placeOf_eq huri]
    simp only [Action.ends_bind, Action.ends_ofExcept_ok, Action.ends_get, hnode, hnext]
    apply ends_insert_uri huri
    rw [Action.ends_modify]
    generalize hadded : (t.push _).appendMembers parent [t.nodes.size] = t₁ at hone ⊢
    have hsize : t₁.nodes.size = t.nodes.size + 1 := hone.size
    have hlevelled : Levelled t₁ t.nodes.size := by
      obtain ⟨-, above, n', hparent, hn', hmakes⟩ := hone.new (i := 0) rfl
      cases (hone.get? hn).symm.trans hparent
      exact ⟨n', level + 1, hn', Except.ok.inj (hmakes.level.symm.trans hnext)⟩
    apply (plantAll_grafted huri members hone.regular hlevelled).mono _ fun _ h => h
    intro keys t' h
    rw [hsize] at h
    rw [Action.ends_pure, Outline.grafts, List.length_cons, h.1, List.range'_succ]
    exact ⟨rfl, hone.append h.2⟩

theorem plantAll_grafted (huri : Path.isUri uri = true) : (os : List Outline) → ∀ {parent t},
    t.Regular → Levelled t parent →
    (plantAll uri e parent os).Ends t (fun keys t' =>
      keys = List.range' t.nodes.size (graftsAll t.nodes.size parent os).length ∧
        Grafted uri e t (graftsAll t.nodes.size parent os) t') fun _ => False
  | [], parent, t, ht, _ => by
    rw [plantAll, Action.ends_pure]
    exact ⟨rfl, .nil ht⟩
  | o :: os, parent, t, ht, hp => by
    rw [plantAll, Action.ends_bind]
    apply (plant_grafted huri o ht hp).mono _ fun _ h => h
    rintro keys t₁ ⟨rfl, hfirst⟩
    have hp₁ : Levelled t₁ parent := by
      obtain ⟨n, level, hn, hlevel⟩ := hp
      exact ⟨n, level, hfirst.get? hn, hlevel⟩
    rw [Action.ends_bind]
    apply (plantAll_grafted huri os hfirst.regular hp₁).mono _ fun _ h => h
    intro keys t' h
    rw [hfirst.size] at h
    rw [Action.ends_pure, graftsAll, List.length_append, h.1, List.range'_append_1]
    exact ⟨rfl, hfirst.append h.2⟩
end

end Hierarchy
end CodeAtlas
