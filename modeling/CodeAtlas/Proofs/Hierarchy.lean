import CodeAtlas.Hierarchy
import CodeAtlas.Proofs.Graph.Table

namespace CodeAtlas

mutual
/-- Are all that an outline names classes and functions? -/
def Outline.Inner : Outline → Prop
  | .of s members => s.scope ≠ .file ∧ InnerAll members

def InnerAll : List Outline → Prop
  | [] => True
  | o :: os => o.Inner ∧ InnerAll os
end

theorem innerAll_append {os os' : List Outline} (h : InnerAll os) (h' : InnerAll os') :
    InnerAll (os ++ os') := by
  induction os with
  | nil => exact h'
  | cons o os ih => exact ⟨h.1, ih h.2⟩

namespace Outline
open Source

theorem sketch_inner {l : Language} {c : Cursor} {s : Sketch} (h : sketch l c = .ok s) :
    s.scope ≠ .file := by
  simp only [sketch, Outcome.bind_eq_ok, Outcome.pure_eq_ok] at h
  obtain ⟨_, _, label, _, scope, hscope, rfl⟩ := h
  unfold Scope.ofLabel at hscope
  split at hscope <;> cases hscope <;> simp

mutual
theorem read_inner (l : Language) (above : List SyntaxNode) :
    (n : SyntaxNode) → InnerAll (read l above n).members
  | .mk kind field named start stop text children => by
    rw [read]
    split
    · split
      · trivial
      · rename_i s hs
        exact ⟨⟨sketch_inner hs, readAll_inner l _ children⟩, trivial⟩
    · exact readAll_inner l _ children

theorem readAll_inner (l : Language) (above : List SyntaxNode) :
    (ns : List SyntaxNode) → InnerAll (readAll l above ns).members
  | [] => trivial
  | n :: ns => by
    have hfirst : InnerAll (if n.named then read l above n else {}).members := by
      split
      · exact read_inner l above n
      · trivial
    rw [readAll]
    generalize (if n.named then read l above n else {}) = first at hfirst ⊢
    dsimp only
    split
    · exact hfirst
    · exact innerAll_append hfirst (readAll_inner l above ns)
end

end Outline

namespace NodeTable

structure Grown (uri : String) (e : Option Environment) (t t' : NodeTable) : Prop where
  size : t.nodes.size ≤ t'.nodes.size
  old : ∀ {key}, key < t.nodes.size → t'.get? key = t.get? key
  new : ∀ {key n}, t.nodes.size ≤ key → t'.get? key = some n →
    IsInner n ∧ n.path = uri ∧ n.environment = e

variable {uri : String} {e : Option Environment} {t t' t'' : NodeTable}

theorem Grown.refl (uri : String) (e : Option Environment) (t : NodeTable) : Grown uri e t t where
  size := Nat.le_refl _
  old _ := rfl
  new hle h := absurd (lt_size h) (Nat.not_lt_of_le hle)

theorem Grown.trans (h : Grown uri e t t') (h' : Grown uri e t' t'') : Grown uri e t t'' where
  size := Nat.le_trans h.size h'.size
  old hlt := (h'.old (Nat.lt_of_lt_of_le hlt h.size)).trans (h.old hlt)
  new {key n} hle hn := by
    by_cases hlt : key < t'.nodes.size
    · exact h.new hle ((h'.old hlt).symm.trans hn)
    · exact h'.new (Nat.le_of_not_lt hlt) hn

theorem Grown.get? (h : Grown uri e t t') {key : NodeKey} {n : Node} (hn : t.get? key = some n) :
    t'.get? key = some n :=
  (h.old (lt_size hn)).trans hn

end NodeTable

namespace Hierarchy
open NodeTable

def Below (uri : String) (parent : NodeKey) (t : NodeTable) : Prop :=
  ∃ n d, t.get? parent = some n ∧ n.content = .definition d ∧ n.path = uri

/-- What planting comes to: the table is tidy and has grown, and the keys are those of the nodes
that were not there before. -/
def Planted (uri : String) (e : Option Environment) (strays : List Char) (t : NodeTable)
    (keys : List NodeKey) (t' : NodeTable) : Prop :=
  t'.Tidy strays ∧ Grown uri e t t' ∧
    ∀ key : Nat, key ∈ keys ↔ t.nodes.size ≤ key ∧ key < t'.nodes.size

variable {uri : String} {e : Option Environment} {strays : List Char} {t t' : NodeTable}
  {parent : NodeKey}

theorem Below.grown (h : Below uri parent t) (hg : Grown uri e t t') : Below uri parent t' := by
  obtain ⟨n, d, hn, hd, hpath⟩ := h
  exact ⟨n, d, hg.get? hn, hd, hpath⟩

theorem below_push {d : Definition} {name level : Json} {above : Option NodeKey} (t : NodeTable) :
    Below uri t.nodes.size (t.push (t.fresh (.definition d) uri name level above e)) :=
  ⟨_, d, t.get?_push_self _, rfl, rfl⟩

/-- One class or function more, as a member of the node it stands below. -/
theorem planted_one (e : Option Environment) {d : Definition} (hd : d.scope ≠ .file)
    (name level : Json) (ht : t.Tidy strays) (hp : Below uri parent t) :
    let t' := (t.push (t.fresh (.definition d) uri name level (some parent) e)).appendMembers parent
      [t.nodes.size]
    Planted uri e strays t [t.nodes.size] t' ∧ Below uri t.nodes.size t' := by
  intro t'
  obtain ⟨n, dn, hn, hdn, hpath⟩ := hp
  have hfresh := t.get?_push_self (t.fresh (.definition d) uri name level (some parent) e)
  refine ⟨⟨?_, ⟨?_, ?_, ?_⟩, ?_⟩, ?_⟩
  · refine (ht.push rfl).appendMembers (get?_push_of_some hn) (by simp) fun d' _ m hm => ?_
    rw [List.mem_singleton] at hm
    subst hm
    exact ⟨_, hfresh, ⟨d, rfl, hd⟩, hpath.symm⟩
  · simp [t']
  · intro key hlt
    simp only [t', get?_appendMembers, get?_push, if_neg (Nat.ne_of_lt hlt)]
  · intro key m hle hm
    have hlt := lt_size hm
    simp only [t', get?_appendMembers, size_appendMembers, size_push] at hm hlt
    obtain rfl := Nat.le_antisymm (Nat.le_of_lt_succ hlt) hle
    cases hfresh.symm.trans hm
    exact ⟨⟨d, rfl, hd⟩, rfl, rfl⟩
  · intro key
    simp only [t', List.mem_singleton, size_appendMembers, size_push]
    omega
  · exact ⟨_, d, by simpa only [t', get?_appendMembers] using hfresh, rfl, rfl⟩

theorem planted_none (ht : t.Tidy strays) : Planted uri e strays t [] t := by
  refine ⟨ht, .refl uri e t, fun key => ?_⟩
  simp only [List.not_mem_nil, false_iff]
  omega

theorem Planted.append {keys keys' : List NodeKey} {t'' : NodeTable}
    (h : Planted uri e strays t keys t') (h' : Planted uri e strays t' keys' t'') :
    Planted uri e strays t (keys ++ keys') t'' := by
  obtain ⟨_, hg, hk⟩ := h
  obtain ⟨ht, hg', hk'⟩ := h'
  refine ⟨ht, hg.trans hg', fun key => ?_⟩
  have hsize := hg.size
  have hsize' := hg'.size
  rw [List.mem_append, hk, hk']
  omega

/-- A fault comes after all that was planted. -/
theorem ends_fault {P : List NodeKey → NodeTable → Prop} {F : NodeTable → Prop}
    {keys : List NodeKey} (hP : P keys t) (hF : F t) (fault? : Option Fault) :
    (match fault? with
      | some fault => throw fault
      | none => pure keys : Action NodeTable (List NodeKey)).Ends t P F := by
  split
  · exact Action.ends_throw.mpr hF
  · exact Action.ends_pure.mpr hP

mutual
theorem plant_planted : (o : Outline) → o.Inner → ∀ {parent t}, t.Tidy strays → Below uri parent t →
    (plant uri e parent o).Ends t (Planted uri e strays t)
      (fun t' => t'.Tidy strays ∧ Grown uri e t t')
  | .of s members, ⟨hs, hmembers⟩, parent, t, ht, hp => by
    have hfail : t.Tidy strays ∧ Grown uri e t t := ⟨ht, .refl uri e t⟩
    rw [plant, Action.ends_bind]
    refine Action.ends_ofExcept (fun nameRange _ => ?_) hfail
    rw [Action.ends_bind]
    refine Action.ends_ofExcept (fun range _ => ?_) hfail
    rw [Action.ends_bind, Action.ends_get, Action.ends_bind]
    refine Action.ends_ofExcept (fun n _ => ?_) hfail
    rw [Action.ends_bind]
    refine Action.ends_ofExcept (fun level _ => ?_) hfail
    rw [Action.ends_bind]
    refine ends_insert (fun _ => ?_) hfail
    have hscope : (s.definition nameRange range).scope ≠ .file := hs
    obtain ⟨hone, hbelow⟩ := planted_one e hscope (.str s.name) level ht hp
    rw [Action.ends_bind, Action.ends_modify, Action.ends_bind]
    refine (plantAll_planted members hmembers hone.1 hbelow).mono (fun keys t' h => ?_) ?_
    · exact Action.ends_pure.mpr (hone.append h)
    · exact fun t' h => ⟨h.1, hone.2.1.trans h.2⟩

theorem plantAll_planted : (os : List Outline) → InnerAll os → ∀ {parent t}, t.Tidy strays →
    Below uri parent t →
    (plantAll uri e parent os).Ends t (Planted uri e strays t)
      (fun t' => t'.Tidy strays ∧ Grown uri e t t')
  | [], _, parent, t, ht, _ => by
    rw [plantAll, Action.ends_pure]
    exact planted_none ht
  | o :: os, ⟨ho, hos⟩, parent, t, ht, hp => by
    rw [plantAll, Action.ends_bind]
    refine (plant_planted o ho ht hp).mono (fun keys t' h => ?_) fun t' h => h
    rw [Action.ends_bind]
    refine (plantAll_planted os hos h.1 (hp.grown h.2.1)).mono (fun keys' t'' h' => ?_) ?_
    · exact Action.ends_pure.mpr (h.append h')
    · exact fun t'' h' => ⟨h'.1, h.2.1.trans h'.2⟩
end

/-- A table with the node of a file, and after it classes and functions of the file. -/
structure Filed (e : Option Environment) (parent : Option NodeKey) (file : ProjectFile)
    (t t' : NodeTable) : Prop where
  size : t.nodes.size ≤ t'.nodes.size
  old : ∀ {key}, key < t.nodes.size → t'.get? key = t.get? key
  new : ∀ {key n}, t.nodes.size ≤ key → t'.get? key = some n →
    n.path = file.uri ∧ n.environment = e ∧
      if key = t.nodes.size then
        n.label = .file ∧ (∃ d, n.content = .definition d) ∧
          n.trail = t.trailBelow parent (.named "/" (.str file.name))
      else IsInner n

/-- The keys of a file are that of its node and those of the nodes after it. -/
def FileKeys (t : NodeTable) (keys : List NodeKey) (t' : NodeTable) : Prop :=
  ∃ below, keys = t.nodes.size :: below ∧ t.nodes.size < t'.nodes.size ∧
    ∀ key : Nat, key ∈ below ↔ t.nodes.size < key ∧ key < t'.nodes.size

section
variable {file : ProjectFile} {above : Option NodeKey}

theorem Filed.refl (e : Option Environment) (above : Option NodeKey) (file : ProjectFile)
    (t : NodeTable) : Filed e above file t t where
  size := Nat.le_refl _
  old _ := rfl
  new hle h := absurd (lt_size h) (Nat.not_lt_of_le hle)

theorem filed_push {d : Definition} (hd : d.scope = .file) (e : Option Environment)
    (above : Option NodeKey) (file : ProjectFile) (level : Json) (t : NodeTable) :
    Filed e above file t
      (t.push (t.fresh (.definition d) file.uri (.str file.name) level above e)) where
  size := by simp
  old hlt := by rw [get?_push, if_neg (Nat.ne_of_lt hlt)]
  new {key n} hle hn := by
    have hlt := lt_size hn
    rw [size_push] at hlt
    obtain rfl := Nat.le_antisymm (Nat.le_of_lt_succ hlt) hle
    rw [get?_push, if_pos rfl] at hn
    cases hn
    refine ⟨rfl, rfl, ?_⟩
    rw [if_pos rfl]
    refine ⟨?_, ⟨d, rfl⟩, ?_⟩
    · simp [fresh, Node.label, hd, Scope.label]
    · simp [fresh, hd, Scope.mark]

theorem Filed.grown {t'' : NodeTable} (h : Filed e above file t t')
    (hlt : t.nodes.size < t'.nodes.size) (hg : Grown file.uri e t' t'') :
    Filed e above file t t'' where
  size := Nat.le_trans h.size hg.size
  old hk := (hg.old (Nat.lt_of_lt_of_le hk h.size)).trans (h.old hk)
  new {key n} hle hn := by
    by_cases hk : key < t'.nodes.size
    · exact h.new hle ((hg.old hk).symm.trans hn)
    · obtain ⟨hinner, hpath, he⟩ := hg.new (Nat.le_of_not_lt hk) hn
      refine ⟨hpath, he, ?_⟩
      have hne : key ≠ t.nodes.size := fun heq => hk (heq ▸ hlt)
      rw [if_neg hne]
      exact hinner

theorem plantReading_planted {key : NodeKey} {reading : Outline.Reading}
    (hr : InnerAll reading.members) (ht : t.Tidy strays) (hp : Below uri key t) :
    (plantReading uri e (some key) reading).Ends t (Planted uri e strays t)
      (fun t' => t'.Tidy strays ∧ Grown uri e t t') := by
  unfold plantReading
  dsimp only
  split
  · exact Action.ends_bind.mpr
      (Action.ends_pure.mpr (ends_fault (planted_none ht) ⟨ht, .refl uri e t⟩ _))
  · exact absurd ‹some key = none› (by simp)
  · rename_i heq _
    cases heq
    exact Action.ends_bind.mpr
      ((plantAll_planted _ hr ht hp).mono (fun _ _ h => ends_fault h ⟨h.1, h.2.1⟩ _) fun _ h => h)

/-- A file is planted with all its classes and functions. -/
theorem plantFile_filed (w : Workspace) (l : Option Language) (e : Option Environment)
    (above : Option NodeKey) (file : ProjectFile) (level : Json) (ht : t.Tidy strays) :
    (plantFile w l e above file level).Ends t
      (fun keys t' => t'.Tidy strays ∧ Filed e above file t t' ∧ FileKeys t keys t')
      (fun t' => t'.Tidy strays ∧ Filed e above file t t') := by
  have hfail : t.Tidy strays ∧ Filed e above file t t := ⟨ht, .refl e above file t⟩
  rw [plantFile]
  split
  · -- a file that is read in no language
    rw [plantPlainFile, Action.ends_bind]
    refine Action.ends_ofExcept (fun range _ => ?_) hfail
    rw [Action.ends_bind]
    refine ends_insert (fun _ => ?_) hfail
    refine Action.ends_pure.mpr
      ⟨ht.push rfl, filed_push rfl e above file level t, [], rfl, by simp, fun key => ?_⟩
    simp only [List.not_mem_nil, false_iff, size_push]
    omega
  · rename_i l _
    rw [Action.ends_bind]
    refine Action.ends_ofExcept (fun text _ => ?_) hfail
    dsimp only
    split
    · exact Action.ends_bind.mpr (Action.ends_throw.mpr hfail)
    · rw [Action.ends_bind]
      refine Action.ends_ofExcept (fun range _ => ?_) hfail
      rw [Action.ends_bind]
      refine ends_insert (fun _ => ?_) hfail
      have hfiled := filed_push (d := ⟨.file, range, range, .str text,
        some (w.grammar.parse l file.extension text),
        some (.root (w.grammar.parse l file.extension text)), [], []⟩) rfl e above file level t
      rw [Action.ends_bind]
      refine (plantReading_planted (Outline.read_inner l [] _) (ht.push rfl) (below_push t)).mono
        (fun below t' h => ?_) fun t' h => ⟨h.1, hfiled.grown (by simp) h.2⟩
      refine Action.ends_pure.mpr
        ⟨h.1, hfiled.grown (by simp) h.2.1, below, rfl, ?_, fun key => ?_⟩
      · exact Nat.lt_of_lt_of_le (by simp) h.2.1.size
      · rw [h.2.2 key, size_push, Nat.succ_le_iff]

end

end Hierarchy
end CodeAtlas
