import CodeAtlas.Proofs.Graph.Growth

namespace CodeAtlas

def Definition.core (d : Definition) : Definition :=
  { d with text := .null, extraLabels := [], extraAttributes := [] }

def Content.core : Content → Content
  | .definition d => .definition d.core
  | other => other

/-- A node without its members and all that a review may change in it. -/
def Node.core (n : Node) : Node :=
  { n with content := n.content.core, environment := none, members := 0 }

/-- Do two nodes differ in what a review may change, and in members, at most? -/
def Node.Alike (n n' : Node) : Prop :=
  n'.core = n.core

namespace Node.Alike
variable {n n' n'' : Node}

theorem refl (n : Node) : n.Alike n := rfl

theorem trans (h : n.Alike n') (h' : n'.Alike n'') : n.Alike n'' := Eq.trans h' h

theorem symm (h : n.Alike n') : n'.Alike n := Eq.symm h

theorem path (h : n.Alike n') : n'.path = n.path := (Node.mk.inj h).2.1

theorem parent (h : n.Alike n') : n'.parent = n.parent := (Node.mk.inj h).2.2.2.2.1

theorem trail (h : n.Alike n') : n'.trail = n.trail := (Node.mk.inj h).2.2.2.2.2.1

theorem folder (h : n.Alike n') (hn : n.content = .folder) : n'.content = .folder := by
  have hc : n'.content.core = n.content.core := (Node.mk.inj h).1
  rw [hn] at hc
  cases hn' : n'.content with
  | folder => rfl
  | _ => simp [hn', Content.core] at hc

theorem definition {d : Definition} (h : n.Alike n') (hn : n.content = .definition d) :
    ∃ d', n'.content = .definition d' ∧ d'.scope = d.scope := by
  have hc : n'.content.core = n.content.core := (Node.mk.inj h).1
  rw [hn] at hc
  cases hn' : n'.content with
  | definition d' =>
    rw [hn'] at hc
    exact ⟨d', rfl, (Definition.mk.inj (Content.definition.inj hc)).1⟩
  | _ => simp [hn', Content.core] at hc

theorem containable (h : n.Alike n') : n'.containable = n.containable := by
  have hcore : ∀ n : Node, n.core.containable = n.containable := by
    intro n
    unfold Node.core Node.containable
    cases n.content <;> rfl
  rw [← hcore n, ← hcore n', h]

end Node.Alike

theorem Node.Kin.alike {n n' : Node} (h : n.Kin n') : n.Alike n' := by
  have hcore : ∀ n : Node, n.blank.core = n.core := by
    intro n
    unfold Node.blank Node.core
    cases n.content <;> rfl
  rw [Node.Alike, ← hcore n, ← hcore n', h]

def Node.within (e : Option Environment) (n : Node) : Node :=
  { n with environment := e }

/-- A change to what a review may change, which does not depend on texts. -/
structure Node.Gentle (f : Node → Node) : Prop where
  alike : ∀ n : Node, n.Alike (f n)
  members : ∀ n, (f n).members = n.members
  kin : ∀ {n n' : Node}, n.Kin n' → (f n).Kin (f n')

namespace Node.Gentle
variable {f g : Node → Node}

theorem comp (hg : Gentle g) (hf : Gentle f) : Gentle (fun n => g (f n)) where
  alike n := (hf.alike n).trans (hg.alike _)
  members n := (hg.members _).trans (hf.members n)
  kin h := hg.kin (hf.kin h)

theorem updateDefinition {g : Definition → Definition} (hcore : ∀ d, (g d).core = d.core)
    (hblank : ∀ {d d' : Definition}, d'.blank = d.blank → (g d').blank = (g d).blank) :
    Gentle (Node.updateDefinition g) where
  alike n := by
    unfold Node.updateDefinition
    split
    · rename_i d hd
      simp only [Node.Alike, Node.core, hd, Content.core, hcore]
    · exact .refl n
  members n := by
    unfold Node.updateDefinition
    split <;> rfl
  kin {n n'} h := by
    cases hn : n.content with
    | definition d =>
      obtain ⟨d', hd', hb⟩ := h.definition hn
      have hfields := Node.mk.inj h
      simp only [Node.updateDefinition, hn, hd', Node.Kin, Node.blank, Content.blank, hblank hb]
      simp [hfields.2.1, hfields.2.2]
    | _ =>
      have hc := h.content
      cases hn' : n'.content <;> simp_all [Node.updateDefinition, Content.blank]

theorem within (e : Option Environment) : Gentle (Node.within e) where
  alike _ := rfl
  members _ := rfl
  kin {n n'} h := by
    have hfields := Node.mk.inj h
    simp_all [Node.Kin, Node.blank, Node.within]

end Node.Gentle

namespace NodeTable
variable {t t' t'' : NodeTable} {key m x y : NodeKey} {f g : Node → Node} {P Q : NodeKey → Prop}

def Under (t : NodeTable) (m key : NodeKey) : Prop :=
  Relation.ReflTransGen (fun m k => t.Child k m) m key

/-- Members and parents say the same, and a parent was there before. -/
structure Orderly (t : NodeTable) : Prop where
  before : ∀ {key m}, t.Child key m → key < m
  members : ∀ {key m}, m ∈ t.members key ↔ t.Child key m
  nodup : ∀ key, (t.members key).Nodup

namespace Orderly

theorem le_of_under (ht : t.Orderly) (h : t.Under m key) : key ≤ m := by
  induction h with
  | refl => exact Nat.le_refl _
  | tail _ hchild ih => exact Nat.le_trans (Nat.le_of_lt (ht.before hchild)) ih

theorem under_iff (ht : t.Orderly) :
    t.Under m key ↔ m = key ∨ ∃ x ∈ t.members key, t.Under m x := by
  constructor
  · intro h
    rcases Relation.ReflTransGen.cases_tail h with heq | ⟨x, hunder, hchild⟩
    · exact Or.inl heq.symm
    · exact Or.inr ⟨x, ht.members.mpr hchild, hunder⟩
  · intro h
    rcases h with rfl | ⟨x, hx, hunder⟩
    · exact .refl
    · exact hunder.tail (ht.members.mp hx)

/-- What stands below a node stands below one of its members only. -/
theorem under_unique (ht : t.Orderly) (hx : t.Child key x) (hy : t.Child key y) (h : t.Under m x)
    (h' : t.Under m y) : x = y := by
  have hnot : ∀ {x y}, t.Child key x → t.Child key y → t.Under x y → x = y := by
    intro x y hx hy hunder
    rcases Relation.ReflTransGen.cases_head hunder with heq | ⟨k, hchild, hrest⟩
    · exact heq
    · obtain rfl := hchild.unique hx
      exact absurd (ht.le_of_under hrest) (Nat.not_le_of_lt (ht.before hy))
  have hunique : Relator.RightUnique fun m k => t.Child k m := fun _ _ _ => Child.unique
  rcases Relation.ReflTransGen.total_of_right_unique hunique h h' with hunder | hunder
  · exact hnot hx hy hunder
  · exact (hnot hy hx hunder).symm

end Orderly

theorem members_congr (hgroups : t'.groups = t.groups) (hsize : t'.nodes.size = t.nodes.size)
    (hnode : ∀ n, t.get? key = some n → ∃ n', t'.get? key = some n' ∧ n'.members = n.members) :
    t'.members key = t.members key := by
  cases hn : t.get? key with
  | none =>
    have hn' : t'.get? key = none := by
      rw [get?_eq_none] at hn ⊢
      rwa [hsize]
    simp only [members, hn, hn']
  | some n =>
    obtain ⟨n', hn', hmembers⟩ := hnode n hn
    simp only [members, hn, hn', hmembers, hgroups]

/-- A table whose nodes are alike to those of another one, and have the same members. -/
structure Reshaped (t t' : NodeTable) : Prop where
  strays : t'.strays = t.strays
  groups : t'.groups = t.groups
  size : t'.nodes.size = t.nodes.size
  node : ∀ {m n}, t.get? m = some n → ∃ n', t'.get? m = some n' ∧ n'.members = n.members ∧
    n.Alike n'

namespace Reshaped

theorem get? (h : Reshaped t t') {n' : Node} (hn' : t'.get? m = some n') :
    ∃ n, t.get? m = some n ∧ n'.members = n.members ∧ n.Alike n' := by
  obtain ⟨n, hn⟩ := get?_of_lt (h.size ▸ lt_size hn')
  obtain ⟨n'', hn'', hrest⟩ := h.node hn
  cases hn'.symm.trans hn''
  exact ⟨n, hn, hrest⟩

theorem members_eq (h : Reshaped t t') (key : NodeKey) : t'.members key = t.members key :=
  members_congr h.groups h.size fun n hn => by
    obtain ⟨n', hn', hmembers, -⟩ := h.node hn
    exact ⟨n', hn', hmembers⟩

theorem child_iff (h : Reshaped t t') : t'.Child key m ↔ t.Child key m := by
  constructor
  · rintro ⟨n', hn', hp⟩
    obtain ⟨n, hn, -, halike⟩ := h.get? hn'
    exact ⟨n, hn, halike.parent.symm.trans hp⟩
  · rintro ⟨n, hn, hp⟩
    obtain ⟨n', hn', -, halike⟩ := h.node hn
    exact ⟨n', hn', halike.parent.trans hp⟩

theorem tidy (h : Reshaped t t') (ht : t.Tidy) : t'.Tidy where
  strays_eq := h.strays.trans ht.strays_eq
  size := by rw [h.groups, h.size, ht.size]
  own {key n'} hn' := by
    obtain ⟨n, hn, hmembers, -⟩ := h.get? hn'
    rw [hmembers, ht.own hn]
  inside {key m} hm := by
    rw [h.members_eq] at hm
    exact h.size ▸ ht.inside hm
  inner {key n' d'} hn' hd' m hm := by
    obtain ⟨n, hn, -, halike⟩ := h.get? hn'
    obtain ⟨d, hd, -⟩ := halike.symm.definition hd'
    rw [h.members_eq] at hm
    obtain ⟨member, hmember, ⟨k, hk, hscope⟩, hpath⟩ := ht.inner hn hd m hm
    obtain ⟨member', hmember', -, halike'⟩ := h.node hmember
    obtain ⟨k', hk', hscope'⟩ := halike'.definition hk
    exact ⟨member', hmember', ⟨k', hk', hscope' ▸ hscope⟩,
      by rw [halike'.path, halike.path, hpath]⟩

end Reshaped

/-- A table in which some nodes have been changed in one way, and texts besides. -/
structure Touched (f : Node → Node) (P : NodeKey → Prop) (t t' : NodeTable) : Prop where
  strays : t'.strays = t.strays
  groups : t'.groups = t.groups
  size : t'.nodes.size = t.nodes.size
  node : ∀ {m n}, t.get? m = some n → ∃ n', t'.get? m = some n' ∧ n'.members = n.members ∧
    (P m → (f n).Kin n') ∧ (¬P m → n.Kin n')

namespace Touched

theorem of_retold (f : Node → Node) (h : t.Retold t') : Touched f (fun _ => False) t t' where
  strays := h.strays
  groups := h.groups
  size := h.size
  node {m n} hn := by
    obtain ⟨n', hn', hkin⟩ := h.keeps m n hn
    exact ⟨n', hn', h.own hn hn', False.elim, fun _ => hkin⟩

theorem congr (h : Touched f P t t') (hPQ : ∀ m, P m ↔ Q m) : Touched f Q t t' := by
  obtain rfl : P = Q := funext fun m => propext (hPQ m)
  exact h

/-- On the nodes that are changed, another way may come to the same. -/
theorem congr_way (h : Touched f P t t')
    (hfg : ∀ {m n}, P m → t.get? m = some n → f n = g n) : Touched g P t t' where
  strays := h.strays
  groups := h.groups
  size := h.size
  node {m n} hn := by
    obtain ⟨n', hn', hmembers, hP, hnot⟩ := h.node hn
    exact ⟨n', hn', hmembers, fun hp => hfg hp hn ▸ hP hp, hnot⟩

theorem get? (h : Touched f P t t') {n' : Node} (hn' : t'.get? m = some n') :
    ∃ n, t.get? m = some n ∧ n'.members = n.members ∧ (P m → (f n).Kin n') ∧
      (¬P m → n.Kin n') := by
  obtain ⟨n, hn⟩ := get?_of_lt (h.size ▸ lt_size hn')
  obtain ⟨n'', hn'', hrest⟩ := h.node hn
  cases hn'.symm.trans hn''
  exact ⟨n, hn, hrest⟩

/-- Whether it was changed or not, a node is alike to what it was. -/
theorem alike (hf : Node.Gentle f) {n n' : Node} (hP : P m → (f n).Kin n')
    (hnot : ¬P m → n.Kin n') : n.Alike n' := by
  by_cases h : P m
  · exact (hf.alike n).trans (hP h).alike
  · exact (hnot h).alike

theorem members_eq (h : Touched f P t t') (key : NodeKey) : t'.members key = t.members key :=
  members_congr h.groups h.size fun n hn => by
    obtain ⟨n', hn', hmembers, -⟩ := h.node hn
    exact ⟨n', hn', hmembers⟩

theorem reshaped (h : Touched f P t t') (hf : Node.Gentle f) : Reshaped t t' where
  strays := h.strays
  groups := h.groups
  size := h.size
  node {m n} hn := by
    obtain ⟨n', hn', hmembers, hP, hnot⟩ := h.node hn
    exact ⟨n', hn', hmembers, alike hf hP hnot⟩

theorem under_iff (h : Touched f P t t') (hf : Node.Gentle f) : t'.Under m key ↔ t.Under m key := by
  have heq : (fun m k => t'.Child k m) = fun m k => t.Child k m :=
    funext fun m => funext fun k => propext (h.reshaped hf).child_iff
  rw [Under, Under, heq]

theorem orderly (h : Touched f P t t') (hf : Node.Gentle f) (ht : t.Orderly) : t'.Orderly where
  before hchild := ht.before ((h.reshaped hf).child_iff.mp hchild)
  members := by
    intro key m
    rw [h.members_eq, ht.members, (h.reshaped hf).child_iff]
  nodup key := h.members_eq key ▸ ht.nodup key

/-- Of two changes in one way, to nodes that are not the same, each node sees one at most. -/
theorem union (h : Touched f P t t') (hf : Node.Gentle f) (h' : Touched f Q t' t'')
    (hd : ∀ m, P m → ¬Q m) : Touched f (fun m => P m ∨ Q m) t t'' where
  strays := h'.strays.trans h.strays
  groups := h'.groups.trans h.groups
  size := h'.size.trans h.size
  node {m n} hn := by
    obtain ⟨n', hn', hmembers, hP, hnotP⟩ := h.node hn
    obtain ⟨n'', hn'', hmembers', hQ, hnotQ⟩ := h'.node hn'
    refine ⟨n'', hn'', hmembers'.trans hmembers, ?_, ?_⟩
    · rintro (hp | hq)
      · exact (hP hp).trans (hnotQ (hd m hp))
      · exact (hf.kin (hnotP fun hp => hd m hp hq)).trans (hQ hq)
    · intro hnot
      rw [not_or] at hnot
      exact (hnotP hnot.1).trans (hnotQ hnot.2)

theorem retold (h : Touched f P t t') (hf : Node.Gentle f) (hr : t'.Retold t'') :
    Touched f P t t'' :=
  (h.union hf (of_retold f hr) fun _ _ => not_false).congr fun _ => by simp

/-- Two changes to the same nodes are one. -/
theorem comp (h : Touched f P t t') (hg : Node.Gentle g) (h' : Touched g P t' t'') :
    Touched (fun n => g (f n)) P t t'' where
  strays := h'.strays.trans h.strays
  groups := h'.groups.trans h.groups
  size := h'.size.trans h.size
  node {m n} hn := by
    obtain ⟨n', hn', hmembers, hP, hnot⟩ := h.node hn
    obtain ⟨n'', hn'', hmembers', hP', hnot'⟩ := h'.node hn'
    exact ⟨n'', hn'', hmembers'.trans hmembers, fun hp => (hg.kin (hP hp)).trans (hP' hp),
      fun hp => (hnot hp).trans (hnot' hp)⟩

end Touched

theorem touched_modify (hf : Node.Gentle f) (key : NodeKey) :
    Touched f (· = key) t (t.modify key f) where
  strays := rfl
  groups := rfl
  size := by simp [modify]
  node {m n} hn := by
    rw [get?_modify]
    split
    · rename_i heq
      exact ⟨f n, by rw [hn]; rfl, hf.members n, fun _ => .refl _, fun hne => absurd heq hne⟩
    · rename_i hne
      exact ⟨n, hn, rfl, fun heq => absurd heq hne, fun _ => .refl n⟩

/-- An action that changes one node, handed down to all below it. -/
theorem ends_eachFrom {act : NodeKey → Action NodeTable Unit} (hf : Node.Gentle f)
    (hact : ∀ t key, (act key).Ends t (fun _ => Touched f (· = key) t) fun _ => True) (depth : Nat)
    (ht : t.Orderly) (key : NodeKey) :
    (eachFrom act depth key).Ends t (fun _ => Touched f (t.Under · key) t) fun _ => True := by
  induction depth generalizing t key with
  | zero => exact Action.ends_throw.mpr trivial
  | succ depth ih =>
    rw [eachFrom, Action.ends_bind, Action.ends_get, Action.ends_bind]
    refine Action.ends_ofExcept (fun d _ => ?_) trivial
    rw [Action.ends_bind]
    refine (hact t key).mono (fun _ t₁ h₁ => ?_) fun _ h => h
    rw [Action.ends_bind, Action.ends_get, h₁.members_eq]
    -- the loop comes to the members one after the other, and what is below them is apart
    refine (Action.ends_forM (I := fun before s =>
      Touched f (fun m => m = key ∨ ∃ x ∈ before, t.Under m x) t s) ?_ ?_).mono ?_ fun _ h => h
    · exact h₁.congr fun m => by simp
    · intro before x after hsplit s hs
      have hchild : t.Child key x := ht.members.mp (by simp [hsplit])
      refine (ih (hs.orderly hf ht) x).mono (fun _ s' h' => ?_) fun _ h => h
      have hdone := hs.union hf (h'.congr fun m => hs.under_iff hf) ?_
      · exact hdone.congr fun m => by simp [or_assoc, or_and_right, exists_or]
      · rintro m (rfl | ⟨y, hy, hunder⟩) hx
        · exact absurd (ht.le_of_under hx) (Nat.not_le_of_lt (ht.before hchild))
        · have hchild' : t.Child key y := ht.members.mp (by simp [hsplit, hy])
          obtain rfl := ht.under_unique hchild' hchild hunder hx
          have hnodup := ht.nodup key
          rw [hsplit] at hnodup
          exact (List.nodup_append.mp hnodup).2.2 y hy y (by simp) rfl
    · exact fun _ t' h' => h'.congr fun m => ht.under_iff.symm

theorem ends_eachDefinition {act : NodeKey → Action NodeTable Unit} (hf : Node.Gentle f)
    (hact : ∀ t key, (act key).Ends t (fun _ => Touched f (· = key) t) fun _ => True)
    (ht : t.Orderly) (key : NodeKey) :
    (eachDefinition act key).Ends t (fun _ => Touched f (t.Under · key) t) fun _ => True := by
  rw [eachDefinition, Action.ends_bind, Action.ends_get]
  exact ends_eachFrom hf hact t.depth ht key

theorem ends_updateDefinition {g : Definition → Definition}
    (hg : Node.Gentle (Node.updateDefinition g)) (t : NodeTable) (key : NodeKey) :
    (updateDefinition g key).Ends t (fun _ => Touched (Node.updateDefinition g) (· = key) t)
      fun _ => True := by
  rw [updateDefinition, Action.ends_bind, Action.ends_get, Action.ends_bind]
  refine Action.ends_ofExcept (fun _ _ => ?_) trivial
  exact Action.ends_set.mpr (touched_modify hg key)

theorem ends_setEnvironment (e : Option Environment) (t : NodeTable) (key : NodeKey) :
    (setEnvironment e key).Ends t (fun _ => Touched (Node.within e) (· = key) t)
      fun _ => True := by
  rw [setEnvironment, Action.ends_bind, Action.ends_get, Action.ends_bind]
  refine Action.ends_ofExcept (fun _ _ => ?_) trivial
  exact Action.ends_set.mpr (touched_modify (.within e) key)

end NodeTable

theorem Growth.Sound.orderly {e : Option Environment} {t : NodeTable}
    (h : Growth.Sound e ⟨[], t⟩) : t.Orderly where
  before {key m} hchild := by
    obtain ⟨n, hn, hp⟩ := hchild
    cases h.lineage hn with
    | top content parent trail => cases hp.symm.trans parent
    | entry above before folder content parent trail =>
      cases hp.symm.trans parent
      exact before
    | inner above before around path content scope parent trail =>
      cases hp.symm.trans parent
      exact before
  members {key m} := h.members.trans (by simp)
  nodup := h.members_nodup

end CodeAtlas
