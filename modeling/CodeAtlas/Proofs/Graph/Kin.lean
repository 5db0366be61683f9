import CodeAtlas.Graph.Skeleton
import CodeAtlas.Proofs.Graph.Table

namespace CodeAtlas

def Definition.blank (d : Definition) : Definition :=
  { d with text := .null }

def Content.blank : Content → Content
  | .definition d => .definition d.blank
  | other => other

/-- A node without its text and its members. -/
def Node.blank (n : Node) : Node :=
  { n with content := n.content.blank, members := 0 }

def Node.Kin (n n' : Node) : Prop :=
  n'.blank = n.blank

namespace Node.Kin
variable {n n' n'' : Node}

theorem refl (n : Node) : n.Kin n := rfl

theorem trans (h : n.Kin n') (h' : n'.Kin n'') : n.Kin n'' := Eq.trans h' h

theorem symm (h : n.Kin n') : n'.Kin n := Eq.symm h

theorem path (h : n.Kin n') : n'.path = n.path := (Node.mk.inj h).2.1

theorem name (h : n.Kin n') : n'.name = n.name := (Node.mk.inj h).2.2.1

theorem parent (h : n.Kin n') : n'.parent = n.parent := (Node.mk.inj h).2.2.2.2.1

theorem trail (h : n.Kin n') : n'.trail = n.trail := (Node.mk.inj h).2.2.2.2.2.1

theorem environment (h : n.Kin n') : n'.environment = n.environment :=
  (Node.mk.inj h).2.2.2.2.2.2.1

theorem content (h : n.Kin n') : n'.content.blank = n.content.blank := (Node.mk.inj h).1

theorem folder (h : n.Kin n') (hn : n.content = .folder) : n'.content = .folder := by
  have hc := h.content
  rw [hn] at hc
  cases hn' : n'.content with
  | folder => rfl
  | _ => simp [hn', Content.blank] at hc

theorem definition {d : Definition} (h : n.Kin n') (hn : n.content = .definition d) :
    ∃ d', n'.content = .definition d' ∧ d'.blank = d.blank := by
  have hc := h.content
  rw [hn] at hc
  cases hn' : n'.content with
  | definition d' => exact ⟨d', rfl, by simpa [hn', Content.blank] using hc⟩
  | _ => simp [hn', Content.blank] at hc

theorem scope {d d' : Definition} (h : d'.blank = d.blank) : d'.scope = d.scope :=
  (Definition.mk.inj h).1

theorem label (h : n.Kin n') : n'.label = n.label := by
  have hblank : ∀ n : Node, n.blank.label = n.label := by
    intro n
    unfold Node.blank Node.label
    cases n.content <;> rfl
  rw [← hblank n, ← hblank n', h]

theorem inner (h : n.Kin n') (hn : NodeTable.IsInner n) : NodeTable.IsInner n' := by
  obtain ⟨d, hd, hs⟩ := hn
  obtain ⟨d', hd', hb⟩ := h.definition hd
  exact ⟨d', hd', scope hb ▸ hs⟩

end Node.Kin

namespace NodeTable
variable {t t' t'' : NodeTable} {key : NodeKey}

/-- A table still has all nodes of another one, up to texts and members. -/
def Keeps (t t' : NodeTable) : Prop :=
  ∀ key n, t.get? key = some n → ∃ n', t'.get? key = some n' ∧ n.Kin n'

theorem Keeps.refl (t : NodeTable) : Keeps t t := fun _ n h => ⟨n, h, .refl n⟩

theorem Keeps.trans (h : Keeps t t') (h' : Keeps t' t'') : Keeps t t'' := fun key n hn =>
  let ⟨n', hn', hk⟩ := h key n hn
  let ⟨n'', hn'', hk'⟩ := h' key n' hn'
  ⟨n'', hn'', hk.trans hk'⟩

theorem keeps_push (n : Node) : Keeps t (t.push n) :=
  fun _ m h => ⟨m, get?_push_of_some h, .refl m⟩

theorem keeps_appendMembers (key : NodeKey) (added : List NodeKey) :
    Keeps t (t.appendMembers key added) :=
  fun _ m h => ⟨m, (get?_appendMembers ..).trans h, .refl m⟩

theorem Keeps.segmentText (h : Keeps t t') {segment : Segment} {text : String}
    (hs : t.segmentText segment = .ok text) : t'.segmentText segment = .ok text := by
  cases segment with
  | named mark name => exact hs
  | unnamed => cases hs
  | removed key =>
    simp only [NodeTable.segmentText, Outcome.bind_eq_ok, node_eq_ok] at hs ⊢
    obtain ⟨n, hn, hs⟩ := hs
    obtain ⟨n', hn', hk⟩ := h _ _ hn
    refine ⟨n', hn', ?_⟩
    rw [hk.environment, Node.purePath, hk.path]
    exact hs

theorem Keeps.identifier (h : Keeps t t') {text : String} (hi : t.identifier key = .ok text) :
    t'.identifier key = .ok text := by
  simp only [NodeTable.identifier, Outcome.bind_eq_ok, node_eq_ok, Outcome.mapM_eq_ok] at hi ⊢
  obtain ⟨n, hn, texts, htexts, hi⟩ := hi
  obtain ⟨n', hn', hk⟩ := h _ _ hn
  exact ⟨n', hn', texts, hk.trail ▸ htexts.imp fun _ _ => h.segmentText, hi⟩

/-- An identifier stays as it is while nodes are added and their texts change. -/
theorem Keeps.id (h : Keeps t t') {text : String} (hi : t.id key = .ok text) :
    t'.id key = .ok text := by
  simp only [NodeTable.id, Outcome.bind_eq_ok, node_eq_ok] at hi ⊢
  obtain ⟨n, hn, own, hown, hi⟩ := hi
  obtain ⟨n', hn', hk⟩ := h _ _ hn
  exact ⟨n', hn', own, h.identifier hown, hk.environment ▸ hi⟩

/-- A table in which nothing but texts is different. -/
structure Retold (t t' : NodeTable) : Prop where
  strays : t'.strays = t.strays
  groups : t'.groups = t.groups
  size : t'.nodes.size = t.nodes.size
  keeps : Keeps t t'
  own : ∀ {key n n'}, t.get? key = some n → t'.get? key = some n' → n'.members = n.members

theorem Retold.refl (t : NodeTable) : Retold t t :=
  ⟨rfl, rfl, rfl, .refl t, fun h h' => by cases h.symm.trans h'; rfl⟩

theorem Retold.trans (h : Retold t t') (h' : Retold t' t'') : Retold t t'' where
  strays := h'.strays.trans h.strays
  groups := h'.groups.trans h.groups
  size := h'.size.trans h.size
  keeps := h.keeps.trans h'.keeps
  own hn hn'' :=
    let ⟨_, hn', _⟩ := h.keeps _ _ hn
    (h'.own hn' hn'').trans (h.own hn hn')

/-- What stands in the later table stood in the earlier. -/
theorem Retold.get? (h : Retold t t') {n' : Node} (hn' : t'.get? key = some n') :
    ∃ n, t.get? key = some n ∧ n.Kin n' := by
  obtain ⟨n, hn⟩ := get?_of_lt (h.size ▸ lt_size hn')
  obtain ⟨n'', hn'', hk⟩ := h.keeps _ _ hn
  cases hn'.symm.trans hn''
  exact ⟨n, hn, hk⟩

theorem Retold.regular (h : Retold t t') (ht : t.Regular) : t'.Regular where
  size := by rw [h.groups, h.size, ht.size]
  own hn' := by
    obtain ⟨n, hn, _⟩ := h.get? hn'
    rw [h.own hn hn', ht.own hn]

theorem Retold.tidy {strays : List Char} (h : Retold t t') (ht : t.Tidy strays) :
    t'.Tidy strays where
  toRegular := h.regular ht.toRegular
  strays_eq := h.strays.trans ht.strays_eq
  inside {key m} hm := by
    rw [(h.regular ht.toRegular).members_eq, h.groups, ← ht.members_eq] at hm
    exact h.size ▸ ht.inside hm
  inner {key n' d'} hn' hd' m hm := by
    obtain ⟨n, hn, hk⟩ := h.get? hn'
    obtain ⟨d, hd, _⟩ := hk.symm.definition hd'
    rw [(h.regular ht.toRegular).members_eq, h.groups, ← ht.members_eq] at hm
    obtain ⟨member, hmember, hinner, hpath⟩ := ht.inner hn hd m hm
    obtain ⟨member', hmember', hkin⟩ := h.keeps _ _ hmember
    exact ⟨member', hmember', hkin.inner hinner, by rw [hkin.path, hk.path, hpath]⟩

theorem retold_modify (text : Json) (key : NodeKey) :
    Retold t (t.modify key (Node.updateDefinition fun d => { d with text })) where
  strays := rfl
  groups := rfl
  size := by simp [modify]
  keeps other n hn := by
    rw [get?_modify]
    split
    · refine ⟨_, by rw [hn]; rfl, ?_⟩
      unfold Node.updateDefinition
      split
      · rename_i d hd
        simp [Node.Kin, Node.blank, hd, Content.blank, Definition.blank]
      · exact .refl n
    · exact ⟨n, hn, .refl n⟩
  own {other n n'} hn hn' := by
    rw [get?_modify] at hn'
    split at hn'
    · rw [hn] at hn'
      cases hn'
      unfold Node.updateDefinition
      split <;> rfl
    · cases hn.symm.trans hn'
      rfl

theorem ends_updateDefinition_text (text : Json) (key : NodeKey) :
    (updateDefinition (fun d => { d with text }) key).Ends t (fun _ => Retold t) (Retold t) := by
  rw [updateDefinition, Action.ends_bind, Action.ends_get, Action.ends_bind]
  refine Action.ends_ofExcept (fun _ _ => ?_) (.refl t)
  rw [Action.ends_set]
  exact retold_modify text key

/-- Down to any depth, skeletons change nothing but texts. -/
theorem ends_skeletonizeFrom (depth : Nat) (key : NodeKey) (t : NodeTable) :
    (skeletonizeFrom depth key).Ends t (fun _ => Retold t) (Retold t) := by
  induction depth generalizing key t with
  | zero =>
    rw [skeletonizeFrom, Action.ends_throw]
    exact .refl t
  | succ depth ih =>
    rw [skeletonizeFrom, Action.ends_bind, Action.ends_get, Action.ends_bind]
    refine Action.ends_ofExcept (fun d _ => ?_) (.refl t)
    split
    · rw [Action.ends_pure]
      exact .refl t
    · rename_i cursor _
      have hbelow : ∀ t', Retold t t' →
          (((t.members key).filter t.hasBody).forM (skeletonizeFrom depth)).Ends t'
            (fun _ => Retold t) (Retold t) := fun t' h =>
        Action.ends_forM_keeps h fun member _ t'' h'' =>
          (ih member t'').mono (fun _ _ h => h''.trans h) fun _ h => h''.trans h
      dsimp only
      rw [Action.ends_bind]
      refine Action.ends_ofExcept (fun cuts _ => ?_) (.refl t)
      split
      · rw [Action.ends_bind]
        exact (ends_updateDefinition_text _ key).mono (fun _ => hbelow) fun _ h => h
      · exact hbelow t (.refl t)

theorem ends_skeletonize (key : NodeKey) (t : NodeTable) :
    (skeletonize key).Ends t (fun _ => Retold t) (Retold t) := by
  rw [skeletonize, Action.ends_bind, Action.ends_get]
  exact ends_skeletonizeFrom t.depth key t

end NodeTable
end CodeAtlas
