import CodeAtlas.Proofs.Graph.Kin

namespace CodeAtlas.NodeTable
variable {t t' t'' : NodeTable} {paths : Json} {key : NodeKey}

def stands (t : NodeTable) (paths : Json) (key : NodeKey) : Bool :=
  Outcome.isYes (t.standsAt paths key)

theorem stands_of_get? {n : Node} (h : t.get? key = some n) (items : List Json) :
    t.stands (.arr items) key = items.any (Json.str n.path).same := by
  rw [stands, standsAt, node_eq_ok.mpr h]
  rfl

theorem stands_of_none (h : t.get? key = none) (paths : Json) : t.stands paths key = false := by
  rw [stands, standsAt, node, h]
  rfl

def Grouped (t : NodeTable) : Prop :=
  ∀ key n, t.get? key = some n → n.members < t.groups.size

theorem Regular.grouped (ht : t.Regular) : t.Grouped := by
  intro key n hn
  rw [ht.own hn, ht.size]
  exact lt_size hn

theorem Grouped.push (ht : t.Grouped) {n : Node} (hn : n.members = t.groups.size) :
    (t.push n).Grouped := by
  intro key m hm
  have hsize : (t.push n).groups.size = t.groups.size + 1 := Array.size_push _
  rw [get?_push] at hm
  split at hm
  · cases hm
    rw [hsize, hn]
    exact Nat.lt_succ_self _
  · exact hsize ▸ Nat.lt_succ_of_lt (ht key m hm)

theorem Grouped.members_push (ht : t.Grouped) {m : Node} (hm : t.get? key = some m) (n : Node) :
    (t.push n).members key = t.members key := by
  have hlt := ht key m hm
  simp only [members, get?_push_of_some hm, hm]
  simp [NodeTable.push, Array.getElem?_push, Nat.ne_of_lt hlt]

theorem get?_replaceMembers (key other : NodeKey) (list : List NodeKey) :
    (t.replaceMembers key list).get? other =
      if other = key then (t.get? other).map (fun n => { n with members := t.groups.size })
      else t.get? other :=
  get?_modify ..

theorem members_replaceMembers (ht : t.Grouped) {n : Node} (hn : t.get? key = some n)
    (list : List NodeKey) (other : NodeKey) :
    (t.replaceMembers key list).members other = if other = key then list else t.members other := by
  have hgroups : (t.replaceMembers key list).groups = t.groups.push list := rfl
  rw [members, get?_replaceMembers, hgroups]
  by_cases heq : other = key
  · rw [if_pos heq, if_pos heq, heq, hn]
    simp
  · rw [if_neg heq, if_neg heq, members]
    cases hother : t.get? other with
    | none => rfl
    | some m =>
      have hlt := ht other m hother
      simp [Array.getElem?_push, Nat.ne_of_lt hlt]

/-- A table whose member lists have been pruned, some or all of them. -/
structure Pruned (paths : Json) (t t' : NodeTable) : Prop where
  strays : t'.strays = t.strays
  size : t'.nodes.size = t.nodes.size
  node : ∀ {key n}, t.get? key = some n → ∃ k, t'.get? key = some { n with members := k }
  members : ∀ key, t'.members key = t.members key ∨
    t'.members key = (t.members key).filter (t.stands paths)
  grouped : t'.Grouped

namespace Pruned

theorem refl (ht : t.Grouped) : Pruned paths t t :=
  ⟨rfl, rfl, fun {_ n} h => ⟨n.members, h⟩, fun _ => Or.inl rfl, ht⟩

theorem get?_eq_none (h : Pruned paths t t') (hn : t.get? key = none) : t'.get? key = none := by
  rw [NodeTable.get?_eq_none] at hn ⊢
  rwa [h.size]

theorem standsAt (h : Pruned paths t t') (key : NodeKey) :
    t'.standsAt paths key = t.standsAt paths key := by
  cases hn : t.get? key with
  | none => simp only [NodeTable.standsAt, NodeTable.node, hn, h.get?_eq_none hn]
  | some n =>
    obtain ⟨k, hk⟩ := h.node hn
    simp only [NodeTable.standsAt, NodeTable.node, hn, hk]
    rfl

theorem stands (h : Pruned paths t t') (key : NodeKey) :
    t'.stands paths key = t.stands paths key := by
  rw [NodeTable.stands, h.standsAt]
  rfl

theorem filter_stands (h : Pruned paths t t') (keys : List NodeKey) :
    keys.filter (t'.stands paths) = keys.filter (t.stands paths) :=
  List.filter_congr fun key _ => h.stands key

theorem trans (h : Pruned paths t t') (h' : Pruned paths t' t'') : Pruned paths t t'' where
  strays := h'.strays.trans h.strays
  size := h'.size.trans h.size
  node hn := by
    obtain ⟨k, hk⟩ := h.node hn
    obtain ⟨k', hk'⟩ := h'.node hk
    exact ⟨k', hk'⟩
  members key := by
    rcases h.members key with hm | hm <;> rcases h'.members key with hm' | hm' <;>
      rw [hm', hm, ← h.filter_stands] <;> simp
  grouped := h'.grouped

/-- What has been pruned stays so. -/
theorem members_eq (h : Pruned paths t t') (h' : Pruned paths t' t'')
    (hkey : t'.members key = (t.members key).filter (t.stands paths)) :
    t''.members key = (t.members key).filter (t.stands paths) := by
  rcases h'.members key with hm | hm
  · rw [hm, hkey]
  · rw [hm, hkey, h.filter_stands, List.filter_filter]
    simp

theorem keeps (h : Pruned paths t t') : t.Keeps t' := by
  intro key n hn
  obtain ⟨k, hk⟩ := h.node hn
  exact ⟨_, hk, rfl⟩

theorem keeps_back (h : Pruned paths t t') : t'.Keeps t := by
  intro key n' hn'
  obtain ⟨n, hn⟩ := get?_of_lt (h.size ▸ lt_size hn')
  obtain ⟨k, hk⟩ := h.node hn
  cases hn'.symm.trans hk
  exact ⟨n, hn, rfl⟩

/-- The stored form of a node does not show its members. -/
theorem record (h : Pruned paths t t') {id : String} (hid : t.id key = .ok id) :
    t'.record key = t.record key := by
  have hid' := h.keeps.id hid
  have hn := hid
  simp only [NodeTable.id, Outcome.bind_eq_ok, node_eq_ok] at hn
  obtain ⟨n, hn, -⟩ := hn
  obtain ⟨k, hk⟩ := h.node hn
  simp only [NodeTable.record, NodeTable.hashedId, node_eq_ok.mpr hn, node_eq_ok.mpr hk, hid, hid',
    h.strays]
  rfl

end Pruned

def PrunedAt (paths : Json) (t t' : NodeTable) (key : NodeKey) : Prop :=
  ∀ n, t.get? key = some n → (n.content = .folder ∨ ∃ d, n.content = .definition d) →
    t'.members key = (t.members key).filter (t.stands paths)

theorem PrunedAt.trans (hkey : PrunedAt paths t t' key) (h : Pruned paths t t')
    (h' : Pruned paths t' t'') : PrunedAt paths t t'' key :=
  fun n hn hc => h.members_eq h' (hkey n hn hc)

theorem Pruned.prunedAt (h : Pruned paths t t') (hkey : PrunedAt paths t' t'' key) :
    PrunedAt paths t t'' key := by
  intro n hn hc
  obtain ⟨k, hk⟩ := h.node hn
  rw [hkey _ hk hc, h.filter_stands]
  rcases h.members key with hm | hm <;> rw [hm]
  simp

theorem pruned_replaceMembers (paths : Json) (ht : t.Grouped) {n : Node}
    (hn : t.get? key = some n) :
    Pruned paths t (t.replaceMembers key ((t.members key).filter (t.stands paths))) where
  strays := rfl
  size := by simp [replaceMembers, modify]
  node {other m} hm := by
    rw [get?_replaceMembers]
    split
    · exact ⟨_, congrArg (Option.map _) hm⟩
    · exact ⟨_, hm⟩
  members other := by
    rw [members_replaceMembers ht hn]
    by_cases heq : other = key
    · rw [if_pos heq, heq]
      exact Or.inr rfl
    · rw [if_neg heq]
      exact Or.inl rfl
  grouped := by
    intro other m hm
    have hsize : (t.replaceMembers key ((t.members key).filter (t.stands paths))).groups.size =
        t.groups.size + 1 := Array.size_push _
    rw [hsize]
    rw [get?_replaceMembers] at hm
    split at hm
    · obtain ⟨m', -, rfl⟩ := Option.map_eq_some_iff.mp hm
      exact Nat.lt_succ_self _
    · exact Nat.lt_succ_of_lt (ht other m hm)

theorem ends_keepOwnMembers (paths : Json) (ht : t.Grouped) {n : Node} (hn : t.get? key = some n) :
    (keepOwnMembers paths key).Ends t
      (fun _ t' => Pruned paths t t' ∧ t'.members key = (t.members key).filter (t.stands paths))
      (fun _ => True) := by
  rw [keepOwnMembers, Action.ends_bind, Action.ends_get, Action.ends_bind]
  refine Action.ends_ofExcept (fun kept hkept => ?_) trivial
  rw [Action.ends_bind, Action.ends_set, Action.ends_pure]
  obtain ⟨-, rfl⟩ := Outcome.filterM_eq_ok.mp hkept
  exact ⟨pruned_replaceMembers paths ht hn,
    (members_replaceMembers ht hn _ key).trans (if_pos rfl)⟩

/-- Pruning from a node on. Folders and definitions lose at least members of their own. -/
theorem ends_pruneFrom (depth : Nat) (ht : t.Grouped) (key : NodeKey) :
    (pruneFrom paths depth key).Ends t
      (fun _ t' => Pruned paths t t' ∧ PrunedAt paths t t' key) (fun _ => True) := by
  induction depth generalizing t key with
  | zero => exact Action.ends_throw.mpr trivial
  | succ depth ih =>
    rw [pruneFrom, Action.ends_bind, Action.ends_get, Action.ends_bind]
    refine Action.ends_ofExcept (fun n hn => ?_) trivial
    rw [node_eq_ok] at hn
    have hown := ends_keepOwnMembers paths ht hn
    split
    · rw [Action.ends_bind]
      exact hown.mono (fun _ t' h' => Action.ends_pure.mpr ⟨h'.1, fun _ _ _ => h'.2⟩) fun _ h => h
    · -- the loop comes to members after their node, and what they lose the node has lost already
      rw [Action.ends_bind]
      refine hown.mono (fun kept t' h' => ?_) fun _ h => h
      refine (Action.ends_forM_keeps
        (I := fun t' =>
          Pruned paths t t' ∧ t'.members key = (t.members key).filter (t.stands paths))
        h' fun m _ t₁ h₁ => ?_).mono (fun _ t₂ h₂ => ⟨h₂.1, fun _ _ _ => h₂.2⟩) fun _ h => h
      exact (ih h₁.1.grouped m).mono
        (fun _ t₂ h₂ => ⟨h₁.1.trans h₂.1, h₁.1.members_eq h₂.1 h₁.2⟩) fun _ h => h
    · rename_i hfolder hdefinition
      refine Action.ends_pure.mpr ⟨.refl ht, fun n' hn' hc => ?_⟩
      cases hn.symm.trans hn'
      rcases hc with hc | ⟨d, hc⟩
      · exact absurd hc hfolder
      · exact absurd hc (hdefinition d)

theorem ends_keepMembersAt (ht : t.Grouped) (key : NodeKey) :
    (keepMembersAt paths key).Ends t
      (fun _ t' => Pruned paths t t' ∧ PrunedAt paths t t' key) (fun _ => True) := by
  rw [keepMembersAt, Action.ends_bind, Action.ends_get]
  exact ends_pruneFrom _ ht key

end CodeAtlas.NodeTable
