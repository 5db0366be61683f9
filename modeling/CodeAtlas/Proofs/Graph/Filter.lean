import CodeAtlas.Proofs.Graph.Index
import CodeAtlas.Proofs.Graph.Prune

namespace CodeAtlas.Atlas
open NodeTable
variable {m m' : Atlas} {paths : Json}

structure Kept (paths : Json) (keys : List NodeKey) (m m' : Atlas) : Prop where
  graph : m'.graph = m.graph
  external : m'.external = m.external
  pruned : Pruned paths m.table m'.table
  members : ∀ key ∈ keys, m.table.stands paths key = true → PrunedAt paths m.table m'.table key

theorem ends_onTable {α : Type} {act : Action NodeTable α} {done : α → NodeTable → Prop}
    (h : act.Ends m.table done (fun _ => True)) :
    (onTable act).Ends m (fun x m' => m'.graph = m.graph ∧ m'.external = m.external ∧
      done x m'.table) (fun _ => True) := by
  rw [onTable, Action.ends_zoom]
  exact h.mono (fun _ _ h => ⟨rfl, rfl, h⟩) fun _ _ => trivial

/-- Nodes, each with its identifier, that are added to a graph one after the other. -/
def addedTo (nodes added : Assoc String NodeKey) : Assoc String NodeKey :=
  added.foldl (fun nodes e => Assoc.insert nodes e.1 e.2) nodes

theorem ends_keepNodes {keys : List NodeKey} (ht : m.table.Grouped) {kept : Graph} :
    (keepNodes paths keys kept).Ends m
      (fun kept' m' => Kept paths keys m m' ∧ kept'.references = kept.references ∧
        ∃ added, Assoc.values added = keys.filter (m.table.stands paths) ∧
          (∀ e ∈ added, m.table.id e.2 = .ok e.1) ∧ kept'.nodes = addedTo kept.nodes added)
      (fun _ => True) := by
  induction keys generalizing m kept with
  | nil => exact Action.ends_pure.mpr ⟨⟨rfl, rfl, .refl ht, by simp⟩, rfl, [], rfl, by simp, rfl⟩
  | cons key keys ih =>
    rw [keepNodes, Action.ends_bind, Action.ends_get, Action.ends_bind]
    refine Action.ends_ofExcept (fun answer hstands => ?_) trivial
    have hanswer : m.table.stands paths key = answer := by rw [stands, hstands]; rfl
    cases answer with
    | false =>
      refine (ih ht).mono ?_ fun _ h => h
      rintro kept' m' ⟨h, href, added, hvalues, hnodes⟩
      refine ⟨?_, href, added, ?_, hnodes⟩
      · refine ⟨h.graph, h.external, h.pruned, List.forall_mem_cons.mpr ⟨fun hyes => ?_, h.members⟩⟩
        rw [hanswer] at hyes
        cases hyes
      · rw [hvalues, List.filter_cons, hanswer, if_neg (by simp)]
    | true =>
      -- pruning at this node changes the table for the nodes that follow, but neither where they
      -- stand nor their identifiers
      change (onTable _ >>= fun _ => _ : Action Atlas Graph).Ends m _ _
      rw [Action.ends_bind]
      refine (ends_onTable (ends_keepMembersAt ht key)).mono ?_ fun _ h => h
      rintro _ m₁ ⟨hgraph, hexternal, hpruned, hat⟩
      rw [Action.ends_bind, Action.ends_get, Action.ends_bind]
      refine Action.ends_ofExcept (fun kept₁ hadd => ?_) trivial
      obtain ⟨n, id, -, hid, rfl⟩ := Graph.add_eq_ok hadd
      refine (ih hpruned.grouped).mono ?_ fun _ h => h
      rintro kept' m' ⟨h, href, added, hvalues, hids, hnodes⟩
      refine ⟨⟨h.graph.trans hgraph, h.external.trans hexternal, hpruned.trans h.pruned, ?_⟩, href,
        (id, key) :: added, ?_, ?_, hnodes⟩
      · refine List.forall_mem_cons.mpr ⟨fun _ => hat.trans hpruned h.pruned, ?_⟩
        intro k hk hyes
        exact hpruned.prunedAt (h.members k hk ((hpruned.stands k).trans hyes))
      · rw [hpruned.filter_stands] at hvalues
        rw [List.filter_cons, hanswer, if_pos rfl, ← hvalues]
        rfl
      · exact List.forall_mem_cons.mpr
          ⟨hpruned.keeps_back.id hid, fun e he => hpruned.keeps_back.id (hids e he)⟩

/-- What a filter leaves of an atlas: the nodes at its paths under their present identifiers, and
the references that touch one of them. -/
structure Sifted (paths : Json) (m m' : Atlas) : Prop where
  pruned : Pruned paths m.table m'.table
  nodes : ∃ added, Assoc.values added =
      (Assoc.values m.graph.nodes).filter (m.table.stands paths) ∧
    (∀ e ∈ added, m.table.id e.2 = .ok e.1) ∧ m'.graph.nodes = addedTo [] added
  members : ∀ key ∈ Assoc.values m.graph.nodes, m.table.stands paths key = true →
    PrunedAt paths m.table m'.table key
  references : m'.graph.references = m.graph.references.filter fun r =>
    m.table.stands paths r.start || m.table.stands paths r.stop
  external : m'.external = m.external

theorem isYes_touches {t : NodeTable} {r : Relationship} {answer : Bool}
    (h : touches t paths r = .ok answer) :
    Outcome.isYes (touches t paths r) = (t.stands paths r.start || t.stands paths r.stop) := by
  rw [h]
  simp only [touches, Outcome.bind_eq_ok] at h
  obtain ⟨start, hstart, h⟩ := h
  cases start with
  | true =>
    cases h
    simp [stands, hstart, Outcome.isYes]
  | false =>
    change t.standsAt paths r.stop = .ok answer at h
    simp [stands, hstart, h, Outcome.isYes]

theorem ends_filter (ht : m.table.Grouped) :
    (filter paths).Ends m (fun _ => Sifted paths m) (fun _ => True) := by
  rw [filter, Action.ends_bind, Action.ends_get, Action.ends_bind]
  refine (ends_keepNodes ht).mono ?_ fun _ h => h
  rintro kept m₁ ⟨h, href, added, hvalues, hids, hnodes⟩
  rw [Action.ends_bind, Action.ends_get, Action.ends_bind, h.graph]
  refine Action.ends_ofExcept (fun references hreferences => ?_) trivial
  obtain ⟨hall, rfl⟩ := Outcome.filterM_eq_ok.mp hreferences
  refine Action.ends_set.mpr ⟨h.pruned, ⟨added, hvalues, hids, hnodes⟩, h.members, ?_, h.external⟩
  simp only [Graph.addReferences, href, List.nil_append]
  refine List.filter_congr fun r hr => ?_
  obtain ⟨answer, hanswer⟩ := hall r hr
  rw [isYes_touches hanswer, h.pruned.stands, h.pruned.stands]

/-- A node that is kept was one of the graph at the paths, and has its present identifier. -/
theorem Sifted.of_mem (h : Sifted paths m m') {id : String} {key : NodeKey}
    (hmem : (id, key) ∈ m'.graph.nodes) : m.table.id key = .ok id ∧
      key ∈ Assoc.values m.graph.nodes ∧ m.table.stands paths key = true := by
  obtain ⟨added, hvalues, hids, hnodes⟩ := h.nodes
  rw [hnodes] at hmem
  have hadded := (Assoc.mem_of_mem_foldl_insert hmem).resolve_left List.not_mem_nil
  have hkey : key ∈ Assoc.values added := List.mem_map_of_mem hadded
  rw [hvalues, List.mem_filter] at hkey
  exact ⟨hids _ hadded, hkey⟩

/-- The identifier of each node of the graph at the paths is that of a node that is kept. -/
theorem Sifted.exists_id (h : Sifted paths m m') {key : NodeKey}
    (hkey : key ∈ Assoc.values m.graph.nodes) (hstands : m.table.stands paths key = true) :
    ∃ id, m.table.id key = .ok id ∧ id ∈ Assoc.keys m'.graph.nodes := by
  obtain ⟨added, hvalues, hids, hnodes⟩ := h.nodes
  have hmem : key ∈ Assoc.values added := by
    rw [hvalues, List.mem_filter]
    exact ⟨hkey, hstands⟩
  obtain ⟨e, he, rfl⟩ := List.mem_map.mp hmem
  refine ⟨e.1, hids e he, ?_⟩
  rw [hnodes]
  exact Assoc.mem_keys_foldl_insert.mpr (Or.inr (List.mem_map_of_mem he))

theorem Sifted.ids_nodup (h : Sifted paths m m') : (Assoc.keys m'.graph.nodes).Nodup := by
  obtain ⟨added, -, -, hnodes⟩ := h.nodes
  rw [hnodes]
  exact Assoc.nodup_keys_foldl_insert List.nodup_nil

/-- An atlas is the part of another one that stands at the paths. -/
structure PartAt (paths : Json) (m m' : Atlas) : Prop where
  pruned : Pruned paths m.table m'.table
  nodes : m'.graph.nodes = m.graph.nodes.filter fun e => m.table.stands paths e.2
  members : ∀ e ∈ m.graph.nodes, m.table.stands paths e.2 = true →
    PrunedAt paths m.table m'.table e.2
  references : m'.graph.references = m.graph.references.filter fun r =>
    m.table.stands paths r.start || m.table.stands paths r.stop

/-- If all nodes have the identifiers under which they were added, a filter leaves a part. -/
theorem Sifted.partAt (h : Sifted paths m m') (hnodup : (Assoc.keys m.graph.nodes).Nodup)
    (hid : ∀ e ∈ m.graph.nodes, m.table.id e.2 = .ok e.1) : PartAt paths m m' := by
  refine ⟨h.pruned, ?_, fun e he => h.members e.2 (List.mem_map_of_mem he), h.references⟩
  obtain ⟨added, hvalues, hids, hnodes⟩ := h.nodes
  -- a node has one identifier, so a list of nodes with their identifiers is known by its nodes
  have hlist : ∀ {l : Assoc String NodeKey}, (∀ e ∈ l, m.table.id e.2 = .ok e.1) →
      l = (Assoc.values l).map fun key => ((m.table.id key).toOption.getD "", key) := by
    intro l hl
    have hsame : ∀ e ∈ l, ((m.table.id e.2).toOption.getD "", e.2) = id e := by
      intro e he
      simp [hl e he, Except.toOption]
    rw [Assoc.values, List.map_map]
    exact ((List.map_congr_left hsame).trans (List.map_id l)).symm
  have hpart : added = m.graph.nodes.filter fun e => m.table.stands paths e.2 := by
    rw [hlist hids, hlist fun e he => hid e (List.mem_filter.mp he).1, hvalues, Assoc.values,
      Assoc.values, List.filter_map]
    rfl
  rw [hnodes, hpart, addedTo, Assoc.foldl_insert_of_nodup, List.nil_append]
  exact hnodup.sublist (List.filter_sublist.map _)

end CodeAtlas.Atlas

namespace CodeAtlas
open NodeTable
variable {t t' : NodeTable} {paths : Json} {key : NodeKey}

theorem Relationship.defines_eq_ok {member : NodeKey} {r : Relationship}
    (h : Relationship.defines t key member = .ok r) : r.start = key ∧ r.stop = member := by
  simp only [Relationship.defines, Outcome.bind_eq_ok] at h
  obtain ⟨n, -, h⟩ := h
  split at h <;> cases h <;> exact ⟨rfl, rfl⟩

theorem NodeTable.Pruned.defines (h : Pruned paths t t') (key member : NodeKey) :
    Relationship.defines t' key member = Relationship.defines t key member := by
  cases hn : t.get? member with
  | none => simp only [Relationship.defines, NodeTable.node, hn, h.get?_eq_none hn]
  | some n =>
    obtain ⟨k, hk⟩ := h.node hn
    simp only [Relationship.defines, NodeTable.node, hn, hk]
    rfl

/-- The relationships of a node lead to its members. -/
theorem NodeTable.ends_of_mem_relationships {rels : List Relationship} {r : Relationship}
    (h : t.relationships key = .ok rels) (hr : r ∈ rels) :
    r.start = key ∧ r.stop ∈ t.members key := by
  simp only [NodeTable.relationships, Outcome.bind_eq_ok] at h
  obtain ⟨n, -, h⟩ := h
  split at h
  · cases h
    obtain ⟨member, hmember, rfl⟩ := List.mem_map.mp hr
    exact ⟨rfl, hmember⟩
  · obtain ⟨member, hmember, hdefines⟩ := Outcome.mem_of_mapM_eq_ok h hr
    obtain ⟨hstart, hstop⟩ := Relationship.defines_eq_ok hdefines
    exact ⟨hstart, hstop ▸ hmember⟩
  · cases h
    cases hr

/-- A node that is kept keeps its relationships to members that are kept. -/
theorem NodeTable.Pruned.relationships (h : Pruned paths t t') (hat : PrunedAt paths t t' key)
    {rels : List Relationship} (hrels : t.relationships key = .ok rels) :
    t'.relationships key = .ok (rels.filter fun r => t.stands paths r.stop) := by
  simp only [NodeTable.relationships, Outcome.bind_eq_ok, node_eq_ok] at hrels ⊢
  obtain ⟨n, hn, hrels⟩ := hrels
  obtain ⟨k, hk⟩ := h.node hn
  refine ⟨_, hk, ?_⟩
  dsimp only
  split at hrels
  · rename_i hfolder
    cases hrels
    rw [hat n hn (Or.inl hfolder), List.filter_map]
    rfl
  · rename_i d hd
    rw [hat n hn (Or.inr ⟨d, hd⟩)]
    have hdefines : Relationship.defines t' key = Relationship.defines t key :=
      funext (h.defines key)
    rw [hdefines]
    refine Outcome.mapM_filter hrels fun m r hr => ?_
    rw [(Relationship.defines_eq_ok hr).2]
  · cases hrels
    rfl

namespace Atlas
variable {m m' : Atlas}

theorem mapM_relationships {entries : Assoc String NodeKey} (h : Pruned paths t t')
    (hat : ∀ e ∈ entries, t.stands paths e.2 = true → PrunedAt paths t t' e.2)
    {groups : List (List Relationship)}
    (hgroups : (Assoc.values entries).mapM t.relationships = .ok groups) :
    ∃ groups', (Assoc.values (entries.filter fun e => t.stands paths e.2)).mapM t'.relationships =
        .ok groups' ∧ groups'.flatten = groups.flatten.filter fun r =>
          t.stands paths r.start && t.stands paths r.stop := by
  induction entries generalizing groups with
  | nil =>
    cases hgroups
    exact ⟨[], rfl, rfl⟩
  | cons e entries ih =>
    obtain ⟨he, hat⟩ := List.forall_mem_cons.mp hat
    change (e.2 :: Assoc.values entries).mapM t.relationships = .ok groups at hgroups
    simp only [List.mapM_cons, Outcome.bind_eq_ok, Outcome.pure_eq_ok] at hgroups
    obtain ⟨rels, hrels, groups, hgroups, rfl⟩ := hgroups
    obtain ⟨groups', hgroups', hflat⟩ := ih hat hgroups
    have hstart : ∀ r ∈ rels, t.stands paths r.start = t.stands paths e.2 :=
      fun r hr => congrArg _ (ends_of_mem_relationships hrels hr).1
    rw [List.filter_cons, List.flatten_cons, List.filter_append]
    split
    · rename_i hyes
      refine ⟨rels.filter (fun r => t.stands paths r.stop) :: groups', ?_, ?_⟩
      · change (e.2 :: Assoc.values _).mapM t'.relationships = _
        simp only [List.mapM_cons, h.relationships (he hyes) hrels, hgroups']
        rfl
      · rw [List.flatten_cons, hflat]
        congr 1
        exact List.filter_congr fun r hr => by simp [hstart r hr, hyes]
    · rename_i hno
      refine ⟨groups', hgroups', ?_⟩
      have hnone : rels.filter (fun r => t.stands paths r.start && t.stands paths r.stop) = [] :=
        List.filter_eq_nil_iff.mpr fun r hr => by simp [hstart r hr, hno]
      rw [hflat, hnone, List.nil_append]

/-- The relationships of a part: those of members that connect two of its nodes, and its
references. -/
theorem PartAt.relationships (h : PartAt paths m m') {inner : List Relationship}
    (hinner : m.graph.relationships m.table = .ok (inner ++ m.graph.references)) :
    m'.graph.relationships m'.table = .ok ((inner.filter fun r =>
      m.table.stands paths r.start && m.table.stands paths r.stop) ++ m'.graph.references) := by
  simp only [Graph.relationships, Outcome.bind_eq_ok, Outcome.pure_eq_ok,
    List.append_cancel_right_eq] at hinner ⊢
  obtain ⟨groups, hgroups, rfl⟩ := hinner
  rw [h.nodes]
  exact mapM_relationships h.pruned h.members hgroups

end Atlas
end CodeAtlas
