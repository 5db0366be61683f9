import CodeAtlas.Proofs.Build.Edges
import CodeAtlas.Proofs.Build.Growth
import CodeAtlas.Proofs.Graph.Trail
import CodeAtlas.Proofs.Language.Usage

namespace CodeAtlas
open CodeAtlas.Path NodeTable

def RelationType.isMembership : RelationType → Bool
  | .contains | .functionDefinition | .classDefinition => true
  | _ => false

namespace Language
variable {l : Language} {label : Label}

theorem relationTable_types {table : Assoc String RelationType}
    (h : l.relationTable label = some table) : ∀ e ∈ table, e.2.isMembership = false := by
  cases l <;> cases label <;> simp only [relationTable, reduceCtorEq, Option.some.injEq] at h <;>
    subst h <;> decide

theorem lookUp_type {table : Assoc String RelationType}
    (h : ∀ e ∈ table, e.2.isMembership = false) {n : Source.SyntaxNode} {type : RelationType}
    (hn : lookUp table n = some type) : type.isMembership = false := by
  obtain ⟨kind, hmem, -⟩ := Assoc.mem_of_get? hn
  exact h _ hmem

theorem classify_type {n : Source.SyntaxNode} {type : RelationType}
    (h : l.classify label n = .ok (some type)) : type.isMembership = false := by
  have htable : ∀ l' : Language, lookUp ((l'.relationTable label).getD []) n = some type →
      type.isMembership = false := by
    intro l' hn
    cases hrel : l'.relationTable label with
    | none => simp [hrel, lookUp, Assoc.get?] at hn
    | some table => exact lookUp_type (relationTable_types hrel) (by simpa [hrel] using hn)
  cases l with
  | ruby =>
    simp only [classify, Outcome.bind_eq_ok] at h
    obtain ⟨creates, -, h⟩ := h
    split at h
    · cases h
      rfl
    · split at h
      · cases h
        rfl
      · split at h
        · exact lookUp_type (relationTable_types ‹_›) (by simpa using h)
        · cases h
  | python => exact htable .python (by simpa [classify] using h)
  | javascript => exact htable .javascript (by simpa [classify] using h)
  | typescript => exact htable .typescript (by simpa [classify] using h)

theorem usage?_type {chain : List Source.SyntaxNode} {usage : Usage}
    (h : l.usage? label chain = .ok (some usage)) : usage.type.isMembership = false := by
  rw [usage?_eq_nearest] at h
  induction chain with
  | nil => cases h
  | cons n ns ih =>
    simp only [nearest, Outcome.bind_eq_ok] at h
    obtain ⟨found, hfound, h⟩ := h
    split at h
    · cases h
      exact classify_type hfound
    · exact ih h

end Language

/-- What a place gives rise to is no relationship of membership. -/
theorem Atlas.Finds.type {m : Atlas} {r : Relationship} (h : m.Finds r) :
    r.type.isMembership = false := by
  obtain ⟨key, n, place, -, hat⟩ := h
  unfold References.relationshipAt at hat
  split at hat
  · cases hat
  · simp only [Outcome.bind_eq_ok] at hat
    obtain ⟨user, -, own, -, other, -, hat⟩ := hat
    split at hat
    · cases hat
    · simp only [Outcome.bind_eq_ok, Outcome.pure_eq_ok, Option.some.injEq] at hat
      obtain ⟨usage, husage, rfl⟩ := hat
      simp only [References.usageAt, Outcome.bind_eq_ok] at husage
      obtain ⟨d, -, husage⟩ := husage
      split at husage
      · cases husage
      · simp only [Outcome.bind_eq_ok] at husage
        obtain ⟨n', -, at_, -, husage⟩ := husage
        split at husage
        · simp only [Outcome.bind_eq_ok, Outcome.pure_eq_ok] at husage
          obtain ⟨found, hfound, rfl⟩ := husage
          cases found with
          | none => rfl
          | some found => exact Language.usage?_type hfound
        · cases husage
          rfl

namespace NodeTable
variable {t : NodeTable} {key m : NodeKey} {rels : List Relationship}

theorem type_of_mem_relationships (h : t.relationships key = .ok rels) {r : Relationship}
    (hr : r ∈ rels) : r.type.isMembership = true := by
  simp only [relationships, Outcome.bind_eq_ok] at h
  obtain ⟨n, -, h⟩ := h
  split at h
  · cases h
    obtain ⟨member, -, rfl⟩ := List.mem_map.mp hr
    rfl
  · obtain ⟨member, -, hdefines⟩ := Outcome.mem_of_mapM_eq_ok h hr
    simp only [Relationship.defines, Outcome.bind_eq_ok] at hdefines
    obtain ⟨n', -, hdefines⟩ := hdefines
    split at hdefines <;> cases hdefines <;> rfl
  · cases h
    cases hr

/-- A folder or definition has a relationship to each of its members. -/
theorem exists_mem_relationships (h : t.relationships key = .ok rels) {n : Node}
    (hn : t.get? key = some n) (hc : n.content = .folder ∨ ∃ d, n.content = .definition d)
    (hm : m ∈ t.members key) : ∃ r ∈ rels, r.start = key ∧ r.stop = m := by
  simp only [relationships, Outcome.bind_eq_ok, node_eq_ok] at h
  obtain ⟨n', hn', h⟩ := h
  cases hn.symm.trans hn'
  rcases hc with hc | ⟨d, hc⟩
  · rw [hc] at h
    cases h
    exact ⟨_, List.mem_map_of_mem hm, rfl, rfl⟩
  · rw [hc] at h
    have hdefines := Outcome.mapM_eq_ok.mp h
    obtain ⟨i, hi⟩ := List.mem_iff_getElem.mp hm
    obtain ⟨hlt, rfl⟩ := hi
    have hlt' : i < rels.length := hdefines.length_eq ▸ hlt
    have hat := hdefines.get hlt hlt'
    exact ⟨_, List.get_mem rels ⟨i, hlt'⟩, Relationship.defines_eq_ok hat⟩

end NodeTable

/-- Is there an edge of membership from one stored identifier to another? -/
def Edges.Leads (edges : List EdgeRecord) (source target : Json) : Prop :=
  ∃ e ∈ edges, e.type.isMembership = true ∧ e.source = source ∧ e.target = target

def Edges.Reaches (edges : List EdgeRecord) : Json → Json → Prop :=
  Relation.ReflTransGen (Leads edges)

namespace Atlas

/-- The graph of a build that has come to its end. -/
structure Whole (e : Option Environment) (a : Atlas) : Prop where
  recorded : Recorded [] a
  sound : Growth.Sound e ⟨[], a.table⟩
  ids_nodup : (Assoc.keys a.graph.nodes).Nodup
  references : ∀ r ∈ a.graph.references, r.type.isMembership = false

namespace Whole
variable {e : Option Environment} {a : Atlas} {key k m : NodeKey} {n : Node} {id : String}
  {edges : List EdgeRecord}

theorem exists_id (h : a.Whole e) (hkey : key < a.table.nodes.size) :
    ∃ id, a.table.id key = .ok id ∧ id ∈ Assoc.keys a.graph.nodes :=
  (h.recorded.listed hkey).resolve_left (by simp)

/-- An edge of membership leads from a node of the graph to one of its members, or to the node that
the graph keeps in the place of a member. -/
theorem leads_iff (h : a.Whole e) (hedges : a.graph.edgeRecords a.table = .ok edges)
    {source target : Json} : Edges.Leads edges source target ↔
      ∃ k ∈ Assoc.values a.graph.nodes, ∃ m, a.table.Child k m ∧
        ∃ id id', a.table.id k = .ok id ∧ a.table.id m = .ok id' ∧
          source = .str (Digest.hex id) ∧ target = .str (Digest.hex id') := by
  simp only [Graph.edgeRecords, Graph.relationships, Outcome.bind_eq_ok, Outcome.pure_eq_ok]
    at hedges
  obtain ⟨rels, ⟨groups, hgroups, rfl⟩, hedges⟩ := hedges
  have hmembers : ∀ {k m}, m ∈ a.table.members k ↔ a.table.Child k m := by
    intro k m
    have hmember : m ∈ a.table.members k ↔ a.table.Child k m ∧ m ∉ [] := h.sound.members
    simpa using hmember
  constructor
  · rintro ⟨edge, hedge, htype, rfl, rfl⟩
    obtain ⟨r, hr, hrecord⟩ := Outcome.mem_of_mapM_eq_ok hedges hedge
    simp only [Relationship.record, hashedId_eq_ok, Outcome.bind_eq_ok,
      Outcome.pure_eq_ok] at hrecord
    obtain ⟨_, ⟨id, hid, -, rfl⟩, _, ⟨id', hid', -, rfl⟩, rfl⟩ := hrecord
    rcases Graph.mem_of_relationships hgroups hr with hr | ⟨k, hk, group, hrels, hr⟩
    · rw [h.references r hr] at htype
      cases htype
    · obtain ⟨hstart, hstop⟩ := ends_of_mem_relationships hrels hr
      exact ⟨k, hk, r.stop, hmembers.mp hstop, id, id', hstart ▸ hid, hid', rfl, rfl⟩
  · rintro ⟨k, hk, m, hchild, id, id', hid, hid', rfl, rfl⟩
    obtain ⟨n, hn⟩ := exists_of_id hid
    obtain ⟨group, hgroup⟩ : ∃ group, a.table.relationships k = .ok group ∧ group ∈ groups := by
      obtain ⟨i, hlt, rfl⟩ := List.mem_iff_getElem.mp hk
      have hall := Outcome.mapM_eq_ok.mp hgroups
      have hlt' : i < groups.length := hall.length_eq ▸ hlt
      exact ⟨_, hall.get hlt hlt', List.get_mem groups ⟨i, hlt'⟩⟩
    obtain ⟨r, hr, hstart, hstop⟩ := exists_mem_relationships hgroup.1 hn
      ((h.sound.lineage hn).content_eq) (hmembers.mpr hchild)
    have hmem : r ∈ groups.flatten ++ a.graph.references :=
      List.mem_append_left _ (List.mem_flatten.mpr ⟨group, hgroup.2, hr⟩)
    have hrecord : r.record a.table = .ok ⟨.str (Digest.hex id), .str (Digest.hex id'), r.type,
        some r.text⟩ := by
      simp [Relationship.record, hstart, hstop, hashedId_of_id h.sound.tidy.strays_eq hid,
        hashedId_of_id h.sound.tidy.strays_eq hid']
    refine ⟨_, (Outcome.mem_iff_of_mapM_eq_ok hedges).mpr ⟨r, hmem, hrecord⟩, ?_, rfl, rfl⟩
    exact type_of_mem_relationships hgroup.1 hr

/-- From the root, which is a node of the graph, all nodes can be reached exactly if each other node
has a namesake that stands below a node of the graph. -/
theorem reaches_all_iff (h : a.Whole e) (hedges : a.graph.edgeRecords a.table = .ok edges)
    (hhash : ∀ id ∈ Assoc.keys a.graph.nodes, ∀ id' ∈ Assoc.keys a.graph.nodes,
      Digest.hex id = Digest.hex id' → id = id') {top : String × NodeKey}
    (htop : top ∈ a.graph.nodes) :
    (∀ node ∈ a.graph.nodes,
        Edges.Reaches edges (.str (Digest.hex top.1)) (.str (Digest.hex node.1))) ↔
      ∀ node ∈ a.graph.nodes, node = top ∨ ∃ m k, a.table.id m = .ok node.1 ∧
        a.table.Child k m ∧ k ∈ Assoc.values a.graph.nodes := by
  have hkey : ∀ {node}, node ∈ a.graph.nodes → node.1 ∈ Assoc.keys a.graph.nodes :=
    fun hnode => List.mem_map_of_mem hnode
  constructor
  · intro hreaches node hnode
    rcases Relation.ReflTransGen.cases_tail (hreaches node hnode) with heq | ⟨v, -, hleads⟩
    · left
      have hid := hhash _ (hkey hnode) _ (hkey htop) (Json.str.inj heq)
      exact List.inj_on_of_nodup_map h.ids_nodup hnode htop hid
    · right
      obtain ⟨k, hk, m, hchild, -, id, -, hid, -, htarget⟩ := (h.leads_iff hedges).mp hleads
      obtain ⟨id', hid', hlisted⟩ := h.exists_id hchild.lt_size
      cases hid.symm.trans hid'
      have hsame := hhash _ (hkey hnode) _ hlisted (Json.str.inj htarget)
      exact ⟨m, k, hsame ▸ hid, hchild, hk⟩
  · -- along the parents identifiers get shorter, so the way back ends at the root
    intro hheld
    suffices hall : ∀ length, ∀ node ∈ a.graph.nodes, node.1.length = length →
        Edges.Reaches edges (.str (Digest.hex top.1)) (.str (Digest.hex node.1)) from
      fun node hnode => hall _ node hnode rfl
    intro length
    induction length using Nat.strongRecOn with
    | ind length ih =>
      intro node hnode hlength
      rcases hheld node hnode with rfl | ⟨m, k, hid, hchild, hk⟩
      · exact .refl
      · obtain ⟨above, habove, rfl⟩ := List.mem_map.mp hk
        have hkid := h.recorded.ids habove
        have hstep : Edges.Leads edges (.str (Digest.hex above.1)) (.str (Digest.hex node.1)) :=
          (h.leads_iff hedges).mpr ⟨above.2, hk, m, hchild, _, _, hkid, hid, rfl, rfl⟩
        obtain ⟨n, hn, hp⟩ := hchild
        obtain ⟨n', hn', -, hshorter⟩ := h.sound.identity_lt hn hp
        have hid' : n.identity = node.1 := Except.ok.inj ((h.sound.id_eq hn).symm.trans hid)
        have hkid' : n'.identity = above.1 := Except.ok.inj ((h.sound.id_eq hn').symm.trans hkid)
        rw [hid', hkid', hlength] at hshorter
        exact (ih _ hshorter above habove rfl).tail hstep

/-- If no two nodes are namesakes, the graph keeps all nodes, so also the parents of its nodes. -/
theorem held_of_distinct (h : a.Whole e)
    (hdistinct : ∀ key key' id, a.table.id key = .ok id → a.table.id key' = .ok id → key = key')
    {top node : String × NodeKey} (htop : top ∈ a.graph.nodes)
    (honly : ∀ key n, a.table.get? key = some n → n.parent = none → a.table.id key = .ok top.1)
    (hnode : node ∈ a.graph.nodes) : node = top ∨ ∃ m k, a.table.id m = .ok node.1 ∧
      a.table.Child k m ∧ k ∈ Assoc.values a.graph.nodes := by
  have hid := h.recorded.ids hnode
  obtain ⟨n, hn⟩ := exists_of_id hid
  cases hp : n.parent with
  | none =>
    left
    have hsame : node.1 = top.1 := Except.ok.inj (hid.symm.trans (honly node.2 n hn hp))
    exact List.inj_on_of_nodup_map h.ids_nodup hnode htop hsame
  | some k =>
    right
    obtain ⟨m, hm, -, -⟩ := h.sound.identity_lt hn hp
    obtain ⟨id, hk, hlisted⟩ := h.exists_id (lt_size hm)
    obtain ⟨above, habove, rfl⟩ := List.mem_map.mp hlisted
    obtain rfl := hdistinct _ _ _ (h.recorded.ids habove) hk
    exact ⟨node.2, above.2, hid, ⟨n, hn, hp⟩, List.mem_map_of_mem habove⟩

end Whole
end Atlas

namespace Surroundings
variable {c : Surroundings} {files : List ProjectFile} {a : Atlas} {key : NodeKey} {n : Node}

/-- In front of all trails stands the name of the root, so only the root stands at the top. -/
theorem Placed.top_eq (h : c.Placed files n) {name : String} (hc : c.top = [name])
    (hline : a.table.Lineage key n) (hp : n.parent = none) :
    n.content = .folder ∧ n.path = toUri c.root ∧ n.trail = trailOf [name] := by
  cases hline with
  | entry above before folder content parent => cases hp.symm.trans parent
  | inner above before around path content scope parent => cases hp.symm.trans parent
  | top content parent trail =>
    obtain ⟨-, ⟨-, way, -, hpath, htrail⟩ | ⟨file, -, -, d, hd, -⟩⟩ := h
    · have hlength := congrArg List.length (trail.symm.trans htrail)
      have hnil : way = [] := by simpa [trailOf, hc] using hlength
      subst hnil
      exact ⟨content, hpath, by rw [htrail, hc, List.append_nil]⟩
    · rw [content] at hd
      cases hd

/-- If there are nodes at all, the root is one of the graph, and it alone is at the top. -/
theorem exists_root (h : ∀ {key n}, a.table.get? key = some n → c.Placed files n) {name : String}
    (hc : c.top = [name]) (hw : a.Whole c.environment) (hne : a.graph.nodes ≠ []) :
    ∃ top ∈ a.graph.nodes, (∃ n, a.table.get? top.2 = some n ∧ n.content = .folder ∧
      n.path = toUri c.root) ∧ ∀ key n, a.table.get? key = some n → n.parent = none →
        a.table.id key = .ok top.1 := by
  have hidentity : ∀ {key n}, a.table.get? key = some n → n.parent = none →
      n.identity = (c.environment.map Environment.spelling).getD "" ++ spell (trailOf [name]) := by
    intro key n hn hp
    rw [Node.identity, hw.sound.environment hn, ((h hn).top_eq hc (hw.sound.lineage hn) hp).2.2]
  obtain ⟨node, hnode⟩ := List.exists_mem_of_ne_nil _ hne
  obtain ⟨n, hn⟩ := exists_of_id (hw.recorded.ids hnode)
  obtain ⟨key₀, n₀, hn₀, hp₀, -⟩ := hw.sound.exists_top hn
  obtain ⟨id, hid, hlisted⟩ := hw.exists_id (lt_size hn₀)
  obtain ⟨top, htop, rfl⟩ := List.mem_map.mp hlisted
  -- whatever the graph keeps under the identifier of the root has no longer one than the root
  have htopid := hw.recorded.ids htop
  obtain ⟨m, hm⟩ := exists_of_id htopid
  have hsame : m.identity = n₀.identity := by
    have h₁ := (hw.sound.id_eq hm).symm.trans htopid
    have h₂ := (hw.sound.id_eq hn₀).symm.trans hid
    rw [Except.ok.inj h₁, Except.ok.inj h₂]
  have hroot : m.parent = none := by
    obtain ⟨key₁, n₁, hn₁, hp₁, rfl | hshorter⟩ := hw.sound.exists_top hm
    · cases hm.symm.trans hn₁
      exact hp₁
    · rw [hsame, hidentity hn₀ hp₀, hidentity hn₁ hp₁] at hshorter
      exact absurd hshorter (Nat.lt_irrefl _)
  obtain ⟨hcontent, hpath, -⟩ := (h hm).top_eq hc (hw.sound.lineage hm) hroot
  refine ⟨top, htop, ⟨m, hm, hcontent, hpath⟩, ?_⟩
  intro key n hn hp
  rw [hw.sound.id_eq hn, hidentity hn hp, ← hidentity hn₀ hp₀, ← hw.sound.id_eq hn₀, hid]

end Surroundings

/-- What a full build that succeeds comes to. -/
theorem Builder.whole_of_build {p : Project} (hd : p.workspace.disk.Proper) {b b' : Builder}
    (hb : b.atlas = {}) (hbuild : (Builder.build p).perform b = (.ok (), b')) :
    b'.atlas.Whole p.environment ∧ ∃ found,
      b'.atlas = { ((Builder.addProject p).perform b).2.atlas with
        graph := ((Builder.addProject p).perform b).2.atlas.graph.addReferences found } := by
  have hstart : b.atlas.Recorded [] := hb ▸ Atlas.recorded_empty
  have hrecorded := (Builder.ends_build_recorded hstart p).of_ok hbuild
  obtain ⟨b₁, found, h₁, hfound, hb'⟩ := (Builder.ends_build_found p).of_ok hbuild
  obtain ⟨places, htraced⟩ := (Builder.ends_addProject_traced hd hb).of_ok h₁
  obtain ⟨c, -, hchart⟩ := Builder.exists_chart hd hb
  rw [h₁] at hchart ⊢
  refine ⟨⟨hrecorded, hb' ▸ htraced.sound, hb' ▸ hchart.indexed.ids_nodup, ?_⟩, found, hb'⟩
  intro r hr
  rw [hb', Graph.addReferences] at hr
  dsimp only at hr
  rw [hchart.references, List.nil_append] at hr
  exact (hfound r hr).type

/-- In the graph of a full build, unless it is empty, all nodes can be reached from the root along
the edges of membership exactly if each node but the root has a namesake, itself or another node of
its identifier, that stands below a node of the graph. So they can if no two nodes are namesakes. -/
theorem all_reached_iff_parents_kept {p : Project} {root : String} {b b' : Builder}
    (hd : p.workspace.disk.Proper) (hr : p.rules.root = .str root)
    (hskip : ∀ entry, p.workspace.disk.lookUp root = some entry →
      p.rules.skips root entry ≠ .ok true)
    (hb : b.atlas = {}) (hbuild : (Builder.build p).perform b = (.ok (), b'))
    (hhash : ∀ id ∈ Assoc.keys b'.atlas.graph.nodes, ∀ id' ∈ Assoc.keys b'.atlas.graph.nodes,
      Digest.hex id = Digest.hex id' → id = id') :
    b'.atlas.graph.nodes = [] ∨ ∃ top ∈ b'.atlas.graph.nodes, ∃ edges,
      (∃ n, b'.atlas.table.get? top.2 = some n ∧ n.content = .folder ∧ n.path = toUri root) ∧
      b'.atlas.graph.edgeRecords b'.atlas.table = .ok edges ∧
      (∀ node ∈ b'.atlas.graph.nodes,
        b'.atlas.table.hashedId node.2 = .ok (Digest.hex node.1)) ∧
      ((∀ node ∈ b'.atlas.graph.nodes,
          Edges.Reaches edges (.str (Digest.hex top.1)) (.str (Digest.hex node.1))) ↔
        ∀ node ∈ b'.atlas.graph.nodes, node = top ∨ ∃ namesake k,
          b'.atlas.table.id namesake = .ok node.1 ∧ b'.atlas.table.Child k namesake ∧
            k ∈ Assoc.values b'.atlas.graph.nodes) ∧
      ((∀ key key' id, b'.atlas.table.id key = .ok id → b'.atlas.table.id key' = .ok id →
          key = key') → ∀ node ∈ b'.atlas.graph.nodes,
        Edges.Reaches edges (.str (Digest.hex top.1)) (.str (Digest.hex node.1))) := by
  by_cases hne : b'.atlas.graph.nodes = []
  · exact Or.inl hne
  right
  obtain ⟨hwhole, found, hfound⟩ := Builder.whole_of_build hd hb hbuild
  have hnodes : b'.atlas.graph.nodes = ((Builder.addProject p).perform b).2.atlas.graph.nodes := by
    rw [hfound]
    rfl
  have htable : b'.atlas.table = ((Builder.addProject p).perform b).2.atlas.table := by
    rw [hfound]
  have hfolders : (Walk.of p.workspace.disk p.rules).folders ≠ [] := by
    intro hnil
    rw [hnodes, Builder.addProject_of_nil hnil, hb] at hne
    exact hne rfl
  obtain ⟨root', hr', hroot⟩ := Walk.root_of_folders hfolders
  cases hr.symm.trans hr'
  obtain ⟨top, hchart, htop⟩ := Builder.addProject_chart hd hr hroot hb
  have htop : top = [WalkRules.nameOf root] := by
    refine htop.resolve_right ?_
    rintro ⟨entry, hl, hs⟩
    exact hskip entry hl hs
  obtain ⟨top, hmem, hroot, honly⟩ := Surroundings.exists_root
    (c := ⟨root, top, p.environment⟩) (fun hn => hchart.placed (htable ▸ hn)) htop hwhole hne
  obtain ⟨edges, hedges, -⟩ := hwhole.recorded.exists_edgeRecords
  have hiff := hwhole.reaches_all_iff hedges hhash hmem
  refine ⟨top, hmem, edges, hroot, hedges,
    fun node hnode => hashedId_of_id hwhole.recorded.tidy.strays_eq (hwhole.recorded.ids hnode),
    hiff, fun hdistinct => hiff.mpr fun node hnode => ?_⟩
  exact hwhole.held_of_distinct hdistinct hmem honly hnode

namespace Reopened
open Source Server

def method : Piece :=
  .node "method_definition" none true [
    .node "property_identifier" (some "name") true [.text "f"],
    .node "formal_parameters" (some "parameters") true [.text "()"], .text " ",
    .node "statement_block" (some "body") true [.text "{}"]]

def class_ (members : List Piece) : Piece :=
  .node "class_declaration" none true [.text "class ",
    .node "identifier" (some "name") true [.text "A"], .text " ",
    .node "class_body" (some "body") true (.text "\x7b " :: members ++ [.text " \x7d"])]

/-- A source in which the class stands twice, the first time with the method. -/
def source (again : List Piece) : Piece :=
  .node "program" none true [class_ [method], class_ again]

def project (again : List Piece) : Project where
  workspace :=
    { disk := ({} : Disk).addFile "/r/a.js" (TwoFiles.blob (source again))
      grammar := Grammar.ofPieces [source again] }
  rules := { root := .str "/r" }
  environment := some ⟨.str "dev", .str "main", .str "/r"⟩

def full (again : List Piece) : Except Fault Unit × Builder :=
  (Builder.build (project again)).perform { servers := (Servers.start.perform (Servers.make
    (.str "/r") (.str "localhost") (.int 5000) ({} : Answers).reply)).2 }

end Reopened

/-- The second time the class has the method too. The graph keeps one class and one method of two,
but those that it keeps belong together. -/
theorem Reopened.all_reached : ∃ whole edges, full [method] = (.ok (), whole) ∧
    whole.atlas.graph.nodes.length < whole.atlas.table.nodes.size ∧
    whole.atlas.graph.edgeRecords whole.atlas.table = .ok edges ∧
    ∀ node ∈ whole.atlas.graph.nodes,
      Edges.Reaches edges (.str (Digest.hex "/dev/main/r")) (.str (Digest.hex node.1)) := by
  have hrun : (full [method]).1.isOk = true ∧
      (full [method]).2.atlas.graph.nodes.isEmpty = false ∧
      (full [method]).2.atlas.graph.nodes.length < (full [method]).2.atlas.table.nodes.size ∧
      ∀ node ∈ (full [method]).2.atlas.graph.nodes,
        ((full [method]).2.atlas.table.get? node.2).any (fun n => n.label = .folder) →
          node = ("/dev/main/r", 0) := by
    decide +kernel
  have hparents : ∀ node ∈ (full [method]).2.atlas.graph.nodes, node = ("/dev/main/r", 0) ∨
      ((full [method]).2.atlas.table.id node.2).toOption = some node.1 ∧
        ((full [method]).2.atlas.table.get? node.2).any fun n =>
          n.parent.any fun k => (Assoc.values (full [method]).2.atlas.graph.nodes).contains k := by
    decide +kernel
  have hhash : ∀ id ∈ Assoc.keys (full [method]).2.atlas.graph.nodes,
      ∀ id' ∈ Assoc.keys (full [method]).2.atlas.graph.nodes,
        Digest.hex id = Digest.hex id' → id = id' := by
    decide +kernel
  have hkept : ((project [method]).workspace.disk.lookUp "/r").map
      (fun entry => Outcome.isYes ((project [method]).rules.skips "/r" entry)) = some false := by
    decide +kernel
  have hskip : ∀ entry, (project [method]).workspace.disk.lookUp "/r" = some entry →
      (project [method]).rules.skips "/r" entry ≠ .ok true := by
    intro entry hentry hs
    rw [hentry, Option.map_some, hs] at hkept
    cases hkept
  obtain ⟨hok, hkeeps, hlost, hfolder⟩ := hrun
  obtain ⟨whole, hwhole⟩ := Action.exists_of_isOk hok
  have heq : (full [method]).2 = whole := congrArg Prod.snd hwhole
  rw [heq] at hkeeps hlost hfolder hparents hhash
  rcases all_reached_iff_parents_kept (p := project [method]) (Disk.proper_empty.addFile _ _) rfl
    hskip rfl hwhole hhash with hnil | ⟨top, hmem, edges, ⟨n, hn, hc, -⟩, hedges, -, hiff, -⟩
  · rw [hnil] at hkeeps
    cases hkeeps
  · obtain rfl := hfolder top hmem (by simp [hn, Node.label, hc])
    refine ⟨whole, edges, hwhole, hlost, hedges, hiff.mpr fun node hnode => ?_⟩
    rcases hparents node hnode with rfl | ⟨hid, hparent⟩
    · exact .inl rfl
    · right
      simp only [Option.any_eq_true, List.contains_iff_mem] at hparent
      obtain ⟨n, hn, k, hp, hk⟩ := hparent
      exact ⟨node.2, k, Outcome.eq_ok_of_toOption hid, ⟨n, hn, hp⟩, hk⟩

/-- The second time the class has no method, and it is the class that the graph keeps. No edge leads
to the method. -/
theorem Reopened.method_orphaned : ∃ whole edges, full [] = (.ok (), whole) ∧
    ("/dev/main/r", 0) ∈ whole.atlas.graph.nodes ∧
    ("/dev/main/r/a.js#A.f", 3) ∈ whole.atlas.graph.nodes ∧
    whole.atlas.graph.edgeRecords whole.atlas.table = .ok edges ∧
    ¬Edges.Reaches edges (.str (Digest.hex "/dev/main/r"))
      (.str (Digest.hex "/dev/main/r/a.js#A.f")) := by
  have hrun : (full []).1.isOk = true ∧ ("/dev/main/r", 0) ∈ (full []).2.atlas.graph.nodes ∧
      ("/dev/main/r/a.js#A.f", 3) ∈ (full []).2.atlas.graph.nodes := by
    decide +kernel
  have hnone : (((full []).2.atlas.graph.edgeRecords (full []).2.atlas.table).toOption.map fun
      edges => edges.all fun e =>
        !(Json.str (Digest.hex "/dev/main/r/a.js#A.f")).same e.target) = some true := by
    decide +kernel
  have hne : Digest.hex "/dev/main/r/a.js#A.f" ≠ Digest.hex "/dev/main/r" := by
    decide +kernel
  obtain ⟨hok, hroot, hmethod⟩ := hrun
  obtain ⟨whole, hwhole⟩ := Action.exists_of_isOk hok
  have heq : (full []).2 = whole := congrArg Prod.snd hwhole
  rw [heq] at hroot hmethod hnone
  obtain ⟨edges, hedges, hnone⟩ := Option.map_eq_some_iff.mp hnone
  refine ⟨whole, edges, hwhole, hroot, hmethod, Outcome.eq_ok_of_toOption hedges,
    fun hreaches => ?_⟩
  rcases Relation.ReflTransGen.cases_tail hreaches with heq | ⟨v, -, e, he, -, -, htarget⟩
  · exact hne (Json.str.inj heq)
  · have hall := List.all_eq_true.mp hnone e he
    simp [htarget] at hall

end CodeAtlas
