import CodeAtlas.Proofs.Build.Edges
import CodeAtlas.Proofs.Build.Rework

namespace CodeAtlas
open NodeTable CodeAtlas.Path

namespace Review
variable {r : Review} {a a' : Atlas} {b : Builder} {folders : List String} {key : NodeKey}
  {n : Node}

section
variable {I : Builder → Prop}
  (hasked : ∀ place, Action.Preserves I (Builder.onServers (Server.Servers.definitionPath place)))
include hasked

theorem preserves_definitionPaths (places : List Place) (known : List Json) :
    Action.Preserves I (definitionPaths places known) := by
  induction places generalizing known with
  | nil => exact Action.preserves_pure _
  | cons place places ih =>
    exact Action.preserves_bind (hasked place) fun _ =>
      Action.preserves_bind (Action.preserves_ofExcept _) fun known => ih known

theorem preserves_pathsUsedBy (known : List Json) (key : NodeKey) :
    Action.Preserves I (pathsUsedBy known key) := by
  refine Action.preserves_bind (fun _ h => h) fun t => ?_
  refine Action.preserves_bind (Action.preserves_ofExcept _) fun d => ?_
  split
  · exact Action.preserves_pure _
  · exact Action.preserves_bind (Action.preserves_ofExcept _) fun _ =>
      Action.preserves_bind (Action.preserves_ofExcept _) fun _ =>
        preserves_definitionPaths hasked _ _

/-- All that is done to find what files use is to ask for definitions. -/
theorem preserves_pathsUsed (keys : List NodeKey) (known : List Json) :
    Action.Preserves I (keys.foldlM pathsUsedBy known) := by
  induction keys generalizing known with
  | nil => exact Action.preserves_pure _
  | cons key keys ih =>
    rw [List.foldlM_cons]
    exact Action.preserves_bind (preserves_pathsUsedBy hasked known key) ih

end

/-- Whatever the servers say, a review adds nothing but relationships that places give rise to. -/
theorem ends_addReferences_found (r : Review) (b : Builder) : r.addReferences.Ends b
    (fun _ b' => ∃ found, (∀ x ∈ found, b.atlas.Finds x) ∧
      b'.atlas = { b.atlas with graph := b.atlas.graph.addReferences found }) fun _ => True := by
  rw [addReferences, Action.ends_bind]
  refine Builder.ends_graph ?_
  rw [Action.ends_bind]
  refine Action.ends_ofExcept (fun changed _ => ?_) trivial
  rw [Action.ends_bind]
  refine (Action.ends_self _ b).mono (fun used b₁ hb₁ => ?_) fun _ h => h
  have hatlas : b₁.atlas = b.atlas :=
    hb₁ ▸ preserves_pathsUsed (I := fun b' => b'.atlas = b.atlas) (fun _ _ h => h) changed [] b rfl
  rw [Action.ends_bind]
  refine Action.ends_ofExcept (fun others _ => ?_) trivial
  rw [← hatlas]
  exact Builder.ends_addReferences_found _

def Retains (r : Review) (folders : List String) (path : String) : Prop :=
  path ∈ folders ∨ path ∈ Json.texts (FileChange.remaining r.changes)

theorem stands_iff {t : NodeTable} (hn : t.get? key = some n) :
    t.stands (.arr (folders.map .str ++ FileChange.remaining r.changes)) key = true ↔
      r.Retains folders n.path := by
  rw [stands_of_get? hn, Json.any_same_str, Json.texts_append, List.mem_append, Json.texts_map_str,
    Retains]

structure Deletes (r : Review) (key : NodeKey) (n : Node) : Prop where
  content : n.content = .deleted .deleted
  environment : n.environment = r.environment
  trail : n.trail = [.removed key]
  path : .str n.path ∈ FileChange.paths r.changes .deleted

/-- An atlas that a review has cut down to its paths, and to which it may have added deleted files.
What is left stands where it stood. -/
structure Trimmed (r : Review) (folders : List String) (a a' : Atlas) : Prop where
  strays : a'.table.strays = []
  grouped : a'.table.Grouped
  ids_nodup : (Assoc.keys a'.graph.nodes).Nodup
  alike : ∀ {key n}, a.table.get? key = some n → ∃ n', a'.table.get? key = some n' ∧ n.Alike n' ∧
    (n.content = .folder → n.Kin n')
  of_mem : ∀ {id key}, (id, key) ∈ a'.graph.nodes → a'.table.id key = .ok id ∧
    ((∃ n, a.table.get? key = some n ∧ r.Retains folders n.path) ∨
      ∃ n, a'.table.get? key = some n ∧ r.Deletes key n)
  of_old : ∀ {key n}, a.table.get? key = some n → key ∈ Assoc.values a'.graph.nodes →
    key ∈ Assoc.values a.graph.nodes
  listed : ∀ {key n}, key ∈ Assoc.values a.graph.nodes → a.table.get? key = some n →
    r.Retains folders n.path → ∃ id, a'.table.id key = .ok id ∧ id ∈ Assoc.keys a'.graph.nodes
  members : ∀ {key n}, a.table.get? key = some n → key ∈ Assoc.values a'.graph.nodes →
    ∀ m, m ∈ a'.table.members key ↔ m ∈ a.table.members key ∧
      ∃ k, a.table.get? m = some k ∧ r.Retains folders k.path
  references : ∀ x ∈ a'.graph.references, Atlas.Joins a.table x

/-- What the filter leaves of an atlas that has been reworked and has got references. -/
theorem Trimmed.of_sifted {e : Option Environment} (h : a.Drawn e) {m : Atlas}
    (hgraph : m.graph = a.graph) (hrework : a.table.Reworked m.table) {found : List Relationship}
    (hfound : ∀ x ∈ found, m.Finds x)
    (hs : Atlas.Sifted (.arr (folders.map .str ++ FileChange.remaining r.changes))
      { m with graph := m.graph.addReferences found } a') : r.Trimmed folders a a' := by
  have hnodes : (m.graph.addReferences found).nodes = a.graph.nodes := by
    rw [← hgraph]
    rfl
  have hstands : ∀ {key n}, a.table.get? key = some n → (m.table.stands
      (.arr (folders.map .str ++ FileChange.remaining r.changes)) key = true ↔
        r.Retains folders n.path) := by
    intro key n hn
    obtain ⟨n', hn', -, halike⟩ := hrework.node hn
    rw [stands_iff hn', halike.path]
  have hmem : ∀ {id key}, (id, key) ∈ a'.graph.nodes → m.table.id key = .ok id ∧
      key ∈ Assoc.values a.graph.nodes ∧ ∃ n, a.table.get? key = some n ∧
        r.Retains folders n.path := by
    intro id key hmem
    obtain ⟨hid, hkey, hyes⟩ := hs.of_mem hmem
    obtain ⟨n', hn'⟩ := exists_of_id hid
    obtain ⟨n, hn, -⟩ := hrework.get? hn'
    exact ⟨hid, hnodes ▸ hkey, n, hn, (hstands hn).mp hyes⟩
  have hstrays : a'.table.strays = [] :=
    hs.pruned.strays.trans (hrework.strays.trans h.sound.tidy.strays_eq)
  refine ⟨hstrays, hs.pruned.grouped, hs.ids_nodup, ?_, ?_, ?_, ?_, ?_, ?_⟩
  · intro key n hn
    obtain ⟨n', hn', -, halike⟩ := hrework.node hn
    obtain ⟨n'', hn'', hkin⟩ := hs.pruned.keeps key n' hn'
    exact ⟨n'', hn'', halike.trans hkin.alike, fun hf => (hrework.folder hn hn' hf).trans hkin⟩
  · intro id key hkey
    obtain ⟨hid, -, hnode⟩ := hmem hkey
    exact ⟨hs.pruned.keeps.id hid, Or.inl hnode⟩
  · intro key n hn hkey
    obtain ⟨⟨id, key⟩, hentry, rfl⟩ := List.mem_map.mp hkey
    exact (hmem hentry).2.1
  · intro key n hkey hn hretains
    obtain ⟨id, hid, hlisted⟩ := hs.exists_id (hnodes.symm ▸ hkey) ((hstands hn).mpr hretains)
    exact ⟨id, hs.pruned.keeps.id hid, hlisted⟩
  · intro key n hn hkey k
    obtain ⟨⟨id, key⟩, hentry, rfl⟩ := List.mem_map.mp hkey
    obtain ⟨hid, hvalue, n₁, hn₁, hretains⟩ := hmem hentry
    cases hn.symm.trans hn₁
    obtain ⟨n', hn', -, halike⟩ := hrework.node hn
    have hcontent : n'.content = .folder ∨ ∃ d, n'.content = .definition d := by
      rcases (h.sound.lineage hn).content_eq with hc | ⟨d, hc⟩
      · exact Or.inl (halike.folder hc)
      · obtain ⟨d', hd', -⟩ := halike.definition hc
        exact Or.inr ⟨d', hd'⟩
    have hpruned :=
      hs.members key (hnodes.symm ▸ hvalue) ((hstands hn).mpr hretains) n' hn' hcontent
    rw [hpruned, List.mem_filter, hrework.members_eq]
    constructor
    · rintro ⟨hold, hyes⟩
      obtain ⟨n₂, hn₂⟩ := get?_of_lt (h.sound.tidy.inside hold)
      exact ⟨hold, n₂, hn₂, (hstands hn₂).mp hyes⟩
    · rintro ⟨hold, n₂, hn₂, hretains⟩
      exact ⟨hold, (hstands hn₂).mpr hretains⟩
  · intro x hx
    rw [hs.references] at hx
    have hx := (List.mem_filter.mp hx).1
    rw [Graph.addReferences, hgraph, h.references, List.nil_append] at hx
    have hjoins := (hfound x hx).joins (hrework.tidy h.sound.tidy)
    exact ⟨hrework.size ▸ hjoins.1, hrework.size ▸ hjoins.2⟩

/-- The node of a deleted file takes the place of a node with its identifier, if there is one. -/
theorem Trimmed.add (h : r.Trimmed folders a a') (hn : n.members = a'.table.groups.size)
    (hdeleted : r.Deletes a'.table.nodes.size n) {g : Graph}
    (hadd : a'.graph.add (a'.table.push n) a'.table.nodes.size = .ok g)
    (external : List ExternalRelationship) :
    r.Trimmed folders a ⟨a'.table.push n, g, external⟩ := by
  obtain ⟨n', id, hn', hid, rfl⟩ := Graph.add_eq_ok hadd
  have hnew := a'.table.get?_push_self n
  -- of the nodes that were there before, those of the graph are nodes of it still
  have hvalue : ∀ {key m}, a.table.get? key = some m →
      key ∈ Assoc.values (Assoc.insert a'.graph.nodes id a'.table.nodes.size) →
      key ∈ Assoc.values a'.graph.nodes := by
    intro key m hm hkey
    obtain ⟨m', hm', -⟩ := h.alike hm
    obtain ⟨⟨id', key⟩, hmem, rfl⟩ := List.mem_map.mp hkey
    rcases Assoc.eq_or_mem_of_mem_insert hmem with heq | hmem
    · cases heq
      exact absurd (lt_size hm') (Nat.lt_irrefl _)
    · exact List.mem_map_of_mem hmem
  refine ⟨h.strays, h.grouped.push hn, Assoc.nodup_keys_insert h.ids_nodup, ?_, ?_, ?_, ?_, ?_,
    h.references⟩
  · intro key m hm
    obtain ⟨m', hm', halike⟩ := h.alike hm
    exact ⟨m', get?_push_of_some hm', halike⟩
  · intro id' key hmem
    rcases Assoc.eq_or_mem_of_mem_insert hmem with heq | hmem
    · cases heq
      exact ⟨hid, Or.inr ⟨n, hnew, hdeleted⟩⟩
    · obtain ⟨hid', hnode⟩ := h.of_mem hmem
      refine ⟨(keeps_push n).id hid', hnode.imp_right ?_⟩
      rintro ⟨m, hm, hdel⟩
      exact ⟨m, get?_push_of_some hm, hdel⟩
  · exact fun hm hkey => h.of_old hm (hvalue hm hkey)
  · intro key m hkey hm hretains
    obtain ⟨id', hid', hmem⟩ := h.listed hkey hm hretains
    exact ⟨id', (keeps_push n).id hid', Assoc.mem_keys_insert.mpr (Or.inr hmem)⟩
  · intro key m hm hkey k
    obtain ⟨m', hm', -⟩ := h.alike hm
    rw [h.grouped.members_push hm']
    exact h.members hm (hvalue hm hkey) k

/-- If no path is changed twice, a node that is left is also known by the one change to its path. -/
structure Pared (r : Review) (folders : List String) (a a' : Atlas) : Prop
    extends Trimmed r folders a a' where
  node : ∀ {key n}, a.table.get? key = some n → ∃ n', a'.table.get? key = some n' ∧
    (r.Changes a.table key → (r.remake n).Kin n') ∧ (¬r.Changes a.table key → n.Kin n')

theorem Pared.of_sifted {e : Option Environment} (h : a.Drawn e) {m : Atlas}
    (hgraph : m.graph = a.graph)
    (hmarked : Touched r.remake (r.Changes a.table) a.table m.table) {found : List Relationship}
    (hfound : ∀ x ∈ found, m.Finds x)
    (hs : Atlas.Sifted (.arr (folders.map .str ++ FileChange.remaining r.changes))
      { m with graph := m.graph.addReferences found } a') : r.Pared folders a a' := by
  have hrework : a.table.Reworked m.table := by
    refine .of_touched r.gentle_remake hmarked ?_
    rintro key n ⟨n', d, hn', hd, -⟩ hn hfolder
    cases hn.symm.trans hn'
    cases hfolder.symm.trans hd
  refine ⟨.of_sifted h hgraph hrework hfound hs, fun {key n} hn => ?_⟩
  obtain ⟨n', hn', -, hP, hnot⟩ := hmarked.node hn
  obtain ⟨n'', hn'', hkin⟩ := hs.pruned.keeps key n' hn'
  exact ⟨n'', hn'', fun hp => (hP hp).trans hkin, fun hp => (hnot hp).trans hkin⟩

theorem Changes.exists_change {t : NodeTable}
    (hpaths : (Json.texts (r.changes.map FileChange.path)).Nodup) (h : r.Changes t key)
    (hn : t.get? key = some n) : ∃ change ∈ r.changes, change.type ≠ .deleted ∧
      change.path = .str n.path ∧ r.remake n = r.touch change n := by
  obtain ⟨n', -, hn', -, hpath⟩ := h
  cases hn.symm.trans hn'
  obtain ⟨change, hmem, htype, hchange⟩ := FileChange.mem_texts_remaining.mp hpath
  exact ⟨change, hmem, htype, hchange, remake_eq (FileChange.ofPath_of_mem hpaths hmem hchange)⟩

theorem Changes.remake_identity {t : NodeTable}
    (hpaths : (Json.texts (r.changes.map FileChange.path)).Nodup) (h : r.Changes t key)
    (hn : t.get? key = some n) : (r.remake n).identity = (n.within r.environment).identity := by
  obtain ⟨change, -, -, -, hremake⟩ := h.exists_change hpaths hn
  have htrail : (r.remake n).trail = n.trail := (r.gentle_remake.alike n).trail
  rw [Node.identity, htrail, hremake]
  rfl

/-- What is changed has an identifier of the environment of the review, and the rest has the old
one. -/
theorem Pared.id_eq (h : r.Pared folders a a') {e : Option Environment} (ha : a.Drawn e)
    (hpaths : (Json.texts (r.changes.map FileChange.path)).Nodup)
    (hn : a.table.get? key = some n) :
    (r.Changes a.table key → a'.table.id key = .ok (n.within r.environment).identity) ∧
      (¬r.Changes a.table key → a'.table.id key = .ok n.identity) := by
  obtain ⟨n', hn', hchanged, hkept⟩ := h.node hn
  have hnamed := ha.sound.named_trail hn
  constructor
  · intro hchanges
    have hkin := hchanged hchanges
    have htrail : n'.trail = n.trail := hkin.trail.trans (r.gentle_remake.alike n).trail
    rw [NodeTable.id_eq hn' (htrail ▸ hnamed), hkin.identity, hchanges.remake_identity hpaths hn]
  · intro hnot
    have hkin := hkept hnot
    rw [NodeTable.id_eq hn' (hkin.trail ▸ hnamed), hkin.identity]

/-- Does a relationship lead from a modified file to what it was? -/
def Renews (r : Review) (a a' : Atlas) (key : NodeKey) (x : ExternalRelationship) : Prop :=
  ∃ n, a.table.get? key = some n ∧ n.label = .file ∧
    n.path ∈ Json.texts (FileChange.paths r.changes .modified) ∧
    a.table.id key = .ok n.identity ∧
    a'.table.id key = .ok (n.within r.environment).identity ∧
    x = ⟨.str (Digest.hex (n.within r.environment).identity), .str (Digest.hex n.identity),
      .modified⟩

theorem forall₂_filterMap {α β : Type} {P : α → β → Prop} {f : α → Option β} {xs : List α}
    (h : ∀ x ∈ xs, ∃ y, f x = some y ∧ P x y) : List.Forall₂ P xs (xs.filterMap f) := by
  induction xs with
  | nil => exact .nil
  | cons x xs ih =>
    obtain ⟨⟨y, hy, hp⟩, hxs⟩ := List.forall_mem_cons.mp h
    rw [List.filterMap_cons_some hy]
    exact .cons hp (ih hxs)

/-- Of the files that are still there, the modified ones are related to what they were. -/
theorem Pared.renews (h : r.Pared folders a a') {e : Option Environment} (ha : a.Drawn e)
    (hpaths : (Json.texts (r.changes.map FileChange.path)).Nodup) :
    List.Forall₂ (r.Renews a a')
      ((Json.texts (FileChange.paths r.changes .modified)).filterMap a.graph.fileAt?)
      (((Json.texts (FileChange.remaining r.changes)).filterMap a.graph.fileAt?).filterMap
        fun key => (a.table.get? key).bind r.relate?) := by
  have hchange : ∀ {type path key}, path ∈ Json.texts (FileChange.paths r.changes type) →
      a.graph.fileAt? path = some key → ∃ n d change, a.table.get? key = some n ∧
        n.content = .definition d ∧ d.scope = .file ∧ n.path = path ∧ change.type = type ∧
        FileChange.ofPath r.changes (.str n.path) = .ok change := by
    intro type path key hpath hkey
    obtain ⟨change, hmem, htype, hchange⟩ := FileChange.mem_texts_paths.mp hpath
    obtain ⟨n, d, hn, hd, hscope, rfl⟩ := ha.file_at hkey
    exact ⟨n, d, change, hn, hd, hscope, rfl, htype,
      FileChange.ofPath_of_mem hpaths hmem hchange⟩
  have hadded : ((Json.texts (FileChange.paths r.changes .added)).filterMap
      a.graph.fileAt?).filterMap (fun key => (a.table.get? key).bind r.relate?) = [] := by
    rw [List.filterMap_eq_nil_iff]
    intro key hkey
    obtain ⟨path, hpath, hat⟩ := List.mem_filterMap.mp hkey
    obtain ⟨n, d, change, hn, -, -, -, htype, hof⟩ := hchange hpath hat
    simp [hn, relate?, hof, htype]
  rw [FileChange.remaining, Json.texts_append, List.filterMap_append, List.filterMap_append, hadded,
    List.nil_append]
  refine forall₂_filterMap fun key hkey => ?_
  obtain ⟨path, hpath, hat⟩ := List.mem_filterMap.mp hkey
  obtain ⟨n, d, change, hn, hd, hscope, rfl, htype, hof⟩ := hchange hpath hat
  have hchanges : r.Changes a.table key :=
    ⟨n, d, hn, hd, FileChange.mem_texts_remaining_of_modified hpath⟩
  refine ⟨_, ?_, n, hn, ?_, hpath, ha.sound.id_eq hn, (h.id_eq ha hpaths hn).1 hchanges, rfl⟩
  · rw [← hchanges.remake_identity hpaths hn]
    simp [hn, relate?, hof, htype]
  · simp [Node.label, hd, hscope, Scope.label]

theorem Pared.add (h : r.Pared folders a a') (hn : n.members = a'.table.groups.size)
    (hdeleted : r.Deletes a'.table.nodes.size n) {g : Graph}
    (hadd : a'.graph.add (a'.table.push n) a'.table.nodes.size = .ok g)
    (external : List ExternalRelationship) :
    r.Pared folders a ⟨a'.table.push n, g, external⟩ := by
  refine ⟨h.toTrimmed.add hn hdeleted hadd external, fun {key m} hm => ?_⟩
  obtain ⟨m', hm', hkin⟩ := h.node hm
  exact ⟨m', get?_push_of_some hm', hkin⟩

/-- Does a relationship lead from a deleted file, as it was, to its node? -/
def Relates (r : Review) (a : Atlas) (path : Json) (x : ExternalRelationship) : Prop :=
  ∃ before key n after,
    Environment.idOfFile r.project.environment (.str (ofUri n.path)) a.table.strays = .ok before ∧
    a.table.get? key = some n ∧ r.Deletes key n ∧ path = .str n.path ∧ a.Lists key ∧
    a.table.hashedId key = .ok after ∧ x = ⟨.str before, .str after, .deleted⟩

theorem Relates.mono {path : Json} {x : ExternalRelationship} (h : r.Relates a path x)
    (hstrays : a'.table.strays = a.table.strays)
    (hget : ∀ key n, a.table.get? key = some n → a'.table.get? key = some n)
    (hids : ∀ id ∈ Assoc.keys a.graph.nodes, id ∈ Assoc.keys a'.graph.nodes) :
    r.Relates a' path x := by
  obtain ⟨before, key, n, after, hbefore, hn, hdeletes, hpath, ⟨id, hid, hlisted⟩, hafter, hx⟩ := h
  have hkeeps : a.table.Keeps a'.table := fun key n hn => ⟨n, hget key n hn, .refl n⟩
  obtain ⟨id', hid', hcheck, hhash⟩ := hashedId_eq_ok.mp hafter
  rw [← hstrays] at hbefore hcheck
  exact ⟨before, key, n, after, hbefore, hget key n hn, hdeletes, hpath,
    ⟨id, hkeeps.id hid, hids id hlisted⟩,
    hashedId_eq_ok.mpr ⟨id', hkeeps.id hid', hcheck, hhash⟩, hx⟩

theorem Relates.of_add {before after : String} {g : Graph}
    (hbefore : Environment.idOfFile r.project.environment (.str (ofUri n.path)) a.table.strays =
      .ok before)
    (hdeletes : r.Deletes a.table.nodes.size n)
    (hadd : a.graph.add (a.table.push n) a.table.nodes.size = .ok g)
    (hafter : (a.table.push n).hashedId a.table.nodes.size = .ok after)
    (external : List ExternalRelationship) :
    r.Relates ⟨a.table.push n, g, external⟩ (.str n.path) ⟨.str before, .str after, .deleted⟩ := by
  obtain ⟨_, id, -, hid, rfl⟩ := Graph.add_eq_ok hadd
  exact ⟨before, _, n, after, hbefore, get?_push_self _ _, hdeletes, rfl,
    ⟨id, hid, Assoc.mem_keys_insert.mpr (Or.inl rfl)⟩, hafter, rfl⟩

section
variable {P : Atlas → Prop} (hP : ∀ {a n g}, P a → n.members = a.table.groups.size →
  r.Deletes a.table.nodes.size n → a.graph.add (a.table.push n) a.table.nodes.size = .ok g →
  ∀ external, P ⟨a.table.push n, g, external⟩)
include hP

theorem ends_addDeleted (h : P b.atlas) {path : Json}
    (hpath : path ∈ FileChange.paths r.changes .deleted) :
    (r.addDeleted path).Ends b (fun _ b' => P b'.atlas ∧
        b'.atlas.table.strays = b.atlas.table.strays ∧
        (∀ key n, b.atlas.table.get? key = some n → b'.atlas.table.get? key = some n) ∧
        (∀ id ∈ Assoc.keys b.atlas.graph.nodes, id ∈ Assoc.keys b'.atlas.graph.nodes) ∧
        ∃ x, r.Relates b'.atlas path x ∧ b'.atlas.external = b.atlas.external ++ [x])
      fun _ => True := by
  rw [addDeleted, Action.ends_bind]
  refine Action.ends_ofExcept (fun uri huri => ?_) trivial
  obtain rfl : path = .str uri := by
    cases path <;> cases huri
    rfl
  rw [Action.ends_bind, Surroundings.ends_onTable]
  refine ends_insert (fun _ => ?_) trivial
  rw [Action.ends_bind]
  refine Builder.ends_table ?_
  rw [Action.ends_bind]
  refine Action.ends_ofExcept (fun before hbefore => ?_) trivial
  change Environment.idOfFile _ _ b.atlas.table.strays = _ at hbefore
  rw [Action.ends_bind, Builder.onAtlas, Action.ends_zoom]
  refine Surroundings.ends_addNode (fun g hg => ?_) trivial
  rw [Action.ends_bind]
  refine Builder.ends_table ?_
  rw [Action.ends_bind]
  refine Action.ends_ofExcept (fun after hafter => ?_) trivial
  rw [relateOutside, Action.ends_modify]
  obtain ⟨n, hn⟩ : ∃ n, b.atlas.table.fresh (.deleted .deleted) uri (.str "DELETED") (.int 0) none
    r.environment = n := ⟨_, rfl⟩
  have hdeletes : r.Deletes b.atlas.table.nodes.size n := hn ▸ ⟨rfl, rfl, rfl, hpath⟩
  obtain rfl : n.path = uri := hn ▸ rfl
  have hkept := hP h (hn ▸ rfl) hdeletes (hn ▸ hg)
  have hrelates := Relates.of_add hbefore hdeletes (hn ▸ hg) (hn ▸ hafter)
  rw [← hn] at hkept hrelates
  refine ⟨hkept _, rfl, fun _ _ => get?_push_of_some, ?_, _, hrelates _, rfl⟩
  obtain ⟨_, id, -, -, rfl⟩ := Graph.add_eq_ok hg
  exact fun _ hmem => Assoc.mem_keys_insert.mpr (Or.inr hmem)

/-- What stays when the node of a deleted file is added stays when all are. -/
theorem ends_addAllDeleted (h : P b.atlas) :
    r.addAllDeleted.Ends b (fun _ b' => P b'.atlas ∧ ∃ deleted,
        List.Forall₂ (r.Relates b'.atlas) (FileChange.paths r.changes .deleted) deleted ∧
        b'.atlas.external = b.atlas.external ++ deleted) fun _ => True := by
  refine Action.ends_forM (I := fun before (b' : Builder) => P b'.atlas ∧
    ∃ deleted, List.Forall₂ (r.Relates b'.atlas) before deleted ∧
      b'.atlas.external = b.atlas.external ++ deleted) ⟨h, [], .nil, by simp⟩ ?_
  rintro before path after hsplit b₁ ⟨h₁, deleted, hdeleted, hexternal⟩
  refine (ends_addDeleted hP h₁ (by simp [hsplit])).mono ?_ fun _ h => h
  rintro - b₂ ⟨h₂, hstrays, hget, hids, x, hx, hexternal'⟩
  refine ⟨h₂, deleted ++ [x], ?_, by rw [hexternal', hexternal, List.append_assoc]⟩
  exact List.rel_append (hdeleted.imp fun _ _ hold => hold.mono hstrays hget hids) (.cons hx .nil)

end

/-- A review goes on from what it has marked by adding references and filtering. -/
theorem ends_cut (r : Review) (ht : b.atlas.table.Grouped) : r.addReferences.Ends b
    (fun _ b₁ => r.keepChanged.Ends b₁ (fun _ b₂ => ∃ found folders,
        (∀ x ∈ found, b.atlas.Finds x) ∧
        Environment.parentsOfAll r.project.environment (FileChange.remaining r.changes) =
          .ok folders ∧
        Atlas.Sifted (.arr (folders.map .str ++ FileChange.remaining r.changes))
          { b.atlas with graph := b.atlas.graph.addReferences found } b₂.atlas) fun _ => True)
    fun _ => True := by
  refine (ends_addReferences_found r b).mono ?_ fun _ h => h
  rintro - b₁ ⟨found, hfound, hb₁⟩
  rw [keepChanged, Action.ends_bind]
  refine Action.ends_ofExcept (fun folders hfolders => ?_) trivial
  rw [Builder.onAtlas, Action.ends_zoom, hb₁]
  exact (Atlas.ends_filter (m := { b.atlas with graph := b.atlas.graph.addReferences found })
    ht).mono (fun _ _ hsifted => ⟨found, folders, hfound, hfolders, hsifted⟩) fun _ h => h

/-- What a review comes to: the graph of the project, pared down, with relationships to what the
modified and the deleted files were. -/
theorem ends_build (hd : r.project.workspace.disk.Proper)
    (hpaths : (Json.texts (r.changes.map FileChange.path)).Nodup) (hb : b.atlas = {}) :
    r.build.Ends b (fun _ b' => ∃ created folders modified deleted,
        (Builder.addProject r.project).perform b = (.ok (), created) ∧
        created.atlas.Drawn r.project.environment ∧
        Environment.parentsOfAll r.project.environment (FileChange.remaining r.changes) =
          .ok folders ∧
        r.Pared folders created.atlas b'.atlas ∧
        List.Forall₂ (r.Renews created.atlas b'.atlas)
          ((Json.texts (FileChange.paths r.changes .modified)).filterMap
            created.atlas.graph.fileAt?) modified ∧
        List.Forall₂ (r.Relates b'.atlas) (FileChange.paths r.changes .deleted) deleted ∧
        b'.atlas.external = modified ++ deleted) fun _ => True := by
  rw [build, Action.ends_bind]
  refine Action.ends_iff.mpr ⟨fun _ created hcreated => ?_, fun _ _ _ => trivial⟩
  have hdrawn := Builder.drawn_of_addProject hd hb hcreated
  rw [Action.ends_bind]
  refine (ends_markAll hdrawn hpaths).mono ?_ fun _ h => h
  rintro - b₂ ⟨hgraph, hmarked, hexternal⟩
  have hgrouped := ((hmarked.reshaped r.gentle_remake).tidy hdrawn.sound.tidy).grouped
  rw [Action.ends_bind]
  refine (ends_cut r hgrouped).mono (fun _ b₃ hcut => ?_) fun _ h => h
  rw [Action.ends_bind]
  refine hcut.mono ?_ fun _ h => h
  rintro - b₄ ⟨found, folders, hfound, hfolders, hsifted⟩
  have hpared := Pared.of_sifted hdrawn hgraph hmarked hfound hsifted
  refine (ends_addAllDeleted (fun h hn hdel hadd => Pared.add h hn hdel hadd) hpared).mono ?_
    fun _ h => h
  rintro - b' ⟨hpared', deleted, hdeleted, hexternal'⟩
  refine ⟨created, folders, _, deleted, hcreated, hdrawn, hfolders, hpared',
    hpared'.renews hdrawn hpaths, hdeleted, ?_⟩
  rw [hexternal', ← hexternal]
  exact congrArg (· ++ deleted) hsifted.external

/-- Whatever the changes are, a review or an update that succeeds leaves the graph of the project
cut down to their paths. -/
theorem ends_trimmed (hd : r.project.workspace.disk.Proper) (hb : b.atlas = {})
    {act : Action Builder Unit} (hact : act = r.build ∨ act = r.rebuild) :
    act.Ends b (fun _ b' => ∃ created folders,
        (Builder.addProject r.project).perform b = (.ok (), created) ∧
        created.atlas.Drawn r.project.environment ∧
        Environment.parentsOfAll r.project.environment (FileChange.remaining r.changes) =
          .ok folders ∧
        r.Trimmed folders created.atlas b'.atlas) fun _ => True := by
  rcases hact with rfl | rfl
  · rw [build, Action.ends_bind]
    refine Action.ends_iff.mpr ⟨fun _ created hcreated => ?_, fun _ _ _ => trivial⟩
    have hdrawn := Builder.drawn_of_addProject hd hb hcreated
    rw [Action.ends_bind]
    refine (ends_markAll_reworked r created).mono ?_ fun _ h => h
    rintro - b₂ ⟨hgraph, hrework⟩
    rw [Action.ends_bind]
    refine (ends_cut r (hrework.tidy hdrawn.sound.tidy).grouped).mono (fun _ b₃ hcut => ?_)
      fun _ h => h
    rw [Action.ends_bind]
    refine hcut.mono ?_ fun _ h => h
    rintro - b₄ ⟨found, folders, hfound, hfolders, hsifted⟩
    have htrimmed := Trimmed.of_sifted hdrawn hgraph hrework hfound hsifted
    refine (ends_addAllDeleted (fun h hn hdel hadd => Trimmed.add h hn hdel hadd) htrimmed).mono ?_
      fun _ h => h
    rintro - b' ⟨htrimmed', -⟩
    exact ⟨created, folders, hcreated, hdrawn, hfolders, htrimmed'⟩
  · rw [rebuild, Action.ends_bind]
    refine Action.ends_iff.mpr ⟨fun _ created hcreated => ?_, fun _ _ _ => trivial⟩
    have hdrawn := Builder.drawn_of_addProject hd hb hcreated
    rw [Action.ends_bind]
    refine (ends_cut r hdrawn.sound.tidy.grouped).mono (fun _ b₃ hcut => ?_) fun _ h => h
    refine hcut.mono ?_ fun _ h => h
    rintro - b' ⟨found, folders, hfound, hfolders, hsifted⟩
    exact ⟨created, folders, hcreated, hdrawn, hfolders,
      .of_sifted hdrawn rfl (.refl _) hfound hsifted⟩

end Review
end CodeAtlas
