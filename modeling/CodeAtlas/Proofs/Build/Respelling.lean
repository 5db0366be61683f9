import CodeAtlas.Proofs.Build.Update
import CodeAtlas.Proofs.Server.Spelling

namespace CodeAtlas
open Server CodeAtlas.Path

/-- Two builds that have come to the same atlas, each with servers that answer from tables. -/
structure Builder.Twins (a a' : Answers) (b b' : Builder) : Prop where
  atlas : b.atlas = b'.atlas
  left : b.servers.Ready a
  right : b'.servers.Ready a'

namespace Builder
variable {a a' : Answers} {p : Project}

theorem agrees_onAtlas {α : Type} (act : Action Atlas α) :
    Action.Agrees (Twins a a') (onAtlas act) := by
  intro b b' h
  rw [onAtlas, Action.perform_zoom, Action.perform_zoom, h.atlas]
  exact ⟨rfl, rfl, h.left, h.right⟩

theorem agrees_graph : Action.Agrees (Twins a a') graph :=
  Action.agrees_read (fun b : Builder => b.atlas.graph) (fun _ _ h => by rw [h.atlas])
    fun _ => Action.agrees_pure _

theorem agrees_table : Action.Agrees (Twins a a') table :=
  Action.agrees_read (fun b : Builder => b.atlas.table) (fun _ _ h => by rw [h.atlas])
    fun _ => Action.agrees_pure _

theorem agrees_announce (d : Disk) (file : ProjectFile) :
    Action.Agrees (Twins a a') (announce d file) := by
  have htold : Action.Agrees (Twins a a') (onServers (Servers.announce d file)).outcome := by
    intro b b' h
    obtain ⟨servers, hperform, hready⟩ := h.left.announce d file
    obtain ⟨servers', hperform', hready'⟩ := h.right.announce d file
    rw [Action.perform_outcome, Action.perform_outcome, onServers, Action.perform_zoom,
      Action.perform_zoom, hperform, hperform']
    exact ⟨rfl, h.atlas, hready, hready'⟩
  refine Action.agrees_bind htold fun result => ?_
  split
  · exact Action.agrees_pure _
  · exact Action.agrees_pure _
  · exact Action.agrees_throw _

theorem agrees_folderNode (e : Option Environment) (parent : Option NodeKey) (f : Subfolder) :
    Action.Agrees (Twins a a') (folderNode e parent f) := by
  refine Action.agrees_bind agrees_graph fun g => ?_
  split
  · exact Action.agrees_ofExcept _
  · exact Action.agrees_bind (agrees_onAtlas _) fun key =>
      Action.agrees_bind (agrees_onAtlas _) fun _ => Action.agrees_pure _

theorem agrees_addFile (folder : NodeKey) (file : ProjectFile) :
    Action.Agrees (Twins a a') (addFile p folder file) :=
  Action.agrees_bind (agrees_announce _ _) fun _ =>
    Action.agrees_bind (agrees_onAtlas _) fun _ =>
    Action.agrees_bind (agrees_onAtlas _) fun _ =>
    Action.agrees_bind agrees_table fun _ =>
    Action.agrees_bind (Action.agrees_ofExcept _) fun _ =>
    Action.agrees_bind (agrees_onAtlas _) fun _ => agrees_onAtlas _

theorem agrees_addFolder (f : Folder) : Action.Agrees (Twins a a') (addFolder p f) :=
  Action.agrees_bind (agrees_folderNode _ _ _) fun _ =>
    Action.agrees_bind (Action.agrees_mapM fun _ _ => agrees_folderNode _ _ _) fun _ =>
    Action.agrees_bind (agrees_onAtlas _) fun _ =>
    Action.agrees_bind (agrees_onAtlas _) fun _ =>
    Action.agrees_forM fun _ _ => agrees_addFile _ _

/-- The first part of a build does not depend on what the servers know. -/
theorem agrees_addProject (p : Project) : Action.Agrees (Twins a a') (addProject p) := by
  refine Action.agrees_bind (Action.agrees_forM fun f _ => agrees_addFolder f) fun _ => ?_
  split
  · exact Action.agrees_throw _
  · exact fun b b' h => ⟨rfl, h.atlas, h.left, h.right⟩

end Builder

namespace Atlas
variable {a a' : Answers} {m m' part part' : Atlas}

/-- Which nodes a filter keeps does not depend on the graph. -/
theorem agrees_keepNodes (paths : Json) (keys : List NodeKey) (kept : Graph) :
    Action.Agrees (fun m m' : Atlas => m.table = m'.table) (keepNodes paths keys kept) := by
  induction keys generalizing kept with
  | nil => exact Action.agrees_pure _
  | cons key keys ih =>
    refine Action.agrees_read Atlas.table (fun _ _ h => h)
      (f := fun t => Action.ofExcept (t.standsAt paths key) >>= _) fun t => ?_
    refine Action.agrees_bind (Action.agrees_ofExcept _) fun stands => ?_
    split
    · refine Action.agrees_bind (fun m m' h => ?_) fun _ => ?_
      · rw [onTable, Action.perform_zoom, Action.perform_zoom, h]
        exact ⟨rfl, rfl⟩
      · refine Action.agrees_read Atlas.table (fun _ _ h => h)
          (f := fun t => Action.ofExcept (kept.add t key) >>= _) fun t => ?_
        exact Action.agrees_bind (Action.agrees_ofExcept _) ih
    · exact ih kept

theorem ends_filter_kept (paths : Json) (m : Atlas) : (filter paths).Ends m
    (fun _ part => ∃ kept m₁ references,
      (keepNodes paths (Assoc.values m.graph.nodes) {}).perform m = (.ok kept, m₁) ∧
      m₁.graph.references.filterM (touches m₁.table paths) = .ok references ∧
      part = { m₁ with graph := kept.addReferences references }) (fun _ => True) := by
  rw [filter, Action.ends_bind, Action.ends_get, Action.ends_bind]
  refine Action.ends_iff.mpr ⟨fun kept m₁ hkept => ?_, fun _ _ _ => trivial⟩
  rw [Action.ends_bind, Action.ends_get, Action.ends_bind]
  refine Action.ends_ofExcept (fun references hreferences => ?_) trivial
  exact Action.ends_set.mpr ⟨kept, m₁, references, hkept, hreferences, rfl⟩

/-- Atlases with the same nodes are filtered to atlases with the same nodes. -/
theorem filter_nodes_congr {paths : Json} (htable : m.table = m'.table)
    (hnodes : m.graph.nodes = m'.graph.nodes) (h : (filter paths).perform m = (.ok (), part))
    (h' : (filter paths).perform m' = (.ok (), part')) :
    part.table = part'.table ∧ part.graph.nodes = part'.graph.nodes := by
  obtain ⟨kept, m₁, references, hkept, -, rfl⟩ := (ends_filter_kept ..).of_ok h
  obtain ⟨kept', m₁', references', hkept', -, rfl⟩ := (ends_filter_kept ..).of_ok h'
  obtain ⟨hresult, hsame⟩ :=
    agrees_keepNodes paths (Assoc.values m.graph.nodes) {} m m' htable
  rw [hkept, hnodes, hkept'] at hresult hsame
  cases hresult
  exact ⟨hsame, rfl⟩

theorem exists_touches {t : NodeTable} {r : Relationship} {n n' : Node}
    (hstart : t.get? r.start = some n) (hstop : t.get? r.stop = some n') (items : List Json) :
    ∃ answer, touches t (.arr items) r = .ok answer := by
  rw [touches, NodeTable.standsAt, NodeTable.standsAt, NodeTable.node_eq_ok.mpr hstart,
    NodeTable.node_eq_ok.mpr hstop]
  change ∃ answer, (if items.any (Json.str n.path).same then pure true
    else .ok (items.any (Json.str n'.path).same)) = Except.ok answer
  split <;> exact ⟨_, rfl⟩

/-- If one of two atlases with the same nodes can be filtered, so can the other, unless it has
references from or to nowhere. -/
theorem isOk_filter_congr {items : List Json} (ht : m.table.Grouped) (htable : m'.table = m.table)
    (hnodes : m'.graph.nodes = m.graph.nodes)
    (hends : ∀ r ∈ m'.graph.references, ∃ n n', m.table.get? r.start = some n ∧
      m.table.get? r.stop = some n')
    (h : (filter (.arr items)).perform m = (.ok (), part)) :
    ((filter (.arr items)).perform m').1.isOk = true := by
  obtain ⟨kept, m₁, -, hkept, -, -⟩ := (ends_filter_kept ..).of_ok h
  obtain ⟨hresult, hsame⟩ :=
    agrees_keepNodes (.arr items) (Assoc.values m.graph.nodes) {} m' m htable
  rw [hkept] at hresult hsame
  rcases hkept' : (keepNodes (.arr items) (Assoc.values m.graph.nodes) {}).perform m' with
    ⟨result, m₁'⟩
  rw [hkept'] at hresult hsame
  cases hresult
  obtain ⟨hk, -⟩ := (ends_keepNodes (htable ▸ ht)).of_ok hkept'
  have hreferences : ∀ r ∈ m'.graph.references, ∃ answer,
      touches m₁'.table (.arr items) r = .ok answer := by
    intro r hr
    obtain ⟨n, n', hstart, hstop⟩ := hends r hr
    rw [← htable] at hstart hstop
    obtain ⟨k, hk₁⟩ := hk.pruned.node hstart
    obtain ⟨k', hk₂⟩ := hk.pruned.node hstop
    exact exists_touches hk₁ hk₂ items
  rw [filter, Action.perform_bind, Action.perform_get]
  dsimp only
  rw [hnodes, Action.perform_bind_of_ok hkept', Action.perform_bind, Action.perform_get]
  dsimp only
  rw [hk.graph, Outcome.filterM_eq_ok.mpr ⟨hreferences, rfl⟩]
  rfl

/-- The spelling of URIs does not matter for the relationships into a file. -/
theorem relationshipsInto_congr (h : a.decoded = a'.decoded) (m : Atlas) :
    m.relationshipsInto a = m.relationshipsInto a' := by
  have hto : m.relationshipsTo a = m.relationshipsTo a' := by
    funext key
    rw [relationshipsTo, relationshipsTo, Answers.placesOf_congr h]
  funext file
  rw [relationshipsInto, relationshipsInto, hto]

/-- It does not matter for whether the definitions can be looked up either. -/
theorem isOk_addUsed_congr (h : a.decoded = a'.decoded) (m : Atlas) (key : NodeKey)
    (known known' : List Json) :
    (m.addUsed a known key).isOk = (m.addUsed a' known' key).isOk := by
  have hadd : ∀ (known : List Json) path, (Review.addPath known path).isOk = path.isKey := by
    intro known path
    rw [Review.addPath]
    cases path.isKey <;> rfl
  have hstep : ∀ place (known known' : List Json),
      (a.definitionOf place >>= Review.addPath known).isOk =
        (a'.definitionOf place >>= Review.addPath known').isOk := by
    intro place known known'
    have hsame : Json.decodedUri <$> a.definitionOf place =
        Json.decodedUri <$> a'.definitionOf place := by
      rw [← Answers.definitionOf_decoded, h, Answers.definitionOf_decoded]
    cases hpath : a.definitionOf place <;> cases hpath' : a'.definitionOf place <;>
      rw [hpath, hpath'] at hsame
    · rfl
    · cases hsame
    · cases hsame
    · rename_i path path'
      change (Review.addPath known path).isOk = (Review.addPath known' path').isOk
      rw [hadd, hadd, ← Json.isKey_decodedUri path, Except.ok.inj hsame, Json.isKey_decodedUri]
  rw [addUsed, addUsed]
  cases m.table.uses key with
  | error fault => rfl
  | ok places => exact Outcome.isOk_foldlM_congr (fun place _ => hstep place) known known'

end Atlas

namespace Review
variable {a a' : Answers} {m : Atlas} {p : Project} {paths : List String}

theorem exists_filesAt {values : List Json} (h : ∀ v ∈ values, v.isKey = true) (g : Graph) :
    ∃ keys, filesAt g values = .ok keys := by
  obtain ⟨names, hnames⟩ := Outcome.exists_mapM_eq_ok (f := Json.toKey) fun v hv =>
    show ∃ name, v.toKey = .ok name by
      rw [Json.toKey.eq_def]
      split
      · exact ⟨_, rfl⟩
      · exact ⟨_, if_pos (h v hv)⟩
  exact ⟨_, Outcome.bind_eq_ok.mpr ⟨names, hnames, rfl⟩⟩

/-- With tables that differ in spelling, both can tell which files to look into, or neither can. -/
theorem exists_filesFor_congr (ha : a.decoded = a'.decoded) {files : List NodeKey}
    (h : m.filesFor a (ofUpdate p (paths.map .str)) = .ok files) :
    ∃ files', m.filesFor a' (ofUpdate p (paths.map .str)) = .ok files' := by
  simp only [Atlas.filesFor, Outcome.bind_eq_ok, Outcome.pure_eq_ok] at h ⊢
  obtain ⟨changed, hchanged, used, hused, -, -, -⟩ := h
  obtain ⟨used', hused'⟩ : ∃ used', changed.foldlM (m.addUsed a') [] = .ok used' := by
    rw [← Outcome.isOk_iff, ← Outcome.isOk_foldlM_congr
      (fun key _ => Atlas.isOk_addUsed_congr ha m key) [] [], Outcome.isOk_iff]
    exact ⟨used, hused⟩
  have hkeys := (adds_addUsed hused').2.keys (by simp)
  obtain ⟨others, hothers⟩ := exists_filesAt
    (fun v hv => hkeys v (List.mem_filter.mp hv).1) m.graph
  exact ⟨_, changed, hchanged, used', hused', others, hothers, rfl⟩

/-- If the same files are used by both tables, both find relationships, or neither does. -/
theorem exists_relationshipsFor_congr (ha : a.decoded = a'.decoded)
    (hused : ∀ uri, (m.graph.fileAt? uri).isSome → uri ∉ paths →
      (uri ∈ m.usedBy a paths ↔ uri ∈ m.usedBy a' paths)) {found : List Relationship}
    (h : m.relationshipsFor a (ofUpdate p (paths.map .str)) = .ok found) :
    ∃ found', m.relationshipsFor a' (ofUpdate p (paths.map .str)) = .ok found' := by
  obtain ⟨files, hfiles, hall⟩ := Outcome.bind_eq_ok.mp h
  obtain ⟨groups, hgroups, -⟩ := Atlas.relationshipsIntoAll_eq_ok.mp hall
  obtain ⟨files', hfiles'⟩ := exists_filesFor_congr ha hfiles
  obtain ⟨others, -, -, hothers, rfl⟩ := filesFor_eq_ok hfiles
  obtain ⟨others', -, -, hothers', hfiles'_eq⟩ := filesFor_eq_ok hfiles'
  have hinto : ∀ key ∈ files', ∃ group, m.relationshipsInto a' key = .ok group := by
    intro key hkey
    rw [hfiles'_eq, List.mem_filterMap] at hkey
    obtain ⟨uri, huri, hat⟩ := hkey
    have hmem : key ∈ (paths ++ others).filterMap m.graph.fileAt? := by
      refine List.mem_filterMap.mpr ⟨uri, ?_, hat⟩
      rw [List.mem_append] at huri ⊢
      refine huri.imp_right fun hnew => ?_
      obtain ⟨hu, hnot⟩ := (hothers' uri).mp hnew
      exact (hothers uri).mpr ⟨(hused uri (by rw [hat]; rfl) hnot).mpr hu, hnot⟩
    rw [← Atlas.relationshipsInto_congr ha]
    exact Outcome.exists_of_mapM_eq_ok hgroups hmem
  obtain ⟨groups', hgroups'⟩ := Outcome.exists_mapM_eq_ok hinto
  exact ⟨_, Outcome.bind_eq_ok.mpr ⟨files', hfiles',
    Atlas.relationshipsIntoAll_eq_ok.mpr ⟨groups', hgroups', rfl⟩⟩⟩

end Review

/-- The paths at which an update keeps what stands there: the folders that it finds above its own
paths, and these. -/
def Review.keptPaths (p : Project) (paths : List String) : List String :=
  (Environment.parentsOfAll p.environment (paths.map .str)).toOption.getD [] ++ paths

/-- The relationships into the file at a path that touch something at given paths, by the tables. -/
def Atlas.intoTouching (a : Answers) (m : Atlas) (paths : List String) (uri : String) :
    List Relationship :=
  (((m.graph.fileAt? uri).bind fun file => (m.relationshipsInto a file).toOption).getD []).filter
    fun r => m.table.isAt paths.contains r.start || m.table.isAt paths.contains r.stop

/-- Lists of keys whose items can be told apart are the same up to order if each key with items is
in both or in neither. -/
theorem flatMap_perm_iff {α β : Type} {f : α → List β} (hf : ∀ x x' y, y ∈ f x → y ∈ f x' → x = x')
    {xs xs' : List α} (hxs : xs.Nodup) (hxs' : xs'.Nodup) :
    (xs.flatMap f).Perm (xs'.flatMap f) ↔ ∀ x, f x ≠ [] → (x ∈ xs ↔ x ∈ xs') := by
  constructor
  · intro hperm x hx
    obtain ⟨y, hy⟩ := List.exists_mem_of_ne_nil _ hx
    have hmem : ∀ {ys : List α}, x ∈ ys ↔ y ∈ ys.flatMap f := by
      intro ys
      rw [List.mem_flatMap]
      refine ⟨fun h => ⟨x, h, hy⟩, ?_⟩
      rintro ⟨x', hx', hy'⟩
      exact hf x x' y hy hy' ▸ hx'
    rw [hmem, hmem, hperm.mem_iff]
  · intro hsame
    have hpart : ∀ ys : List α, ys.flatMap f = (ys.filter fun x => !(f x).isEmpty).flatMap f := by
      intro ys
      refine (flatMap_filter_eq fun x _ => ?_).symm
      cases f x <;> rfl
    rw [hpart xs, hpart xs']
    refine List.Perm.flatMap_right _ ?_
    rw [List.perm_ext_iff_of_nodup (hxs.filter _) (hxs'.filter _)]
    intro x
    rw [List.mem_filter, List.mem_filter]
    refine and_congr_left fun hx => hsame x ?_
    simpa using hx

section
variable {a a' : Answers} {m : Atlas} {p : Project} {paths : List String}

theorem Surroundings.Chart.intoTouching_apart {c : Surroundings} {files : List ProjectFile}
    (hc : c.Chart files m) (kept : List String) {uri uri' : String} {r : Relationship}
    (hr : r ∈ m.intoTouching a kept uri) (hr' : r ∈ m.intoTouching a kept uri') : uri = uri' := by
  -- a relationship ends in the file that it was found for
  have hstop : ∀ {uri}, r ∈ m.intoTouching a kept uri → ∀ kind,
      m.table.isAt kind r.stop = kind uri := by
    intro uri hr kind
    rw [Atlas.intoTouching, List.mem_filter] at hr
    obtain ⟨hr, -⟩ := hr
    cases hfile : m.graph.fileAt? uri with
    | none => simp [hfile] at hr
    | some file =>
      cases hinto : m.relationshipsInto a file with
      | error fault => simp [hfile, hinto, Except.toOption] at hr
      | ok found =>
        have hmem : r ∈ found := by simpa [hfile, hinto, Except.toOption] using hr
        obtain ⟨n, hn, rfl, -⟩ := hc.indexed.file_at hfile
        exact (hc.ends_of_mem_into hinto hn hmem).1 kind
  have hsame := (hstop hr (· == uri')).symm.trans (hstop hr' (· == uri'))
  simpa using hsame

/-- What an update finds and keeps, file by file. -/
theorem Atlas.filter_found_eq {others kept : List String} {groups : List (List Relationship)}
    (hgroups : ((paths ++ others).filterMap m.graph.fileAt?).mapM (m.relationshipsInto a) =
      .ok groups) :
    (groups.flatten.filter fun r =>
        m.table.isAt kept.contains r.start || m.table.isAt kept.contains r.stop) =
      paths.flatMap (m.intoTouching a kept) ++ others.flatMap (m.intoTouching a kept) := by
  rw [Outcome.flatten_of_mapM_eq_ok hgroups, List.filterMap_eq_flatMap_toList, List.flatMap_assoc,
    List.filter_flatMap, ← List.flatMap_append]
  refine congrArg (List.flatMap · _) (funext fun uri => ?_)
  rw [Atlas.intoTouching]
  cases m.graph.fileAt? uri <;> simp

/-- An update keeps what touches the paths that it keeps. -/
theorem Review.stands_eq {folders : List String}
    (hfolders : Environment.parentsOfAll p.environment (paths.map .str) = .ok folders)
    (key : NodeKey) : m.table.stands (.arr (folders.map .str ++ paths.map .str)) key =
      m.table.isAt (keptPaths p paths).contains key := by
  rw [keptPaths, hfolders, ← List.map_append]
  cases hn : m.table.get? key with
  | none => rw [NodeTable.stands_of_none hn, NodeTable.isAt, hn, Option.any_none]
  | some n =>
    rw [NodeTable.stands_of_get? hn, NodeTable.isAt_of_get? hn, Bool.eq_iff_iff, Json.any_same_str,
      Json.texts_map_str]
    simp [Except.toOption]

variable {c : Surroundings} {files : List ProjectFile} {b b' : Builder}

/-- What an update finds begins and ends at nodes. -/
theorem Surroundings.Chart.exists_ends (hc : c.Chart files m) {found : List Relationship}
    (hfound : m.relationshipsFor a (Review.ofUpdate p (paths.map .str)) = .ok found)
    {r : Relationship} (hr : r ∈ found) :
    ∃ n n', m.table.get? r.start = some n ∧ m.table.get? r.stop = some n' := by
  obtain ⟨others, groups, -, -, -, hgroups, rfl⟩ := Review.relationshipsFor_eq_ok hfound
  obtain ⟨group, hgroup, hr⟩ := List.mem_flatten.mp hr
  obtain ⟨file, hfile, hinto⟩ := Outcome.mem_of_mapM_eq_ok hgroups hgroup
  obtain ⟨uri, -, hfile⟩ := List.mem_filterMap.mp hfile
  obtain ⟨n, hn, -, -⟩ := hc.indexed.file_at hfile
  obtain ⟨hstop, _, _, -, hstart⟩ := hc.ends_of_mem_into hinto hn hr
  obtain ⟨start, hgetstart, -⟩ := NodeTable.isAt_iff.mp (hstart fun _ => true)
  obtain ⟨stop, hgetstop, -⟩ := NodeTable.isAt_iff.mp (hstop fun _ => true)
  exact ⟨start, stop, hgetstart, hgetstop⟩

/-- An update succeeds if its parts do. -/
theorem Review.isOk_rebuild (hs : b.servers.Ready a)
    (hm : ((Builder.addProject p).perform b).2.atlas = m)
    (hproject : ((Builder.addProject p).perform b).1.isOk = true) {found : List Relationship}
    (hfound : m.relationshipsFor a (ofUpdate p (paths.map .str)) = .ok found)
    {folders : List String}
    (hfolders : Environment.parentsOfAll p.environment (paths.map .str) = .ok folders)
    (hfilter : ((Atlas.filter (.arr (folders.map .str ++ paths.map .str))).perform
      { m with graph := m.graph.addReferences found }).1.isOk = true) :
    ((ofUpdate p (paths.map .str)).rebuild.perform b).1.isOk = true := by
  obtain ⟨b₁, hb₁⟩ := Action.exists_of_isOk hproject
  have h₁ : b₁.Settled a m := Builder.settled_addProject hs hm (by rw [hb₁])
  obtain ⟨b₂, hb₂, hsettled⟩ := perform_addReferences h₁ (ofUpdate p (paths.map .str))
  have hb₂ : (ofUpdate p (paths.map .str)).addReferences.perform b₁ = (.ok (), b₂) := by
    rw [hb₂, hfound]
    rfl
  have hkeep : (ofUpdate p (paths.map .str)).keepChanged =
      Builder.onAtlas (Atlas.filter (.arr (folders.map .str ++ paths.map .str))) := by
    have hfolders' : Environment.parentsOfAll (ofUpdate p (paths.map .str)).project.environment
        (paths.map .str) = .ok folders := hfolders
    rw [keepChanged, remaining_ofUpdate, hfolders']
    rfl
  rw [rebuild, Action.perform_bind_of_ok (x := Builder.addProject (ofUpdate p _).project) hb₁,
    Action.perform_bind_of_ok hb₂, hkeep, Builder.onAtlas, Action.perform_zoom,
    (hsettled found hfound).atlas]
  exact hfilter

/-- With tables that differ in spelling, an update succeeds with both if it succeeds with one and
the same files are used by both. -/
theorem Review.isOk_rebuild_congr (hc : c.Chart files m) (ha : a.decoded = a'.decoded)
    (hs : b.servers.Ready a) (hs' : b'.servers.Ready a')
    (hm : ((Builder.addProject p).perform b).2.atlas = m)
    (hm' : ((Builder.addProject p).perform b').2.atlas = m)
    (hsame : ((Builder.addProject p).perform b).1 = ((Builder.addProject p).perform b').1)
    (hused : ∀ uri, (m.graph.fileAt? uri).isSome → uri ∉ paths →
      (uri ∈ m.usedBy a paths ↔ uri ∈ m.usedBy a' paths))
    (hok : ((ofUpdate p (paths.map .str)).rebuild.perform b).1.isOk = true) :
    ((ofUpdate p (paths.map .str)).rebuild.perform b').1.isOk = true := by
  obtain ⟨part, hpart⟩ := Action.exists_of_isOk hok
  obtain ⟨hproject, found, folders, hfound, hfolders, hfilter⟩ :=
    (ends_rebuild_found hs hm paths).of_ok hpart
  obtain ⟨found', hfound'⟩ := exists_relationshipsFor_congr ha hused hfound
  refine isOk_rebuild hs' hm' (hsame ▸ hproject) hfound' hfolders ?_
  refine Atlas.isOk_filter_congr (m := { m with graph := m.graph.addReferences found })
    hc.tidy.grouped rfl rfl (fun r hr => ?_) hfilter
  simp only [Graph.addReferences, hc.references, List.nil_append] at hr
  exact hc.exists_ends hfound' hr

/-- The relationships of an update: those of its members, and, file by file, the references into its
paths and into the files that define what its paths use. -/
theorem Review.ends_rebuild_references (hc : c.Chart files m) (hs : b.servers.Ready a)
    (hm : ((Builder.addProject p).perform b).2.atlas = m) (paths : List String) :
    (ofUpdate p (paths.map .str)).rebuild.Ends b
      (fun _ part => (∃ inner, (Assoc.values part.atlas.graph.nodes).mapM
          part.atlas.table.relationships = .ok inner) ∧
        ∃ others : List String, others.Nodup ∧
          (∀ uri, uri ∈ others ↔ uri ∈ m.usedBy a paths ∧ uri ∉ paths) ∧
          part.atlas.graph.references = paths.flatMap (m.intoTouching a (keptPaths p paths)) ++
            others.flatMap (m.intoTouching a (keptPaths p paths)))
      (fun _ => True) := by
  refine (ends_rebuild_found hs hm paths).mono ?_ fun _ h => h
  rintro _ part ⟨-, found, folders, hfound, hfolders, hfilter⟩
  obtain ⟨others, groups, hnodup, -, hothers, hgroups, rfl⟩ := relationshipsFor_eq_ok hfound
  have hpart := ((Atlas.ends_filter
    (m := { m with graph := m.graph.addReferences groups.flatten }) hc.tidy.grouped).of_ok
    hfilter).partAt hc.indexed.ids_nodup fun e he => hc.indexed.id he
  refine ⟨?_, others, hnodup, hothers, ?_⟩
  · obtain ⟨all, hall⟩ := hc.exists_relationships
    obtain ⟨inner, hinner, -⟩ := Atlas.mapM_relationships hpart.pruned hpart.members hall
    rw [hpart.nodes]
    exact ⟨inner, hinner⟩
  · have hreferences := hpart.references
    simp only [Graph.addReferences, hc.references, List.nil_append, stands_eq hfolders]
      at hreferences
    rw [hreferences, Atlas.filter_found_eq hgroups]

/-- Two updates with tables that differ in the spelling of URIs. If the files that define what the
updated files use are named by both tables, both succeed or both fail. If both succeed, they come
to the same nodes, and to the same relationships up to order exactly if each file that is not
updated itself, and into which the updates would keep relationships, is named as used by both
tables or by neither. -/
theorem respelled_updates_agree_iff (hd : p.workspace.disk.Proper) (paths : List String)
    (ha : a.decoded = a'.decoded) (hb : b.atlas = {}) (hb' : b'.atlas = {})
    (hs : b.servers.Ready a) (hs' : b'.servers.Ready a') :
    let m := ((Builder.addProject p).perform b).2.atlas
    let run := (Review.ofUpdate p (paths.map .str)).rebuild.perform b
    let run' := (Review.ofUpdate p (paths.map .str)).rebuild.perform b'
    ((∀ uri, (m.graph.fileAt? uri).isSome → uri ∉ paths →
        (uri ∈ m.usedBy a paths ↔ uri ∈ m.usedBy a' paths)) → run.1.isOk = run'.1.isOk) ∧
      ∀ part part', run = (.ok (), part) → run' = (.ok (), part') →
        part.atlas.table = part'.atlas.table ∧
        part.atlas.graph.nodes = part'.atlas.graph.nodes ∧
        ∃ rels rels', part.atlas.graph.relationships part.atlas.table = .ok rels ∧
          part'.atlas.graph.relationships part'.atlas.table = .ok rels' ∧
          (rels.Perm rels' ↔ ∀ uri ∉ paths, m.intoTouching a (Review.keptPaths p paths) uri ≠ [] →
            (uri ∈ m.usedBy a paths ↔ uri ∈ m.usedBy a' paths)) := by
  obtain ⟨m, hm⟩ : ∃ m, ((Builder.addProject p).perform b).2.atlas = m := ⟨_, rfl⟩
  obtain ⟨hsame, hafter⟩ := Builder.agrees_addProject p b b' ⟨hb.trans hb'.symm, hs, hs'⟩
  have hm' : ((Builder.addProject p).perform b').2.atlas = m := hafter.atlas.symm.trans hm
  obtain ⟨c, -, hc⟩ := Builder.exists_chart hd hb
  rw [hm] at hc ⊢
  refine ⟨fun hused => ?_, fun part part' hpart hpart' => ?_⟩
  · rw [Bool.eq_iff_iff]
    exact ⟨Review.isOk_rebuild_congr hc ha hs hs' hm hm' hsame hused,
      Review.isOk_rebuild_congr hc ha.symm hs' hs hm' hm hsame.symm fun uri hfile hnot =>
        (hused uri hfile hnot).symm⟩
  · obtain ⟨-, found, folders, hfound, hfolders, hfilter⟩ :=
      (Review.ends_rebuild_found hs hm paths).of_ok hpart
    obtain ⟨-, found', folders', -, hfolders', hfilter'⟩ :=
      (Review.ends_rebuild_found hs' hm' paths).of_ok hpart'
    cases hfolders.symm.trans hfolders'
    obtain ⟨htable, hnodes⟩ := Atlas.filter_nodes_congr (by rfl) (by rfl) hfilter hfilter'
    obtain ⟨⟨inner, hinner⟩, others, hnodup, hothers, hreferences⟩ :=
      (Review.ends_rebuild_references hc hs hm paths).of_ok hpart
    obtain ⟨⟨inner', hinner'⟩, others', hnodup', hothers', hreferences'⟩ :=
      (Review.ends_rebuild_references hc hs' hm' paths).of_ok hpart'
    have hsame : inner' = inner := by
      rw [← htable, ← hnodes, hinner] at hinner'
      exact (Except.ok.inj hinner').symm
    have hinto : m.intoTouching a' = m.intoTouching a := by
      funext kept uri
      rw [Atlas.intoTouching, Atlas.intoTouching, Atlas.relationshipsInto_congr ha]
    refine ⟨htable, hnodes, _, _, Graph.relationships_eq hinner, Graph.relationships_eq hinner', ?_⟩
    rw [hsame, hreferences, hreferences', hinto, List.perm_append_left_iff,
      List.perm_append_left_iff, flatMap_perm_iff
        (fun _ _ _ hr hr' => hc.intoTouching_apart _ hr hr') hnodup hnodup']
    refine forall_congr' fun uri => ⟨fun h hnot hne => ?_, fun h hne => ?_⟩
    · simpa only [hothers, hothers', hnot, not_false_eq_true, and_true] using h hne
    · rw [hothers, hothers']
      exact and_congr_left fun hnot => h hnot hne

end

namespace TwoFiles

/-- The tables of servers that know of the plain call, with the URIs of the two files as given. -/
def spelled (user library : String) : Answers where
  references := [⟨.str "file:///r/a.js", mark 9, nameAt user 0⟩]
  definitions := [⟨.str "file:///r/b.js", mark 0, nameAt library 9⟩]

def startWith (a : Answers) : Builder :=
  { servers := (Servers.start.perform (Servers.make (.str "/r") (.str "localhost") (.int 5000)
      a.reply)).2 }

def updateWith (a : Answers) : Except Fault Unit × Builder :=
  (Review.ofUpdate (project plain "/r") (["file:///r/b.js"].map .str)).rebuild.perform (startWith a)

theorem ready_startWith (a : Answers) : (startWith a).servers.Ready a := by
  obtain ⟨servers, hstart, hready⟩ := Servers.ready_start (.str "/r") (.str "localhost")
    (.int 5000) a
  rw [startWith, hstart]
  exact hready

theorem decoded_spelled (user library : String) : (spelled user library).decoded =
    spelled (Text.Percent.decode user) (Text.Percent.decode library) :=
  rfl

/-- The URI of the file with the call may be spelled as one likes. -/
theorem call_found_respelled : ∃ part part',
    updateWith (spelled "file:///r/b.js" "file:///r/a.js") = (.ok (), part) ∧
    updateWith (spelled "file:///r/b%2Ejs" "file:///r/a.js") = (.ok (), part') ∧
    part.atlas.graph.nodes = part'.atlas.graph.nodes ∧
    ∃ rels rels', part.atlas.graph.relationships part.atlas.table = .ok rels ∧
      part'.atlas.graph.relationships part'.atlas.table = .ok rels' ∧ rels.Perm rels' := by
  have hspelled : (spelled "file:///r/b.js" "file:///r/a.js").decoded =
      (spelled "file:///r/b%2Ejs" "file:///r/a.js").decoded := by
    have huser : Text.Percent.decode "file:///r/b.js" = Text.Percent.decode "file:///r/b%2Ejs" := by
      decide +kernel
    rw [decoded_spelled, decoded_spelled, huser]
  have hok : (updateWith (spelled "file:///r/b.js" "file:///r/a.js")).1.isOk = true := by
    decide +kernel
  obtain ⟨hsame, hagree⟩ := respelled_updates_agree_iff (proper_disk plain "/r")
    ["file:///r/b.js"] hspelled rfl rfl (ready_startWith _) (ready_startWith _)
  have hused : ∀ (m : Atlas) (uri : String),
      uri ∈ m.usedBy (spelled "file:///r/b.js" "file:///r/a.js") ["file:///r/b.js"] ↔
        uri ∈ m.usedBy (spelled "file:///r/b%2Ejs" "file:///r/a.js") ["file:///r/b.js"] :=
    fun _ _ => Iff.rfl
  have hok' := (hsame fun uri _ _ => hused _ uri).symm.trans hok
  obtain ⟨part, hpart⟩ := Action.exists_of_isOk hok
  obtain ⟨part', hpart'⟩ := Action.exists_of_isOk hok'
  obtain ⟨-, hnodes, rels, rels', hrels, hrels', hperm⟩ := hagree part part' hpart hpart'
  exact ⟨part, part', hpart, hpart', hnodes, rels, rels', hrels, hrels',
    hperm.mpr fun uri _ _ => hused _ uri⟩

/-- If the URI of the file with the function is spelled with an escape, the call is lost. -/
theorem call_lost_respelled :
    (spelled "file:///r/b.js" "file:///r/a.js").decoded =
      (spelled "file:///r/b.js" "file:///r/a%2Ejs").decoded ∧
    (updateWith (spelled "file:///r/b.js" "file:///r/a.js")).1.isOk = true ∧
    (updateWith (spelled "file:///r/b.js" "file:///r/a%2Ejs")).1.isOk = true ∧
    ((updateWith (spelled "file:///r/b.js" "file:///r/a.js")).2.atlas.graph.references.map
      Relationship.type) = [.calls] ∧
    (updateWith (spelled "file:///r/b.js" "file:///r/a%2Ejs")).2.atlas.graph.references.map
      Relationship.type = [] := by
  refine ⟨?_, by decide +kernel⟩
  have hlibrary : Text.Percent.decode "file:///r/a.js" =
      Text.Percent.decode "file:///r/a%2Ejs" := by
    decide +kernel
  rw [decoded_spelled, decoded_spelled, hlibrary]

end TwoFiles
end CodeAtlas
