import CodeAtlas.Proofs.Build.Growth
import CodeAtlas.Proofs.Build.Uses
import CodeAtlas.Proofs.Graph.Family
import CodeAtlas.Proofs.Graph.Trail

namespace CodeAtlas
open NodeTable

theorem Json.agrees_str_iff {a : String} {value : Json} :
    (Json.str a).agrees value = true ↔ value = .str a := by
  rw [← Json.same_str_iff]
  simp [Json.same, Json.isUndefined]

namespace FileChange
variable {changes : List FileChange} {c c' : FileChange} {uri : String}

theorem mem_texts_paths {type : ChangeType} :
    uri ∈ Json.texts (paths changes type) ↔ ∃ c ∈ changes, c.type = type ∧ c.path = .str uri := by
  rw [Json.mem_texts, paths, List.mem_map]
  simp [and_assoc]

theorem mem_texts_remaining :
    uri ∈ Json.texts (remaining changes) ↔
      ∃ c ∈ changes, c.type ≠ .deleted ∧ c.path = .str uri := by
  rw [remaining, Json.texts_append, List.mem_append, mem_texts_paths, mem_texts_paths]
  constructor
  · rintro (⟨c, hc, htype, hpath⟩ | ⟨c, hc, htype, hpath⟩) <;>
      exact ⟨c, hc, by simp [htype], hpath⟩
  · rintro ⟨c, hc, htype, hpath⟩
    cases hkind : c.type with
    | added => exact Or.inl ⟨c, hc, hkind, hpath⟩
    | modified => exact Or.inr ⟨c, hc, hkind, hpath⟩
    | deleted => exact absurd hkind htype

theorem mem_texts_remaining_of_modified (h : uri ∈ Json.texts (paths changes .modified)) :
    uri ∈ Json.texts (remaining changes) := by
  rw [remaining, Json.texts_append]
  exact List.mem_append_right _ h

/-- If no path is changed twice, a path has one change. -/
theorem eq_of_path (h : (Json.texts (changes.map path)).Nodup) (hc : c ∈ changes)
    (hc' : c' ∈ changes) (hp : c.path = .str uri) (hp' : c'.path = .str uri) : c = c' := by
  induction changes with
  | nil => cases hc
  | cons first rest ih =>
    have hrest : ∀ {c}, c ∈ rest → c.path = .str uri → uri ∈ Json.texts (rest.map path) := by
      intro c hc hp
      exact Json.mem_texts.mpr (List.mem_map.mpr ⟨c, hc, hp⟩)
    have hsplit : Json.texts ((first :: rest).map path) =
        Json.texts [first.path] ++ Json.texts (rest.map path) := Json.texts_append [first.path] _
    rw [hsplit, List.nodup_append] at h
    obtain ⟨-, hnodup, hapart⟩ := h
    have hfirst : first.path = .str uri → uri ∈ Json.texts [first.path] := by
      intro hp
      simp [Json.mem_texts, hp]
    rcases List.mem_cons.mp hc with rfl | hmem
    · rcases List.mem_cons.mp hc' with rfl | hmem'
      · rfl
      · exact absurd rfl (hapart uri (hfirst hp) uri (hrest hmem' hp'))
    · rcases List.mem_cons.mp hc' with rfl | hmem'
      · exact absurd rfl (hapart uri (hfirst hp') uri (hrest hmem hp))
      · exact ih hnodup hmem hmem'

theorem ofPath_eq_ok (h : ofPath changes (.str uri) = .ok c) : c ∈ changes ∧ c.path = .str uri := by
  rw [ofPath] at h
  split at h
  · rename_i found hfound
    cases h
    have hagrees := List.find?_some hfound
    exact ⟨List.mem_of_find?_eq_some hfound, Json.agrees_str_iff.mp (by simpa using hagrees)⟩
  · cases h

theorem ofPath_of_mem (h : (Json.texts (changes.map path)).Nodup) (hc : c ∈ changes)
    (hp : c.path = .str uri) : ofPath changes (.str uri) = .ok c := by
  cases hfound : ofPath changes (.str uri) with
  | ok c' =>
    obtain ⟨hc', hp'⟩ := ofPath_eq_ok hfound
    rw [eq_of_path h hc hc' hp hp']
  | error fault =>
    have hagrees : (Json.str uri).agrees c.path = true := Json.agrees_str_iff.mpr hp
    rw [ofPath] at hfound
    split at hfound
    · cases hfound
    · rename_i hnone
      exact absurd hagrees (by simpa using List.find?_eq_none.mp hnone c hc)

theorem nodup_texts_remaining (h : (Json.texts (changes.map path)).Nodup) :
    (Json.texts (remaining changes)).Nodup := by
  have hpaths : ∀ type, (Json.texts (paths changes type)).Nodup := fun type =>
    h.sublist ((List.filter_sublist.map _).filterMap _)
  rw [remaining, Json.texts_append, List.nodup_append]
  refine ⟨hpaths _, hpaths _, ?_⟩
  rintro uri hadded _ hmodified rfl
  obtain ⟨c, hc, htype, hp⟩ := mem_texts_paths.mp hadded
  obtain ⟨c', hc', htype', hp'⟩ := mem_texts_paths.mp hmodified
  obtain rfl := eq_of_path h hc hc' hp hp'
  rw [htype] at htype'
  cases htype'

end FileChange

namespace Growth.Sound
variable {e : Option Environment} {t : NodeTable} {key m : NodeKey} {n : Node} {d : Definition}

/-- Every definition is in a file at its path. -/
theorem exists_file (h : Sound e ⟨[], t⟩) (hm : t.get? m = some n)
    (hd : n.content = .definition d) : ∃ key file d', t.get? key = some file ∧
      file.content = .definition d' ∧ d'.scope = .file ∧ file.path = n.path ∧ t.Under m key := by
  induction m using Nat.strongRecOn generalizing n d with
  | ind m ih =>
    cases h.lineage hm with
    | top content parent trail => cases content.symm.trans hd
    | entry above before folder content parent trail =>
      refine ⟨m, n, d, hm, hd, ?_, rfl, .refl⟩
      simpa [Node.containable, hd] using content
    | inner above before around path content scope parent trail =>
      obtain ⟨key, file, d', hfile, hd', hscope, hpath, hunder⟩ := ih _ before above around
      exact ⟨key, file, d', hfile, hd', hscope, hpath.trans path, .head ⟨n, hm, parent⟩ hunder⟩

/-- What stands below a definition is a definition at its path. -/
theorem definition_of_under (h : Sound e ⟨[], t⟩) (hkey : t.get? key = some n)
    (hd : n.content = .definition d) (hunder : t.Under m key) :
    ∃ n' d', t.get? m = some n' ∧ n'.content = .definition d' ∧ n'.path = n.path := by
  induction hunder using Relation.ReflTransGen.head_induction_on with
  | refl => exact ⟨n, d, hkey, hd, rfl⟩
  | head hchild _ ih =>
    obtain ⟨n', d', hn', hd', hpath⟩ := ih
    obtain ⟨member, hmember, hp⟩ := hchild
    cases h.lineage hmember with
    | top content parent trail => cases hp.symm.trans parent
    | entry above before folder content parent trail =>
      cases hp.symm.trans parent
      cases above.symm.trans hn'
      cases folder.symm.trans hd'
    | inner above before around path content scope parent trail =>
      cases hp.symm.trans parent
      cases above.symm.trans hn'
      exact ⟨member, _, hmember, content, path.symm.trans hpath⟩

end Growth.Sound

/-- What the first part of a build comes to: all files can be found, and there are no relationships
but those of members. -/
structure Atlas.Drawn (e : Option Environment) (a : Atlas) : Prop where
  sound : Growth.Sound e ⟨[], a.table⟩
  indexed : a.graph.Indexed a.table
  has_file : ∀ {key n}, a.table.get? key = some n → n.label = .file →
    a.graph.fileAt? n.path = some key
  references : a.graph.references = []
  external : a.external = []

theorem Atlas.Drawn.file_at {e : Option Environment} {a : Atlas} (h : a.Drawn e) {path : String}
    {key : NodeKey} (hkey : a.graph.fileAt? path = some key) :
    ∃ n d, a.table.get? key = some n ∧ n.content = .definition d ∧ d.scope = .file ∧
      n.path = path := by
  obtain ⟨n, hn, hpath, hlabel⟩ := h.indexed.file_at hkey
  obtain ⟨d, hd, hscope⟩ := (h.sound.lineage hn).scope_of_label hlabel
  exact ⟨n, d, hn, hd, hscope, hpath⟩

theorem Builder.drawn_of_addProject {p : Project} (hd : p.workspace.disk.Proper) {b b' : Builder}
    (hb : b.atlas = {}) (h : (Builder.addProject p).perform b = (.ok (), b')) :
    b'.atlas.Drawn p.environment := by
  obtain ⟨places, htraced⟩ := (Builder.ends_addProject_traced hd hb).of_ok h
  obtain ⟨c, -, hchart⟩ := Builder.exists_chart hd hb
  rw [h] at hchart
  exact ⟨htraced.sound, hchart.indexed, fun hn hl => htraced.has_file hn hl (by simp),
    hchart.references, htraced.external⟩

def Node.withLabel (label : Json) : Node → Node :=
  Node.updateDefinition fun d => { d with extraLabels := d.extraLabels ++ [label] }

def Node.withAttribute (name value : Json) : Node → Node :=
  Node.updateDefinition fun d =>
    { d with extraAttributes := Assoc.insert d.extraAttributes name value }

namespace Node.Gentle

theorem withLabel (label : Json) : Gentle (Node.withLabel label) := by
  refine .updateDefinition (fun _ => rfl) fun {d d'} h => ?_
  have hfields := Definition.mk.inj h
  simp_all [Definition.blank]

theorem withAttribute (name value : Json) : Gentle (Node.withAttribute name value) := by
  refine .updateDefinition (fun _ => rfl) fun {d d'} h => ?_
  have hfields := Definition.mk.inj h
  simp_all [Definition.blank]

end Node.Gentle

namespace Review
variable {r : Review} {t t₀ : NodeTable} {key m : NodeKey} {n n' : Node} {change : FileChange}

/-- A node with the marks of a change, in the environment of the review. -/
def touch (r : Review) (change : FileChange) (n : Node) : Node :=
  (((n.withLabel (.str "DIFF")).withLabel (.str change.type.name)).withAttribute (.str "diff_text")
    change.text).within r.environment

def remake (r : Review) (n : Node) : Node :=
  match FileChange.ofPath r.changes (.str n.path) with
  | .ok change => r.touch change n
  | .error _ => n

theorem remake_eq (h : FileChange.ofPath r.changes (.str n.path) = .ok change) :
    r.remake n = r.touch change n := by
  rw [remake, h]

theorem gentle_touch (r : Review) (change : FileChange) : Node.Gentle (r.touch change) :=
  (Node.Gentle.within _).comp ((Node.Gentle.withAttribute _ _).comp
    ((Node.Gentle.withLabel _).comp (Node.Gentle.withLabel _)))

theorem gentle_remake (r : Review) : Node.Gentle r.remake where
  alike n := by
    unfold remake
    split
    · exact (r.gentle_touch _).alike n
    · exact .refl n
  members n := by
    unfold remake
    split
    · exact (r.gentle_touch _).members n
    · rfl
  kin {n n'} h := by
    unfold remake
    rw [h.path]
    split
    · exact (r.gentle_touch _).kin h
    · exact h

theorem ends_addOwnAttribute (name value : Json) (t : NodeTable) (key : NodeKey) :
    (addOwnAttribute name value key).Ends t
      (fun _ => Touched (Node.withAttribute name value) (· = key) t) fun _ => True := by
  rw [addOwnAttribute]
  split
  · rw [Action.ends_bind]
    exact Action.ends_throw.mpr trivial
  · exact ends_updateDefinition (Node.Gentle.withAttribute name value) t key

/-- Marks are handed down one kind after the other, and then the environment. -/
theorem ends_touch (ht : t.Orderly) (r : Review) (change : FileChange) (key : NodeKey) :
    (do
      addLabel (.str "DIFF") key
      addLabel (.str change.type.name) key
      addAttribute (.str "diff_text") change.text key
      moveTo r.environment key : Action NodeTable Unit).Ends t
      (fun _ => Touched (r.touch change) (t.Under · key) t) fun _ => True := by
  have hlabel : ∀ label, Node.Gentle (Node.withLabel label) := Node.Gentle.withLabel
  have hattribute := Node.Gentle.withAttribute (.str "diff_text") change.text
  rw [Action.ends_bind]
  refine (ends_eachDefinition (hlabel _) (ends_updateDefinition (hlabel _)) ht key).mono
    (fun _ t₁ h₁ => ?_) fun _ h => h
  have hf₁ := hlabel (.str "DIFF")
  rw [Action.ends_bind]
  refine (ends_eachDefinition (hlabel _) (ends_updateDefinition (hlabel _)) (h₁.orderly hf₁ ht)
    key).mono (fun _ t₂ h₂ => ?_) fun _ h => h
  have hf₂ := (hlabel (.str change.type.name)).comp hf₁
  have h₂ := h₁.comp (hlabel _) (h₂.congr fun m => h₁.under_iff hf₁)
  rw [Action.ends_bind]
  refine (ends_eachDefinition hattribute (ends_addOwnAttribute _ _) (h₂.orderly hf₂ ht) key).mono
    (fun _ t₃ h₃ => ?_) fun _ h => h
  have hf₃ := hattribute.comp hf₂
  have h₃ := h₂.comp hattribute (h₃.congr fun m => h₂.under_iff hf₂)
  refine (ends_eachDefinition (.within r.environment) (ends_setEnvironment _)
    (h₃.orderly hf₃ ht) key).mono (fun _ t₄ h₄ => ?_) fun _ h => h
  exact h₃.comp (.within r.environment) (h₄.congr fun m => h₃.under_iff hf₃)

/-- What relates a file to what it was, if it is modified. -/
def relate? (r : Review) (n : Node) : Option ExternalRelationship :=
  match FileChange.ofPath r.changes (.str n.path) with
  | .ok change =>
    if change.type = .modified then
      some ⟨.str (Digest.hex (r.remake n).identity), .str (Digest.hex n.identity), .modified⟩
    else none
  | .error _ => none

/-- To mark a file that is not marked yet is to remake the definitions at its path. -/
theorem ends_mark {e : Option Environment} (hs : Growth.Sound e ⟨[], t₀⟩) {b : Builder}
    {P : NodeKey → Prop} (h : Touched r.remake P t₀ b.atlas.table) (hn : t₀.get? key = some n)
    {d : Definition} (hd : n.content = .definition d) (hnew : ∀ m, P m → ¬t₀.Under m key) :
    (r.mark key).Ends b (fun _ b' => b'.atlas.graph = b.atlas.graph ∧
        Touched r.remake (fun m => P m ∨ t₀.Under m key) t₀ b'.atlas.table ∧
        b'.atlas.external = b.atlas.external ++ (r.relate? n).toList) fun _ => True := by
  have hf := r.gentle_remake
  rw [mark, Action.ends_bind]
  refine Builder.ends_table ?_
  rw [Action.ends_bind]
  refine Action.ends_ofExcept (fun before hbefore => ?_) trivial
  rw [Action.ends_bind]
  refine Action.ends_ofExcept (fun n' hn' => ?_) trivial
  rw [Action.ends_bind]
  refine Action.ends_ofExcept (fun change hchange => ?_) trivial
  rw [Action.ends_bind, Surroundings.ends_onTable]
  refine (ends_touch (h.orderly hf hs.orderly) r change key).mono (fun _ t₁ h₁ => ?_) fun _ h => h
  obtain ⟨n'', hn'', -, -, hkin⟩ := h.node hn
  have hkin : n.Kin n'' := hkin fun hp => hnew key hp .refl
  rw [node_eq_ok, hn''] at hn'
  cases hn'
  rw [hkin.path] at hchange
  have hnamed := hs.named_trail hn
  have hbefore : before = Digest.hex n.identity := by
    rw [hashedId_eq (h.strays.trans hs.tidy.strays_eq) hn'' (hkin.trail ▸ hnamed),
      hkin.identity] at hbefore
    exact (Except.ok.inj hbefore).symm
  have hremade : Touched r.remake (t₀.Under · key) b.atlas.table t₁ := by
    refine (h₁.congr fun m => h.under_iff hf).congr_way fun {m k} hunder hk => ?_
    obtain ⟨k₀, hk₀, -, hP, hnot⟩ := h.get? hk
    obtain ⟨k', d', hk', -, hpath⟩ := hs.definition_of_under hn hd hunder
    cases hk₀.symm.trans hk'
    refine (remake_eq ?_).symm
    rw [(Touched.alike hf hP hnot).path, hpath, hchange]
  have hmarked := h.union hf hremade hnew
  have hskeleton : ∀ b₂ : Builder, b₂.atlas.graph = b.atlas.graph → b₂.atlas.table = t₁ →
      b₂.atlas.external = b.atlas.external ++ (r.relate? n).toList →
      (Builder.onTable (skeletonize key)).Ends b₂ (fun _ b' => b'.atlas.graph = b.atlas.graph ∧
        Touched r.remake (fun m => P m ∨ t₀.Under m key) t₀ b'.atlas.table ∧
        b'.atlas.external = b.atlas.external ++ (r.relate? n).toList) fun _ => True := by
    intro b₂ hgraph htable hexternal
    rw [Surroundings.ends_onTable, htable]
    refine (ends_skeletonize key t₁).mono (fun _ t₂ h₂ => ?_) fun _ _ => trivial
    exact ⟨hgraph, hmarked.retold hf h₂, hexternal⟩
  split
  · rename_i hmodified
    rw [Action.ends_bind]
    refine Builder.ends_table ?_
    rw [Action.ends_bind]
    refine Action.ends_ofExcept (fun after hafter => ?_) trivial
    rw [Action.ends_bind, relateOutside, Action.ends_modify]
    refine hskeleton _ rfl rfl ?_
    obtain ⟨n₁, hn₁, -, hremake, -⟩ := hmarked.node hn
    have hkin₁ := hremake (Or.inr .refl)
    have htrail : n₁.trail = n.trail := hkin₁.trail.trans (hf.alike n).trail
    have hafter : after = Digest.hex (r.remake n).identity := by
      rw [hashedId_eq (hmarked.strays.trans hs.tidy.strays_eq) hn₁ (htrail ▸ hnamed),
        hkin₁.identity] at hafter
      exact (Except.ok.inj hafter).symm
    simp [relate?, hchange, hmodified, hbefore, hafter]
  · rename_i hkept
    refine hskeleton _ rfl rfl ?_
    simp [relate?, hchange, hkept]

/-- Is a node a definition at a path that is changed and still there? -/
def Changes (r : Review) (t : NodeTable) (m : NodeKey) : Prop :=
  ∃ n d, t.get? m = some n ∧ n.content = .definition d ∧
    n.path ∈ Json.texts (FileChange.remaining r.changes)

/-- The files at paths, with what is below them, are the definitions there. -/
theorem exists_under_iff {e : Option Environment} {a : Atlas} (h : a.Drawn e)
    {paths : List String} :
    (∃ key ∈ paths.filterMap a.graph.fileAt?, a.table.Under m key) ↔
      ∃ n d, a.table.get? m = some n ∧ n.content = .definition d ∧ n.path ∈ paths := by
  constructor
  · rintro ⟨key, hkey, hunder⟩
    obtain ⟨path, hpath, hkey⟩ := List.mem_filterMap.mp hkey
    obtain ⟨n, d, hn, hd, hscope, rfl⟩ := h.file_at hkey
    obtain ⟨n', d', hn', hd', hsame⟩ := h.sound.definition_of_under hn hd hunder
    exact ⟨n', d', hn', hd', hsame ▸ hpath⟩
  · rintro ⟨n, d, hn, hd, hpath⟩
    obtain ⟨key, file, d', hfile, hd', hscope, hsame, hunder⟩ := h.sound.exists_file hn hd
    have hlabel : file.label = .file := by simp [Node.label, hd', hscope, Scope.label]
    have hkey := h.has_file hfile hlabel
    rw [hsame] at hkey
    exact ⟨key, List.mem_filterMap.mpr ⟨n.path, hpath, hkey⟩, hunder⟩

/-- The files at different paths have nothing below them in common. -/
theorem not_under_of_mem {e : Option Environment} {a : Atlas} (h : a.Drawn e)
    {paths : List String} (hpaths : paths.Nodup) {before after : List NodeKey}
    (hsplit : paths.filterMap a.graph.fileAt? = before ++ key :: after)
    (hm : ∃ k ∈ before, a.table.Under m k) : ¬a.table.Under m key := by
  intro hunder
  obtain ⟨k, hk, hunder'⟩ := hm
  have hfile : ∀ {k}, k ∈ before ++ key :: after → ∃ n d, a.table.get? k = some n ∧
      n.content = .definition d ∧ d.scope = .file ∧ a.graph.fileAt? n.path = some k := by
    intro k hk
    rw [← hsplit] at hk
    obtain ⟨path, -, hkey⟩ := List.mem_filterMap.mp hk
    obtain ⟨n, d, hn, hd, hscope, rfl⟩ := h.file_at hkey
    exact ⟨n, d, hn, hd, hscope, hkey⟩
  obtain ⟨n, d, hn, hd, -, hat⟩ := hfile (k := key) (by simp)
  obtain ⟨n', d', hn', hd', -, hat'⟩ := hfile (k := k) (by simp [hk])
  obtain ⟨m₁, -, hm₁, -, hpath⟩ := h.sound.definition_of_under hn hd hunder
  obtain ⟨m₂, -, hm₂, -, hpath'⟩ := h.sound.definition_of_under hn' hd' hunder'
  cases hm₁.symm.trans hm₂
  have hsame : k = key := by
    rw [← hpath', hpath, hat] at hat'
    exact (Option.some.inj hat').symm
  have hnodup : (paths.filterMap a.graph.fileAt?).Nodup := by
    refine hpaths.filterMap fun path path' key hkey hkey' => ?_
    obtain ⟨n, hn, hpath, -⟩ := h.indexed.file_at hkey
    obtain ⟨n', hn', hpath', -⟩ := h.indexed.file_at hkey'
    cases hn.symm.trans hn'
    exact hpath.symm.trans hpath'
  rw [hsplit] at hnodup
  exact (List.nodup_append.mp hnodup).2.2 k hk key (by simp) hsame

/-- A review remakes the definitions at the paths that are changed and still there, and relates the
modified files to what they were, in the order of the changes. -/
theorem ends_markAll {e : Option Environment} {b : Builder} (h : b.atlas.Drawn e)
    (hr : (Json.texts (r.changes.map FileChange.path)).Nodup) :
    r.markAll.Ends b (fun _ b' => b'.atlas.graph = b.atlas.graph ∧
        Touched r.remake (r.Changes b.atlas.table) b.atlas.table b'.atlas.table ∧
        b'.atlas.external = ((Json.texts (FileChange.remaining r.changes)).filterMap
          b.atlas.graph.fileAt?).filterMap fun key => (b.atlas.table.get? key).bind r.relate?)
      fun _ => True := by
  have hf := r.gentle_remake
  rw [markAll, Action.ends_bind]
  refine Builder.ends_graph ?_
  rw [Action.ends_bind]
  refine Action.ends_ofExcept (fun keys hkeys => ?_) trivial
  obtain rfl := filesAt_eq hkeys
  refine (Action.ends_forM (I := fun before (b' : Builder) => b'.atlas.graph = b.atlas.graph ∧
    Touched r.remake (fun m => ∃ k ∈ before, b.atlas.table.Under m k) b.atlas.table
      b'.atlas.table ∧
    b'.atlas.external = before.filterMap fun key => (b.atlas.table.get? key).bind r.relate?)
    ?_ ?_).mono ?_ fun _ h => h
  · refine ⟨rfl, (Touched.of_retold _ (.refl _)).congr fun m => by simp, ?_⟩
    simp [h.external]
  · rintro before key after hsplit b' ⟨hgraph, hmarked, hexternal⟩
    have hkey : key ∈ (Json.texts (FileChange.remaining r.changes)).filterMap
        b.atlas.graph.fileAt? := by simp [hsplit]
    obtain ⟨path, -, hfile⟩ := List.mem_filterMap.mp hkey
    obtain ⟨n, d, hn, hd, -, -⟩ := h.file_at hfile
    have hnew : ∀ m, (∃ k ∈ before, b.atlas.table.Under m k) → ¬b.atlas.table.Under m key :=
      fun m hm => not_under_of_mem h (FileChange.nodup_texts_remaining hr) hsplit hm
    refine (ends_mark h.sound hmarked hn hd hnew).mono ?_ fun _ h => h
    rintro - b'' ⟨hgraph', hmarked', hexternal'⟩
    refine ⟨hgraph'.trans hgraph, hmarked'.congr fun m => ?_, ?_⟩
    · simp [or_and_right, exists_or]
    · rw [hexternal', hexternal, List.filterMap_append]
      cases hrel : r.relate? n <;> simp [hn, hrel]
  · rintro - b' ⟨hgraph, hmarked, hexternal⟩
    exact ⟨hgraph, hmarked.congr fun m => exists_under_iff h, hexternal⟩

end Review
end CodeAtlas
