import CodeAtlas.Build.Review
import CodeAtlas.Proofs.Build.Gather
import Mathlib.Data.List.Nodup

namespace CodeAtlas
open Server

/-- Where a file uses what is defined somewhere: its identifiers, without the names of its own
definitions. A file without syntax tree uses nothing. -/
def NodeTable.uses (t : NodeTable) (key : NodeKey) : Except Fault (List Place) := do
  if (← t.definition key).cursor.isNone then pure []
  else
    let names ← t.nameRanges key
    let places ← Hierarchy.identifiers t key
    pure (withoutNames names places)

/-- The URI that a table of definitions has for a place, if it is a text. -/
def Server.Answers.definitionUri? (a : Answers) (place : Place) : Option String :=
  match a.definitionOf place with
  | .ok (.str uri) => some uri
  | _ => none

/-- The files that define what the files at paths use, by the tables. -/
def Atlas.usedBy (a : Answers) (m : Atlas) (paths : List String) : List String :=
  (paths.filterMap m.graph.fileAt?).flatMap fun key =>
    ((m.table.uses key).toOption.getD []).filterMap a.definitionUri?

/-- The files that are known after those that define what stands at places, by the tables. -/
def Server.Answers.addDefinitions (a : Answers) (known : List Json) (places : List Place) :
    Except Fault (List Json) :=
  places.foldlM (fun known place => do Review.addPath known (← a.definitionOf place)) known

namespace Atlas

/-- The files that are known after those that define what a file uses, by the tables. -/
def addUsed (a : Answers) (m : Atlas) (known : List Json) (key : NodeKey) :
    Except Fault (List Json) := do
  a.addDefinitions known (← m.table.uses key)

def filesFor (a : Answers) (m : Atlas) (r : Review) : Except Fault (List NodeKey) := do
  let changed ← Review.filesAt m.graph (FileChange.remaining r.changes)
  let used ← changed.foldlM (m.addUsed a) []
  let others ← Review.filesAt m.graph (FileChange.untouched r.changes used)
  pure (changed ++ others)

def relationshipsFor (a : Answers) (m : Atlas) (r : Review) : Except Fault (List Relationship) := do
  m.relationshipsIntoAll a (← m.filesFor a r)

end Atlas

namespace Review
variable {a : Answers} {m : Atlas} {b : Builder}

/-- The files at paths are those at the texts among them. -/
theorem filesAt_eq {g : Graph} {paths : List Json} {keys : List NodeKey}
    (h : filesAt g paths = .ok keys) : keys = (Json.texts paths).filterMap g.fileAt? := by
  simp only [filesAt, Outcome.bind_eq_ok, Outcome.pure_eq_ok, Outcome.mapM_eq_ok] at h
  obtain ⟨names, hnames, rfl⟩ := h
  induction hnames with
  | nil => rfl
  | @cons path name paths names hname _ ih =>
    cases path with
    | str text =>
      cases hname
      simp only [List.filterMap_cons, Option.bind_some, ih]
      rfl
    | arr items => cases hname
    | obj members => cases hname
    | _ =>
      cases hname
      simpa [Json.texts] using ih

theorem remaining_ofUpdate (p : Project) (paths : List Json) :
    FileChange.remaining (ofUpdate p paths).changes = paths := by
  simp [FileChange.remaining, FileChange.paths, ofUpdate, FileChange.ofUpdate, List.filter_map,
    Function.comp_def]

/-- Files that are added to those known: each once, if they are named, and only what can name a
file. -/
structure Adds (found : List String) (known known' : List Json) : Prop where
  mem : ∀ uri, uri ∈ Json.texts known' ↔ uri ∈ Json.texts known ∨ uri ∈ found
  nodup : (Json.texts known).Nodup → (Json.texts known').Nodup
  keys : (∀ v ∈ known, v.isKey = true) → ∀ v ∈ known', v.isKey = true

theorem Adds.refl (known : List Json) : Adds [] known known :=
  ⟨by simp, fun h => h, fun h => h⟩

theorem Adds.trans {found found' : List String} {known known' known'' : List Json}
    (h : Adds found known known') (h' : Adds found' known' known'') :
    Adds (found ++ found') known known'' :=
  ⟨fun uri => by rw [h'.mem, h.mem, List.mem_append, or_assoc], fun hn => h'.nodup (h.nodup hn),
    fun hk => h'.keys (h.keys hk)⟩

/-- Adding one value. What is no text names no file. -/
theorem adds_addPath {known known' : List Json} {path : Json}
    (h : addPath known path = .ok known') :
    Adds (Json.texts [path]) known known' := by
  rw [addPath] at h
  split at h
  · rename_i hkey
    cases h
    split
    · rename_i hany
      refine ⟨fun uri => ⟨Or.inl, fun h => h.elim (fun h => h) fun huri => ?_⟩, fun h => h,
        fun h => h⟩
      rw [Json.mem_texts, List.mem_singleton] at huri
      exact Json.any_same_str.mp (huri ▸ hany)
    · rename_i hany
      refine ⟨fun uri => by rw [Json.texts_append, List.mem_append], fun hn => ?_, fun hk => ?_⟩
      · rw [Json.texts_append]
        refine List.Nodup.append hn ((List.nodup_singleton path).filterMap ?_)
          fun uri hold hnew => ?_
        · intro v v' uri hv hv'
          split at hv <;> cases hv
          split at hv' <;> cases hv'
          rfl
        · rw [Json.mem_texts, List.mem_singleton] at hnew
          exact hany (hnew ▸ Json.any_same_str.mpr hold)
      · exact List.forall_mem_append.mpr ⟨hk, by simpa using hkey⟩
  · cases h

theorem adds_addDefinitions {places : List Place} {known known' : List Json}
    (h : a.addDefinitions known places = .ok known') :
    Adds (places.filterMap a.definitionUri?) known known' := by
  induction places generalizing known with
  | nil =>
    cases h
    exact .refl _
  | cons place places ih =>
    rw [Answers.addDefinitions, List.foldlM_cons] at h
    simp only [Outcome.bind_eq_ok] at h
    obtain ⟨known₁, ⟨path, hpath, hadd⟩, h⟩ := h
    have hfirst : (place :: places).filterMap a.definitionUri? =
        Json.texts [path] ++ places.filterMap a.definitionUri? := by
      rw [List.filterMap_cons, Answers.definitionUri?, hpath]
      cases path <;> rfl
    rw [hfirst]
    exact (adds_addPath hadd).trans (ih h)

theorem adds_addUsed {keys : List NodeKey} {known known' : List Json}
    (h : keys.foldlM (m.addUsed a) known = .ok known') :
    (∀ key ∈ keys, ∃ places, m.table.uses key = .ok places) ∧
      Adds (keys.flatMap fun key =>
        ((m.table.uses key).toOption.getD []).filterMap a.definitionUri?) known known' := by
  induction keys generalizing known with
  | nil =>
    cases h
    exact ⟨by simp, .refl _⟩
  | cons key keys ih =>
    rw [List.foldlM_cons] at h
    simp only [Outcome.bind_eq_ok, Atlas.addUsed] at h
    obtain ⟨known₁, ⟨places, huses, hadd⟩, h⟩ := h
    obtain ⟨hrest, hadds⟩ := ih h
    rw [List.flatMap_cons, huses]
    exact ⟨List.forall_mem_cons.mpr ⟨⟨places, huses⟩, hrest⟩,
      (adds_addDefinitions hadd).trans hadds⟩

/-- The files that define what stands at places are asked for one after the other. -/
theorem yields_definitionPaths (places : List Place) (known : List Json) :
    Action.Yields (Builder.Settled a m) (definitionPaths places known)
      (a.addDefinitions known places) := by
  induction places generalizing known with
  | nil => exact Action.yields_pure known
  | cons place places ih =>
    rw [definitionPaths, Answers.addDefinitions, List.foldlM_cons, bind_assoc]
    refine Action.yields_bind (Builder.yields_onServers fun _ h => h.definitionPath place)
      fun path _ => ?_
    exact Action.yields_bind (Action.yields_ofExcept _) fun known' _ => ih known'

theorem yields_pathsUsedBy (known : List Json) (key : NodeKey) :
    Action.Yields (Builder.Settled a m) (pathsUsedBy known key) (m.addUsed a known key) := by
  rw [pathsUsedBy, Atlas.addUsed, NodeTable.uses, bind_assoc]
  refine Action.yields_bind_ok Builder.yields_table ?_
  refine Action.yields_bind (Action.yields_ofExcept _) fun d _ => ?_
  split
  · exact Action.yields_pure known
  · rw [bind_assoc]
    refine Action.yields_bind (Action.yields_ofExcept _) fun names _ => ?_
    rw [bind_assoc]
    refine Action.yields_bind (Action.yields_ofExcept _) fun places _ => ?_
    exact yields_definitionPaths _ known

/-- What a review adds to its graph. -/
theorem perform_addReferences (h : b.Settled a m) (r : Review) :
    ∃ b', r.addReferences.perform b = ((fun _ => ()) <$> m.relationshipsFor a r, b') ∧
      ∀ found, m.relationshipsFor a r = .ok found →
        b'.Settled a { m with graph := m.graph.addReferences found } := by
  -- up to the last step the atlas stays as it is
  have hfiles : Action.Yields (Builder.Settled a m) (do
      let g ← Builder.graph
      let changed ← Action.ofExcept (filesAt g (FileChange.remaining r.changes))
      let used ← changed.foldlM pathsUsedBy []
      let others ← Action.ofExcept (filesAt g (FileChange.untouched r.changes used))
      pure (changed ++ others)) (m.filesFor a r) := by
    refine Action.yields_bind_ok Builder.yields_graph ?_
    refine Action.yields_bind (Action.yields_ofExcept _) fun changed _ => ?_
    refine Action.yields_bind (Action.yields_foldlM (fun known key _ =>
      yields_pathsUsedBy known key) []) fun used _ => ?_
    exact Action.yields_bind (Action.yields_ofExcept _) fun others _ => Action.yields_pure _
  obtain ⟨b₁, hb₁, h₁⟩ := hfiles b h
  have hsplit : r.addReferences = (do
      let g ← Builder.graph
      let changed ← Action.ofExcept (filesAt g (FileChange.remaining r.changes))
      let used ← changed.foldlM pathsUsedBy []
      let others ← Action.ofExcept (filesAt g (FileChange.untouched r.changes used))
      pure (changed ++ others)) >>= Builder.addReferences := by
    simp only [addReferences, bind_assoc, pure_bind]
  rw [hsplit, Action.perform_bind, hb₁, Atlas.relationshipsFor]
  cases m.filesFor a r with
  | error fault => exact ⟨b₁, rfl, fun _ hfound => by cases hfound⟩
  | ok files => exact Builder.perform_addReferences h₁ files

theorem mem_texts_untouched (p : Project) (paths : List String) (candidates : List Json)
    (uri : String) :
    uri ∈ Json.texts (FileChange.untouched (ofUpdate p (paths.map .str)).changes candidates) ↔
      uri ∈ Json.texts candidates ∧ uri ∉ paths := by
  rw [Json.mem_texts, FileChange.untouched, remaining_ofUpdate, List.mem_filter, Json.mem_texts,
    Bool.not_eq_true', ← Bool.not_eq_true, Json.any_same_str, Json.texts_map_str]

theorem filesFor_eq_ok {p : Project} {paths : List String} {files : List NodeKey}
    (h : m.filesFor a (ofUpdate p (paths.map .str)) = .ok files) :
    ∃ others : List String, others.Nodup ∧
      (∀ key ∈ paths.filterMap m.graph.fileAt?, ∃ places, m.table.uses key = .ok places) ∧
      (∀ uri, uri ∈ others ↔ uri ∈ m.usedBy a paths ∧ uri ∉ paths) ∧
      files = (paths ++ others).filterMap m.graph.fileAt? := by
  simp only [Atlas.filesFor, Outcome.bind_eq_ok, Outcome.pure_eq_ok] at h
  obtain ⟨changed, hchanged, used, hused, more, hmore, rfl⟩ := h
  obtain ⟨huses, hadds⟩ := adds_addUsed hused
  have hkeys := filesAt_eq hchanged
  have hothers := filesAt_eq hmore
  rw [remaining_ofUpdate, Json.texts_map_str] at hkeys
  refine ⟨Json.texts (FileChange.untouched (ofUpdate p (paths.map .str)).changes used), ?_,
    hkeys ▸ huses, fun uri => ?_, ?_⟩
  · exact (hadds.nodup (by simp [Json.texts])).sublist (List.filter_sublist.filterMap _)
  · rw [mem_texts_untouched, hadds.mem, hkeys]
    simp [Json.texts, Atlas.usedBy]
  · rw [List.filterMap_append, hkeys, hothers]

/-- An update finds the relationships into the files at its paths and into those that define what
they use, each of the latter once. -/
theorem relationshipsFor_eq_ok {p : Project} {paths : List String} {found : List Relationship}
    (h : m.relationshipsFor a (ofUpdate p (paths.map .str)) = .ok found) :
    ∃ (others : List String) (groups : List (List Relationship)), others.Nodup ∧
      (∀ key ∈ paths.filterMap m.graph.fileAt?, ∃ places, m.table.uses key = .ok places) ∧
      (∀ uri, uri ∈ others ↔ uri ∈ m.usedBy a paths ∧ uri ∉ paths) ∧
      ((paths ++ others).filterMap m.graph.fileAt?).mapM (m.relationshipsInto a) = .ok groups ∧
      groups.flatten = found := by
  obtain ⟨files, hfiles, hall⟩ := Outcome.bind_eq_ok.mp h
  obtain ⟨groups, hgroups, hflat⟩ := Atlas.relationshipsIntoAll_eq_ok.mp hall
  obtain ⟨others, hnodup, huses, hothers, rfl⟩ := filesFor_eq_ok hfiles
  exact ⟨others, groups, hnodup, huses, hothers, hgroups, hflat⟩

end Review
end CodeAtlas
