import CodeAtlas.Proofs.Build.ReviewNodes
import CodeAtlas.Proofs.Build.Stages

namespace CodeAtlas
open NodeTable

namespace Graph
variable {t t' : NodeTable} {g g' : Graph} {key : NodeKey} {P : Node → Prop}

/-- Is a node of some kind, and is its present identifier one of the graph? -/
def Knows (t : NodeTable) (g : Graph) (key : NodeKey) (P : Node → Prop) : Prop :=
  ∃ n id, t.get? key = some n ∧ P n ∧ t.id key = .ok id ∧ id ∈ Assoc.keys g.nodes

/-- The dictionary and the indexes of a graph say the same, and what the table says. -/
structure Consistent (t : NodeTable) (g : Graph) : Prop where
  ids_nodup : (Assoc.keys g.nodes).Nodup
  stored : ∀ {id key}, (id, key) ∈ g.nodes → t.id key = .ok id
  at_path : ∀ {id key n}, (id, key) ∈ g.nodes → t.get? key = some n → key ∈ g.nodesAt n.path
  at_label : ∀ {id key n}, (id, key) ∈ g.nodes → t.get? key = some n →
    key ∈ g.nodesLabelled n.label
  of_path : ∀ {path key}, key ∈ g.nodesAt path → g.Knows t key fun n => n.path = path
  of_label : ∀ {label key}, key ∈ g.nodesLabelled label → g.Knows t key fun n => n.label = label
  of_files : ∀ {path key}, g.fileAt? path = some key →
    g.Knows t key fun n => n.label = .file ∧ n.path = path
  of_folders : ∀ {path key}, Assoc.get? g.folders path = some key →
    g.Knows t key fun n => n.label = .folder ∧ n.path = path

theorem Knows.keeps (h : g.Knows t key P) (hk : t.Keeps t')
    (hP : ∀ n n' : Node, n.Kin n' → P n → P n') : g.Knows t' key P := by
  obtain ⟨n, id, hn, hp, hid, hmem⟩ := h
  obtain ⟨n', hn', hkin⟩ := hk key n hn
  exact ⟨n', id, hn', hP n n' hkin hp, hk.id hid, hmem⟩

/-- A node that is added under the identifier of another one leaves that one known. -/
theorem Knows.insert {id : String} {other : NodeKey} (h : g.Knows t key P)
    (hg : g'.nodes = Assoc.insert g.nodes id other) : g'.Knows t key P := by
  obtain ⟨n, id', hn, hp, hid, hmem⟩ := h
  refine ⟨n, id', hn, hp, hid, ?_⟩
  rw [hg]
  exact Assoc.mem_keys_insert.mpr (Or.inr hmem)

namespace Consistent

theorem empty (t : NodeTable) : Consistent t {} where
  ids_nodup := List.nodup_nil
  stored h := by cases h
  at_path h := by cases h
  at_label h := by cases h
  of_path h := by simp [nodesAt, Assoc.get?] at h
  of_label h := by simp [nodesLabelled, Assoc.get?] at h
  of_files h := by simp [fileAt?, Assoc.get?] at h
  of_folders h := by simp [Assoc.get?] at h

/-- Texts and members are in no index. -/
theorem keeps (h : Consistent t g) (hk : t.Keeps t') : Consistent t' g := by
  have hback : ∀ {id key n'}, (id, key) ∈ g.nodes → t'.get? key = some n' →
      ∃ n, t.get? key = some n ∧ n.Kin n' := by
    intro id key n' hmem hn'
    obtain ⟨n, hn⟩ := exists_of_id (h.stored hmem)
    obtain ⟨n'', hn'', hkin⟩ := hk key n hn
    cases hn'.symm.trans hn''
    exact ⟨n, hn, hkin⟩
  refine ⟨h.ids_nodup, fun hmem => hk.id (h.stored hmem), ?_, ?_, ?_, ?_, ?_, ?_⟩
  · intro id key n' hmem hn'
    obtain ⟨n, hn, hkin⟩ := hback hmem hn'
    rw [hkin.path]
    exact h.at_path hmem hn
  · intro id key n' hmem hn'
    obtain ⟨n, hn, hkin⟩ := hback hmem hn'
    rw [hkin.label]
    exact h.at_label hmem hn
  · intro path key hkey
    exact (h.of_path hkey).keeps hk fun n n' hkin hp => hkin.path.trans hp
  · intro label key hkey
    exact (h.of_label hkey).keeps hk fun n n' hkin hp => hkin.label.trans hp
  · intro path key hkey
    exact (h.of_files hkey).keeps hk fun n n' hkin hp =>
      ⟨hkin.label.trans hp.1, hkin.path.trans hp.2⟩
  · intro path key hkey
    exact (h.of_folders hkey).keeps hk fun n n' hkin hp =>
      ⟨hkin.label.trans hp.1, hkin.path.trans hp.2⟩

/-- A node that is added may take the place of another one in the dictionary, in no other index. -/
theorem add (h : Consistent t g) (ha : g.add t key = .ok g') : Consistent t g' := by
  obtain ⟨n, id, hn, hid, rfl⟩ := add_eq_ok ha
  have hself : ∀ {P : Node → Prop}, P n → Knows t { g with
      nodes := Assoc.insert g.nodes id key
      byPath := addTo g.byPath n.path key
      byLabel := addTo g.byLabel n.label key
      files := if n.label = .file then Assoc.insert g.files n.path key else g.files
      folders := if n.label = .folder then Assoc.insert g.folders n.path key else g.folders }
      key P :=
    fun hp => ⟨n, id, hn, hp, hid, Assoc.mem_keys_insert.mpr (Or.inl rfl)⟩
  refine ⟨Assoc.nodup_keys_insert h.ids_nodup, ?_, ?_, ?_, ?_, ?_, ?_, ?_⟩
  · intro id' k hmem
    rcases Assoc.eq_or_mem_of_mem_insert hmem with heq | hold
    · cases heq
      exact hid
    · exact h.stored hold
  · intro id' k m hmem hm
    apply mem_addTo.mpr
    rcases Assoc.eq_or_mem_of_mem_insert hmem with heq | hold
    · cases heq
      cases hn.symm.trans hm
      exact Or.inr ⟨rfl, rfl⟩
    · exact Or.inl (h.at_path hold hm)
  · intro id' k m hmem hm
    apply mem_addTo.mpr
    rcases Assoc.eq_or_mem_of_mem_insert hmem with heq | hold
    · cases heq
      cases hn.symm.trans hm
      exact Or.inr ⟨rfl, rfl⟩
    · exact Or.inl (h.at_label hold hm)
  · intro path k hk
    rcases mem_addTo.mp hk with hold | ⟨rfl, rfl⟩
    · exact (h.of_path hold).insert rfl
    · exact hself rfl
  · intro label k hk
    rcases mem_addTo.mp hk with hold | ⟨rfl, rfl⟩
    · exact (h.of_label hold).insert rfl
    · exact hself rfl
  · intro path k hk
    simp only [fileAt?, get?_insert_if] at hk
    split at hk
    · rename_i hcase
      cases hk
      exact hself ⟨hcase.1, hcase.2.symm⟩
    · exact (h.of_files hk).insert rfl
  · intro path k hk
    simp only [get?_insert_if] at hk
    split at hk
    · rename_i hcase
      cases hk
      exact hself ⟨hcase.1, hcase.2.symm⟩
    · exact (h.of_folders hk).insert rfl

theorem addReferences (h : Consistent t g) (found : List Relationship) :
    Consistent t (g.addReferences found) :=
  ⟨h.ids_nodup, h.stored, h.at_path, h.at_label, h.of_path, h.of_label, h.of_files, h.of_folders⟩

end Consistent
end Graph

namespace Atlas
variable {m : Atlas} {paths : Json}

def Consistent (a : Atlas) : Prop :=
  a.graph.Consistent a.table

/-- A graph that is filled node by node, each with the identifier that it has by then. -/
theorem ends_keepNodes_consistent {keys : List NodeKey} (ht : m.table.Grouped) {kept : Graph}
    (h : kept.Consistent m.table) :
    (keepNodes paths keys kept).Ends m (fun kept' m' => kept'.Consistent m'.table)
      fun _ => True := by
  induction keys generalizing m kept with
  | nil => exact Action.ends_pure.mpr h
  | cons key keys ih =>
    rw [keepNodes, Action.ends_bind, Action.ends_get, Action.ends_bind]
    refine Action.ends_ofExcept (fun answer _ => ?_) trivial
    split
    · rw [Action.ends_bind]
      refine (ends_onTable (ends_keepMembersAt ht key)).mono ?_ fun _ h => h
      rintro - m' ⟨-, -, hpruned, -⟩
      rw [Action.ends_bind, Action.ends_get, Action.ends_bind]
      refine Action.ends_ofExcept (fun kept' hkept' => ?_) trivial
      exact ih hpruned.grouped ((h.keeps hpruned.keeps).add hkept')
    · exact ih ht h

theorem ends_filter_consistent (ht : m.table.Grouped) :
    (filter paths).Ends m (fun _ => Consistent) fun _ => True := by
  rw [filter, Action.ends_bind, Action.ends_get, Action.ends_bind]
  refine (ends_keepNodes_consistent ht (.empty _)).mono (fun kept m' h => ?_) fun _ h => h
  rw [Action.ends_bind, Action.ends_get, Action.ends_bind]
  refine Action.ends_ofExcept (fun references _ => ?_) trivial
  exact Action.ends_set.mpr (h.addReferences references)

end Atlas

namespace Builder
variable {b : Builder}

/-- What stays when nodes are added to the table or to the graph, and when texts and members change,
stays through the first part of a build. -/
theorem ends_addProject_keeps {P : Atlas → Prop}
    (htable : ∀ {a : Atlas} {t : NodeTable}, P a → a.table.Keeps t → P { a with table := t })
    (hadd : ∀ {a : Atlas} {key : NodeKey} {g : Graph}, P a → a.graph.add a.table key = .ok g →
      P { a with graph := g }) (h : P b.atlas ∧ b.atlas.table.Tidy) (p : Project) :
    (addProject p).Ends b (fun _ b' => P b'.atlas ∧ b'.atlas.table.Tidy) fun _ => True :=
  (Stays.of_keeps htable hadd).ends_addProject h

theorem ends_addProject_consistent (hb : b.atlas = {}) (p : Project) : (addProject p).Ends b
    (fun _ b' => b'.atlas.Consistent ∧ b'.atlas.table.Tidy) fun _ => True := by
  refine ends_addProject_keeps (P := Atlas.Consistent) (fun h hk => h.keeps hk)
    (fun h ha => h.add ha) ?_ p
  rw [hb]
  exact ⟨.empty _, tidy_empty⟩

end Builder

namespace Review
variable {r : Review} {b : Builder}

/-- The references and the filter do not ask what the dictionary was before. -/
theorem ends_cut_consistent (ht : b.atlas.table.Grouped) : r.addReferences.Ends b
    (fun _ b₁ => r.keepChanged.Ends b₁ (fun _ b₂ => b₂.atlas.Consistent) fun _ => True)
    fun _ => True := by
  refine (ends_addReferences_found r b).mono ?_ fun _ h => h
  rintro - b₁ ⟨found, -, hb₁⟩
  rw [keepChanged, Action.ends_bind]
  refine Action.ends_ofExcept (fun folders _ => ?_) trivial
  rw [Builder.onAtlas, Action.ends_zoom]
  refine Atlas.ends_filter_consistent ?_
  rw [hb₁]
  exact ht

theorem ends_build_consistent (hb : b.atlas = {}) :
    r.build.Ends b (fun _ b' => b'.atlas.Consistent) fun _ => True := by
  rw [build, Action.ends_bind]
  refine (Builder.ends_addProject_consistent hb r.project).mono ?_ fun _ h => h
  rintro - b₁ ⟨-, ht⟩
  rw [Action.ends_bind]
  refine (ends_markAll_reworked r b₁).mono ?_ fun _ h => h
  rintro - b₂ ⟨-, hrework⟩
  rw [Action.ends_bind]
  refine (ends_cut_consistent (hrework.tidy ht).grouped).mono (fun _ b₃ hcut => ?_) fun _ h => h
  rw [Action.ends_bind]
  refine hcut.mono (fun _ b₄ h₄ => ?_) fun _ h => h
  refine (ends_addAllDeleted (P := Atlas.Consistent) (fun h _ _ ha _ => ?_) h₄).mono
    (fun _ _ h => h.1) fun _ h => h
  exact Graph.Consistent.add (h.keeps (keeps_push _)) ha

theorem ends_rebuild_consistent (hb : b.atlas = {}) :
    r.rebuild.Ends b (fun _ b' => b'.atlas.Consistent) fun _ => True := by
  rw [rebuild, Action.ends_bind]
  refine (Builder.ends_addProject_consistent hb r.project).mono ?_ fun _ h => h
  rintro - b₁ ⟨-, ht⟩
  rw [Action.ends_bind]
  exact (ends_cut_consistent ht.grouped).mono (fun _ _ h => h) fun _ h => h

end Review

/-- The full build of a project, a review of it and an update of it. -/
inductive IsBuild : Action Builder Unit → Prop where
  | full (p : Project) : IsBuild (Builder.build p)
  | review (r : Review) : IsBuild r.build
  | update (p : Project) (paths : List Json) : IsBuild (Review.ofUpdate p paths).rebuild

/-- Whatever a build is and whatever it changes on the way, in the graph that it returns each node
of the dictionary is stored under the identifier that it has then, and the dictionary and the
indexes agree. -/
theorem dictionary_and_indexes_agree {act : Action Builder Unit} (hact : IsBuild act)
    {b b' : Builder} (hb : b.atlas = {}) (hbuild : act.perform b = (.ok (), b')) :
    b'.atlas.graph.Consistent b'.atlas.table := by
  cases hact with
  | full p =>
    obtain ⟨b₁, found, h₁, -, hb'⟩ := (Builder.ends_build_found p).of_ok hbuild
    rw [hb']
    exact ((Builder.ends_addProject_consistent hb p).of_ok h₁).1.addReferences found
  | review r => exact (Review.ends_build_consistent hb).of_ok hbuild
  | update p paths => exact (Review.ends_rebuild_consistent hb).of_ok hbuild

/-- The modified file has another identifier than when it was first stored. -/
theorem TwoFiles.review_dictionary_agrees : ∃ built, reviewed allChanged = (.ok (), built) ∧
    built.atlas.graph.nodes.length = 5 ∧
    built.atlas.table.id 1 ≠ drawn.2.atlas.table.id 1 ∧
    built.atlas.graph.Consistent built.atlas.table := by
  have hrun : (reviewed allChanged).1.isOk = true ∧
      (reviewed allChanged).2.atlas.graph.nodes.length = 5 ∧
      ((reviewed allChanged).2.atlas.table.id 1).toOption ≠
        (drawn.2.atlas.table.id 1).toOption := by
    decide +kernel
  obtain ⟨hok, hlength, hid⟩ := hrun
  obtain ⟨built, hbuilt⟩ := Action.exists_of_isOk hok
  have heq : (reviewed allChanged).2 = built := congrArg Prod.snd hbuilt
  rw [heq] at hlength hid
  exact ⟨built, hbuilt, hlength, fun hsame => hid (congrArg _ hsame),
    dictionary_and_indexes_agree (.review _) rfl hbuilt⟩

end CodeAtlas
