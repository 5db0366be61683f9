import CodeAtlas.Graph.Graph
import CodeAtlas.Proofs.Assoc
import CodeAtlas.Proofs.Graph.Kin

namespace CodeAtlas.Graph
variable {t t' : NodeTable} {g g' : Graph} {key : NodeKey}

theorem getD_addTo {α : Type} [BEq α] [LawfulBEq α] (index : Assoc α (List NodeKey)) (at_ : α)
    (key : NodeKey) (other : α) :
    (Assoc.get? (addTo index at_ key) other).getD [] =
      if other == at_ then
        if key ∈ (Assoc.get? index at_).getD [] then (Assoc.get? index at_).getD []
        else (Assoc.get? index at_).getD [] ++ [key]
      else (Assoc.get? index other).getD [] := by
  by_cases h : other = at_
  · subst h
    simp [addTo, Assoc.get?_insert_self]
  · simp [addTo, Assoc.get?_insert_of_ne _ _ h, h]

theorem mem_addTo {α : Type} [BEq α] [LawfulBEq α] {index : Assoc α (List NodeKey)} {at_ other : α}
    {k : NodeKey} : k ∈ (Assoc.get? (addTo index at_ key) other).getD [] ↔
      k ∈ (Assoc.get? index other).getD [] ∨ other = at_ ∧ k = key := by
  rw [getD_addTo]
  by_cases h : other = at_
  · subst h
    rw [if_pos (by simp)]
    split
    · rename_i hold
      exact ⟨Or.inl, fun h => h.elim (fun h => h) fun h => h.2 ▸ hold⟩
    · simp
  · simp [h]

theorem nodup_addTo {α : Type} [BEq α] [LawfulBEq α] {index : Assoc α (List NodeKey)} {at_ : α}
    (other : α) (h : ((Assoc.get? index other).getD []).Nodup) :
    ((Assoc.get? (addTo index at_ key) other).getD []).Nodup := by
  rw [getD_addTo]
  split
  · rename_i heq
    obtain rfl := beq_iff_eq.mp heq
    split
    · exact h
    · exact List.nodup_append.mpr ⟨h, by simp, by aesop⟩
  · exact h

theorem get?_insert_if {m : Assoc String NodeKey} {c : Prop} [Decidable c] (path other : String) :
    Assoc.get? (if c then Assoc.insert m path key else m) other =
      if c ∧ other = path then some key else Assoc.get? m other := by
  by_cases hc : c
  · simp [hc, Assoc.get?_insert]
  · simp [hc]

/-- The indexes of a graph say of its nodes what the table says of them. -/
structure Indexed (t : NodeTable) (g : Graph) : Prop where
  ids_nodup : (Assoc.keys g.nodes).Nodup
  id : ∀ {id key}, (id, key) ∈ g.nodes → t.id key = .ok id
  at_path : ∀ {path key}, key ∈ g.nodesAt path → ∃ n, t.get? key = some n ∧ n.path = path
  labelled : ∀ {label key}, key ∈ g.nodesLabelled label →
    ∃ n, t.get? key = some n ∧ n.label = label
  labelled_nodup : ∀ label, (g.nodesLabelled label).Nodup
  file_at : ∀ {path key}, g.fileAt? path = some key →
    ∃ n, t.get? key = some n ∧ n.path = path ∧ n.label = .file
  folder_at : ∀ {path key}, Assoc.get? g.folders path = some key →
    ∃ n, t.get? key = some n ∧ n.path = path ∧ n.label = .folder
  files : ∀ {key}, key ∈ g.nodesLabelled .file ↔ ∃ path, g.fileAt? path = some key

theorem indexed_empty (t : NodeTable) : Indexed t {} where
  ids_nodup := by simp [Assoc.keys]
  id h := by simp at h
  at_path h := by simp [nodesAt, Assoc.get?] at h
  labelled h := by simp [nodesLabelled, Assoc.get?] at h
  labelled_nodup label := by simp [nodesLabelled, Assoc.get?]
  file_at h := by simp [fileAt?, Assoc.get?] at h
  folder_at h := by simp [Assoc.get?] at h
  files := by simp [nodesLabelled, fileAt?, Assoc.get?]

/-- An index outlives what is added to the table and the changes of texts. -/
theorem Indexed.keeps (h : Indexed t g) (hk : t.Keeps t') : Indexed t' g where
  ids_nodup := h.ids_nodup
  id hmem := hk.id (h.id hmem)
  at_path hmem := by
    obtain ⟨n, hn, hpath⟩ := h.at_path hmem
    obtain ⟨n', hn', hkin⟩ := hk _ _ hn
    exact ⟨n', hn', hkin.path.trans hpath⟩
  labelled hmem := by
    obtain ⟨n, hn, hlabel⟩ := h.labelled hmem
    obtain ⟨n', hn', hkin⟩ := hk _ _ hn
    exact ⟨n', hn', hkin.label.trans hlabel⟩
  labelled_nodup := h.labelled_nodup
  file_at hget := by
    obtain ⟨n, hn, hpath, hlabel⟩ := h.file_at hget
    obtain ⟨n', hn', hkin⟩ := hk _ _ hn
    exact ⟨n', hn', hkin.path.trans hpath, hkin.label.trans hlabel⟩
  folder_at hget := by
    obtain ⟨n, hn, hpath, hlabel⟩ := h.folder_at hget
    obtain ⟨n', hn', hkin⟩ := hk _ _ hn
    exact ⟨n', hn', hkin.path.trans hpath, hkin.label.trans hlabel⟩
  files := h.files

/-- What the addition of a node does to each index. -/
theorem add_eq_ok (h : g.add t key = .ok g') : ∃ n id, t.get? key = some n ∧ t.id key = .ok id ∧
    g' = { g with
      nodes := Assoc.insert g.nodes id key
      byPath := addTo g.byPath n.path key
      byLabel := addTo g.byLabel n.label key
      files := if n.label = .file then Assoc.insert g.files n.path key else g.files
      folders := if n.label = .folder then Assoc.insert g.folders n.path key else g.folders } := by
  simp only [add, Outcome.bind_eq_ok, Outcome.pure_eq_ok, NodeTable.node_eq_ok] at h
  obtain ⟨n, hn, id, hid, rfl⟩ := h
  exact ⟨n, id, hn, hid, rfl⟩

/-- Adding a node keeps the indexes right, if it is no second file at its path. -/
theorem Indexed.add (h : Indexed t g) (ha : g.add t key = .ok g')
    (hnew : ∀ n, t.get? key = some n → n.label = .file →
      ∀ k, g.fileAt? n.path = some k → k = key) : Indexed t g' := by
  obtain ⟨n, id, hn, hid, rfl⟩ := add_eq_ok ha
  refine ⟨Assoc.nodup_keys_insert h.ids_nodup, ?_, ?_, ?_, ?_, ?_, ?_, ?_⟩
  · intro id' k hmem
    rcases Assoc.eq_or_mem_of_mem_insert hmem with heq | hmem
    · cases heq
      exact hid
    · exact h.id hmem
  · intro path k hmem
    rcases mem_addTo.mp hmem with hmem | ⟨rfl, rfl⟩
    · exact h.at_path hmem
    · exact ⟨n, hn, rfl⟩
  · intro label k hmem
    rcases mem_addTo.mp hmem with hmem | ⟨rfl, rfl⟩
    · exact h.labelled hmem
    · exact ⟨n, hn, rfl⟩
  · exact fun label => nodup_addTo label (h.labelled_nodup label)
  · intro path k hget
    simp only [fileAt?, get?_insert_if] at hget
    split at hget
    · rename_i hcase
      cases hget
      exact ⟨n, hn, hcase.2.symm, hcase.1⟩
    · exact h.file_at hget
  · intro path k hget
    simp only [get?_insert_if] at hget
    split at hget
    · rename_i hcase
      cases hget
      exact ⟨n, hn, hcase.2.symm, hcase.1⟩
    · exact h.folder_at hget
  · intro k
    simp only [nodesLabelled, fileAt?, get?_insert_if, mem_addTo]
    rw [show k ∈ (Assoc.get? g.byLabel .file).getD [] ↔ _ from h.files]
    constructor
    · rintro (⟨path, hpath⟩ | ⟨hlabel, rfl⟩)
      · by_cases hcase : n.label = .file ∧ path = n.path
        · obtain rfl := hnew n hn hcase.1 k (hcase.2 ▸ hpath)
          exact ⟨path, if_pos hcase⟩
        · exact ⟨path, (if_neg hcase).trans hpath⟩
      · exact ⟨n.path, if_pos ⟨hlabel.symm, rfl⟩⟩
    · rintro ⟨path, hpath⟩
      split at hpath
      · rename_i hcase
        cases hpath
        exact Or.inr ⟨hcase.1.symm, rfl⟩
      · exact Or.inl ⟨path, hpath⟩

/-- Folders that were found once are found again. -/
theorem hasFolderAt_add (h : g.add t key = .ok g') {path : String}
    (hp : g.hasFolderAt path = true) : g'.hasFolderAt path = true := by
  obtain ⟨n, id, hn, hid, rfl⟩ := add_eq_ok h
  simp only [hasFolderAt, Assoc.contains_iff, get?_insert_if] at hp ⊢
  split
  · rfl
  · exact hp

theorem hasFolderAt_add_self {n : Node} (h : g.add t key = .ok g') (hn : t.get? key = some n)
    (hl : n.label = .folder) : g'.hasFolderAt n.path = true := by
  obtain ⟨n', id, hn', hid, rfl⟩ := add_eq_ok h
  cases hn.symm.trans hn'
  simp [hasFolderAt, Assoc.contains_iff, hl, Assoc.get?_insert_self]

theorem references_add (h : g.add t key = .ok g') : g'.references = g.references := by
  obtain ⟨n, id, hn, hid, rfl⟩ := add_eq_ok h
  rfl

end CodeAtlas.Graph

namespace CodeAtlas
variable {t : NodeTable} {g : Graph}

theorem Relationship.exists_defines {member : NodeKey} {n : Node} (hn : t.get? member = some n)
    (hinner : NodeTable.IsInner n) (key : NodeKey) :
    ∃ r, Relationship.defines t key member = .ok r := by
  obtain ⟨d, hd, hs⟩ := hinner
  have hlabel : n.label = d.scope.label := by rw [Node.label, hd]
  cases hscope : d.scope with
  | file => exact absurd hscope hs
  | class_ =>
    rw [hscope] at hlabel
    exact ⟨_, Outcome.bind_eq_ok.mpr ⟨n, NodeTable.node_eq_ok.mpr hn, by rw [hlabel]; rfl⟩⟩
  | function =>
    rw [hscope] at hlabel
    exact ⟨_, Outcome.bind_eq_ok.mpr ⟨n, NodeTable.node_eq_ok.mpr hn, by rw [hlabel]; rfl⟩⟩

/-- If classes and functions are all there is in definitions, all relationships of members are
known. -/
theorem Graph.exists_relationships_of_inner
    (hinner : ∀ {key n d}, key ∈ Assoc.values g.nodes → t.get? key = some n →
      n.content = .definition d → ∀ m ∈ t.members key, ∃ k, t.get? m = some k ∧ NodeTable.IsInner k)
    (hids : ∀ {id key}, (id, key) ∈ g.nodes → t.id key = .ok id) :
    ∃ groups, (Assoc.values g.nodes).mapM t.relationships = .ok groups := by
  refine Outcome.exists_mapM_eq_ok fun key hkey => ?_
  obtain ⟨⟨id, k⟩, hmem, rfl⟩ := List.mem_map.mp hkey
  have hid := hids hmem
  simp only [NodeTable.id, Outcome.bind_eq_ok] at hid
  obtain ⟨n, hnode, -⟩ := hid
  cases hcontent : n.content with
  | folder => exact ⟨_, Outcome.bind_eq_ok.mpr ⟨n, hnode, by rw [hcontent]; rfl⟩⟩
  | bare label => exact ⟨_, Outcome.bind_eq_ok.mpr ⟨n, hnode, by rw [hcontent]; rfl⟩⟩
  | deleted label => exact ⟨_, Outcome.bind_eq_ok.mpr ⟨n, hnode, by rw [hcontent]; rfl⟩⟩
  | definition d =>
    have hmembers : ∀ member ∈ t.members k, ∃ r, Relationship.defines t k member = .ok r := by
      intro member hmember
      obtain ⟨n', hn', hscope⟩ :=
        hinner hkey (NodeTable.node_eq_ok.mp hnode) hcontent member hmember
      exact Relationship.exists_defines hn' hscope k
    obtain ⟨found, hfound⟩ := Outcome.exists_mapM_eq_ok hmembers
    exact ⟨found, Outcome.bind_eq_ok.mpr ⟨n, hnode, by rw [hcontent]; exact hfound⟩⟩

theorem Graph.exists_relationships (ht : t.Tidy)
    (hids : ∀ {id key}, (id, key) ∈ g.nodes → t.id key = .ok id) :
    ∃ groups, (Assoc.values g.nodes).mapM t.relationships = .ok groups := by
  refine Graph.exists_relationships_of_inner (fun _ hn hd m hm => ?_) hids
  obtain ⟨member, hmember, hinner, -⟩ := ht.inner hn hd m hm
  exact ⟨member, hmember, hinner⟩

end CodeAtlas
