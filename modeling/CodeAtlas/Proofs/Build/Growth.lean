import CodeAtlas.Proofs.Build.Chart
import CodeAtlas.Proofs.Build.Gather
import CodeAtlas.Proofs.Graph.Growth

namespace CodeAtlas
open CodeAtlas.Path NodeTable

namespace Hierarchy
variable {uri : String} {e : Option Environment} {t t' : NodeTable} {parent : NodeKey}

theorem Below.keeps (h : Below uri parent t) (hk : t.Keeps t') : Below uri parent t' := by
  obtain ⟨n, d, hn, hd, hpath⟩ := h
  obtain ⟨n', hn', hkin⟩ := hk parent n hn
  obtain ⟨d', hd', -⟩ := hkin.definition hd
  exact ⟨n', d', hn', hd', hkin.path.trans hpath⟩

mutual
theorem plant_run (w : List NodeKey) : (o : Outline) → o.Inner → ∀ {parent t},
    Below uri parent t → (plant uri e parent o).Ends t
      (fun _ t' => Growth.Run e ⟨w, t⟩ ⟨w, t'⟩) (fun _ => True)
  | .of s members, hinner, parent, t, hp => by
    rw [plant, Action.ends_bind]
    refine Action.ends_ofExcept (fun nameRange _ => ?_) trivial
    rw [Action.ends_bind]
    refine Action.ends_ofExcept (fun range _ => ?_) trivial
    rw [Action.ends_bind, Action.ends_get, Action.ends_bind]
    refine Action.ends_ofExcept (fun n _ => ?_) trivial
    rw [Action.ends_bind]
    refine Action.ends_ofExcept (fun level _ => ?_) trivial
    rw [Action.ends_bind]
    refine ends_insert (fun _ => ?_) trivial
    have hbelow : Below uri t.nodes.size (t.push (t.fresh (.definition (s.definition nameRange
      range)) uri (.str s.name) level (some parent) e)) := below_push t
    have hstep : Growth.Step e ⟨w, t⟩ ⟨w, (t.push (t.fresh (.definition (s.definition nameRange
        range)) uri (.str s.name) level (some parent) e)).appendMembers parent [t.nodes.size]⟩ := by
      obtain ⟨n, d, hn, hd, hpath⟩ := hp
      rw [← hpath]
      exact .inner s.name level hn hd hinner.1 ⟨rfl, rfl⟩
    rw [Action.ends_bind, Action.ends_modify, Action.ends_bind]
    refine (plantAll_run w members hinner.2 (hbelow.keeps (keeps_appendMembers _ _))).mono
      (fun keys t' h => ?_) fun _ h => h
    exact Action.ends_pure.mpr (hstep.run.trans h)

theorem plantAll_run (w : List NodeKey) : (os : List Outline) → InnerAll os → ∀ {parent t},
    Below uri parent t → (plantAll uri e parent os).Ends t
      (fun _ t' => Growth.Run e ⟨w, t⟩ ⟨w, t'⟩) (fun _ => True)
  | [], _, parent, t, _ => by
    rw [plantAll, Action.ends_pure]
    exact .refl
  | o :: os, hinner, parent, t, hp => by
    rw [plantAll, Action.ends_bind]
    refine (plant_run w o hinner.1 hp).mono (fun keys t' h => ?_) fun _ h => h
    rw [Action.ends_bind]
    refine (plantAll_run w os hinner.2 (hp.keeps h.keeps)).mono (fun keys' t'' h' => ?_)
      fun _ h => h
    exact Action.ends_pure.mpr (h.trans h')
end

theorem plantReading_run (w : List NodeKey) {key : NodeKey} {reading : Outline.Reading}
    (hr : InnerAll reading.members) (hp : Below uri key t) :
    (plantReading uri e (some key) reading).Ends t
      (fun _ t' => Growth.Run e ⟨w, t⟩ ⟨w, t'⟩) (fun _ => True) := by
  unfold plantReading
  dsimp only
  split
  · exact Action.ends_bind.mpr (Action.ends_pure.mpr (ends_fault .refl trivial _))
  · exact absurd ‹some key = none› (by simp)
  · rename_i heq _
    cases heq
    exact Action.ends_bind.mpr
      ((plantAll_run w _ hr hp).mono (fun _ _ h => ends_fault h trivial _) fun _ h => h)

/-- A file takes its place in a folder, and then its classes and functions below it. -/
theorem plantFile_run (ws : Workspace) (l : Option Language) (e : Option Environment)
    {folder : NodeKey} {n : Node} (w : List NodeKey) (file : ProjectFile) (level : Json)
    (hfolder : t.get? folder = some n) (hn : n.content = .folder) (hvacant : t.Vacant file.uri) :
    (plantFile ws l e (some folder) file level).Ends t
      (fun _ t' => Growth.Run e ⟨w, t⟩ ⟨w ++ [t.nodes.size], t'⟩ ∧ t'.Child folder t.nodes.size)
      (fun _ => True) := by
  have hchild : ∀ d, (t.push (t.fresh (.definition d) file.uri (.str file.name) level (some folder)
      e)).Child folder t.nodes.size := fun d => ⟨_, t.get?_push_self _, rfl⟩
  rw [plantFile]
  split
  · rw [plantPlainFile, Action.ends_bind]
    refine Action.ends_ofExcept (fun range _ => ?_) trivial
    rw [Action.ends_bind]
    refine ends_insert (fun _ => ?_) trivial
    refine Action.ends_pure.mpr ⟨Growth.Step.run ?_, hchild _⟩
    exact .file file.name level hfolder hn hvacant rfl ⟨rfl, rfl⟩
  · rename_i l _
    rw [Action.ends_bind]
    refine Action.ends_ofExcept (fun text _ => ?_) trivial
    dsimp only
    split
    · exact Action.ends_bind.mpr (Action.ends_throw.mpr trivial)
    · rw [Action.ends_bind]
      refine Action.ends_ofExcept (fun range _ => ?_) trivial
      rw [Action.ends_bind]
      refine ends_insert (fun _ => ?_) trivial
      rw [Action.ends_bind]
      refine (plantReading_run (w ++ [t.nodes.size]) (Outline.read_inner l [] _)
        (below_push t)).mono (fun below t' h => ?_) fun _ h => h
      refine Action.ends_pure.mpr ⟨Relation.ReflTransGen.head ?_ h, (hchild _).keeps h.keeps⟩
      exact .file file.name level hfolder hn hvacant rfl ⟨rfl, rfl⟩

end Hierarchy

namespace NodeTable
variable {t : NodeTable} {key : NodeKey} {n : Node}

theorem Lineage.content_eq (h : t.Lineage key n) :
    n.content = .folder ∨ ∃ d, n.content = .definition d := by
  cases h with
  | top content => exact Or.inl content
  | entry above before folder content =>
    unfold Node.containable at content
    split at content
    · exact Or.inl ‹_›
    · exact Or.inr ⟨_, ‹_›⟩
    · cases content
  | inner above before around path content => exact Or.inr ⟨_, content⟩

theorem Lineage.folder_of_label (h : t.Lineage key n) (hl : n.label = .folder) :
    n.content = .folder := by
  rcases h.content_eq with hc | ⟨d, hd⟩
  · exact hc
  · rw [Node.label, hd] at hl
    cases hs : d.scope <;> simp [hs, Scope.label] at hl

theorem Lineage.scope_of_label (h : t.Lineage key n) (hl : n.label = .file) :
    ∃ d, n.content = .definition d ∧ d.scope = .file := by
  rcases h.content_eq with hc | ⟨d, hd⟩
  · simp [Node.label, hc] at hl
  · rw [Node.label, hd] at hl
    exact ⟨d, hd, by cases hs : d.scope <;> simp [hs, Scope.label] at hl ⊢⟩

theorem Lineage.containable_of_label (h : t.Lineage key n) (hl : n.label = .file) :
    n.containable = true := by
  obtain ⟨d, hd, hs⟩ := h.scope_of_label hl
  simp [Node.containable, hd, hs]

theorem members_of_none (h : t.get? key = none) : t.members key = [] := by
  simp [members, h]

/-- Does a node with a label stand at a path? -/
def Occupies (t : NodeTable) (label : Label) (path : String) (key : NodeKey) : Prop :=
  ∃ n, t.get? key = some n ∧ n.label = label ∧ n.path = path

theorem Occupies.keeps {t' : NodeTable} {label : Label} {path : String}
    (h : t.Occupies label path key) (hk : t.Keeps t') : t'.Occupies label path key := by
  obtain ⟨n, hn, hlabel, hpath⟩ := h
  obtain ⟨n', hn', hkin⟩ := hk key n hn
  exact ⟨n', hn', hkin.label.trans hlabel, hkin.path.trans hpath⟩

/-- Are nodes those of the subfolders of a folder and, after them, of its files? -/
def AreEntries (t : NodeTable) (f : Folder) (keys : List NodeKey) : Prop :=
  ∃ subs files, keys = subs ++ files ∧
    List.Forall₂ (fun sub key => t.Occupies .folder sub.uri key) f.folders subs ∧
    List.Forall₂ (fun file key => t.Occupies .file file.uri key) f.files files

theorem AreEntries.keeps {t' : NodeTable} {f : Folder} {keys : List NodeKey}
    (h : t.AreEntries f keys) (hk : t.Keeps t') : t'.AreEntries f keys := by
  obtain ⟨subs, files, rfl, hsubs, hfiles⟩ := h
  exact ⟨subs, files, rfl, hsubs.imp fun _ _ h => h.keeps hk, hfiles.imp fun _ _ h => h.keeps hk⟩

/-- Has a folder a node, and has that the nodes of what is in the folder as members? -/
def Mirrors (t : NodeTable) (f : Folder) : Prop :=
  ∃ key, t.Occupies .folder f.uri key ∧ t.AreEntries f (t.members key)

/-- Do nodes mirror some folders, and has no other folder members yet? -/
structure MirrorsAll (t : NodeTable) (folders : List Folder) : Prop where
  each : ∀ f ∈ folders, t.Mirrors f
  others : ∀ {key n}, t.get? key = some n → n.content = .folder →
    (∀ f ∈ folders, n.path ≠ f.uri) → t.members key = []

theorem mirrorsAll_nil : MirrorsAll {} [] where
  each f hf := by cases hf
  others hn := by simp [get?] at hn

end NodeTable

namespace Atlas

/-- A folder takes nodes as members, after those that it has, and no other folder does. -/
structure Fills (folder : NodeKey) (added : List NodeKey) (a a' : Atlas) : Prop
    extends Grows a a' where
  members : ∀ {key}, (∀ n d, a'.table.get? key = some n → n.content ≠ .definition d) →
    a'.table.members key = a.table.members key ++ if key = folder then added else []

section
variable {folder : NodeKey} {added added' : List NodeKey} {a a' a'' : Atlas}

theorem Fills.of_table (hg : a.Grows a') (ht : a'.table = a.table) (folder : NodeKey) :
    Fills folder [] a a' :=
  ⟨hg, by simp [ht]⟩

theorem Fills.refl (folder : NodeKey) (a : Atlas) : Fills folder [] a a :=
  .of_table (.refl a) rfl folder

theorem Fills.trans (h : Fills folder added a a') (h' : Fills folder added' a' a'') :
    Fills folder (added ++ added') a a'' := by
  refine ⟨h.toGrows.trans h'.toGrows, fun {key} hkey => ?_⟩
  have hbefore : ∀ n d, a'.table.get? key = some n → n.content ≠ .definition d := by
    intro n d hn hd
    obtain ⟨n', hn', hkin⟩ := h'.keeps key n hn
    obtain ⟨d', hd', -⟩ := hkin.definition hd
    exact hkey n' d' hn' hd'
  rw [h'.members hkey, h.members hbefore]
  split <;> simp

theorem fills_push (ht : a.table.Tidy) {n : Node} (hn : n.members = a.table.groups.size)
    (folder : NodeKey) : Fills folder [] a { a with table := a.table.push n } :=
  ⟨grows_table (keeps_push n), fun _ => by simp [ht.members_push hn]⟩

theorem fills_contain (ht : a.table.Tidy) {n : Node} (hn : a.table.get? folder = some n)
    (m : NodeKey) : Fills folder [m] a { a with table := a.table.appendMembers folder [m] } := by
  refine ⟨grows_table (keeps_appendMembers _ _), fun {key} _ => ?_⟩
  rw [ht.members_appendMembers (lt_size hn)]
  split
  · rename_i heq
    rw [heq]
  · rw [List.append_nil]

theorem fills_retold (ht : a.table.Tidy) {t : NodeTable} (h : a.table.Retold t)
    (folder : NodeKey) : Fills folder [] a { a with table := t } := by
  refine ⟨grows_table h.keeps, fun {key} _ => ?_⟩
  rw [(h.regular ht.toRegular).members_eq, h.groups, ht.members_eq]
  simp

end

/-- An atlas on the way through the first part of a build: some nodes wait to become members, some
are not in the graph yet, and folders and files have come to some places. -/
structure Traced (e : Option Environment) (waiting unlisted : List NodeKey) (places : List String)
    (a : Atlas) : Prop where
  run : Growth.Run e ⟨[], {}⟩ ⟨waiting, a.table⟩
  placed : ∀ {key n}, a.table.get? key = some n → n.containable = true →
    ∃ path ∈ places, n.path = toUri path
  folder_at : ∀ {path key}, Assoc.get? a.graph.folders path = some key →
    ∃ n, a.table.get? key = some n ∧ n.content = .folder ∧ n.path = path
  has_folder : ∀ {key n}, a.table.get? key = some n → n.content = .folder →
    a.graph.hasFolderAt n.path = true
  has_file : ∀ {key n}, a.table.get? key = some n → n.label = .file → key ∉ unlisted →
    a.graph.fileAt? n.path = some key
  external : a.external = []

namespace Traced
variable {e : Option Environment} {w w' u u' : List NodeKey} {places places' : List String}
  {a : Atlas} {key : NodeKey} {n : Node}

theorem empty (e : Option Environment) : Traced e [] [] [] {} where
  run := .refl
  placed h := by simp [NodeTable.get?] at h
  folder_at h := by simp [Assoc.get?] at h
  has_folder h := by simp [NodeTable.get?] at h
  has_file h := by simp [NodeTable.get?] at h
  external := rfl

theorem sound (h : a.Traced e w u places) : Growth.Sound e ⟨w, a.table⟩ :=
  h.run.sound

theorem vacant (h : a.Traced e w u places) {path : String} (hp : path ∉ places) :
    a.table.Vacant (toUri path) := by
  intro key n hn hc heq
  obtain ⟨path', hpath', hn'⟩ := h.placed hn hc
  obtain rfl := toUri_injective (heq.symm.trans hn')
  exact hp hpath'

theorem mono (h : a.Traced e w u places) (hp : ∀ path ∈ places, path ∈ places') :
    a.Traced e w u places' where
  run := h.run
  placed hn hc := by
    obtain ⟨path, hpath, heq⟩ := h.placed hn hc
    exact ⟨path, hp path hpath, heq⟩
  folder_at := h.folder_at
  has_folder := h.has_folder
  has_file := h.has_file
  external := h.external

/-- A node is added to the graph, for the first time or once more. -/
theorem add (h : a.Traced e w u places) {g : Graph} (ha : a.graph.add a.table key = .ok g)
    (hu : ∀ k ∈ u, k = key ∨ k ∈ u') : Traced e w u' places { a with graph := g } := by
  obtain ⟨n, id, hn, -, rfl⟩ := Graph.add_eq_ok ha
  have hline := h.sound.lineage hn
  refine ⟨h.run, h.placed, fun {path k} hk => ?_, fun {k m} hm hc => ?_, fun {k m} hm hl hk => ?_,
    h.external⟩
  · rw [Graph.get?_insert_if] at hk
    split at hk
    · rename_i hcase
      cases hk
      exact ⟨n, hn, hline.folder_of_label hcase.1, hcase.2.symm⟩
    · exact h.folder_at hk
  · exact Graph.hasFolderAt_add ha (h.has_folder hm hc)
  · simp only [Graph.fileAt?, Graph.get?_insert_if]
    split
    · rename_i hcase
      have hsame := h.sound.apart hn hm (hline.containable_of_label hcase.1)
        ((h.sound.lineage hm).containable_of_label hl) hcase.2.symm
      rw [hsame]
    · rename_i hcase
      refine h.has_file hm hl fun hmem => ?_
      rcases hu k hmem with rfl | hmem
      · cases hn.symm.trans hm
        exact hcase ⟨hl, rfl⟩
      · exact hk hmem

theorem relist (h : a.Traced e w u places) (keys : List NodeKey) :
    a.Traced e w (keys ++ u) places where
  run := h.run
  placed := h.placed
  folder_at := h.folder_at
  has_folder := h.has_folder
  has_file hn hl hk := h.has_file hn hl fun hmem => hk (List.mem_append_right _ hmem)
  external := h.external

theorem ends_addNodes {keys : List NodeKey} (h : a.Traced e w (keys ++ u) places) :
    (addNodes keys).Ends a (fun _ a' => a'.Traced e w u places ∧ a'.table = a.table ∧ a.Grows a')
      (fun _ => True) := by
  induction keys generalizing a with
  | nil => exact Action.ends_pure.mpr ⟨h, rfl, .refl a⟩
  | cons key keys ih =>
    change (addNode key >>= fun _ => addNodes keys).Ends a _ _
    rw [Action.ends_bind]
    refine Surroundings.ends_addNode (fun g hg => ?_) trivial
    have hadded : Traced e w (keys ++ u) places { a with graph := g } :=
      h.add hg fun k hk => List.mem_cons.mp hk
    refine (ih hadded).mono ?_ fun _ h => h
    rintro - a' ⟨h', htable, hgrows⟩
    exact ⟨h', htable, (Atlas.grows_add hg).trans hgrows⟩

/-- The table grows, by files only as far as folders and files are concerned. -/
theorem retable (h : a.Traced e w u places) {t : NodeTable}
    (hrun : Growth.Run e ⟨w, a.table⟩ ⟨w', t⟩)
    (hnew : ∀ {key n}, a.table.get? key = none → t.get? key = some n → n.containable = true →
      n.label = .file ∧ key ∈ u' ∧ ∃ path ∈ places', n.path = toUri path)
    (hp : ∀ path ∈ places, path ∈ places') (hu : ∀ k ∈ u, k ∈ u') :
    Traced e w' u' places' { a with table := t } := by
  have hrun' : Growth.Run e ⟨[], {}⟩ ⟨w', t⟩ := h.run.trans hrun
  have hold : ∀ {key n m}, a.table.get? key = some m → t.get? key = some n → m.Kin n := by
    intro key n m hm hn
    obtain ⟨n', hn', hkin⟩ := hrun.keeps key m hm
    cases hn.symm.trans hn'
    exact hkin
  refine ⟨hrun', fun {key n} hn hc => ?_, fun hk => ?_, fun {key n} hn hc => ?_,
    fun {key n} hn hl hk => ?_, h.external⟩
  · cases hm : a.table.get? key with
    | none => exact (hnew hm hn hc).2.2
    | some m =>
      have hkin := hold hm hn
      obtain ⟨path, hpath, heq⟩ := h.placed hm (hkin.containable.symm.trans hc)
      exact ⟨path, hp path hpath, hkin.path.trans heq⟩
  · obtain ⟨m, hm, hc, hpath⟩ := h.folder_at hk
    obtain ⟨n, hn, hkin⟩ := hrun.keeps _ m hm
    exact ⟨n, hn, hkin.folder hc, hkin.path.trans hpath⟩
  · cases hm : a.table.get? key with
    | none =>
      have hl := (hnew hm hn (by simp [Node.containable, hc])).1
      simp [Node.label, hc] at hl
    | some m =>
      have hkin := hold hm hn
      rw [hkin.path]
      exact h.has_folder hm (hkin.symm.folder hc)
  · cases hm : a.table.get? key with
    | none => exact absurd (hnew hm hn ((hrun'.sound.lineage hn).containable_of_label hl)).2.1 hk
    | some m =>
      have hkin := hold hm hn
      rw [hkin.path]
      exact h.has_file hm (hkin.label.symm.trans hl) fun hmem => hk (hu key hmem)

/-- A step that adds no node. -/
theorem step (h : a.Traced e w u places) {t : NodeTable}
    (hstep : Growth.Step e ⟨w, a.table⟩ ⟨w', t⟩) (hsize : t.nodes.size = a.table.nodes.size) :
    Traced e w' u places { a with table := t } := by
  refine h.retable hstep.run (fun hnone hn => ?_) (fun _ h => h) fun _ h => h
  have hlt := lt_size hn
  rw [hsize] at hlt
  exact absurd hlt (Nat.not_lt_of_le (get?_eq_none.mp hnone))

/-- Nodes that wait for it become members of a folder, one after the other. -/
theorem ends_contain {keys : List NodeKey} (h : a.Traced e keys u places)
    (hchild : ∀ m ∈ keys, a.table.Child key m) :
    (contain key keys).Ends a (fun _ a' => a'.Traced e [] u places ∧ a.Fills key keys a')
      (fun _ => True) := by
  rw [contain, Action.ends_bind, Action.ends_get, Action.ends_bind]
  refine Action.ends_ofExcept (fun n hfolder => ?_) trivial
  obtain ⟨hn, hcontent⟩ := folder_eq_ok.mp hfolder
  suffices hloop : ∀ (rest : List NodeKey) (a' : Atlas), a'.Traced e rest u places →
      a'.table.get? key = some n → (∀ m ∈ rest, a'.table.Child key m) →
      (rest.forM (containOne key)).Ends a'
        (fun _ a'' => a''.Traced e [] u places ∧ a'.Fills key rest a'') (fun _ => True) from
    hloop keys a h hn hchild
  intro rest
  induction rest with
  | nil => exact fun a' h' _ _ => Action.ends_pure.mpr ⟨h', .refl key a'⟩
  | cons m rest ih =>
    intro a' h' hn' hchild'
    obtain ⟨hm, hrest⟩ := List.forall_mem_cons.mp hchild'
    change (containOne key m >>= fun _ => rest.forM (containOne key)).Ends a' _ _
    rw [containOne, Action.ends_bind, Action.ends_bind, Action.ends_get]
    dsimp only
    split
    · exact Action.ends_bind.mpr (Action.ends_throw.mpr trivial)
    · rw [Action.ends_set]
      have hkeeps := keeps_appendMembers (t := a'.table) key [m]
      have htaken : Traced e rest u places
          { a' with table := a'.table.appendMembers key [m] } :=
        h'.step (.contain hm hn' hcontent) (size_appendMembers _ _)
      refine (ih _ htaken ((get?_appendMembers ..).trans hn') fun j hj => ?_).mono ?_ fun _ h => h
      · exact (hrest j hj).keeps hkeeps
      · rintro - a'' ⟨h'', hfills⟩
        exact ⟨h'', (fills_contain h'.sound.tidy hn' m).trans hfills⟩

/-- A new folder is in the graph as soon as it has its place. -/
theorem pushFolder (h : a.Traced e w [] places) {path name : String} {level : Json}
    {parent : Option NodeKey} {g : Graph}
    (hstep : Growth.Step e ⟨w, a.table⟩
      ⟨w', a.table.push (a.table.fresh .folder (toUri path) (.str name) level parent e)⟩)
    (hg : a.graph.add (a.table.push (a.table.fresh .folder (toUri path) (.str name) level parent e))
      a.table.nodes.size = .ok g) :
    Traced e w' [] (places ++ [path]) ⟨a.table.push (a.table.fresh .folder (toUri path) (.str name)
      level parent e), g, a.external⟩ := by
  have hnew :=
    a.table.get?_push_self (a.table.fresh .folder (toUri path) (.str name) level parent e)
  refine ⟨h.run.tail hstep, fun {key m} hm hc => ?_, fun {at_ key} hk => ?_,
    fun {key m} hm hc => ?_, fun {key m} hm hl _ => ?_, h.external⟩
  · rcases of_get?_push hm with ⟨-, rfl⟩ | hm
    · exact ⟨path, by simp, rfl⟩
    · obtain ⟨path', hpath', heq⟩ := h.placed hm hc
      exact ⟨path', by simp [hpath'], heq⟩
  · obtain ⟨n, id, hn, -, rfl⟩ := Graph.add_eq_ok hg
    rw [Graph.get?_insert_if] at hk
    split at hk
    · rename_i hcase
      cases hk
      cases hnew.symm.trans hn
      exact ⟨_, hnew, rfl, hcase.2.symm⟩
    · obtain ⟨n', hn', hc, hpath⟩ := h.folder_at hk
      exact ⟨n', get?_push_of_some hn', hc, hpath⟩
  · rcases of_get?_push hm with ⟨rfl, rfl⟩ | hm
    · exact Graph.hasFolderAt_add_self hg hnew rfl
    · exact Graph.hasFolderAt_add hg (h.has_folder hm hc)
  · rcases of_get?_push hm with ⟨-, rfl⟩ | hold
    · cases hl
    · obtain ⟨n, id, hn, -, rfl⟩ := Graph.add_eq_ok hg
      cases hnew.symm.trans hn
      exact h.has_file hold hl (by simp)

end Traced
end Atlas

namespace NodeTable
variable {e : Option Environment} {w : List NodeKey} {a a' : Atlas} {key : NodeKey} {n : Node}

theorem Occupies.content (hs : Growth.Sound e ⟨w, a.table⟩) {path : String}
    (h : a.table.Occupies .folder path key) :
    ∃ n, a.table.get? key = some n ∧ n.content = .folder ∧ n.path = path := by
  obtain ⟨n, hn, hlabel, hpath⟩ := h
  exact ⟨n, hn, (hs.lineage hn).folder_of_label hlabel, hpath⟩

theorem Occupies.ne {label : Label} {path path' : String} {k : NodeKey}
    (h : a.table.Occupies label path key) (h' : a.table.Occupies label path' k)
    (hne : path ≠ path') : key ≠ k := by
  rintro rfl
  obtain ⟨n, hn, -, hpath⟩ := h
  obtain ⟨n', hn', -, hpath'⟩ := h'
  cases hn.symm.trans hn'
  exact hne (hpath.symm.trans hpath')

/-- A folder of which the walk has not come to the entries before is filled with them. -/
theorem MirrorsAll.fill {folders : List Folder} {f : Folder} {keys : List NodeKey}
    (h : a.table.MirrorsAll folders) (hs : Growth.Sound e ⟨w, a'.table⟩)
    (hfills : a.Fills key keys a') (hkey : a'.table.Occupies .folder f.uri key)
    (hkeys : a'.table.AreEntries f keys) (hnew : ∀ g ∈ folders, g.uri ≠ f.uri) :
    a'.table.MirrorsAll (folders ++ [f]) := by
  have hmembers : ∀ {k n}, a'.table.get? k = some n → n.content = .folder →
      a'.table.members k = a.table.members k ++ if k = key then keys else [] := by
    intro k n hn hc
    refine hfills.members fun n' d hn' hd => ?_
    cases hn.symm.trans hn'
    cases hc.symm.trans hd
  -- a folder without members in the table before is new, or the walk has not come to it
  have hempty : ∀ {k n}, a'.table.get? k = some n → n.content = .folder →
      (∀ g ∈ folders, n.path ≠ g.uri) → a.table.members k = [] := by
    intro k n hn hc hpath
    cases hold : a.table.get? k with
    | none => exact members_of_none hold
    | some m =>
      obtain ⟨n', hn', hkin⟩ := hfills.keeps k m hold
      cases hn.symm.trans hn'
      exact h.others hold (hkin.symm.folder hc) fun g hg heq => hpath g hg (hkin.path.trans heq)
  refine ⟨fun g hg => ?_, fun {k n} hn hc hpath => ?_⟩
  · rcases List.mem_append.mp hg with hg | hg
    · obtain ⟨k, hk, hentries⟩ := h.each g hg
      have hk' := hk.keeps hfills.keeps
      obtain ⟨n, hn, hc, -⟩ := hk'.content hs
      refine ⟨k, hk', ?_⟩
      rw [hmembers hn hc, if_neg (hk'.ne hkey (hnew g hg)), List.append_nil]
      exact hentries.keeps hfills.keeps
    · obtain rfl := List.mem_singleton.mp hg
      obtain ⟨n, hn, hc, hpath⟩ := hkey.content hs
      refine ⟨key, hkey, ?_⟩
      rw [hmembers hn hc, hempty hn hc fun g hg heq => hnew g hg (heq.symm.trans hpath), if_pos rfl]
      exact hkeys
  · obtain ⟨hfolders, hlast⟩ := List.forall_mem_append.mp hpath
    have hne : k ≠ key := by
      rintro rfl
      obtain ⟨n', hn', -, hpath'⟩ := hkey
      cases hn.symm.trans hn'
      exact hlast f (by simp) hpath'
    rw [hmembers hn hc, hempty hn hc hfolders, if_neg hne, List.append_nil]

end NodeTable

namespace Builder
variable {e : Option Environment} {w : List NodeKey} {places : List String} {p : Project}
  {b : Builder}

/-- The node of a folder is found, or it takes a place that is vacant. -/
theorem ends_folderNode_traced (h : b.atlas.Traced e w [] places) {f : Subfolder}
    {parent : Option NodeKey} (w' : List NodeKey)
    (hnew : b.atlas.graph.hasFolderAt f.uri = true ∨ ∀ level, Growth.Step e ⟨w, b.atlas.table⟩
      ⟨w', b.atlas.table.push (b.atlas.table.fresh .folder f.uri (.str f.name) level parent e)⟩) :
    (folderNode e parent f).Ends b
      (fun key b' => (∀ folder, b.atlas.Fills folder [] b'.atlas) ∧
        (∃ n, b'.atlas.table.get? key = some n ∧ n.content = .folder ∧ n.path = f.uri) ∧
        b'.atlas.graph.hasFolderAt f.uri = true ∧
        (b.atlas.graph.hasFolderAt f.uri = true ∧ b'.atlas.Traced e w [] places ∨
          b'.atlas.Traced e w' [] (places ++ [f.path]) ∧ key = b.atlas.table.nodes.size ∧
            ∀ k, parent = some k → b'.atlas.table.Child k key))
      (fun _ => True) := by
  rw [folderNode, Action.ends_bind]
  refine ends_graph ?_
  split
  · rename_i hhas
    refine Action.ends_ofExcept (fun key hkey => ?_) trivial
    rw [Graph.folderAt] at hkey
    split at hkey
    · rename_i hget
      cases hkey
      exact ⟨fun folder => .refl folder _, h.folder_at hget, hhas, Or.inl ⟨hhas, h⟩⟩
    · cases hkey
  · rename_i hhas
    rw [Action.ends_bind, Surroundings.ends_onTable]
    refine ends_insert (fun _ => ?_) trivial
    rw [Action.ends_bind, onAtlas, Action.ends_zoom]
    refine Surroundings.ends_addNode (fun g hg => ?_) trivial
    have hpushed := h.pushFolder (hnew.resolve_left hhas (.int f.level)) hg
    have hself := b.atlas.table.get?_push_self (b.atlas.table.fresh .folder f.uri (.str f.name)
      (.int f.level) parent e)
    refine Action.ends_pure.mpr ⟨fun folder => ?_, ⟨_, hself, rfl, rfl⟩,
      Graph.hasFolderAt_add_self hg hself rfl, Or.inr ⟨hpushed, rfl, fun k hk => ⟨_, hself, hk⟩⟩⟩
    exact (Atlas.fills_push h.sound.tidy rfl folder).trans
      (.of_table (Atlas.grows_add hg) rfl folder)

/-- What is planted for a file are definitions, and none of them is a member of a folder yet. -/
theorem fills_planted {a : Atlas} (h : a.Traced e [] [] places) {t : NodeTable}
    {above : Option NodeKey} {file : ProjectFile} (hfiled : Hierarchy.Filed e above file a.table t)
    (hrun : Growth.Run e ⟨[], a.table⟩ ⟨[a.table.nodes.size], t⟩) (folder : NodeKey) :
    a.Fills folder [] { a with table := t } := by
  refine ⟨Atlas.grows_table hrun.keeps, fun {key} hkey => ?_⟩
  have hsound := Growth.Run.sound (h.run.trans hrun)
  rw [Growth.Run.members_eq h.run hrun fun m hm => ?_, ite_self, List.append_nil]
  obtain ⟨hchild, hwaits⟩ := hsound.members.mp hm
  refine h.sound.members.mpr ⟨?_, List.not_mem_nil⟩
  obtain ⟨n, hn, hparent⟩ := hchild
  by_cases hold : m < a.table.nodes.size
  · exact ⟨n, (hfiled.old hold).symm.trans hn, hparent⟩
  · -- a class or function, which is a member of a definition
    obtain ⟨-, -, hkind⟩ := hfiled.new (Nat.le_of_not_lt hold) hn
    rw [if_neg (by simpa using hwaits)] at hkind
    obtain ⟨d, hd, hscope⟩ := hkind
    cases hsound.lineage hn with
    | top content => cases hd.symm.trans content
    | entry _ _ _ content => simp [Node.containable, hd, hscope] at content
    | inner above before around path content scope parent =>
      obtain rfl := Option.some.inj (hparent.symm.trans parent)
      exact absurd around (hkey _ _ above)

/-- A new file takes its place in its folder with all its definitions. -/
theorem ends_addFile_traced (h : b.atlas.Traced p.environment [] [] places) {folder : NodeKey}
    {n : Node} (hn : b.atlas.table.get? folder = some n) (hc : n.content = .folder)
    {file : ProjectFile} (hnew : file.path ∉ places) :
    (addFile p folder file).Ends b
      (fun _ b' => b'.atlas.Traced p.environment [] [] (places ++ [file.path]) ∧
        ∃ key, b.atlas.Fills folder [key] b'.atlas ∧
          b'.atlas.table.Occupies .file file.uri key) (fun _ => True) := by
  rw [addFile, Action.ends_bind]
  refine (Surroundings.ends_announce _ file).mono (fun _ b₁ h₁ => ?_) fun _ _ => trivial
  rw [Action.ends_bind, Surroundings.ends_onTable, h₁]
  refine ((Hierarchy.plantFile_filed p.workspace (Language.ofExtension? file.extension)
    p.environment (some folder) file (.int file.level) h.sound.tidy).and
    (Hierarchy.plantFile_run p.workspace (Language.ofExtension? file.extension) p.environment []
      file (.int file.level) hn hc (h.vacant hnew))).mono ?_ fun _ _ => trivial
  rintro keys t ⟨⟨-, hfiled, below, rfl, hlt, hbelow⟩, hrun, hchild⟩
  have hfirst : ∀ m, t.get? b.atlas.table.nodes.size = some m →
      m.label = .file ∧ m.path = file.uri := by
    intro m hm
    obtain ⟨hpath, -, hkind⟩ := hfiled.new (Nat.le_refl _) hm
    rw [if_pos rfl] at hkind
    exact ⟨hkind.1, hpath⟩
  have hfills := fills_planted h hfiled hrun folder
  -- of the nodes that are new only that of the file itself is no class or function
  have hplanted : Atlas.Traced p.environment [b.atlas.table.nodes.size]
      ((b.atlas.table.nodes.size :: below) ++ []) (places ++ [file.path])
      { b.atlas with table := t } := by
    refine h.retable hrun (fun {key m} hnone hm hm' => ?_) (by simp +contextual) (by simp)
    obtain ⟨hpath, -, hkind⟩ := hfiled.new (get?_eq_none.mp hnone) hm
    split at hkind
    · rename_i heq
      exact ⟨hkind.1, by simp [heq], file.path, by simp, hpath⟩
    · obtain ⟨d, hd, hs⟩ := hkind
      simp [Node.containable, hd, hs] at hm'
  rw [Action.ends_bind, onAtlas, Action.ends_zoom]
  refine hplanted.ends_addNodes.mono ?_ fun _ _ => trivial
  rintro - a₂ ⟨h₂, htable, hgrows₂⟩
  rw [Action.ends_bind]
  refine ends_table ?_
  rw [Action.ends_bind]
  refine Action.ends_ofExcept (fun key hkey => ?_) trivial
  obtain ⟨m, hm⟩ := get?_of_lt hlt
  have hm₂ : a₂.table.get? b.atlas.table.nodes.size = some m := by rw [htable]; exact hm
  obtain rfl : key = b.atlas.table.nodes.size := by
    simp only [fileNode, List.find?_cons, hm₂, Option.any_some, (hfirst m hm).1,
      decide_true] at hkey
    cases hkey
    rfl
  have hoccupies : a₂.table.Occupies .file file.uri b.atlas.table.nodes.size :=
    ⟨m, hm₂, hfirst m hm⟩
  rw [Action.ends_bind, Surroundings.ends_onTable]
  refine (ends_skeletonize _ a₂.table).mono (fun _ t₃ h₃ => ?_) fun _ _ => trivial
  have hretold := h₂.step (.retold h₃) h₃.size
  rw [onAtlas, Action.ends_zoom]
  refine (hretold.ends_contain fun m hm => ?_).mono ?_ fun _ _ => trivial
  · rw [List.mem_singleton] at hm
    subst hm
    exact Child.keeps (htable ▸ hchild) h₃.keeps
  · rintro - a₄ ⟨h₄, hfills₄⟩
    refine ⟨h₄, b.atlas.table.nodes.size, ?_, hoccupies.keeps (h₃.keeps.trans hfills₄.keeps)⟩
    have hfills₂ := hfills.trans (.of_table hgrows₂ htable folder)
    exact (hfills₂.trans (Atlas.fills_retold h₂.sound.tidy h₃ folder)).trans hfills₄

/-- What comes next in a list without repetition is not among what came before. -/
theorem not_mem_append_of_nodup {before after : List String} {path : String}
    (h : (before ++ path :: after).Nodup) (hnew : path ∉ places) : path ∉ places ++ before := by
  intro hmem
  rcases List.mem_append.mp hmem with hmem | hmem
  · exact hnew hmem
  · exact (List.nodup_append.mp h).2.2 path hmem path List.mem_cons_self rfl

theorem ends_addFiles_traced (h : b.atlas.Traced p.environment [] [] places) {folder : NodeKey}
    {n : Node} (hn : b.atlas.table.get? folder = some n) (hc : n.content = .folder)
    {files : List ProjectFile} (hnew : ∀ path ∈ files.map ProjectFile.path, path ∉ places)
    (hnodup : (files.map ProjectFile.path).Nodup) :
    (files.forM (addFile p folder)).Ends b
      (fun _ b' => b'.atlas.Traced p.environment [] [] (places ++ files.map ProjectFile.path) ∧
        ∃ keys, b.atlas.Fills folder keys b'.atlas ∧
          List.Forall₂ (fun file key => b'.atlas.table.Occupies .file file.uri key) files keys)
      (fun _ => True) := by
  refine Action.ends_forM (I := fun before (b' : Builder) =>
    b'.atlas.Traced p.environment [] [] (places ++ before.map ProjectFile.path) ∧
      ∃ keys, b.atlas.Fills folder keys b'.atlas ∧
        List.Forall₂ (fun file key => b'.atlas.table.Occupies .file file.uri key) before keys)
    ⟨by simpa using h, [], .refl _ _, .nil⟩ ?_
  rintro before file after hsplit b' ⟨h', keys, hfills, hkeys⟩
  obtain ⟨n', hn', hkin⟩ := hfills.keeps folder n hn
  have hfresh : file.path ∉ places ++ before.map ProjectFile.path := by
    rw [hsplit] at hnew hnodup
    exact not_mem_append_of_nodup (by simpa using hnodup) (hnew _ (by simp))
  refine (ends_addFile_traced h' hn' (hkin.folder hc) hfresh).mono ?_ fun _ h => h
  rintro - b'' ⟨h'', key, hfills', hkey⟩
  refine ⟨by simpa using h'', keys ++ [key], hfills.trans hfills', ?_⟩
  exact List.rel_append (hkeys.imp fun _ _ h => h.keeps hfills'.keeps) (.cons hkey .nil)

theorem ends_subfolders_traced (h : b.atlas.Traced e [] [] places) {key : NodeKey} {n : Node}
    (hn : b.atlas.table.get? key = some n) (hc : n.content = .folder) {subs : List Subfolder}
    (hnew : ∀ path ∈ subs.map Subfolder.path, path ∉ places)
    (hnodup : (subs.map Subfolder.path).Nodup) :
    (subs.mapM (folderNode e (some key))).Ends b
      (fun keys b' => b'.atlas.Traced e keys [] (places ++ subs.map Subfolder.path) ∧
        b.atlas.Fills key [] b'.atlas ∧ (∀ m ∈ keys, b'.atlas.table.Child key m) ∧
        (∀ sub ∈ subs, b'.atlas.graph.hasFolderAt sub.uri = true) ∧
        List.Forall₂ (fun sub m => b'.atlas.table.Occupies .folder sub.uri m) subs keys)
      (fun _ => True) := by
  refine Action.ends_mapM (I := fun before keys (b' : Builder) =>
    b'.atlas.Traced e keys [] (places ++ before.map Subfolder.path) ∧
      b.atlas.Fills key [] b'.atlas ∧
      (∀ m ∈ keys, b'.atlas.table.Child key m) ∧
      (∀ sub ∈ before, b'.atlas.graph.hasFolderAt sub.uri = true) ∧
      List.Forall₂ (fun sub m => b'.atlas.table.Occupies .folder sub.uri m) before keys)
    ⟨by simpa using h, .refl _ _, by simp, by simp, .nil⟩ ?_
  rintro before sub after hsplit keys b' ⟨h', hfills, hchild, hhas, hkeys⟩
  obtain ⟨n', hn', hkin⟩ := hfills.keeps key n hn
  have hfresh : sub.path ∉ places ++ before.map Subfolder.path := by
    rw [hsplit] at hnew hnodup
    exact not_mem_append_of_nodup (by simpa using hnodup) (hnew _ (by simp))
  have hvacant : b'.atlas.table.Vacant sub.uri := h'.vacant hfresh
  have hstep : ∀ level, Growth.Step e ⟨keys, b'.atlas.table⟩
      ⟨keys ++ [b'.atlas.table.nodes.size],
        b'.atlas.table.push (b'.atlas.table.fresh .folder sub.uri (.str sub.name) level (some key)
          e)⟩ :=
    fun level => .folder sub.name level hn' (hkin.folder hc) hvacant
  refine (ends_folderNode_traced h' _ (Or.inr hstep)).mono ?_ fun _ h => h
  rintro k b'' ⟨hfills', ⟨m, hm, hmc, hmp⟩, hhas', ⟨hold, -⟩ | ⟨h'', rfl, hchild'⟩⟩
  · -- a folder that can be found has its place, and the place is vacant
    obtain ⟨k', hk'⟩ := Option.isSome_iff_exists.mp (Assoc.contains_iff.mp hold)
    obtain ⟨m, hm, hmc, hmp⟩ := h'.folder_at hk'
    exact absurd hmp (hvacant k' m hm (by simp [Node.containable, hmc]))
  · have hkeeps := (hfills' key).keeps
    refine ⟨by simpa using h'', hfills.trans (hfills' key), ?_, ?_, ?_⟩
    · intro m hm
      rcases List.mem_append.mp hm with hm | hm
      · exact (hchild m hm).keeps hkeeps
      · exact List.mem_singleton.mp hm ▸ hchild' key rfl
    · intro s hs
      rcases List.mem_append.mp hs with hs | hs
      · exact (hfills' key).folders (hhas s hs)
      · exact List.mem_singleton.mp hs ▸ hhas'
    · refine List.rel_append (hkeys.imp fun _ _ h => h.keeps hkeeps) (.cons ?_ .nil)
      exact ⟨m, hm, by simp [Node.label, hmc], hmp⟩

/-- A folder takes its place, unless it has it, and then what is in it. -/
theorem ends_addFolder_traced (h : b.atlas.Traced p.environment [] [] places) {f : Folder}
    (hknown : b.atlas.graph.hasFolderAt f.uri = true ∨ f.path ∉ places)
    (hnew : ∀ path ∈ f.entries, path ∉ places) (hself : f.path ∉ f.entries)
    (hnodup : f.entries.Nodup) :
    (addFolder p f).Ends b
      (fun _ b' => b'.atlas.Traced p.environment [] [] (places ++ f.path :: f.entries) ∧
        (∀ sub ∈ f.folders, b'.atlas.graph.hasFolderAt sub.uri = true) ∧
        ∃ key keys, b'.atlas.table.Occupies .folder f.uri key ∧ b.atlas.Fills key keys b'.atlas ∧
          b'.atlas.table.AreEntries f keys) (fun _ => True) := by
  obtain ⟨hsubs, hfiles, hdisjoint⟩ := List.nodup_append.mp hnodup
  have hnew' : ∀ path ∈ f.entries, path ∉ places ++ [f.path] := by
    intro path hpath hmem
    rcases List.mem_append.mp hmem with hmem | hmem
    · exact hnew path hpath hmem
    · exact hself (List.mem_singleton.mp hmem ▸ hpath)
  have htop : b.atlas.graph.hasFolderAt f.announced.uri = true ∨ ∀ level,
      Growth.Step p.environment ⟨[], b.atlas.table⟩ ⟨[], b.atlas.table.push (b.atlas.table.fresh
        .folder f.announced.uri (.str f.announced.name) level none p.environment)⟩ :=
    hknown.imp_right fun hfresh level => .top _ level (h.vacant hfresh)
  rw [addFolder, Action.ends_bind]
  refine (ends_folderNode_traced h [] htop).mono ?_ fun _ h => h
  rintro key b₁ ⟨hfills₁, ⟨n, hn, hc, hpath⟩, -, hcase⟩
  have h₁ : b₁.atlas.Traced p.environment [] [] (places ++ [f.path]) := by
    rcases hcase with ⟨-, h₁⟩ | ⟨h₁, -⟩
    · exact h₁.mono fun path hpath => List.mem_append_left _ hpath
    · exact h₁
  rw [Action.ends_bind]
  refine (ends_subfolders_traced h₁ hn hc (fun path hpath => hnew' path
    (List.mem_append_left _ hpath)) hsubs).mono ?_ fun _ h => h
  rintro keys b₂ ⟨h₂, hfills₂, hchild, hhas, hkeys⟩
  rw [Action.ends_bind, onAtlas, Action.ends_zoom]
  refine (h₂.ends_contain hchild).mono ?_ fun _ h => h
  rintro - a₃ ⟨h₃, hfills₃⟩
  rw [Action.ends_bind, onAtlas, Action.ends_zoom]
  -- the subfolders are in the graph already
  refine (Atlas.Traced.ends_addNodes (u := []) (h₃.relist _)).mono ?_ fun _ h => h
  rintro - a₄ ⟨h₄, htable₄, hgrows₄⟩
  have hfills₃₄ := hfills₃.trans (.of_table hgrows₄ htable₄ key)
  have hfills₂₄ := hfills₂.trans hfills₃₄
  obtain ⟨n', hn', hkin⟩ := hfills₂₄.keeps key n hn
  have hnew₄ : ∀ path ∈ f.files.map ProjectFile.path,
      path ∉ places ++ [f.path] ++ f.folders.map Subfolder.path := by
    intro path hpath hmem
    rcases List.mem_append.mp hmem with hmem | hmem
    · exact hnew' path (List.mem_append_right _ hpath) hmem
    · exact hdisjoint path hmem path hpath rfl
  refine (ends_addFiles_traced h₄ hn' (hkin.folder hc) hnew₄ hfiles).mono ?_ fun _ h => h
  rintro - b₅ ⟨h₅, files, hfills₅, hfiles⟩
  have hoccupies : b₁.atlas.table.Occupies .folder f.uri key :=
    ⟨n, hn, by simp [Node.label, hc], hpath⟩
  have hfills₃₅ := hfills₃₄.trans hfills₅
  refine ⟨by simpa [Folder.entries] using h₅, fun sub hsub => hfills₃₅.folders (hhas sub hsub), key,
    keys ++ files, hoccupies.keeps (hfills₂₄.trans hfills₅).keeps, ?_, keys, files, rfl, ?_, hfiles⟩
  · simpa using (hfills₁ key).trans (hfills₂₄.trans hfills₅)
  · exact hkeys.imp fun _ _ h => h.keeps hfills₃₅.keeps

theorem ends_addFolders_traced {root : String} {top : List String} (hroot : root ≠ "")
    {folders : List Folder} (hlaid : Walk.Laid root [] (Walk.IsTop root top) folders)
    (hb : b.atlas = {}) :
    (folders.forM (addFolder p)).Ends b (fun _ b' =>
      b'.atlas.Traced p.environment [] [] (folders.flatMap fun f => f.path :: f.entries) ∧
        b'.atlas.table.MirrorsAll folders) (fun _ => True) := by
  refine (Action.ends_forM (I := fun before (b' : Builder) =>
    b'.atlas.Traced p.environment [] [] (before.flatMap fun f => f.path :: f.entries) ∧
      (∀ g ∈ before, ∀ sub ∈ g.folders, b'.atlas.graph.hasFolderAt sub.uri = true) ∧
      b'.atlas.table.MirrorsAll before)
    ⟨by simpa [hb] using Atlas.Traced.empty p.environment, by simp, by simp [hb, mirrorsAll_nil]⟩
    ?_).mono (fun _ _ h => ⟨h.1, h.2.2⟩) fun _ h => h
  rintro before f after rfl b' ⟨h', hhas, hmirrors⟩
  have hnodup := hlaid.entries_nodup hroot
  rw [List.flatMap_append, List.flatMap_cons] at hnodup
  obtain ⟨-, hnodup, hapart⟩ := List.nodup_append.mp hnodup
  have hknown : b'.atlas.graph.hasFolderAt f.uri = true ∨
      f.path ∉ before.flatMap fun f => f.path :: f.entries := by
    rcases hlaid.announced.known_or_before with htop | ⟨g, hg, sub, hsub, hpath⟩
    · right
      intro hmem
      obtain ⟨g, hg, hmem⟩ := List.mem_flatMap.mp hmem
      rcases List.mem_cons.mp hmem with heq | hmem
      · exact (List.pairwise_append.mp hlaid.apart).2.2 g hg f (by simp) heq.symm
      · exact hlaid.not_mem_entries hroot htop
          (List.mem_flatMap.mpr ⟨g, List.mem_append_left _ hg, hmem⟩)
    · left
      have hfound := hhas g hg sub hsub
      rwa [Subfolder.uri, hpath] at hfound
  have hnew : ∀ path ∈ f.entries, path ∉ before.flatMap fun f => f.path :: f.entries := by
    intro path hpath hmem
    obtain ⟨g, hg, hmem⟩ := List.mem_flatMap.mp hmem
    rcases List.mem_cons.mp hmem with rfl | hmem
    · obtain ⟨first, second, rfl⟩ := List.append_of_mem hg
      rw [List.append_assoc, List.cons_append] at hlaid
      exact hlaid.path_not_mem_entries hroot (by simp) hpath
    · exact hapart path (List.mem_flatMap.mpr ⟨g, hg, hmem⟩) path
        (List.mem_append_left _ hpath) rfl
  have hself : f.path ∉ f.entries := hlaid.path_not_mem_entries hroot (by simp)
  refine (ends_addFolder_traced h' hknown hnew hself (List.nodup_append.mp hnodup).1).mono ?_
    fun _ h => h
  rintro - b'' ⟨h'', hsubs, key, keys, hkey, hfills, hentries⟩
  refine ⟨by simpa using h'', fun g hg sub hsub => ?_, ?_⟩
  · rcases List.mem_append.mp hg with hg | hg
    · exact hfills.folders (hhas g hg sub hsub)
    · exact hsubs sub (List.mem_singleton.mp hg ▸ hsub)
  · refine hmirrors.fill h''.sound hfills hkey hentries fun g hg heq => ?_
    exact (List.pairwise_append.mp hlaid.apart).2.2 g hg f (by simp) (toUri_injective heq)

/-- However a project is laid out, the first part of a build is a run of growth, and each folder of
the walk has a node with its entries as members, and no other folder has any. -/
theorem ends_addProject_mirrors (hd : p.workspace.disk.Proper) (hb : b.atlas = {}) :
    (addProject p).Ends b (fun _ b' => (Walk.of p.workspace.disk p.rules).fault = none ∧
      b'.atlas.Traced p.environment [] []
        ((Walk.of p.workspace.disk p.rules).folders.flatMap fun f => f.path :: f.entries) ∧
      b'.atlas.table.MirrorsAll (Walk.of p.workspace.disk p.rules).folders)
      (fun _ => True) := by
  rw [addProject, Action.ends_bind]
  have hfolders : ((Walk.of p.workspace.disk p.rules).folders.forM (addFolder p)).Ends b
      (fun _ b' => b'.atlas.Traced p.environment [] []
        ((Walk.of p.workspace.disk p.rules).folders.flatMap fun f => f.path :: f.entries) ∧
        b'.atlas.table.MirrorsAll (Walk.of p.workspace.disk p.rules).folders)
      (fun _ => True) := by
    by_cases hnil : (Walk.of p.workspace.disk p.rules).folders = []
    · rw [hnil]
      exact Action.ends_pure.mpr ⟨hb ▸ .empty _, hb ▸ mirrorsAll_nil⟩
    · obtain ⟨root, hr, hroot⟩ := Walk.root_of_folders hnil
      obtain ⟨top, hlaid, -⟩ := Walk.of_laid hd hr
      exact ends_addFolders_traced hroot hlaid hb
  refine hfolders.mono (fun _ b' h' => ?_) fun _ h => h
  split
  · exact Action.ends_throw.mpr trivial
  · rename_i hfault
    exact Action.ends_modify.mpr ⟨hfault, h'⟩

theorem ends_addProject_traced (hd : p.workspace.disk.Proper) (hb : b.atlas = {}) :
    (addProject p).Ends b (fun _ b' => ∃ places, b'.atlas.Traced p.environment [] [] places)
      (fun _ => True) :=
  (ends_addProject_mirrors hd hb).mono (fun _ _ h => ⟨_, h.2.1⟩) fun _ h => h

end Builder
end CodeAtlas
