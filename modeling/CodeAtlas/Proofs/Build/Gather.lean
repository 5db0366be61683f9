import CodeAtlas.Build.Builder
import CodeAtlas.Proofs.References
import CodeAtlas.Proofs.Server.Tables

namespace CodeAtlas
open Server

namespace Atlas

def relationshipsTo (a : Answers) (m : Atlas) (key : NodeKey) :
    Except Fault (List Relationship) := do
  let n ← m.table.node key
  let d ← m.table.definition key
  let places ← a.placesOf n d.nameRange
  References.relationshipsTo (Language.ofExtension? n.extension) m.table m.graph key places

def definitionsAt (m : Atlas) (path : String) : List NodeKey :=
  (m.graph.nodesAt path).filter fun key => (m.table.get? key).any fun n => n.label ≠ .file

/-- The relationships to all definitions in a file, by the tables. -/
def relationshipsInto (a : Answers) (m : Atlas) (file : NodeKey) :
    Except Fault (List Relationship) := do
  let n ← m.table.node file
  pure (← (m.definitionsAt n.path).mapM (m.relationshipsTo a)).flatten

def relationshipsIntoAll (a : Answers) (m : Atlas) (files : List NodeKey) :
    Except Fault (List Relationship) := do
  pure (← files.mapM (m.relationshipsInto a)).flatten

theorem relationshipsIntoAll_eq_ok {a : Answers} {m : Atlas} {files : List NodeKey}
    {found : List Relationship} : m.relationshipsIntoAll a files = .ok found ↔
      ∃ groups, files.mapM (m.relationshipsInto a) = .ok groups ∧ groups.flatten = found := by
  simp only [relationshipsIntoAll, Outcome.bind_eq_ok, Outcome.pure_eq_ok]

def Finds (m : Atlas) (r : Relationship) : Prop :=
  ∃ key n place, m.table.get? key = some n ∧
    References.relationshipAt (Language.ofExtension? n.extension) m.table m.graph key place =
      .ok (some r)

/-- Where a relationship into a file comes from: a server has named a place that refers to its
end. -/
theorem mem_relationshipsInto {a : Answers} {m : Atlas} {file : NodeKey}
    {found : List Relationship} (h : m.relationshipsInto a file = .ok found) {r : Relationship}
    (hr : r ∈ found) :
    ∃ n, m.table.get? file = some n ∧ r.stop ∈ m.definitionsAt n.path ∧
      ∃ n' d places, m.table.get? r.stop = some n' ∧ n'.content = .definition d ∧
        a.placesOf n' d.nameRange = .ok places ∧ ∃ place ∈ places,
          References.relationshipAt (Language.ofExtension? n'.extension) m.table m.graph r.stop
            place = .ok (some r) := by
  simp only [relationshipsInto, Outcome.bind_eq_ok, Outcome.pure_eq_ok] at h
  obtain ⟨n, hn, groups, hgroups, rfl⟩ := h
  obtain ⟨group, hgroup, hr⟩ := List.mem_flatten.mp hr
  obtain ⟨key, hkey, hto⟩ := Outcome.mem_of_mapM_eq_ok hgroups hgroup
  simp only [relationshipsTo, Outcome.bind_eq_ok] at hto
  obtain ⟨n', hn', d, hd, places, hplaces, hto⟩ := hto
  obtain ⟨place, hplace, hat⟩ := References.mem_relationshipsTo hto hr
  obtain ⟨-, -, -, rfl⟩ := References.relationshipAt_eq_some hat
  rw [NodeTable.node_eq_ok] at hn hn'
  obtain ⟨n'', hn'', hcontent⟩ := NodeTable.definition_eq_ok.mp hd
  cases hn'.symm.trans hn''
  exact ⟨n, hn, hkey, n', d, places, hn', hcontent, hplaces, place, hplace, hat⟩

end Atlas

namespace Builder
variable {a : Answers} {m : Atlas} {b : Builder}

/-- A build that has come to an atlas, and whose servers answer from tables. -/
structure Settled (a : Answers) (m : Atlas) (b : Builder) : Prop where
  atlas : b.atlas = m
  ready : b.servers.Ready a

theorem ends_table {done : NodeTable → Builder → Prop} {failed : Builder → Prop}
    (h : done b.atlas.table b) : table.Ends b done failed := by
  rw [table, Action.ends_bind, Action.ends_get, Action.ends_pure]
  exact h

theorem ends_graph {done : Graph → Builder → Prop} {failed : Builder → Prop}
    (h : done b.atlas.graph b) : graph.Ends b done failed := by
  rw [graph, Action.ends_bind, Action.ends_get, Action.ends_pure]
  exact h

theorem yields_table : Action.Yields (Settled a m) table (.ok m.table) :=
  fun b h => ⟨b, by rw [← h.atlas]; rfl, h⟩

theorem yields_graph : Action.Yields (Settled a m) graph (.ok m.graph) :=
  fun b h => ⟨b, by rw [← h.atlas]; rfl, h⟩

/-- A question to servers of tables is answered by the tables. -/
theorem yields_onServers {α : Type} {act : Action Servers α} {result : Except Fault α}
    (hact : ∀ servers : Servers, servers.Ready a →
      ∃ servers', act.perform servers = (result, servers') ∧ servers'.Ready a) :
    Action.Yields (Settled a m) (onServers act) result := by
  intro b h
  obtain ⟨servers, hperform, hready⟩ := hact b.servers h.ready
  refine ⟨{ b with servers }, ?_, h.atlas, hready⟩
  rw [onServers, Action.perform_zoom, hperform]

/-- What the relationships to a definition are found from: the server is asked for places, and the
atlas is as it was. -/
theorem ends_relationshipsTo_found (key : NodeKey) : (relationshipsTo key).Ends b
    (fun found b' => b'.atlas = b.atlas ∧ ∃ n d places, b.atlas.table.node key = .ok n ∧
      b.atlas.table.definition key = .ok d ∧
      (Servers.referencesTo n d.nameRange).perform b.servers = (.ok places, b'.servers) ∧
      References.relationshipsTo (Language.ofExtension? n.extension) b.atlas.table b.atlas.graph key
        places = .ok found) (fun _ => True) := by
  rw [relationshipsTo, Action.ends_bind]
  refine ends_table ?_
  rw [Action.ends_bind]
  refine Action.ends_ofExcept (fun n hn => ?_) trivial
  rw [Action.ends_bind]
  refine Action.ends_ofExcept (fun d hd => ?_) trivial
  rw [Action.ends_bind, onServers, Action.ends_zoom]
  refine Action.ends_iff.mpr ⟨fun places servers hplaces => ?_, fun _ _ _ => trivial⟩
  rw [Action.ends_bind]
  refine ends_graph (Action.ends_ofExcept (fun found hfound => ?_) trivial)
  exact ⟨rfl, n, d, places, hn, hd, hplaces, hfound⟩

theorem ends_relationshipsInto_found (file : Node) : (relationshipsInto file).Ends b
    (fun found b' => (∀ r ∈ found, b.atlas.Finds r) ∧ b'.atlas = b.atlas) (fun _ => True) := by
  rw [relationshipsInto, Action.ends_bind]
  refine ends_table ?_
  rw [Action.ends_bind]
  refine ends_graph ?_
  rw [Action.ends_bind]
  refine (Action.ends_mapM (I := fun _ groups (b' : Builder) => b'.atlas = b.atlas ∧
    ∀ group ∈ groups, ∀ r ∈ group, b.atlas.Finds r) ⟨rfl, by simp⟩ ?_).mono ?_ fun _ h => h
  · rintro - key - - groups b' ⟨hb', hgroups⟩
    refine (ends_relationshipsTo_found key).mono ?_ fun _ h => h
    rintro group b'' ⟨hb'', n, d, places, hn, -, -, hgroup⟩
    rw [hb'] at hb'' hn hgroup
    refine ⟨hb'', ?_⟩
    have hnew : ∀ r ∈ group, b.atlas.Finds r := by
      intro r hr
      obtain ⟨place, -, hat⟩ := References.mem_relationshipsTo hgroup hr
      exact ⟨key, n, place, NodeTable.node_eq_ok.mp hn, hat⟩
    simpa [or_imp, forall_and] using ⟨hgroups, hnew⟩
  · rintro groups b' ⟨hb', hgroups⟩
    refine Action.ends_pure.mpr ⟨?_, hb'⟩
    simpa using fun r group hgroup hr => hgroups group hgroup r hr

theorem yields_relationshipsTo (key : NodeKey) :
    Action.Yields (Settled a m) (relationshipsTo key) (m.relationshipsTo a key) := by
  rw [relationshipsTo, Atlas.relationshipsTo]
  refine Action.yields_bind_ok yields_table ?_
  refine Action.yields_bind (Action.yields_ofExcept _) fun n _ => ?_
  refine Action.yields_bind (Action.yields_ofExcept _) fun d _ => ?_
  refine Action.yields_bind (yields_onServers fun _ h => h.referencesTo n d.nameRange) fun _ _ => ?_
  exact Action.yields_bind_ok yields_graph (Action.yields_ofExcept _)

theorem yields_relationshipsInto {key : NodeKey} {n : Node} (hn : m.table.node key = .ok n) :
    Action.Yields (Settled a m) (relationshipsInto n) (m.relationshipsInto a key) := by
  rw [relationshipsInto, Atlas.relationshipsInto, hn]
  refine Action.yields_bind_ok yields_table ?_
  refine Action.yields_bind_ok yields_graph ?_
  exact Action.yields_bind (Action.yields_mapM fun key _ => yields_relationshipsTo key) fun _ _ =>
    Action.yields_pure _

theorem ends_print (h : b.Settled a m) (line : String) :
    (print line).Ends b (fun _ b' => b'.Settled a m) (fun _ => True) :=
  Action.ends_modify.mpr ⟨h.atlas, h.ready⟩

theorem ends_pause (h : b.Settled a m) (seconds : Nat) :
    (pause seconds).Ends b (fun _ b' => b'.Settled a m) (fun _ => True) :=
  Action.ends_modify.mpr ⟨h.atlas, h.ready⟩

/-- What printing keeps a report keeps. -/
theorem ends_report {I : Builder → Prop}
    (hprint : ∀ (b : Builder) (line : String), I b → I { b with printed := b.printed ++ [line] })
    (h : I b) (index interval : Nat) (line : String) :
    (report index interval line).Ends b (fun _ => I) (fun _ => True) := by
  rw [report, Action.ends_bind]
  refine Action.ends_ofExcept (fun due _ => ?_) trivial
  split
  · exact Action.ends_modify.mpr (hprint b line h)
  · exact Action.ends_pure.mpr h

/-- The relationships to the definitions in files are found file by file. -/
theorem ends_gather_each {I : Builder → Prop} {R : NodeKey → List Relationship → Prop}
    (hprint : ∀ (b : Builder) (line : String), I b → I { b with printed := b.printed ++ [line] })
    (hinto : ∀ b key n, I b → b.atlas.table.node key = .ok n →
      (relationshipsInto n).Ends b (fun found b' => R key found ∧ I b') fun _ => True)
    (h : I b) (total index : Nat) (keys : List NodeKey) (found : List Relationship) :
    (gather total index keys found).Ends b
      (fun all b' => (∃ groups, List.Forall₂ R keys groups ∧ all = found ++ groups.flatten) ∧ I b')
      (fun _ => True) := by
  induction keys generalizing index found b with
  | nil => exact Action.ends_pure.mpr ⟨⟨[], .nil, by simp⟩, h⟩
  | cons key keys ih =>
    rw [gather, Action.ends_bind]
    refine ends_table ?_
    rw [Action.ends_bind]
    refine Action.ends_ofExcept (fun n hn => ?_) trivial
    rw [Action.ends_bind]
    -- a report does not change the table in which the file was looked up
    refine (ends_report (I := fun b' => I b' ∧ b'.atlas = b.atlas)
      (fun b' line h' => ⟨hprint b' line h'.1, h'.2⟩) ⟨h, rfl⟩ ..).mono ?_ fun _ h => h
    rintro - b₁ ⟨h₁, hb₁⟩
    rw [← hb₁] at hn
    rw [Action.ends_bind]
    refine (hinto b₁ key n h₁ hn).mono ?_ fun _ h => h
    rintro group b₂ ⟨hgroup, h₂⟩
    rw [Action.ends_bind]
    refine (ends_report hprint h₂ ..).mono (fun _ b₃ h₃ => ?_) fun _ h => h
    refine (ih h₃ ..).mono ?_ fun _ h => h
    rintro all b₄ ⟨⟨groups, hgroups, hall⟩, h₄⟩
    exact ⟨⟨group :: groups, .cons hgroup hgroups, by simp [hall]⟩, h₄⟩

/-- Some of the files are reported on, so there is an interval. -/
theorem yields_report (index total : Nat) (line : String) :
    Action.Yields (Settled a m) (report index (Build.reportInterval total) line) (.ok ()) := by
  have hdue : ∃ due, Build.isDue (.int index) (.int (Build.reportInterval total)) = .ok due := by
    have hne : (Build.reportInterval total : Int) ≠ 0 := by
      rw [Build.reportInterval]
      omega
    exact ⟨_, if_neg hne⟩
  obtain ⟨due, hdue⟩ := hdue
  rw [report, hdue]
  refine Action.yields_bind_ok (Action.yields_ofExcept _) ?_
  cases due with
  | true => exact fun b h => ⟨_, rfl, h.atlas, h.ready⟩
  | false => exact Action.yields_pure _

theorem yields_gather (total index : Nat) (keys : List NodeKey) (found : List Relationship) :
    Action.Yields (Settled a m) (gather total index keys found) (do
      let groups ← keys.mapM (m.relationshipsInto a)
      pure (found ++ groups.flatten)) := by
  induction keys generalizing index found with
  | nil =>
    rw [List.mapM_nil, pure_bind, List.flatten_nil, List.append_nil]
    exact Action.yields_pure found
  | cons key keys ih =>
    rw [gather, List.mapM_cons, bind_assoc]
    refine Action.yields_bind_ok yields_table ?_
    cases hn : m.table.node key with
    | error fault =>
      rw [Atlas.relationshipsInto, hn]
      exact Action.yields_bind_error (Action.yields_ofExcept _)
    | ok n =>
      refine Action.yields_bind_ok (Action.yields_ofExcept _) ?_
      refine Action.yields_bind_ok (yields_report _ _ _) ?_
      refine Action.yields_bind (yields_relationshipsInto hn) fun group _ => ?_
      refine Action.yields_bind_ok (yields_report _ _ _) ?_
      have hrest := ih (index + 1) (found ++ group)
      simpa only [bind_assoc, pure_bind, List.flatten_cons, List.append_assoc] using hrest

/-- Whatever the servers say, the second part of a build adds nothing but relationships that places
give rise to. -/
theorem ends_addReferences_found (files : List NodeKey) : (addReferences files).Ends b
    (fun _ b' => ∃ found, (∀ r ∈ found, b.atlas.Finds r) ∧
      b'.atlas = { b.atlas with graph := b.atlas.graph.addReferences found }) (fun _ => True) := by
  rw [addReferences, Action.ends_bind]
  refine (ends_gather_each (R := fun _ group => ∀ r ∈ group, b.atlas.Finds r)
    (I := fun b' => b'.atlas = b.atlas) (fun _ _ hb' => hb') (fun b' _ n hb' _ => ?_) rfl
    _ _ _ _).mono ?_ fun _ h => h
  · exact hb' ▸ ends_relationshipsInto_found n
  · rintro found b' ⟨⟨groups, hgroups, rfl⟩, hb'⟩
    refine Action.ends_modify.mpr ⟨groups.flatten, ?_, by rw [hb', List.nil_append]⟩
    induction hgroups with
    | nil => simp
    | cons hfirst _ ih => exact fun r hr => (List.mem_append.mp hr).elim (hfirst r) (ih r)

/-- What a full build adds to its first part. -/
theorem ends_build_found (p : Project) : (build p).Ends b
    (fun _ b' => ∃ b₁ found, (addProject p).perform b = (.ok (), b₁) ∧
      (∀ r ∈ found, b₁.atlas.Finds r) ∧
      b'.atlas = { b₁.atlas with graph := b₁.atlas.graph.addReferences found })
    (fun _ => True) := by
  rw [build, Action.ends_bind]
  refine Action.ends_iff.mpr ⟨fun _ b₁ h₁ => ?_, fun _ _ _ => trivial⟩
  rw [Action.ends_bind, print, Action.ends_modify, Action.ends_bind, pause, Action.ends_modify,
    Action.ends_bind, print, Action.ends_modify, Action.ends_bind]
  refine ends_graph ?_
  refine (ends_addReferences_found _).mono ?_ fun _ h => h
  rintro - b' ⟨found, hfound, hb'⟩
  exact ⟨b₁, found, h₁, hfound, hb'⟩

/-- What a build adds to its graph in the second part. It fails if the relationships into one of the
files cannot be found. -/
theorem perform_addReferences (h : b.Settled a m) (files : List NodeKey) :
    ∃ b', (addReferences files).perform b =
        ((fun _ => ()) <$> m.relationshipsIntoAll a files, b') ∧
      ∀ found, m.relationshipsIntoAll a files = .ok found →
        b'.Settled a { m with graph := m.graph.addReferences found } := by
  obtain ⟨b₁, hgather, h₁⟩ := yields_gather files.length 0 files [] b h
  simp only [List.nil_append] at hgather
  change _ = (m.relationshipsIntoAll a files, b₁) at hgather
  rw [addReferences, Action.perform_bind, hgather]
  cases m.relationshipsIntoAll a files with
  | error fault => exact ⟨b₁, rfl, fun _ hfound => by cases hfound⟩
  | ok found =>
    refine ⟨_, rfl, fun _ hfound => ?_⟩
    cases hfound
    exact ⟨by simp only [h₁.atlas], h₁.ready⟩

theorem ends_addReferences (h : b.Settled a m) (files : List NodeKey) :
    (addReferences files).Ends b
      (fun _ b' => ∃ groups, files.mapM (m.relationshipsInto a) = .ok groups ∧
        b'.Settled a { m with graph := m.graph.addReferences groups.flatten })
      (fun _ => True) := by
  obtain ⟨b', hperform, hfound⟩ := perform_addReferences h files
  refine Action.ends_iff.mpr ⟨fun _ b'' hr => ?_, fun _ _ _ => trivial⟩
  obtain ⟨hmap, rfl⟩ := Prod.mk.inj (hperform.symm.trans hr)
  obtain ⟨found, hresult, -⟩ := Outcome.map_eq_ok.mp hmap
  have hsettled := hfound found hresult
  obtain ⟨groups, hgroups, rfl⟩ := Atlas.relationshipsIntoAll_eq_ok.mp hresult
  exact ⟨groups, hgroups, hsettled⟩

section
variable {p : Project} {I : Servers → Prop}

theorem preserves_onAtlas {α : Type} (act : Action Atlas α) :
    Action.Preserves (fun b : Builder => I b.servers) (onAtlas act) :=
  fun _ h => h

theorem preserves_announce {d : Disk} {file : ProjectFile}
    (htold : ∀ servers, I servers → I ((Servers.announce d file).perform servers).2) :
    Action.Preserves (fun b : Builder => I b.servers) (announce d file) := by
  have houtcome : Action.Preserves (fun b : Builder => I b.servers)
      (onServers (Servers.announce d file)).outcome := by
    intro b h
    rw [Action.perform_outcome, onServers, Action.perform_zoom]
    exact htold b.servers h
  refine Action.preserves_bind houtcome fun result => ?_
  split
  · exact Action.preserves_pure _
  · exact Action.preserves_pure _
  · exact Action.preserves_throw _

theorem preserves_folderNode (e : Option Environment) (parent : Option NodeKey) (f : Subfolder) :
    Action.Preserves (fun b : Builder => I b.servers) (folderNode e parent f) := by
  refine Action.preserves_bind (fun _ h => h) fun g => ?_
  split
  · exact Action.preserves_ofExcept _
  · exact Action.preserves_bind (preserves_onAtlas _) fun key =>
      Action.preserves_bind (preserves_onAtlas _) fun _ => Action.preserves_pure _

/-- Once a file is told, the servers are left alone until the next. -/
theorem ends_addFile_servers {F : Servers → Prop} (hIF : ∀ servers, I servers → F servers)
    (folder : NodeKey) {file : ProjectFile}
    (htold : (announce p.workspace.disk file).Ends b (fun _ b' => I b'.servers)
      fun b' => F b'.servers) :
    (addFile p folder file).Ends b (fun _ b' => I b'.servers) (fun b' => F b'.servers) := by
  rw [addFile, Action.ends_bind]
  refine htold.mono (fun _ b₁ h₁ => ?_) fun _ h => h
  refine (Action.Preserves.ends (P := fun b : Builder => I b.servers) ?_ h₁).mono
    (fun _ _ h => h) fun _ h => hIF _ h
  exact Action.preserves_bind (preserves_onAtlas _) fun _ =>
    Action.preserves_bind (preserves_onAtlas _) fun _ =>
    Action.preserves_bind (fun _ h => h) fun _ =>
    Action.preserves_bind (Action.preserves_ofExcept _) fun _ =>
    Action.preserves_bind (preserves_onAtlas _) fun _ => preserves_onAtlas _

theorem ends_addFolder_servers {J F : Servers → Prop} (hIF : ∀ servers, I servers → F servers)
    {f : Folder} (h : I b.servers) (htold : ∀ (b : Builder) folder, I b.servers →
      (f.files.forM (addFile p folder)).Ends b (fun _ b' => J b'.servers) fun b' => F b'.servers) :
    (addFolder p f).Ends b (fun _ b' => J b'.servers) (fun b' => F b'.servers) := by
  have hstep : ∀ {α β : Type} {x : Action Builder α} {next : α → Action Builder β}
      {done : β → Builder → Prop} {b : Builder},
      Action.Preserves (fun b : Builder => I b.servers) x → I b.servers →
      (∀ a (b' : Builder), I b'.servers → (next a).Ends b' done fun b' => F b'.servers) →
      (x >>= next).Ends b done fun b' => F b'.servers := by
    intro α β x next done b hx hb hnext
    rw [Action.ends_bind]
    exact (hx.ends hb).mono (fun a b' h => hnext a b' h) fun b' h => hIF _ h
  refine hstep (preserves_folderNode _ _ _) h fun key b₁ h₁ => ?_
  refine hstep (Action.preserves_mapM fun _ _ => preserves_folderNode _ _ _) h₁ fun keys b₂ h₂ => ?_
  refine hstep (preserves_onAtlas _) h₂ fun _ b₃ h₃ => ?_
  exact hstep (preserves_onAtlas _) h₃ fun _ b₄ h₄ => htold b₄ key h₄

theorem preserves_addFolder {f : Folder}
    (htold : ∀ file ∈ f.files, ∀ servers, I servers →
      I ((Servers.announce p.workspace.disk file).perform servers).2) :
    Action.Preserves (fun b : Builder => I b.servers) (addFolder p f) := by
  intro b h
  refine (ends_addFolder_servers (fun _ h => h) h fun b folder h => ?_).snd
  refine Action.ends_forM_keeps h fun file hfile b' h' => ?_
  exact ends_addFile_servers (fun _ h => h) folder ((preserves_announce (htold file hfile)).ends h')

/-- All that the first part of a build does to the servers is to tell them of files. -/
theorem preserves_addProject_servers
    (htold : ∀ f ∈ (Walk.of p.workspace.disk p.rules).folders, ∀ file ∈ f.files, ∀ servers,
      I servers → I ((Servers.announce p.workspace.disk file).perform servers).2) :
    Action.Preserves (fun b : Builder => I b.servers) (addProject p) := by
  refine Action.preserves_bind
    (Action.preserves_forM fun f hf => preserves_addFolder (htold f hf)) fun _ => ?_
  split
  · exact Action.preserves_throw _
  · exact fun _ h => h

/-- After the first part of a build nothing is waited for. -/
theorem preserves_addProject (p : Project) :
    Action.Preserves (fun b : Builder => b.servers.Ready a) (addProject p) := by
  refine preserves_addProject_servers fun _ _ file _ servers h => ?_
  obtain ⟨servers', hperform, hready⟩ := h.announce p.workspace.disk file
  rw [hperform]
  exact hready

end
end Builder
end CodeAtlas
