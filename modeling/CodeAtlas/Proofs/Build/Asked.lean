import CodeAtlas.Proofs.Build.Review
import CodeAtlas.Proofs.Build.Rework
import CodeAtlas.Proofs.Build.Update
import CodeAtlas.Proofs.Path.Plain
import CodeAtlas.Proofs.Server.Mentions

namespace CodeAtlas
open Server NodeTable CodeAtlas.Path

namespace Server

theorem ServerName.ofExtension_eq_jedi {extension : String} :
    ServerName.ofExtension extension = .ok .jedi ↔ extension = ".py" := by
  constructor
  · intro h
    have hpython : ∀ e ∈ ServerName.byExtension, e.2 = .jedi → e.1 = ".py" := by decide
    rw [ServerName.ofExtension] at h
    split at h
    · rename_i name hget
      cases h
      obtain ⟨e, he, heq⟩ := Assoc.mem_of_get? hget
      exact (eq_of_beq heq).symm.trans (hpython _ he rfl)
    · cases h
  · rintro rfl
    decide

/-- Does a mention tell a server of a file that is in its language? -/
def Mention.Opens (files : List ProjectFile) (x : Mention) : Prop :=
  x.method = "textDocument/didOpen" ∧
    ∃ file ∈ files, file.uri = x.uri ∧ ServerName.ofExtension file.extension = .ok x.server

theorem Session.didOpen_fault {uri text extension : Json} {s s' : Session} {fault : Fault}
    (h : (Session.didOpen uri text extension).perform s = (.error fault, s')) (e : String) :
    fault ≠ .extensionNotSupported e := by
  rintro rfl
  rw [Session.didOpen, Action.perform_bind, Action.perform_ofExcept] at h
  cases hlanguage : Session.languageId extension with
  | error fault =>
    rw [hlanguage] at h
    cases h
    unfold Session.languageId at hlanguage
    split at hlanguage
    all_goals try cases hlanguage
    split at hlanguage <;> cases hlanguage
  | ok language =>
    rw [hlanguage] at h
    dsimp only at h
    rw [Session.send, Action.perform_bind, Action.perform_get] at h
    dsimp only at h
    split at h <;> cases h

namespace Servers
variable {d : Disk} {file : ProjectFile} {servers : Servers}

theorem documentText_fault {path : String} {fault : Fault}
    (h : documentText d path = .error fault) (e : String) : fault ≠ .extensionNotSupported e := by
  rintro rfl
  unfold documentText at h
  split at h
  · cases h
  · simp only [Disk.readText, bind, Except.bind] at h
    split at h
    · rename_i fault hbytes
      cases h
      unfold Disk.readBytes at hbytes
      split at hbytes
      · split at hbytes <;> cases hbytes
      · cases hbytes
      · cases hbytes
    · split at h <;> cases h

/-- A file is passed over only if there is no server for its extension. -/
theorem announce_fault {fault : Fault} {servers' : Servers}
    (h : (announce d file).perform servers = (.error fault, servers')) {e : String}
    (hfault : fault = .extensionNotSupported e) (name : ServerName) :
    ServerName.ofExtension file.extension ≠ .ok name := by
  intro hname
  subst hfault
  rw [announce, Action.perform_bind, Action.perform_ofExcept, hname] at h
  dsimp only at h
  rw [Action.perform_bind, Action.perform_ofExcept] at h
  cases htext : documentText d file.path with
  | error fault =>
    rw [htext] at h
    cases h
    exact documentText_fault htext e rfl
  | ok text =>
    rw [htext] at h
    dsimp only at h
    cases hs : Assoc.get? servers.sessions name with
    | none =>
      rw [within, Action.perform_bind, Action.perform_get] at h
      dsimp only at h
      rw [Action.perform_bind, hs] at h
      cases h
    | some s =>
      obtain ⟨journal, hj⟩ := perform_within hs
        (Session.didOpen (.str file.uri) (.str text) (.str file.extension))
      rw [hj] at h
      obtain ⟨hfault, -⟩ := Prod.mk.inj h
      exact Session.didOpen_fault (Prod.ext hfault rfl) e rfl

/-- Has every file been told to the server of its extension, if there is one? -/
def Told (files : List ProjectFile) (servers : Servers) : Prop :=
  ∀ file ∈ files, ∀ name, ServerName.ofExtension file.extension = .ok name →
    .opening name file.uri ∈ servers.mentions

theorem Told.adds {P : Mention → Prop} {files : List ProjectFile} {servers' : Servers}
    (h : servers.Told files) (hadds : Adds P servers servers') : servers'.Told files :=
  fun file hfile name hname => hadds.mem (h file hfile name hname)

theorem adds_announce (hfile : file ∈ files) :
    Adds (Mention.Opens files) servers ((announce d file).perform servers).2 := by
  refine Action.Ends.snd ((ends_announce d file _).mono ?_ ?_)
  · rintro - servers' ⟨name, hname, heq⟩
    refine ⟨_, heq, fun x hx => ?_⟩
    cases List.mem_singleton.mp hx
    exact ⟨rfl, file, hfile, rfl, hname⟩
  · intro servers' heq
    exact ⟨[], by simpa using heq, by simp⟩

end Servers
end Server

namespace Builder
variable {p : Project} {b : Builder} {files : List ProjectFile}

theorem ends_announce_told (d : Disk) (file : ProjectFile) :
    (announce d file).Ends b (fun _ b' => b'.servers.Told [file]) fun _ => True := by
  rw [announce, Action.ends_bind, Action.ends_outcome, onServers, Action.perform_zoom]
  dsimp only
  have htold : ∀ fault servers', (Servers.announce d file).perform b.servers =
      (.error fault, servers') → ∀ e, fault = .extensionNotSupported e → servers'.Told [file] := by
    intro fault servers' hrun e he other hother name hname
    cases List.mem_singleton.mp hother
    exact absurd hname (Servers.announce_fault hrun he name)
  have hdone := (Action.ends_iff.mp (Servers.ends_announce d file b.servers)).1
  rcases hrun : (Servers.announce d file).perform b.servers with ⟨fault | _, servers'⟩
  · dsimp only
    split
    · rename_i heq
      cases heq
    · rename_i e he
      exact Action.ends_pure.mpr (htold fault servers' hrun e (Except.error.inj he))
    · exact Action.ends_throw.mpr trivial
  · refine Action.ends_pure.mpr fun other hother name hname => ?_
    cases List.mem_singleton.mp hother
    obtain ⟨name', hname', heq⟩ := hdone _ servers' hrun
    cases hname.symm.trans hname'
    change _ ∈ servers'.mentions
    rw [heq]
    exact List.mem_append_right _ (List.mem_singleton_self _)

/-- A file joins those that have been told. -/
theorem ends_addFile_told (folder : NodeKey) (file : ProjectFile) (h : b.servers.Told files) :
    (addFile p folder file).Ends b (fun _ b' => b'.servers.Told (files ++ [file]))
      fun _ => True := by
  have hkeep : Action.Preserves (fun b : Builder => b.servers.Told files)
      (announce p.workspace.disk file) :=
    preserves_announce fun servers hs =>
      hs.adds (Servers.adds_announce (List.mem_singleton_self file))
  refine ends_addFile_servers (fun _ _ => trivial) folder ?_
  refine ((hkeep.ends h).and (ends_announce_told _ file)).mono (fun _ b' h' => ?_)
    fun _ _ => trivial
  intro other hother
  exact (List.mem_append.mp hother).elim (h'.1 other) (h'.2 other)

/-- A build that has come to all files has told them all. -/
theorem ends_addProject_told (p : Project) (b : Builder) :
    (addProject p).Ends b (fun _ b' => b'.servers.Told p.files) fun _ => True := by
  rw [addProject, Action.ends_bind]
  refine (Action.ends_forM (I := fun before (b' : Builder) =>
    b'.servers.Told (before.flatMap Folder.files)) (by simp [Servers.Told]) ?_).mono ?_ fun _ h => h
  · intro before f after _ b₁ h₁
    refine ends_addFolder_servers (fun _ _ => trivial) h₁ fun b₂ folder h₂ => ?_
    refine (Action.ends_forM (I := fun done (b' : Builder) =>
      b'.servers.Told (before.flatMap Folder.files ++ done)) (by simpa using h₂) ?_).mono ?_
      fun _ h => h
    · intro done file _ _ b₃ h₃
      simpa using ends_addFile_told folder file h₃
    · intro _ b' h'
      simpa using h'
  · intro _ b' h'
    split
    · exact Action.ends_throw.mpr trivial
    · exact Action.ends_modify.mpr h'

theorem adds_addProject (p : Project) (b : Builder) :
    Servers.Adds (Mention.Opens p.files) b.servers ((addProject p).perform b).2.servers :=
  preserves_addProject_servers (I := Servers.Adds (Mention.Opens p.files) b.servers)
    (fun f hf _ hfile _ h =>
      h.trans (Servers.adds_announce (List.mem_flatMap.mpr ⟨f, hf, hfile⟩))) b (.refl _)

section
variable {m : Atlas} {I : Servers → Prop}

theorem preserves_onServers {α : Type} {act : Action Servers α}
    (hact : ∀ servers, I servers → I (act.perform servers).2) :
    Action.Preserves (fun b : Builder => b.atlas = m ∧ I b.servers) (onServers act) := by
  intro b h
  rw [onServers, Action.perform_zoom]
  exact ⟨h.1, hact b.servers h.2⟩

theorem preserves_relationshipsTo {key : NodeKey}
    (hasked : ∀ {n d}, m.table.get? key = some n → n.content = .definition d →
      ∀ servers, I servers → I ((Servers.referencesTo n d.nameRange).perform servers).2) :
    Action.Preserves (fun b : Builder => b.atlas = m ∧ I b.servers) (relationshipsTo key) := by
  refine Action.preserves_bind_ends (R := (· = m.table))
    (fun b h => ends_table ⟨h, by rw [h.1]⟩) fun t ht => ?_
  subst ht
  refine Action.preserves_bind_ends (R := fun n => m.table.node key = .ok n)
    (fun b h => Action.ends_ofExcept (fun _ hn => ⟨h, hn⟩) h) fun n hn => ?_
  refine Action.preserves_bind_ends (R := fun d => m.table.definition key = .ok d)
    (fun b h => Action.ends_ofExcept (fun _ hd => ⟨h, hd⟩) h) fun d hd => ?_
  obtain ⟨n', hn', hcontent⟩ := definition_eq_ok.mp hd
  cases (node_eq_ok.mp hn).symm.trans hn'
  refine Action.preserves_bind (preserves_onServers (hasked hn' hcontent)) fun places => ?_
  exact Action.preserves_bind (fun _ h => h) fun g => Action.preserves_ofExcept _

variable (hasked : ∀ {key n d}, m.table.get? key = some n → n.content = .definition d →
    n.label ≠ .file →
    ∀ servers, I servers → I ((Servers.referencesTo n d.nameRange).perform servers).2)
include hasked

/-- The files themselves are not asked for. -/
theorem preserves_relationshipsInto (file : Node) :
    Action.Preserves (fun b : Builder => b.atlas = m ∧ I b.servers) (relationshipsInto file) := by
  refine Action.preserves_bind_ends (R := (· = m.table))
    (fun b h => ends_table ⟨h, by rw [h.1]⟩) fun t ht => ?_
  subst ht
  refine Action.preserves_bind (fun _ h => h) fun g => ?_
  refine Action.preserves_bind (Action.preserves_mapM fun key hkey => ?_)
    fun _ => Action.preserves_pure _
  apply preserves_relationshipsTo
  intro n d hn hcontent
  have hlabel : n.label ≠ .file := by
    simpa [hn] using (List.mem_filter.mp hkey).2
  exact hasked hn hcontent hlabel

omit hasked in
theorem preserves_report (index interval : Nat) (line : String) :
    Action.Preserves (fun b : Builder => b.atlas = m ∧ I b.servers)
      (report index interval line) := by
  refine Action.preserves_bind (Action.preserves_ofExcept _) fun due => ?_
  split
  · exact fun _ h => h
  · exact Action.preserves_pure _

theorem preserves_gather (total index : Nat) (keys : List NodeKey) (found : List Relationship) :
    Action.Preserves (fun b : Builder => b.atlas = m ∧ I b.servers)
      (gather total index keys found) := by
  induction keys generalizing index found with
  | nil => exact Action.preserves_pure _
  | cons key keys ih =>
    exact Action.preserves_bind (fun _ h => h) fun _ =>
      Action.preserves_bind (Action.preserves_ofExcept _) fun file =>
      Action.preserves_bind (preserves_report _ _ _) fun _ =>
      Action.preserves_bind (preserves_relationshipsInto hasked file) fun group =>
      Action.preserves_bind (preserves_report _ _ _) fun _ => ih _ _

/-- All that the second part of a build does to the servers is to ask for the references to the
classes and functions of the graph. -/
theorem addReferences_servers (files : List NodeKey) (hb : b.atlas = m) (h : I b.servers) :
    I ((addReferences files).perform b).2.servers := by
  refine Action.Ends.snd (P := fun b' : Builder => I b'.servers) ?_
  rw [addReferences, Action.ends_bind]
  refine ((preserves_gather hasked _ _ _ _).ends ⟨hb, h⟩).mono (fun found b' h' => ?_)
    fun _ h' => h'.2
  exact Action.ends_modify.mpr h'.2

end
end Builder

namespace Review
variable {r : Review} {b : Builder}

theorem preserves_markAll {I : Servers → Prop} :
    Action.Preserves (fun b : Builder => I b.servers) r.markAll := by
  refine Action.preserves_bind (fun _ h => h) fun g => ?_
  refine Action.preserves_bind (Action.preserves_ofExcept _) fun keys => ?_
  refine Action.preserves_forM fun key _ => ?_
  refine Action.preserves_bind (fun _ h => h) fun t => ?_
  refine Action.preserves_bind (Action.preserves_ofExcept _) fun before => ?_
  refine Action.preserves_bind (Action.preserves_ofExcept _) fun n => ?_
  refine Action.preserves_bind (Action.preserves_ofExcept _) fun change => ?_
  refine Action.preserves_bind (Builder.preserves_onAtlas _) fun _ => ?_
  split
  · exact Action.preserves_bind (fun _ h => h) fun t =>
      Action.preserves_bind (Action.preserves_ofExcept _) fun after =>
      Action.preserves_bind (fun _ h => h) fun _ => Builder.preserves_onAtlas _
  · exact Builder.preserves_onAtlas _

theorem preserves_keepChanged {I : Servers → Prop} :
    Action.Preserves (fun b : Builder => I b.servers) r.keepChanged :=
  Action.preserves_bind (Action.preserves_ofExcept _) fun _ => Builder.preserves_onAtlas _

theorem preserves_addAllDeleted {I : Servers → Prop} :
    Action.Preserves (fun b : Builder => I b.servers) r.addAllDeleted := by
  refine Action.preserves_forM fun path _ => ?_
  exact Action.preserves_bind (Action.preserves_ofExcept _) fun path =>
    Action.preserves_bind (Builder.preserves_onAtlas _) fun key =>
    Action.preserves_bind (fun _ h => h) fun t =>
    Action.preserves_bind (Action.preserves_ofExcept _) fun before =>
    Action.preserves_bind (Builder.preserves_onAtlas _) fun _ =>
    Action.preserves_bind (fun _ h => h) fun t =>
    Action.preserves_bind (Action.preserves_ofExcept _) fun after => fun _ h => h

/-- A review asks for definitions, and for references to the definitions of the graph. -/
theorem addReferences_servers {I : Servers → Prop}
    (hdefinition : ∀ place servers, I servers →
      I ((Servers.definitionPath place).perform servers).2)
    (hasked : ∀ {key n d}, b.atlas.table.get? key = some n → n.content = .definition d →
      ∀ servers, I servers → I ((Servers.referencesTo n d.nameRange).perform servers).2)
    (h : I b.servers) : I (r.addReferences.perform b).2.servers := by
  refine Action.Ends.snd (P := fun b' : Builder => I b'.servers) ?_
  have hused := preserves_pathsUsed (I := fun b' => b'.atlas = b.atlas ∧ I b'.servers)
    fun place => Builder.preserves_onServers (hdefinition place)
  rw [addReferences, Action.ends_bind]
  refine Builder.ends_graph ?_
  rw [Action.ends_bind]
  refine Action.ends_ofExcept (fun changed _ => ?_) h
  rw [Action.ends_bind]
  refine ((hused changed []).ends ⟨rfl, h⟩).mono (fun used b₁ h₁ => ?_) fun _ h₁ => h₁.2
  rw [Action.ends_bind]
  refine Action.ends_ofExcept (fun others _ => ?_) h₁.2
  exact (Action.ends_snd _ b₁).mono
    (fun _ b₂ hb₂ => hb₂ ▸ Builder.addReferences_servers
      (fun hn hcontent _ => hasked hn hcontent) _ h₁.1 h₁.2)
    fun b₂ hb₂ => hb₂ ▸ Builder.addReferences_servers
      (fun hn hcontent _ => hasked hn hcontent) _ h₁.1 h₁.2

end Review

def NodeTable.FiledIn (files : List ProjectFile) (t : NodeTable) : Prop :=
  ∀ {key n d}, t.get? key = some n → n.content = .definition d → ∃ file ∈ files, n.path = file.uri

theorem Surroundings.Chart.filedIn {c : Surroundings} {files : List ProjectFile} {a : Atlas}
    (h : c.Chart files a) : a.table.FiledIn files := by
  intro key n d hn hd
  obtain ⟨-, ⟨hfolder, -⟩ | ⟨file, hfile, hpath, -⟩⟩ := h.placed hn
  · cases hfolder.symm.trans hd
  · exact ⟨file, hfile, hpath⟩

theorem NodeTable.Reshaped.filedIn {files : List ProjectFile} {t t' : NodeTable}
    (h : t.Reshaped t') (ht : t.FiledIn files) : t'.FiledIn files := by
  intro key n' d' hn' hd'
  obtain ⟨n, hn, -, halike⟩ := h.get? hn'
  obtain ⟨d, hd, -⟩ := halike.symm.definition hd'
  obtain ⟨file, hfile, hpath⟩ := ht hn hd
  exact ⟨file, hfile, halike.path.trans hpath⟩

/-- Below a plain root, the extension of a node is that of its file. -/
theorem Node.extension_eq {p : Project} (hd : p.workspace.disk.Proper) {root : String}
    (hr : p.rules.root = .str root) (hplain : Plain root) {file : ProjectFile}
    (hfile : file ∈ p.files) {n : Node} (hn : n.path = file.uri) :
    n.extension = file.extension := by
  obtain ⟨way, hnames, hpath⟩ := p.way_of_mem_files hd hr hplain.ne_empty hfile
  rw [Node.extension, Node.purePath, hn, ProjectFile.uri, hpath,
    hplain.ofUri_toUri_below hnames (by simp), extension_below hnames, ProjectFile.extension]

namespace Server

/-- What a review of a project may say about a document. -/
inductive Mention.Fits (p : Project) (x : Mention) : Prop
  | opening (h : x.Opens p.files)
  | definition (server : x.server = .jedi) (method : x.method = "textDocument/definition")
  | references (method : x.method = "textDocument/references")
      (told : ∀ root, p.rules.root = .str root → Plain root → ∃ file ∈ p.files,
        file.uri = x.uri ∧ ServerName.ofExtension file.extension = .ok x.server)

/-- Servers that have been told of a project and asked about it. -/
structure Servers.Consulted (p : Project) (servers : Servers) : Prop where
  fits : ∀ x ∈ servers.mentions, x.Fits p
  told : servers.Told p.files

namespace Servers.Consulted
variable {p : Project} {servers servers' : Servers}

theorem adds (h : servers.Consulted p) (hadds : Adds (Mention.Fits p) servers servers') :
    servers'.Consulted p :=
  ⟨fun x hx => (hadds.of_mem hx).elim (h.fits x) fun h => h, h.told.adds hadds⟩

theorem definitionPath (h : servers.Consulted p) (place : Place) :
    ((definitionPath place).perform servers).2.Consulted p := by
  have hadds := (ends_definitionPath place servers).snd
  exact h.adds (hadds.mono fun x hx => hx ▸ .definition rfl rfl)

theorem referencesTo (h : servers.Consulted p) (hd : p.workspace.disk.Proper)
    {file : ProjectFile} (hfile : file ∈ p.files) {n : Node} (hn : n.path = file.uri)
    (nameRange : Place) : ((referencesTo n nameRange).perform servers).2.Consulted p := by
  have hadds := (ends_referencesTo n nameRange servers).snd
  refine h.adds (hadds.mono fun x hx => .references hx.2.1 fun root hr hplain => ?_)
  refine ⟨file, hfile, by rw [hx.2.2, hn], ?_⟩
  rw [← Node.extension_eq hd hr hplain hfile hn]
  exact hx.1

end Servers.Consulted
end Server

namespace Builder
variable {p : Project} {b : Builder}

/-- The first part of a build tells the servers of files and asks for nothing, and after it all
files are told. -/
theorem ends_addProject_consulted (hd : p.workspace.disk.Proper) (hb : b.atlas = {})
    (hquiet : b.servers.mentions = []) :
    (addProject p).Ends b
      (fun _ b' => b'.servers.Consulted p ∧ b'.atlas.table.FiledIn p.files)
      (fun b' => ∀ x ∈ b'.servers.mentions, x.Opens p.files) := by
  have hopens : ∀ x ∈ ((addProject p).perform b).2.servers.mentions, x.Opens p.files := by
    intro x hx
    refine ((adds_addProject p b).of_mem hx).resolve_left ?_
    simp [hquiet]
  obtain ⟨c, -, hchart⟩ := exists_chart hd hb
  refine ((Action.ends_snd _ b).and (ends_addProject_told p b)).mono ?_ ?_
  · rintro - b' ⟨rfl, htold⟩
    exact ⟨⟨fun x hx => .opening (hopens x hx), htold⟩, hchart.filedIn⟩
  · rintro b' ⟨rfl, -⟩
    exact hopens

end Builder

namespace Review
variable {r : Review} {b : Builder}

theorem addReferences_consulted (hd : r.project.workspace.disk.Proper)
    (h : b.servers.Consulted r.project) (ht : b.atlas.table.FiledIn r.project.files) :
    (r.addReferences.perform b).2.servers.Consulted r.project := by
  refine addReferences_servers (fun place servers hs => hs.definitionPath place) ?_ h
  intro key n d hn hcontent servers hs
  obtain ⟨file, hfile, hpath⟩ := ht hn hcontent
  exact hs.referencesTo hd hfile hpath d.nameRange

/-- However a review ends, either nothing but files was told, or all of them were before anything
was asked for. -/
theorem consulted_of_run (hd : r.project.workspace.disk.Proper) (hb : b.atlas = {})
    (hquiet : b.servers.mentions = []) {act : Action Builder Unit}
    (hact : act = r.build ∨ act = r.rebuild) :
    (∀ x ∈ (act.perform b).2.servers.mentions, x.Opens r.project.files) ∨
      (act.perform b).2.servers.Consulted r.project := by
  refine Action.Ends.snd (P := fun b' : Builder =>
    (∀ x ∈ b'.servers.mentions, x.Opens r.project.files) ∨ b'.servers.Consulted r.project) ?_
  have hrest : ∀ b' : Builder, b'.servers.Consulted r.project →
      b'.atlas.table.FiledIn r.project.files → ∀ last : Action Builder Unit,
      Action.Preserves (fun b : Builder => b.servers.Consulted r.project) last →
      (r.addReferences >>= fun _ => last).Ends b'
        (fun _ b' => (∀ x ∈ b'.servers.mentions, x.Opens r.project.files) ∨
          b'.servers.Consulted r.project)
        (fun b' => (∀ x ∈ b'.servers.mentions, x.Opens r.project.files) ∨
          b'.servers.Consulted r.project) := by
    intro b' hb' ht last hlast
    have hdone := addReferences_consulted hd hb' ht
    rw [Action.ends_bind]
    refine (Action.ends_snd _ b').mono (fun _ b'' heq => ?_) fun b'' heq => Or.inr (heq ▸ hdone)
    exact (hlast.ends (heq ▸ hdone)).mono (fun _ _ h => Or.inr h) fun _ h => Or.inr h
  rcases hact with rfl | rfl
  · rw [build, Action.ends_bind]
    refine (Builder.ends_addProject_consulted hd hb hquiet).mono ?_ fun _ h => Or.inl h
    rintro - b₁ ⟨h₁, ht₁⟩
    rw [Action.ends_bind]
    refine ((preserves_markAll.ends h₁).and (ends_markAll_reworked r b₁)).mono ?_
      fun _ h => Or.inr h.1
    rintro - b₂ ⟨h₂, -, hrework⟩
    exact hrest b₂ h₂ (hrework.filedIn ht₁) _
      (Action.preserves_bind preserves_keepChanged fun _ => preserves_addAllDeleted)
  · rw [rebuild, Action.ends_bind]
    refine (Builder.ends_addProject_consulted hd hb hquiet).mono ?_ fun _ h => Or.inl h
    rintro - b₁ ⟨h₁, ht₁⟩
    exact hrest b₁ h₁ ht₁ _ preserves_keepChanged

/-- Every document is told to the server of its extension only, and so are questions for references
asked there; but a question for a definition goes to the server for Python, which was told of the
document exactly if it is a file of that language. -/
theorem definitions_asked_of_python_server (hd : r.project.workspace.disk.Proper)
    (hb : b.atlas = {}) (hquiet : b.servers.mentions = []) {act : Action Builder Unit}
    (hact : act = r.build ∨ act = r.rebuild) :
    let said := (act.perform b).2.servers.mentions
    (∀ x ∈ said, x.method = "textDocument/didOpen" → ∃ file ∈ r.project.files,
      file.uri = x.uri ∧ ServerName.ofExtension file.extension = .ok x.server) ∧
    (∀ x ∈ said, x.method = "textDocument/definition" → x.server = .jedi ∧
      (.opening x.server x.uri ∈ said ↔
        ∃ file ∈ r.project.files, file.uri = x.uri ∧ file.extension = ".py")) ∧
    ∀ root, r.project.rules.root = .str root → Plain root → ∀ x ∈ said,
      x.method = "textDocument/references" → .opening x.server x.uri ∈ said := by
  intro said
  have hrun := consulted_of_run hd hb hquiet hact
  change (∀ x ∈ said, x.Opens r.project.files) ∨ _ at hrun
  have hopens : ∀ x ∈ said, x.method = "textDocument/didOpen" → x.Opens r.project.files := by
    intro x hx hmethod
    rcases hrun with hopens | hconsulted
    · exact hopens x hx
    · cases hconsulted.fits x hx with
      | opening h => exact h
      | definition _ method => simp [hmethod] at method
      | references method _ => simp [hmethod] at method
  -- where anything but openings was sent, the build has come to the second part
  have hconsulted : ∀ x ∈ said, x.method ≠ "textDocument/didOpen" →
      (act.perform b).2.servers.Consulted r.project :=
    fun x hx hother => hrun.resolve_left fun hall => hother (hall x hx).1
  refine ⟨fun x hx hmethod => (hopens x hx hmethod).2, fun x hx hmethod => ?_,
    fun root hr hplain x hx hmethod => ?_⟩
  · have h := hconsulted x hx (by simp [hmethod])
    have hserver : x.server = .jedi := by
      cases h.fits x hx with
      | opening h => simp [h.1] at hmethod
      | definition server _ => exact server
      | references method _ => simp [method] at hmethod
    refine ⟨hserver, ?_⟩
    rw [hserver]
    constructor
    · intro hopen
      obtain ⟨-, file, hfile, huri, hname⟩ := hopens _ hopen rfl
      exact ⟨file, hfile, huri, ServerName.ofExtension_eq_jedi.mp hname⟩
    · rintro ⟨file, hfile, huri, hpython⟩
      rw [← huri]
      exact h.told file hfile .jedi (ServerName.ofExtension_eq_jedi.mpr hpython)
  · have h := hconsulted x hx (by simp [hmethod])
    cases h.fits x hx with
    | opening h => simp [h.1] at hmethod
    | definition _ method => simp [method] at hmethod
    | references _ told =>
      obtain ⟨file, hfile, huri, hname⟩ := told root hr hplain
      rw [← huri]
      exact h.told file hfile x.server hname

end Review

namespace TwoFiles

/-- The update of the file with the call asks for the definition of what is called. -/
theorem call_asked_of_python_server :
    (start 0).servers.mentions = [] ∧
    ⟨.jedi, "textDocument/definition", "file:///r/b.js"⟩ ∈
      (update plain "/r" 0 "file:///r/b.js").2.servers.mentions ∧
    (.opening .jedi "file:///r/b.js" ∈ (update plain "/r" 0 "file:///r/b.js").2.servers.mentions ↔
      ∃ file ∈ (project plain "/r").files, file.uri = "file:///r/b.js" ∧
        file.extension = ".py") := by
  have hrun : (start 0).servers.mentions = [] ∧
      ⟨.jedi, "textDocument/definition", "file:///r/b.js"⟩ ∈
        (update plain "/r" 0 "file:///r/b.js").2.servers.mentions := by
    decide +kernel
  have hall := Review.definitions_asked_of_python_server
    (r := Review.ofUpdate (project plain "/r") (["file:///r/b.js"].map .str))
    (proper_disk plain "/r") rfl hrun.1 (Or.inr rfl)
  obtain ⟨hquiet, hasked⟩ := hrun
  rw [update] at hasked ⊢
  exact ⟨hquiet, hasked, (hall.2.1 _ hasked rfl).2⟩

/-- The definition of a call in one language is asked for at the server of another. -/
theorem call_asked_elsewhere :
    ⟨.jedi, "textDocument/definition", "file:///r/b.js"⟩ ∈
      (update plain "/r" 0 "file:///r/b.js").2.servers.mentions ∧
    .opening .typescript "file:///r/b.js" ∈
      (update plain "/r" 0 "file:///r/b.js").2.servers.mentions ∧
    .opening .jedi "file:///r/b.js" ∉
      (update plain "/r" 0 "file:///r/b.js").2.servers.mentions := by
  decide +kernel

end TwoFiles
end CodeAtlas
