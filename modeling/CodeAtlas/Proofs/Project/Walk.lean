import CodeAtlas.Project.Walk
import CodeAtlas.Proofs.Outcome
import CodeAtlas.Proofs.Project.Disk

namespace CodeAtlas
open Text CodeAtlas.Path

/-- A folder stands at the end of a way, and what is in it has proper names. -/
structure Folder.At (root : String) (way : List String) (f : Folder) : Prop where
  names : ∀ n ∈ way, IsName n
  path : f.path = below root way
  name : f.name = WalkRules.nameOf f.path
  files : ∀ file ∈ f.files, file.folder = f.path ∧ IsName file.name
  nodup : (f.folders.map Subfolder.name ++ f.files.map ProjectFile.name).Nodup
  folders : ∀ sub ∈ f.folders, IsName sub.name ∧ sub.path = join f.path sub.name

theorem Folder.At.file_names {root : String} {way : List String} {f : Folder} (hf : f.At root way)
    {file : ProjectFile} (hfile : file ∈ f.files) : ∀ n ∈ way ++ [file.name], IsName n := by
  exact (hf.files file hfile).2.concat hf.names

theorem Folder.At.files_nodup {root : String} {way : List String} {f : Folder}
    (hf : f.At root way) : (f.files.map ProjectFile.name).Nodup :=
  (List.nodup_append.mp hf.nodup).2.1

theorem Folder.At.file_path {root : String} {way : List String} {f : Folder} (hroot : root ≠ "")
    (hf : f.At root way) {file : ProjectFile} (hfile : file ∈ f.files) :
    file.path = below root (way ++ [file.name]) := by
  obtain ⟨hfolder, hname⟩ := hf.files file hfile
  rw [ProjectFile.path, hfolder, hf.path, join_below hroot hf.names hname]

/-- A file is found again by its URI. -/
theorem Folder.At.way_eq {root : String} {way way' : List String} {f g : Folder} (hroot : root ≠ "")
    (hf : f.At root way) (hg : g.At root way') {a b : ProjectFile} (ha : a ∈ f.files)
    (hb : b ∈ g.files) (h : a.uri = b.uri) : way = way' ∧ a.name = b.name := by
  have hpath := toUri_injective h
  rw [hf.file_path hroot ha, hg.file_path hroot hb] at hpath
  have hsame := below_injective (hf.file_names ha) (hg.file_names hb) hpath
  exact ⟨(List.append_inj' hsame rfl).1, List.singleton_inj.mp (List.append_inj' hsame rfl).2⟩

/-- Is each folder known when the walk comes to it, be it from the start or from the folders
before it? -/
def Announced (known : String → Prop) : List Folder → Prop
  | [] => True
  | f :: rest =>
    known f.path ∧ Announced (fun path => known path ∨ ∃ sub ∈ f.folders, sub.path = path) rest

theorem Announced.mono {known known' : String → Prop} {folders : List Folder}
    (h : Announced known folders) (hk : ∀ path, known path → known' path) :
    Announced known' folders := by
  induction folders generalizing known known' with
  | nil => trivial
  | cons f rest ih => exact ⟨hk _ h.1, ih h.2 fun path => Or.imp_left (hk path)⟩

theorem Announced.append {known : String → Prop} {first second : List Folder}
    (h₁ : Announced known first) (h₂ : Announced known second) :
    Announced known (first ++ second) := by
  induction first generalizing known with
  | nil => exact h₂
  | cons f rest ih => exact ⟨h₁.1, ih h₁.2 (h₂.mono fun _ => Or.inl)⟩

theorem Announced.known_or_before {known : String → Prop} {before after : List Folder} {f : Folder}
    (h : Announced known (before ++ f :: after)) :
    known f.path ∨ ∃ g ∈ before, ∃ sub ∈ g.folders, sub.path = f.path := by
  induction before generalizing known with
  | nil => exact Or.inl h.1
  | cons g before ih =>
    rcases ih h.2 with (hknown | hsub) | ⟨g', hg', hsub⟩
    · exact Or.inl hknown
    · exact Or.inr ⟨g, by simp, hsub⟩
    · exact Or.inr ⟨g', by simp [hg'], hsub⟩

/-- The paths of what is in a folder: its subfolders, then its files. -/
def Folder.entries (f : Folder) : List String :=
  f.folders.map Subfolder.path ++ f.files.map ProjectFile.path

/-- What is in a folder stands at the end of its way and one more name. -/
theorem Folder.At.entries_eq {root : String} {way : List String} {f : Folder} (hroot : root ≠ "")
    (hf : f.At root way) : f.entries =
      (f.folders.map Subfolder.name ++ f.files.map ProjectFile.name).map
        (fun name => below root (way ++ [name])) := by
  have hfolders : ∀ sub ∈ f.folders, sub.path = below root (way ++ [sub.name]) := by
    intro sub hsub
    obtain ⟨hname, hpath⟩ := hf.folders sub hsub
    rw [hpath, hf.path, join_below hroot hf.names hname]
  rw [Folder.entries, List.map_append, List.map_map, List.map_map]
  exact congrArg₂ _ (List.map_congr_left hfolders)
    (List.map_congr_left fun file hfile => hf.file_path hroot hfile)

theorem Folder.At.entry_names {root : String} {way : List String} {f : Folder} (hf : f.At root way)
    {name : String} (h : name ∈ f.folders.map Subfolder.name ++ f.files.map ProjectFile.name) :
    ∀ n ∈ way ++ [name], IsName n := by
  have hname : IsName name := by
    rcases List.mem_append.mp h with h | h
    · obtain ⟨sub, hsub, rfl⟩ := List.mem_map.mp h
      exact (hf.folders sub hsub).1
    · obtain ⟨file, hfile, rfl⟩ := List.mem_map.mp h
      exact (hf.files file hfile).2
  exact hname.concat hf.names

theorem Folder.At.exists_name {root : String} {way : List String} {f : Folder} (hroot : root ≠ "")
    (hf : f.At root way) {path : String} (h : path ∈ f.entries) :
    ∃ name, (∀ n ∈ way ++ [name], IsName n) ∧ path = below root (way ++ [name]) := by
  rw [hf.entries_eq hroot] at h
  obtain ⟨name, hname, rfl⟩ := List.mem_map.mp h
  exact ⟨name, hf.entry_names hname, rfl⟩

namespace WalkRules
variable {r : WalkRules} {path : String}

theorem rootText_eq {root : String} (hr : r.root = .str root) : r.rootText = root := by
  rw [rootText, hr]

theorem kept_sublist {entries kept : List (String × Entry)} (h : r.kept path entries = .ok kept) :
    kept.Sublist entries := by
  induction entries generalizing kept with
  | nil =>
    cases h
    exact .slnil
  | cons e rest ih =>
    simp only [WalkRules.kept, Outcome.bind_eq_ok, Outcome.pure_eq_ok] at h
    obtain ⟨skip, _, others, hothers, rfl⟩ := h
    cases skip with
    | true => exact (ih hothers).cons e
    | false => exact (ih hothers).cons_cons e

theorem mem_kept {entries kept : List (String × Entry)} (h : r.kept path entries = .ok kept)
    {e : String × Entry} (he : e ∈ entries) (hs : r.skips (join path e.1) e.2 = .ok false) :
    e ∈ kept := by
  induction entries generalizing kept with
  | nil => cases he
  | cons first rest ih =>
    simp only [WalkRules.kept, Outcome.bind_eq_ok, Outcome.pure_eq_ok] at h
    obtain ⟨skip, hskip, others, hothers, rfl⟩ := h
    rcases List.mem_cons.mp he with rfl | he
    · rw [hs] at hskip
      cases hskip
      simp
    · have := ih hothers he
      cases skip <;> simp [this]

theorem skips_of_mem_kept {entries kept : List (String × Entry)}
    (h : r.kept path entries = .ok kept) {e : String × Entry} (he : e ∈ kept) :
    r.skips (join path e.1) e.2 = .ok false := by
  induction entries generalizing kept with
  | nil =>
    cases h
    cases he
  | cons first rest ih =>
    simp only [WalkRules.kept, Outcome.bind_eq_ok, Outcome.pure_eq_ok] at h
    obtain ⟨skip, hskip, others, hothers, rfl⟩ := h
    cases skip with
    | true => exact ih hothers he
    | false =>
      rcases List.mem_cons.mp he with rfl | he
      · exact hskip
      · exact ih hothers he

/-- The folder of a directory at the end of a way announces all subdirectories that are not passed
over. -/
theorem folder_at {root : String} {way : List String} {stand : Stand}
    {entries : List (String × Entry)} {f : Folder} {skip : Bool} (hway : ∀ n ∈ way, IsName n)
    (hpath : path = below root way) (hentries : (Entry.directory stand entries).Proper)
    (h : r.folder path stand entries = .ok (f, skip)) :
    f.At root way ∧ r.skips path (.directory stand entries) = .ok skip ∧
      ∀ e ∈ entries, e.2.isDirectory = true → r.skips (join path e.1) e.2 = .ok false →
        ∃ sub ∈ f.folders, sub.path = join path e.1 := by
  simp only [WalkRules.folder, Outcome.bind_eq_ok, Outcome.pure_eq_ok, Prod.mk.injEq] at h
  obtain ⟨dirs, hdirs, files, hfiles, skip', hskip, hf, rfl⟩ := h
  obtain ⟨hnodup, hall⟩ := Entry.proper_directory.mp hentries
  have hdirs' := (kept_sublist hdirs).trans List.filter_sublist
  have hfiles' := (kept_sublist hfiles).trans List.filter_sublist
  subst hf
  refine ⟨⟨hway, hpath, by dsimp only, ?_, ?_, ?_⟩, hskip, ?_⟩
  · intro file hfile
    obtain ⟨e, he, rfl⟩ := List.mem_map.mp hfile
    exact ⟨rfl, (hall e (hfiles'.subset he)).1⟩
  · -- the entries are parted into directories and files, so their names stay different
    have hparts := ((List.filter_append_perm (fun e => e.2.isDirectory) entries).map
      Prod.fst).nodup_iff.mpr hnodup
    rw [List.map_append] at hparts
    simp only [List.map_map]
    exact hparts.sublist
      (((kept_sublist hdirs).map Prod.fst).append ((kept_sublist hfiles).map Prod.fst))
  · intro sub hsub
    obtain ⟨e, he, rfl⟩ := List.mem_map.mp hsub
    exact ⟨(hall e (hdirs'.subset he)).1, rfl⟩
  · intro e he hdir hs
    have hmem := mem_kept hdirs (by simp [he, hdir]) hs
    exact ⟨_, List.mem_map.mpr ⟨e, hmem, rfl⟩, rfl⟩

/-- At the end of a way stands its last name. -/
theorem nameOf_below {root name : String} {way : List String} (hway : ∀ n ∈ way, IsName n)
    (hname : IsName name) : nameOf (below root (way ++ [name])) = name := by
  have hnames := hname.concat hway
  have hne : way ++ [name] ≠ [] := List.append_ne_nil_of_right_ne_nil way (by simp)
  rw [nameOf, dropEnd_slash (not_endsWith_below hnames hne), String.ofList_toList, baseName,
    split_below hnames hne, ← List.append_assoc, List.getLast?_concat]
  rfl

end WalkRules

namespace Walk

/-- Folders at places below the end of a way: no two at the same, and none that is not known. -/
structure Laid (root : String) (way : List String) (known : String → Prop)
    (folders : List Folder) : Prop where
  at_way : ∀ f ∈ folders, ∃ way', way <+: way' ∧ f.At root way'
  apart : folders.Pairwise fun f g => f.path ≠ g.path
  announced : Announced known folders

/-- The subdirectories that are not passed over. -/
def Enters (r : WalkRules) (path : String) (entries : List (String × Entry)) (sub : String) :
    Prop :=
  ∃ e ∈ entries, e.2.isDirectory = true ∧ r.skips (join path e.1) e.2 = .ok false ∧
    sub = join path e.1

theorem folders_andThen (first second : Walk) :
    (first.andThen second).folders = first.folders ∨
      (first.andThen second).folders = first.folders ++ second.folders := by
  rw [andThen]
  split
  · exact Or.inl rfl
  · exact Or.inr rfl

section
variable {r : WalkRules} {root : String}

theorem visit_directory (r : WalkRules) (path : String) (stand : Stand)
    (entries : List (String × Entry)) :
    (visit r path (.directory stand entries)).folders = [] ∨
      ∃ f skip, r.folder path stand entries = .ok (f, skip) ∧
        (visit r path (.directory stand entries)).folders =
          (if skip then [] else [f]) ++ (visitAll r path entries).folders := by
  rw [visit]
  split
  · split
    · exact Or.inl rfl
    · rename_i f skip hf
      exact Or.inr ⟨f, skip, hf, by simp [andThen]⟩
  · exact Or.inl rfl

theorem prefix_apart {way wf wg : List String} {name name' : String} (h : name ≠ name')
    (hf : way ++ [name] <+: wf) (hg : way ++ [name'] <+: wg) : wf ≠ wg := by
  rintro rfl
  have := List.prefix_of_prefix_length_le hf hg (by simp)
  exact h (by simpa using this)

/-- The folders in the directories of a list, which have different names. -/
structure LaidIn (root : String) (way names : List String) (known : String → Prop)
    (folders : List Folder) : Prop where
  at_way : ∀ f ∈ folders, ∃ name ∈ names, ∃ way', way ++ [name] <+: way' ∧ f.At root way'
  apart : folders.Pairwise fun f g => f.path ≠ g.path
  announced : Announced known folders

theorem LaidIn.mono {way names names' : List String} {known known' : String → Prop}
    {folders : List Folder} (h : LaidIn root way names known folders)
    (hn : ∀ name ∈ names, name ∈ names') (hk : ∀ path, known path → known' path) :
    LaidIn root way names' known' folders where
  at_way f hf := by
    obtain ⟨name, hname, hat⟩ := h.at_way f hf
    exact ⟨name, hn name hname, hat⟩
  apart := h.apart
  announced := h.announced.mono hk

/-- The folders in one directory stand apart from those in directories of other names. -/
theorem LaidIn.append {way names : List String} {name : String} {known known' : String → Prop}
    {first second : List Folder} (hname : name ∉ names)
    (h₁ : Laid root (way ++ [name]) known first) (h₂ : LaidIn root way names known' second)
    (hk : ∀ path, known path → known' path) :
    LaidIn root way (name :: names) known' (first ++ second) where
  at_way f hf := by
    rcases List.mem_append.mp hf with hf | hf
    · exact ⟨name, by simp, h₁.at_way f hf⟩
    · obtain ⟨name', hname', hat⟩ := h₂.at_way f hf
      exact ⟨name', by simp [hname'], hat⟩
  apart := by
    refine List.pairwise_append.mpr ⟨h₁.apart, h₂.apart, fun f hf g hg heq => ?_⟩
    obtain ⟨wf, hwf, hf⟩ := h₁.at_way f hf
    obtain ⟨name', hname', wg, hwg, hg⟩ := h₂.at_way g hg
    rw [hf.path, hg.path] at heq
    have hne : name ≠ name' := fun h => hname (h ▸ hname')
    exact prefix_apart hne hwf hwg (below_injective hf.names hg.names heq)
  announced := (h₁.announced.mono hk).append h₂.announced

/-- A folder stands before those in its subdirectories and announces them. -/
theorem Laid.head {way names : List String} {known : String → Prop} {f : Folder}
    {rest : List Folder} (hf : f.At root way)
    (hsub : ∀ sub, known sub → ∃ s ∈ f.folders, s.path = sub)
    (hrest : LaidIn root way names known rest) :
    Laid root way (· = below root way) (f :: rest) where
  at_way := List.forall_mem_cons.mpr ⟨⟨way, List.prefix_rfl, hf⟩, fun g hg => by
    obtain ⟨name, _, way', hpre, hg⟩ := hrest.at_way g hg
    exact ⟨way', (List.prefix_append way [name]).trans hpre, hg⟩⟩
  apart := by
    refine List.pairwise_cons.mpr ⟨fun g hg heq => ?_, hrest.apart⟩
    obtain ⟨name, _, way', hpre, hg⟩ := hrest.at_way g hg
    rw [hf.path, hg.path] at heq
    have hlen := hpre.length_le
    rw [← below_injective hf.names hg.names heq, List.length_append, List.length_singleton] at hlen
    omega
  announced := ⟨hf.path, hrest.announced.mono fun sub hs => Or.inr (hsub sub hs)⟩

mutual
/-- The walk from a directory that is not passed over. -/
theorem visit_laid (hroot : root ≠ "") {way : List String} (hway : ∀ n ∈ way, IsName n) :
    (entry : Entry) → entry.Proper → r.skips (below root way) entry = .ok false →
      Laid root way (· = below root way) (visit r (below root way) entry).folders
  | .file _, _, _ => ⟨by simp [visit], by simp [visit], trivial⟩
  | .directory stand entries, hentry, hskip => by
    rcases visit_directory r (below root way) stand entries with hnone | ⟨f, skip, hf, hfolders⟩
    · rw [hnone]
      exact ⟨by simp, by simp, trivial⟩
    · obtain ⟨hat, hskip', hsub⟩ := WalkRules.folder_at hway rfl hentry hf
      rw [hskip, Except.ok.injEq] at hskip'
      rw [hfolders, ← hskip']
      refine Laid.head hat ?_ (visitAll_laid hroot hway entries hentry.1 hentry.2)
      rintro sub ⟨e, he, hdir, hs, rfl⟩
      exact hsub e he hdir hs

theorem visitAll_laid (hroot : root ≠ "") {way : List String} (hway : ∀ n ∈ way, IsName n) :
    (entries : List (String × Entry)) → (Assoc.keys entries).Nodup → ProperAll entries →
      LaidIn root way (Assoc.keys entries) (Enters r (below root way) entries)
        (visitAll r (below root way) entries).folders
  | [], _, _ => ⟨by simp [visitAll], by simp [visitAll], trivial⟩
  | (name, entry) :: rest, hnodup, ⟨hname, hentry, hall⟩ => by
    obtain ⟨hfresh, hnodup⟩ := List.nodup_cons.mp hnodup
    have hrest : LaidIn root way (Assoc.keys rest)
        (Enters r (below root way) ((name, entry) :: rest))
        (visitAll r (below root way) rest).folders :=
      (visitAll_laid hroot hway rest hnodup hall).mono (fun _ h => h) fun path henters => by
        obtain ⟨e, he, hs⟩ := henters
        exact ⟨e, List.mem_cons_of_mem _ he, hs⟩
    rw [visitAll]
    split
    · rename_i hdir hs
      have hway' := hname.concat hway
      have hjoin := join_below hroot hway hname
      have hfirst := visit_laid hroot hway' entry hentry (hjoin ▸ hs)
      have hknown : ∀ path, path = below root (way ++ [name]) →
          Enters r (below root way) ((name, entry) :: rest) path := by
        rintro path rfl
        exact ⟨(name, entry), by simp, hdir, hs, hjoin.symm⟩
      rw [hjoin]
      rcases folders_andThen (visit r (below root (way ++ [name])) entry)
          (visitAll r (below root way) rest) with h | h
      · rw [h, ← List.append_nil (visit r (below root (way ++ [name])) entry).folders]
        exact LaidIn.append hfresh hfirst ⟨by simp, by simp, trivial⟩ hknown
      · rw [h]
        exact LaidIn.append hfresh hfirst hrest hknown
    · exact hrest.mono (fun _ => List.mem_cons_of_mem _) fun _ h => h
end

/-- A folder that stands below no other: the root, or what is in it if the root is passed over. Its
name and the names in front of it are all there is of its way. -/
def IsTop (root : String) (top : List String) (path : String) : Prop :=
  ∃ way, (∀ n ∈ way, IsName n) ∧ path = below root way ∧ top ++ way = [WalkRules.nameOf path]

/-- The walk through a project. Only the root can be passed over and still be gone through. -/
theorem of_laid {d : Disk} (hd : d.Proper) (hr : r.root = .str root) :
    ∃ top, Laid root [] (IsTop root top) (Walk.of d r).folders ∧
      (top = [WalkRules.nameOf root] ∨
        ∃ entry, d.lookUp root = some entry ∧ r.skips root entry = .ok true) := by
  have hempty : Laid root [] (IsTop root [WalkRules.nameOf root]) [] := ⟨by simp, by simp, trivial⟩
  have hnames : ∀ n ∈ ([] : List String), IsName n := by simp
  rw [Walk.of, hr]
  dsimp only
  split
  · rename_i entry hl
    have hroot := Disk.ne_empty_of_lookUp hl
    cases entry with
    | file blob => exact ⟨_, by simpa [visit] using hempty, Or.inl rfl⟩
    | directory stand entries =>
      have hentry := hd.lookUp hl
      rcases visit_directory r root stand entries with hnone | ⟨f, skip, hf, hfolders⟩
      · exact ⟨_, hnone ▸ hempty, Or.inl rfl⟩
      · obtain ⟨_, hskip, _⟩ := WalkRules.folder_at hnames (below_nil root).symm hentry hf
        cases skip with
        | false =>
          have hlaid := visit_laid hroot hnames (.directory stand entries) hentry hskip
          exact ⟨_, ⟨hlaid.at_way, hlaid.apart, hlaid.announced.mono fun path hp =>
            ⟨[], hnames, hp, by rw [hp]; rfl⟩⟩, Or.inl rfl⟩
        | true =>
          have hlaid := visitAll_laid (r := r) hroot hnames entries hentry.1 hentry.2
          refine ⟨[], ?_, Or.inr ⟨_, hl, hskip⟩⟩
          rw [hfolders, if_pos rfl, List.nil_append]
          refine ⟨?_, hlaid.apart, hlaid.announced.mono ?_⟩
          · intro f hf
            obtain ⟨_, _, way, _, hat⟩ := hlaid.at_way f hf
            exact ⟨way, List.nil_prefix, hat⟩
          · rintro path ⟨e, he, _, _, rfl⟩
            have hname := ((Entry.proper_directory.mp hentry).2 e he).1
            refine ⟨[e.1], by simpa using hname, join_below hroot hnames hname, ?_⟩
            rw [join_below hroot hnames hname, WalkRules.nameOf_below hnames hname,
              List.nil_append]
  · exact ⟨_, hempty, Or.inl rfl⟩

/-- Nothing is listed twice along a walk. -/
theorem Laid.entries_nodup {known : String → Prop} {way : List String} {folders : List Folder}
    (hroot : root ≠ "") (h : Laid root way known folders) :
    (folders.flatMap Folder.entries).Nodup := by
  refine List.pairwise_flatMap.mpr ⟨fun f hf => ?_, h.apart.imp_of_mem ?_⟩
  · obtain ⟨wf, _, hat⟩ := h.at_way f hf
    rw [hat.entries_eq hroot]
    refine List.pairwise_map.mpr (hat.nodup.imp_of_mem ?_)
    intro a b ha hb hne heq
    have hsame := below_injective (hat.entry_names ha) (hat.entry_names hb) heq
    exact hne (by simpa using hsame)
  · intro f g hf hg hne a ha b hb heq
    obtain ⟨wf, _, hatf⟩ := h.at_way f hf
    obtain ⟨wg, _, hatg⟩ := h.at_way g hg
    obtain ⟨a, hnames, rfl⟩ := hatf.exists_name hroot ha
    obtain ⟨b, hnames', rfl⟩ := hatg.exists_name hroot hb
    have hsame := below_injective hnames hnames' heq
    apply hne
    rw [hatf.path, hatg.path, (List.append_inj' hsame rfl).1]

/-- A folder at the top is listed nowhere. -/
theorem Laid.not_mem_entries {top : List String} {folders : List Folder} (hroot : root ≠ "")
    (h : Laid root [] (IsTop root top) folders) {path : String} (hp : IsTop root top path) :
    path ∉ folders.flatMap Folder.entries := by
  intro hmem
  obtain ⟨f, hf, hentry⟩ := List.mem_flatMap.mp hmem
  obtain ⟨wf, _, hat⟩ := h.at_way f hf
  obtain ⟨name, hnames, hpath⟩ := hat.exists_name hroot hentry
  obtain ⟨way, hway, hpath', htop⟩ := hp
  have hsame := below_injective hway hnames (hpath'.symm.trans hpath)
  -- so the folder is the root, which stands in front of all trails and is not itself at the top
  rw [hsame, ← List.append_assoc] at htop
  obtain ⟨⟨rfl, rfl⟩, -⟩ : (top = [] ∧ wf = []) ∧ name = WalkRules.nameOf path := by
    simpa using List.append_eq_singleton_iff.mp htop
  obtain ⟨before, after, rfl⟩ := List.append_of_mem hf
  rcases h.announced.known_or_before with ⟨way', hway', hpath', htop'⟩ | ⟨g, hg, sub, hsub, hpath'⟩
  · obtain rfl := below_injective hway' hat.names (hpath'.symm.trans hat.path)
    cases htop'
  · obtain ⟨wg, _, hatg⟩ := h.at_way g (by simp [hg])
    have hentry : sub.path ∈ g.entries :=
      List.mem_append_left _ (List.mem_map_of_mem hsub)
    obtain ⟨name', hnames', hpath''⟩ := hatg.exists_name hroot hentry
    have hsame := below_injective hnames' hat.names (hpath''.symm.trans (hpath'.trans hat.path))
    simp at hsame

/-- A folder is not listed any more when the walk has come to it. -/
theorem Laid.path_not_mem_entries {top : List String} {before after : List Folder} {f g : Folder}
    (hroot : root ≠ "") (h : Laid root [] (IsTop root top) (before ++ f :: after))
    (hg : g ∈ f :: after) : f.path ∉ g.entries := by
  intro hmem
  have hlist : f.path ∈ (f :: after).flatMap Folder.entries := List.mem_flatMap.mpr ⟨g, hg, hmem⟩
  rcases h.announced.known_or_before with htop | ⟨g', hg', sub, hsub, hpath⟩
  · apply h.not_mem_entries hroot htop
    rw [List.flatMap_append]
    exact List.mem_append_right _ hlist
  · have hnodup := h.entries_nodup hroot
    rw [List.flatMap_append] at hnodup
    have hearly : f.path ∈ before.flatMap Folder.entries := by
      refine List.mem_flatMap.mpr ⟨g', hg', List.mem_append_left _ ?_⟩
      exact hpath ▸ List.mem_map_of_mem hsub
    exact (List.nodup_append.mp hnodup).2.2 _ hearly _ hlist rfl

theorem root_of_folders {d : Disk} (h : (Walk.of d r).folders ≠ []) :
    ∃ root, r.root = .str root ∧ root ≠ "" := by
  unfold Walk.of at h
  split at h
  · rename_i root hr
    refine ⟨root, hr, ?_⟩
    rintro rfl
    exact h (by simp [Disk.lookUp])
  · exact absurd rfl h

/-- Is each subfolder of a folder of a list itself in the list, or one of those left out? -/
def IsComplete (out : String → Prop) (folders : List Folder) : Prop :=
  ∀ f ∈ folders, ∀ sub ∈ f.folders, (∃ g ∈ folders, g.path = sub.path) ∨ out sub.path

theorem IsComplete.mono {out out' : String → Prop} {folders : List Folder}
    (h : IsComplete out folders) (ho : ∀ path, out path → out' path) : IsComplete out' folders :=
  fun f hf sub hsub => (h f hf sub hsub).imp_right (ho sub.path)

theorem IsComplete.append {out : String → Prop} {first second : List Folder}
    (h₁ : IsComplete out first) (h₂ : IsComplete out second) :
    IsComplete out (first ++ second) := by
  intro f hf sub hsub
  rcases List.mem_append.mp hf with hf | hf
  · refine (h₁ f hf sub hsub).imp_left ?_
    rintro ⟨g, hg, hpath⟩
    exact ⟨g, List.mem_append_left _ hg, hpath⟩
  · refine (h₂ f hf sub hsub).imp_left ?_
    rintro ⟨g, hg, hpath⟩
    exact ⟨g, List.mem_append_right _ hg, hpath⟩

/-- Is there a directory at a path, at or below an entry at the end of a way, that is not passed
over and not gone into either? -/
def Bypasses (r : WalkRules) (root : String) (way : List String) (entry : Entry) (path : String) :
    Prop :=
  ∃ rest stand inside, path = below root (way ++ rest) ∧
    entry.reach? rest = some (.directory stand inside) ∧ stand.isOpen = false ∧
      r.skips path (.directory stand inside) = .ok false

theorem Bypasses.of_mem {way : List String} {stand : Stand} {entries : List (String × Entry)}
    {e : String × Entry} {path : String} (hopen : stand.isOpen = true)
    (hnodup : (Assoc.keys entries).Nodup) (he : e ∈ entries)
    (h : Bypasses r root (way ++ [e.1]) e.2 path) :
    Bypasses r root way (.directory stand entries) path := by
  obtain ⟨rest, stand', inside, hpath, hreach, hclosed, hskip⟩ := h
  refine ⟨e.1 :: rest, stand', inside, by simpa using hpath, ?_, hclosed, hskip⟩
  rw [Entry.reach?_cons_of_mem hopen hnodup he, hreach]

/-- What a folder lists as its subfolders are the directories that are not passed over. -/
theorem enters_of_folder {path : String} {stand : Stand} {entries : List (String × Entry)}
    {f : Folder} {skip : Bool} (h : r.folder path stand entries = .ok (f, skip)) :
    f.path = path ∧ r.skips path (.directory stand entries) = .ok skip ∧
      ∀ sub ∈ f.folders, Enters r path entries sub.path := by
  simp only [WalkRules.folder, Outcome.bind_eq_ok, Outcome.pure_eq_ok, Prod.mk.injEq] at h
  obtain ⟨dirs, hdirs, files, hfiles, skip', hskip, rfl, rfl⟩ := h
  refine ⟨rfl, hskip, fun sub hsub => ?_⟩
  obtain ⟨e, he, rfl⟩ := List.mem_map.mp hsub
  obtain ⟨hmem, hdir⟩ := List.mem_filter.mp ((WalkRules.kept_sublist hdirs).subset he)
  exact ⟨e, hmem, hdir, WalkRules.skips_of_mem_kept hdirs he, rfl⟩

theorem fault_andThen {first second : Walk} (h : (first.andThen second).fault = none) :
    first.fault = none ∧ second.fault = none ∧
      (first.andThen second).folders = first.folders ++ second.folders := by
  unfold andThen at h ⊢
  cases hfirst : first.fault with
  | none => simpa [hfirst] using h
  | some fault => simp [hfirst] at h

mutual
/-- A walk that no fault ends comes to the directory it starts from and to all subfolders that it
has listed, but for those that are passed over or not gone into. -/
theorem visit_complete (hroot : root ≠ "") {way : List String} (hway : ∀ n ∈ way, IsName n) :
    (entry : Entry) → entry.Proper → (visit r (below root way) entry).fault = none →
      IsComplete (Bypasses r root way entry) (visit r (below root way) entry).folders ∧
      (entry.isDirectory = true → r.skips (below root way) entry = .ok false →
        (∃ f ∈ (visit r (below root way) entry).folders, f.path = below root way) ∨
          Bypasses r root way entry (below root way))
  | .file _, _, _ => ⟨by simp [visit, IsComplete], fun hdir => by cases hdir⟩
  | .directory stand entries, hentry, hfault => by
    cases hopen : stand.isOpen with
    | false =>
      have hnone : visit r (below root way) (.directory stand entries) = {} := by
        simp [visit, hopen]
      rw [hnone]
      refine ⟨by simp [IsComplete], fun _ hskip => .inr ⟨[], stand, entries, ?_, rfl, hopen, hskip⟩⟩
      rw [List.append_nil]
    | true =>
      cases hfolder : r.folder (below root way) stand entries with
      | error fault => simp [visit, hopen, hfolder] at hfault
      | ok result =>
        obtain ⟨f, skip⟩ := result
        simp only [visit, hopen, if_true, hfolder] at hfault ⊢
        obtain ⟨-, hrest, hfolders⟩ := fault_andThen hfault
        obtain ⟨hpath, hskip, hsubs⟩ := enters_of_folder hfolder
        obtain ⟨hall, hentered⟩ := visitAll_complete hroot hway entries hentry.2 hrest
        have hout : ∀ path, (∃ e ∈ entries, Bypasses r root (way ++ [e.1]) e.2 path) →
            Bypasses r root way (.directory stand entries) path := by
          rintro path ⟨e, he, h⟩
          exact h.of_mem hopen hentry.1 he
        rw [hfolders]
        cases skip with
        | true => exact ⟨hall.mono hout, fun _ hnot => by cases hskip.symm.trans hnot⟩
        | false =>
          refine ⟨fun g hg sub hsub => ?_, fun _ _ => .inl ⟨f, by simp, hpath⟩⟩
          have hlisted : (∃ g ∈ (visitAll r (below root way) entries).folders,
              g.path = sub.path) ∨ Bypasses r root way (.directory stand entries) sub.path := by
            rcases List.mem_cons.mp hg with rfl | hg
            · exact (hentered _ (hsubs sub hsub)).imp_right (hout sub.path)
            · exact hall.mono hout g hg sub hsub
          refine hlisted.imp_left ?_
          rintro ⟨g', hg', heq⟩
          exact ⟨g', List.mem_cons_of_mem _ hg', heq⟩

theorem visitAll_complete (hroot : root ≠ "") {way : List String} (hway : ∀ n ∈ way, IsName n) :
    (entries : List (String × Entry)) → ProperAll entries →
      (visitAll r (below root way) entries).fault = none →
      IsComplete (fun path => ∃ e ∈ entries, Bypasses r root (way ++ [e.1]) e.2 path)
        (visitAll r (below root way) entries).folders ∧
      ∀ sub, Enters r (below root way) entries sub →
        (∃ f ∈ (visitAll r (below root way) entries).folders, f.path = sub) ∨
          ∃ e ∈ entries, Bypasses r root (way ++ [e.1]) e.2 sub
  | [], _, _ => ⟨by simp [visitAll, IsComplete], fun sub hsub => by simp [Enters] at hsub⟩
  | (name, entry) :: rest, ⟨hname, hentry, hall⟩, hfault => by
    have hlater : ∀ path, (∃ e ∈ rest, Bypasses r root (way ++ [e.1]) e.2 path) →
        ∃ e ∈ (name, entry) :: rest, Bypasses r root (way ++ [e.1]) e.2 path := by
      rintro path ⟨e, he, h⟩
      exact ⟨e, List.mem_cons_of_mem _ he, h⟩
    have hjoin := join_below hroot hway hname
    rw [visitAll] at hfault ⊢
    split at hfault
    · rename_i hdir hskip
      have hway' := hname.concat hway
      rw [hjoin] at hfault hskip ⊢
      obtain ⟨hfirst, hrest, hfolders⟩ := fault_andThen hfault
      obtain ⟨hcomplete, hself⟩ := visit_complete hroot hway' entry hentry hfirst
      obtain ⟨hcomplete', hentered⟩ := visitAll_complete hroot hway rest hall hrest
      have hhere : ∀ path, Bypasses r root (way ++ [name]) entry path →
          ∃ e ∈ (name, entry) :: rest, Bypasses r root (way ++ [e.1]) e.2 path :=
        fun path h => ⟨(name, entry), List.mem_cons_self, h⟩
      rw [hfolders]
      refine ⟨(hcomplete.mono hhere).append (hcomplete'.mono hlater), ?_⟩
      rintro sub ⟨e, he, hdir', hskip', rfl⟩
      rcases List.mem_cons.mp he with rfl | he
      · rw [hjoin]
        refine (hself hdir hskip).imp ?_ (hhere _)
        rintro ⟨f, hf, hpath⟩
        exact ⟨f, List.mem_append_left _ hf, hpath⟩
      · refine (hentered _ ⟨e, he, hdir', hskip', rfl⟩).imp ?_ (hlater _)
        rintro ⟨f, hf, hpath⟩
        exact ⟨f, List.mem_append_right _ hf, hpath⟩
    · rename_i hnot
      obtain ⟨hcomplete, hentered⟩ := visitAll_complete hroot hway rest hall hfault
      refine ⟨hcomplete.mono hlater, ?_⟩
      rintro sub ⟨e, he, hdir, hskip, rfl⟩
      rcases List.mem_cons.mp he with rfl | he
      · exact absurd hskip (hnot hdir)
      · exact (hentered _ ⟨e, he, hdir, hskip, rfl⟩).imp_right (hlater _)
end

/-- A root that is passed over is not among the folders. -/
theorem path_ne_root_of_skips {d : Disk} {top : Entry} (hd : d.Proper) (hr : r.root = .str root)
    (htop : d.lookUp root = some top) (hskip : r.skips root top = .ok true) {f : Folder}
    (hf : f ∈ (Walk.of d r).folders) : f.path ≠ root := by
  have hroot := Disk.ne_empty_of_lookUp htop
  have hnames : ∀ n ∈ ([] : List String), IsName n := List.forall_mem_nil _
  simp only [Walk.of, hr, htop] at hf
  cases top with
  | file blob => cases hf
  | directory stand entries =>
    have htop := hd.lookUp htop
    rcases visit_directory r root stand entries with hnone | ⟨f', skip, hfolder, hfolders⟩
    · rw [hnone] at hf
      cases hf
    · obtain ⟨-, hskip', -⟩ := enters_of_folder hfolder
      obtain rfl := Except.ok.inj (hskip.symm.trans hskip')
      rw [hfolders, if_pos rfl, List.nil_append, ← below_nil root] at hf
      obtain ⟨name, -, way, hway, hat⟩ :=
        (visitAll_laid hroot hnames entries htop.1 htop.2).at_way f hf
      rw [hat.path]
      intro heq
      rw [below_injective hat.names hnames (heq.trans (below_nil root).symm)] at hway
      cases List.prefix_nil.mp hway

/-- A root that is gone into and not passed over is. -/
theorem exists_root_of_shown {d : Disk} {stand : Stand} {entries : List (String × Entry)}
    (hr : r.root = .str root) (htop : d.lookUp root = some (.directory stand entries))
    (hopen : stand.isOpen = true) (hskip : r.skips root (.directory stand entries) = .ok false)
    (hfault : (Walk.of d r).fault = none) : ∃ f ∈ (Walk.of d r).folders, f.path = root := by
  simp only [Walk.of, hr, htop, visit, hopen, if_true] at hfault ⊢
  cases hfolder : r.folder root stand entries with
  | error fault => simp [hfolder] at hfault
  | ok result =>
    obtain ⟨f, skip⟩ := result
    obtain ⟨hpath, hskip', -⟩ := enters_of_folder hfolder
    obtain rfl := Except.ok.inj (hskip.symm.trans hskip')
    exact ⟨f, by simp [andThen], hpath⟩

/-- No two files of a walk have one URI. -/
theorem Laid.files_apart {known : String → Prop} {way : List String} {folders : List Folder}
    (hroot : root ≠ "") (h : Laid root way known folders) :
    (folders.flatMap Folder.files).Pairwise fun a b => a.uri ≠ b.uri := by
  refine List.pairwise_flatMap.mpr ⟨fun f hf => ?_,
    h.apart.imp_of_mem fun {f g} hf hg hne a ha b hb heq => ?_⟩
  · obtain ⟨wf, _, hat⟩ := h.at_way f hf
    refine (List.pairwise_map.mp hat.files_nodup).imp_of_mem fun {a b} ha hb hne heq => hne ?_
    exact (hat.way_eq hroot hat ha hb heq).2
  · obtain ⟨wf, _, hatf⟩ := h.at_way f hf
    obtain ⟨wg, _, hatg⟩ := h.at_way g hg
    exact hne (by rw [hatf.path, hatg.path, (hatf.way_eq hroot hatg ha hb heq).1])

end
end Walk
end CodeAtlas
