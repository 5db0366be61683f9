import CodeAtlas.Proofs.Json
import CodeAtlas.Proofs.Project.Passage

namespace CodeAtlas
open Text CodeAtlas.Path

namespace Entry
variable {entry : Entry}

theorem size_of_isDangling (h : entry.isDangling = true) : entry.size = .error .fileNotFound := by
  cases entry with
  | file blob =>
    rw [isDangling] at h
    rw [size, if_pos h]
  | directory stand entries => cases h

theorem isDangling_of_isDirectory (h : entry.isDirectory = true) : entry.isDangling = false := by
  cases entry with
  | file blob => cases h
  | directory stand entries => rfl

end Entry

def hasDangling (entries : List (String × Entry)) : Bool :=
  entries.any fun e => e.2.isDangling

namespace WalkRules
variable {r : WalkRules} {path : String} {entries : List (String × Entry)}

/-- One entry that has no answer leaves the others without one. -/
theorem kept_eq_error {fault : Fault}
    (h : ∀ e ∈ entries, (∃ answer, r.skips (join path e.1) e.2 = .ok answer) ∨
      r.skips (join path e.1) e.2 = .error fault)
    (hbad : ∃ e ∈ entries, r.skips (join path e.1) e.2 = .error fault) :
    r.kept path entries = .error fault := by
  induction entries with
  | nil =>
    obtain ⟨e, he, -⟩ := hbad
    cases he
  | cons e rest ih =>
    obtain ⟨hfirst, hrest⟩ := List.forall_mem_cons.mp h
    rcases hfirst with ⟨answer, hanswer⟩ | hfault
    · have hlater : ∃ e ∈ rest, r.skips (join path e.1) e.2 = .error fault := by
        obtain ⟨e', he', hfault⟩ := hbad
        rcases List.mem_cons.mp he' with rfl | he'
        · cases hanswer.symm.trans hfault
        · exact ⟨e', he', hfault⟩
      simp only [kept, hanswer, ih hrest hlater, bind, Except.bind]
    · simp only [kept, hfault, bind, Except.bind]

theorem isBelow_map_str (path : String) (paths : List String) :
    isBelow path (paths.map .str) = .ok (paths.any (startsWith path)) := by
  induction paths with
  | nil => rfl
  | cons start paths ih =>
    simp only [List.map_cons, isBelow, Json.toText, bind, Except.bind, ih, List.any_cons]
    cases startsWith path start <;> rfl

end WalkRules

/-- Where a walk starts and what it passes over: names, what begins with some paths, and what is
too large. -/
structure Skipping where
  root : String
  paths : List String
  names : List String
  limit : Json
  limit_isSome : limit.number?.isSome = true

namespace Skipping
variable {s : Skipping} {path : String} {entries : List (String × Entry)}

def rules (s : Skipping) : WalkRules where
  root := .str s.root
  pathsToSkip := .arr (s.paths.map .str)
  namesToSkip := .arr (s.names.map .str)
  largest := s.limit

/-- Is what stands at a path ignored, whatever it is? -/
def ignores (s : Skipping) (path : String) : Bool :=
  s.names.contains (baseName path) || s.paths.any (startsWith path)

theorem isLarge_known (s : Skipping) (bytes : Int) :
    ∃ large, s.rules.isLarge bytes = .ok large := by
  obtain ⟨root, paths, names, limit, hlimit⟩ := s
  cases limit with
  | bool b => exact ⟨_, rfl⟩
  | int n => exact ⟨_, rfl⟩
  | real x => exact ⟨_, rfl⟩
  | _ => cases hlimit

/-- The size is asked for in any case. -/
theorem skips_eq (s : Skipping) (path : String) (entry : Entry) : s.rules.skips path entry =
    (entry.size >>= s.rules.isLarge >>= fun large => pure (s.ignores path || large)) := by
  have hnamed : (s.names.map Json.str).any (Json.same (.str (baseName path))) =
      s.names.contains (baseName path) := by
    rw [Bool.eq_iff_iff, Json.any_same_str, Json.texts_map_str, List.contains_iff_mem]
  simp only [WalkRules.skips, rules, Json.holds, Json.items, WalkRules.isBelow_map_str, hnamed,
    ignores, bind, Except.bind]
  cases entry.size <;> rfl

theorem skips_of_isDangling {entry : Entry} (h : entry.isDangling = true) :
    s.rules.skips path entry = .error .fileNotFound := by
  rw [skips_eq, Entry.size_of_isDangling h]
  rfl

theorem skips_known (s : Skipping) (path : String) {entry : Entry}
    (h : entry.isDangling = false) : ∃ answer, s.rules.skips path entry = .ok answer := by
  obtain ⟨size, hsize⟩ := Entry.exists_size h
  obtain ⟨large, hlarge⟩ := s.isLarge_known size
  refine ⟨s.ignores path || large, ?_⟩
  rw [skips_eq, hsize]
  simp only [bind, Except.bind, hlarge, pure, Except.pure]

/-- What is ignored is not shown. -/
theorem not_shows_of_ignores (h : s.ignores path = true) (entry : Entry) :
    s.rules.shows path entry = false := by
  rw [← Bool.not_eq_true, WalkRules.shows_iff, skips_eq, h]
  simp

theorem folder_of_hasDangling (h : hasDangling entries = true) (stand : Stand) :
    s.rules.folder path stand entries = .error .fileNotFound := by
  obtain ⟨link, hlink, hdangling⟩ := List.any_eq_true.mp h
  have hdirs : ∀ e ∈ entries.filter (fun e => e.2.isDirectory),
      ∃ answer, s.rules.skips (join path e.1) e.2 = .ok answer := fun e he =>
    s.skips_known _ (Entry.isDangling_of_isDirectory (List.mem_filter.mp he).2)
  have hfile : link.2.isDirectory = false := by
    rw [← Bool.not_eq_true]
    intro hdir
    rw [Entry.isDangling_of_isDirectory hdir] at hdangling
    cases hdangling
  have hfiles : s.rules.kept path (entries.filter fun e => !e.2.isDirectory) =
      .error .fileNotFound := by
    refine WalkRules.kept_eq_error (fun e _ => ?_)
      ⟨link, List.mem_filter.mpr ⟨hlink, by rw [hfile]; rfl⟩, skips_of_isDangling hdangling⟩
    cases he : e.2.isDangling with
    | true => exact .inr (skips_of_isDangling he)
    | false => exact .inl (s.skips_known _ he)
  simp only [WalkRules.folder, WalkRules.kept_eq hdirs, hfiles, bind, Except.bind]

theorem folder_of_not_hasDangling (s : Skipping) (path : String) (stand : Stand)
    (h : hasDangling entries = false) :
    ∃ skip, s.rules.skips path (.directory stand entries) = .ok skip ∧
      s.rules.folder path stand entries = .ok (s.rules.listed path entries, skip) := by
  have hdir : (Entry.directory stand entries).isDangling = false := rfl
  obtain ⟨skip, hskip⟩ := s.skips_known path hdir
  refine ⟨skip, hskip, WalkRules.folder_eq (fun e he => s.skips_known _ ?_) hskip⟩
  simpa using List.any_eq_false.mp h e he

/-- One for a size beyond the largest, and nothing for the others. -/
def measure (s : Skipping) (size : Int) : Int :=
  if Outcome.isYes (s.rules.isLarge size) then 1 else 0

/-- The same for sizes that are measured. -/
def measured (s : Skipping) : Skipping :=
  { s with limit := .int 0, limit_isSome := rfl }

theorem isLarge_measure (s : Skipping) (size : Int) :
    s.measured.rules.isLarge (s.measure size) = s.rules.isLarge size := by
  obtain ⟨large, hlarge⟩ := s.isLarge_known size
  rw [measure, hlarge]
  cases large <;> rfl

/-- What is asked about an entry is its size. -/
theorem skips_measured {entry entry' : Entry} (h : entry'.size = s.measure <$> entry.size) :
    s.measured.rules.skips path entry' = s.rules.skips path entry := by
  rw [skips_eq, skips_eq, h]
  cases entry.size with
  | error fault => rfl
  | ok size =>
    change (s.measured.rules.isLarge (s.measure size) >>= _) = _
    rw [isLarge_measure]
    rfl

def outline (s : Skipping) : Entry → Entry
  | .file blob => .file ⟨[], s.measure blob.size, blob.dangling⟩
  | .directory stand _ => .directory ⟨s.measure stand.size, stand.access⟩ []

mutual
/-- What a walk sees of an entry that it comes to: all that is not ignored, and what is in the
directories that it goes into. -/
def look (s : Skipping) (path : String) : Entry → Entry
  | .file blob => s.outline (.file blob)
  | .directory stand entries =>
    .directory ⟨s.measure stand.size, stand.access⟩
      (if stand.isOpen then s.lookIn path entries else [])

def lookIn (s : Skipping) (path : String) : List (String × Entry) → List (String × Entry)
  | [] => []
  | (name, entry) :: rest =>
    if s.ignores (join path name) then s.lookIn path rest
    else
      (name, if s.rules.shows (join path name) entry then s.look (join path name) entry
        else s.outline entry) :: s.lookIn path rest
end

def glance (s : Skipping) (path : String) (entry : Entry) : Entry :=
  if s.rules.shows path entry then s.look path entry else s.outline entry

theorem glance_cases {motive : Entry → Prop} (path : String) (entry : Entry)
    (hlook : motive (s.look path entry)) (houtline : motive (s.outline entry)) :
    motive (s.glance path entry) := by
  rw [glance]
  split
  · exact hlook
  · exact houtline

theorem size_look (s : Skipping) (path : String) (entry : Entry) :
    (s.look path entry).size = s.measure <$> entry.size := by
  cases entry with
  | file blob =>
    simp only [look, outline, Entry.size]
    split <;> rfl
  | directory stand entries =>
    rw [look]
    rfl

theorem size_outline (s : Skipping) (entry : Entry) :
    (s.outline entry).size = s.measure <$> entry.size := by
  cases entry with
  | file blob =>
    simp only [outline, Entry.size]
    split <;> rfl
  | directory stand entries => rfl

theorem size_glance (s : Skipping) (path : String) (entry : Entry) :
    (s.glance path entry).size = s.measure <$> entry.size :=
  glance_cases (motive := fun e => e.size = _) path entry (s.size_look path entry)
    (s.size_outline entry)

@[simp] theorem isDirectory_glance {entry : Entry} :
    (s.glance path entry).isDirectory = entry.isDirectory := by
  refine glance_cases (motive := fun e => e.isDirectory = _) path entry ?_ ?_
  · cases entry <;> simp [look, outline, Entry.isDirectory]
  · cases entry <;> rfl

@[simp] theorem isDangling_glance {entry : Entry} :
    (s.glance path entry).isDangling = entry.isDangling := by
  refine glance_cases (motive := fun e => e.isDangling = _) path entry ?_ ?_
  · cases entry <;> simp [look, outline, Entry.isDangling]
  · cases entry <;> rfl

theorem shows_glance (s : Skipping) (path path' : String) (entry : Entry) :
    s.measured.rules.shows path (s.glance path' entry) = s.rules.shows path entry := by
  rw [WalkRules.shows, WalkRules.shows, skips_measured (s.size_glance path' entry)]

theorem lookIn_cons (s : Skipping) (path name : String) (entry : Entry)
    (rest : List (String × Entry)) : s.lookIn path ((name, entry) :: rest) =
      if s.ignores (join path name) then s.lookIn path rest
      else (name, s.glance (join path name) entry) :: s.lookIn path rest := by
  rw [lookIn]
  rfl

/-- What is ignored is not among what is shown, whatever is told of each name. -/
theorem map_shown_lookIn {β : Type} (s : Skipping) (tell : String → β) (kind : Bool → Bool)
    (path : String) (entries : List (String × Entry)) :
    ((s.lookIn path entries).filter (fun e => kind e.2.isDirectory &&
      s.measured.rules.shows (join path e.1) e.2)).map (fun e => tell e.1) =
    (entries.filter (fun e => kind e.2.isDirectory &&
      s.rules.shows (join path e.1) e.2)).map (fun e => tell e.1) := by
  induction entries with
  | nil => rfl
  | cons e rest ih =>
    obtain ⟨name, entry⟩ := e
    rw [lookIn_cons]
    split
    · rename_i hignored
      rw [ih, List.filter_cons_of_neg]
      simp [not_shows_of_ignores hignored]
    · simp only [List.filter_cons, shows_glance, isDirectory_glance]
      split
      · rw [List.map_cons, List.map_cons, ih]
      · exact ih

theorem listed_lookIn (s : Skipping) (path : String) (entries : List (String × Entry)) :
    s.measured.rules.listed path (s.lookIn path entries) = s.rules.listed path entries := by
  let level := s.rules.levelOf path + 1
  have hfiles := s.map_shown_lookIn (fun name => ProjectFile.mk name path level) not path entries
  have hfolders := s.map_shown_lookIn (fun name => Subfolder.mk name (join path name) level) id
    path entries
  rw [WalkRules.listed, WalkRules.listed]
  exact congrArg₂ (Folder.mk _ _ _) hfiles hfolders

/-- Does no ignored link among the entries of a directory dangle? -/
def Sound (s : Skipping) (stop : Stop) : Prop :=
  ∀ e ∈ stop.entries, s.ignores (join stop.path e.1) = true → e.2.isDangling = false

theorem hasDangling_lookIn
    (h : ∀ e ∈ entries, s.ignores (join path e.1) = true → e.2.isDangling = false) :
    hasDangling (s.lookIn path entries) = hasDangling entries := by
  induction entries with
  | nil => rfl
  | cons e rest ih =>
    obtain ⟨name, entry⟩ := e
    obtain ⟨hfirst, hrest⟩ := List.forall_mem_cons.mp h
    have ih := ih hrest
    simp only [hasDangling] at ih
    rw [lookIn_cons]
    split
    · rename_i hignored
      simp only [hasDangling, List.any_cons, hfirst hignored, Bool.false_or, ih]
    · simp only [hasDangling, List.any_cons, isDangling_glance, ih]

/-- What a walk sees of a directory that it goes through. -/
def sight (s : Skipping) (stop : Stop) : Stop :=
  ⟨stop.path, ⟨s.measure stop.stand.size, stop.stand.access⟩, s.lookIn stop.path stop.entries⟩

/-- Where no ignored link dangles, the folder is told by what is seen. -/
theorem folderAt_sight {stop : Stop} (h : s.Sound stop) :
    s.measured.rules.folderAt (s.sight stop) = s.rules.folderAt stop := by
  obtain ⟨path, stand, entries⟩ := stop
  have hsame := hasDangling_lookIn h
  simp only [WalkRules.folderAt, sight]
  cases hd : hasDangling entries with
  | true => rw [folder_of_hasDangling hd, folder_of_hasDangling (hsame.trans hd)]
  | false =>
    obtain ⟨skip, hskip, hfolder⟩ := s.folder_of_not_hasDangling path stand hd
    obtain ⟨skip', hskip', hfolder'⟩ := s.measured.folder_of_not_hasDangling path
      ⟨s.measure stand.size, stand.access⟩ (hsame.trans hd)
    have hskips : s.measured.rules.skips path (.directory ⟨s.measure stand.size, stand.access⟩
        (s.lookIn path entries)) = s.rules.skips path (.directory stand entries) :=
      skips_measured rfl
    obtain rfl := Except.ok.inj (hskip'.symm.trans (hskips.trans hskip))
    rw [hfolder, hfolder', listed_lookIn]

mutual
/-- The walk goes through the same directories if there is no more than what it sees. -/
theorem through_look (s : Skipping) (path : String) : (entry : Entry) →
    (s.look path entry).through s.measured.rules path =
      (entry.through s.rules path).map s.sight
  | .file _ => by
    rw [look, outline]
    rfl
  | .directory stand entries => by
    rw [look, Entry.through, Entry.through]
    cases hopen : stand.isOpen with
    | false =>
      rw [if_neg (by simpa [Stand.isOpen] using hopen), if_neg (by simp)]
      rfl
    | true =>
      rw [if_pos (by simpa [Stand.isOpen] using hopen), if_pos rfl, if_pos rfl, List.map_cons,
        throughIn_lookIn s path entries]
      rfl

theorem throughIn_lookIn (s : Skipping) (path : String) : (entries : List (String × Entry)) →
    throughIn s.measured.rules path (s.lookIn path entries) =
      (throughIn s.rules path entries).map s.sight
  | [] => rfl
  | (name, entry) :: rest => by
    rw [lookIn_cons, throughIn, List.map_append]
    split
    · rename_i hignored
      rw [if_neg (by simp [not_shows_of_ignores hignored]), throughIn_lookIn s path rest]
      rfl
    · rw [throughIn, shows_glance, throughIn_lookIn s path rest]
      split
      · rename_i hshows
        rw [glance, if_pos hshows, through_look s (join path name) entry]
      · rfl
end

def seen (s : Skipping) (d : Disk) : Option Entry :=
  (d.lookUp s.root).map (s.look s.root)

/-- Does no ignored link dangle in the directories that a walk is to go through? -/
def SoundOn (s : Skipping) (d : Disk) : Prop :=
  ∀ stop ∈ Walk.passage d s.rules s.root, s.Sound stop

/-- Does any link dangle in the directories that a walk is to go through? -/
def DanglesOn (s : Skipping) (d : Disk) : Prop :=
  ∃ stop ∈ Walk.passage d s.rules s.root, hasDangling stop.entries = true

instance (s : Skipping) (d : Disk) : Decidable (s.DanglesOn d) :=
  inferInstanceAs (Decidable (∃ stop ∈ Walk.passage d s.rules s.root,
    hasDangling stop.entries = true))

/-- A walk by no ignored dangling link is told by what it sees. -/
theorem walk_eq_of_seen {d : Disk} (h : s.SoundOn d) : Walk.of d s.rules =
    (s.seen d).elim {} (Walk.visit s.measured.rules s.root) := by
  have hroot : s.rules.root = .str s.root := rfl
  rw [Walk.of_eq_gather d hroot, seen]
  unfold SoundOn Walk.passage at h
  unfold Walk.passage
  cases hd : d.lookUp s.root with
  | none => rfl
  | some entry =>
    rw [hd] at h
    rw [Option.map_some, Option.elim_some, Walk.visit_eq_gather, through_look, List.map_map]
    exact congrArg Walk.gather
      (List.map_congr_left fun stop hstop => (folderAt_sight (h stop hstop)).symm)

/-- A dangling link is all that can end a walk. -/
theorem fault_gather (s : Skipping) (stops : List Stop) :
    (Walk.gather (stops.map s.rules.folderAt)).fault =
      if stops.any (fun stop => hasDangling stop.entries) then some .fileNotFound else none := by
  induction stops with
  | nil => rfl
  | cons stop stops ih =>
    rw [List.map_cons, List.any_cons]
    cases hd : hasDangling stop.entries with
    | true =>
      rw [WalkRules.folderAt, folder_of_hasDangling hd]
      rfl
    | false =>
      obtain ⟨skip, -, hfolder⟩ := s.folder_of_not_hasDangling stop.path stop.stand hd
      rw [WalkRules.folderAt, hfolder, Bool.false_or, ← ih]
      rfl

theorem toList_eq_error_iff {d : Disk} :
    (Walk.of d s.rules).toList = .error .fileNotFound ↔ s.DanglesOn d := by
  have hroot : s.rules.root = .str s.root := rfl
  have hfault := s.fault_gather (Walk.passage d s.rules s.root)
  rw [← Walk.of_eq_gather d hroot] at hfault
  rw [Walk.toList, hfault, DanglesOn, ← List.any_eq_true]
  cases (Walk.passage d s.rules s.root).any fun stop => hasDangling stop.entries <;> simp

theorem soundOn_of_not_danglesOn {d : Disk} (h : ¬s.DanglesOn d) : s.SoundOn d := by
  intro stop hstop e he _
  rw [← Bool.not_eq_true]
  intro hdangling
  exact h ⟨stop, hstop, List.any_eq_true.mpr ⟨e, he, hdangling⟩⟩

end Skipping
end CodeAtlas
