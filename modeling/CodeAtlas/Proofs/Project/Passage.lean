import CodeAtlas.Proofs.Project.Listing

namespace CodeAtlas
open Text CodeAtlas.Path

structure Stop where
  path : String
  stand : Stand
  entries : List (String × Entry)

mutual
/-- The directories to go through from an entry at a path, each before those in it. -/
def Entry.through (r : WalkRules) (path : String) : Entry → List Stop
  | .file _ => []
  | .directory stand entries =>
    if stand.isOpen then ⟨path, stand, entries⟩ :: throughIn r path entries else []

def throughIn (r : WalkRules) (path : String) : List (String × Entry) → List Stop
  | [] => []
  | (name, entry) :: rest =>
    (if r.shows (join path name) entry then entry.through r (join path name) else []) ++
      throughIn r path rest
end

/-- The folder of a directory that is gone through, and whether it is itself passed over. -/
def WalkRules.folderAt (r : WalkRules) (stop : Stop) : Except Fault (Folder × Bool) :=
  r.folder stop.path stop.stand stop.entries

namespace Walk
variable {r : WalkRules} {root : String}

/-- The folders before the first fault, without those that are passed over themselves. -/
def gather : List (Except Fault (Folder × Bool)) → Walk
  | [] => {}
  | .error fault :: _ => ⟨[], some fault⟩
  | .ok (folder, skip) :: rest => andThen ⟨if skip then [] else [folder], none⟩ (gather rest)

theorem andThen_assoc (a b c : Walk) : (a.andThen b).andThen c = a.andThen (b.andThen c) := by
  obtain ⟨folders, fault⟩ := a
  obtain ⟨folders', fault'⟩ := b
  cases fault with
  | some fault => simp [andThen]
  | none => cases fault' <;> simp [andThen]

theorem gather_append (xs ys : List (Except Fault (Folder × Bool))) :
    gather (xs ++ ys) = (gather xs).andThen (gather ys) := by
  induction xs with
  | nil => simp [gather, andThen]
  | cons x xs ih =>
    cases x with
    | error fault => simp [gather, andThen]
    | ok result => rw [List.cons_append, gather, gather, ih, andThen_assoc]

theorem exists_of_mem_gather {xs : List (Except Fault (Folder × Bool))} {f : Folder}
    (h : f ∈ (gather xs).folders) : ∃ skip, .ok (f, skip) ∈ xs := by
  induction xs with
  | nil => cases h
  | cons x xs ih =>
    cases x with
    | error fault => cases h
    | ok result =>
      obtain ⟨g, skip⟩ := result
      simp only [gather, andThen, Option.isSome_none, Bool.false_eq_true, ↓reduceIte,
        List.mem_append] at h
      rcases h with h | h
      · cases skip with
        | true => cases h
        | false =>
          obtain rfl := List.mem_singleton.mp h
          exact ⟨false, List.mem_cons_self⟩
      · obtain ⟨skip', hmem⟩ := ih h
        exact ⟨skip', List.mem_cons_of_mem _ hmem⟩

mutual
/-- A walk asks for the folders of the directories that it is to go through. -/
theorem visit_eq_gather (r : WalkRules) (path : String) : (entry : Entry) →
    visit r path entry = gather ((entry.through r path).map r.folderAt)
  | .file _ => rfl
  | .directory stand entries => by
    rw [visit, Entry.through]
    split
    · rw [List.map_cons, visitAll_eq_gather r path entries, WalkRules.folderAt]
      cases r.folder path stand entries with
      | error fault => rfl
      | ok result => rfl
    · rfl

theorem visitAll_eq_gather (r : WalkRules) (path : String) : (entries : List (String × Entry)) →
    visitAll r path entries = gather ((throughIn r path entries).map r.folderAt)
  | [] => rfl
  | (name, entry) :: rest => by
    rw [visitAll, throughIn, List.map_append, gather_append, visitAll_eq_gather r path rest]
    split
    · rename_i hdir hskip
      rw [if_pos (WalkRules.shows_iff.mpr hskip), visit_eq_gather r (join path name) entry]
    · rename_i hnot
      -- a file is no directory to go through
      have hnone : (if r.shows (join path name) entry = true then
          entry.through r (join path name) else []) = [] := by
        split
        · rename_i hshows
          cases entry with
          | file blob => rfl
          | directory stand inside => exact absurd (WalkRules.shows_iff.mp hshows) (hnot rfl)
        · rfl
      rw [hnone]
      rfl
end

def passage (d : Disk) (r : WalkRules) (root : String) : List Stop :=
  match d.lookUp root with
  | some entry => entry.through r root
  | none => []

theorem of_eq_gather (d : Disk) (hr : r.root = .str root) :
    Walk.of d r = gather ((passage d r root).map r.folderAt) := by
  rw [Walk.of, hr, passage]
  dsimp only
  cases d.lookUp root with
  | none => rfl
  | some entry => exact visit_eq_gather r root entry

mutual
/-- What a walk goes through stands where a way leads to. -/
theorem exists_way_of_mem_through (hroot : root ≠ "") {way : List String}
    (hway : ∀ n ∈ way, IsName n) {stop : Stop} : (entry : Entry) → entry.Proper →
      stop ∈ entry.through r (below root way) → stop.stand.isOpen = true ∧
        ∃ rest, (∀ n ∈ rest, IsName n) ∧ stop.path = below root (way ++ rest) ∧
          entry.reach? rest = some (.directory stop.stand stop.entries)
  | .file _, _, h => by cases h
  | .directory stand entries, hentry, h => by
    rw [Entry.through] at h
    split at h
    · rename_i hopen
      rcases List.mem_cons.mp h with rfl | h
      · exact ⟨hopen, [], by simp, by simp, rfl⟩
      · obtain ⟨hstop, e, he, rest, hnames, hpath, hreach⟩ :=
          exists_way_of_mem_throughIn hroot hway entries hentry.2 h
        refine ⟨hstop, e.1 :: rest, hnames, hpath, ?_⟩
        rw [Entry.reach?_cons_of_mem hopen hentry.1 he, hreach]
    · cases h

theorem exists_way_of_mem_throughIn (hroot : root ≠ "") {way : List String}
    (hway : ∀ n ∈ way, IsName n) {stop : Stop} : (entries : List (String × Entry)) →
      ProperAll entries → stop ∈ throughIn r (below root way) entries →
      stop.stand.isOpen = true ∧ ∃ e ∈ entries, ∃ rest, (∀ n ∈ e.1 :: rest, IsName n) ∧
        stop.path = below root (way ++ e.1 :: rest) ∧
        e.2.reach? rest = some (.directory stop.stand stop.entries)
  | [], _, h => by cases h
  | (name, entry) :: rest, ⟨hname, hentry, hall⟩, h => by
    rw [throughIn, join_below hroot hway hname, List.mem_append] at h
    rcases h with h | h
    · split at h
      · have hway' := hname.concat hway
        obtain ⟨hstop, rest', hnames, hpath, hreach⟩ :=
          exists_way_of_mem_through hroot hway' entry hentry h
        refine ⟨hstop, (name, entry), by simp, rest', ?_, ?_, hreach⟩
        · exact List.forall_mem_cons.mpr ⟨hname, hnames⟩
        · simpa using hpath
      · cases h
    · obtain ⟨hstop, e, he, hrest⟩ := exists_way_of_mem_throughIn hroot hway rest hall h
      exact ⟨hstop, e, List.mem_cons_of_mem _ he, hrest⟩
end

/-- Each folder of a walk is that of a directory to which a way leads from the root. -/
theorem exists_directory_of_mem {d : Disk} (hd : d.Proper) (hr : r.root = .str root) {f : Folder}
    (h : f ∈ (Walk.of d r).folders) : ∃ top way stand inside skip, d.lookUp root = some top ∧
      (∀ n ∈ way, IsName n) ∧ stand.isOpen = true ∧
        top.reach? way = some (.directory stand inside) ∧
        r.folder (below root way) stand inside = .ok (f, skip) := by
  rw [of_eq_gather d hr] at h
  obtain ⟨skip, hmem⟩ := exists_of_mem_gather h
  obtain ⟨stop, hstop, hfolder⟩ := List.mem_map.mp hmem
  unfold passage at hstop
  split at hstop
  · rename_i top htop
    have hstart : ∀ n ∈ ([] : List String), IsName n := List.forall_mem_nil _
    obtain ⟨hopen, way, hnames, hpath, hreach⟩ := exists_way_of_mem_through
      (Disk.ne_empty_of_lookUp htop) hstart top (hd.lookUp htop) hstop
    rw [WalkRules.folderAt, hpath, List.nil_append] at hfolder
    exact ⟨top, way, stop.stand, stop.entries, skip, htop, hnames, hopen, hreach, hfolder⟩
  · cases hstop

end Walk
end CodeAtlas
