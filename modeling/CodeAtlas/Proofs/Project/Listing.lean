import CodeAtlas.Proofs.Project.Walk
import Mathlib.Data.List.Infix

namespace CodeAtlas
open Text CodeAtlas.Path

namespace Entry

mutual
/-- The directories at and below an entry at the end of a way that are gone into, each before those
in it. -/
def directories (way : List String) : Entry → List (List String × List (String × Entry))
  | .file _ => []
  | .directory stand entries =>
    if stand.isOpen then (way, entries) :: directoriesIn way entries else []

def directoriesIn (way : List String) :
    List (String × Entry) → List (List String × List (String × Entry))
  | [] => []
  | (name, entry) :: rest => entry.directories (way ++ [name]) ++ directoriesIn way rest
end

mutual
/-- Does something hold at an entry and at all that a way leads to from it? -/
def all (p : Entry → Bool) : Entry → Bool
  | .file blob => p (.file blob)
  | .directory stand entries => p (.directory stand entries) && (!stand.isOpen || allIn p entries)

def allIn (p : Entry → Bool) : List (String × Entry) → Bool
  | [] => true
  | (_, entry) :: rest => entry.all p && allIn p rest
end

def isDangling : Entry → Bool
  | .file blob => blob.dangling
  | .directory _ _ => false

theorem allIn_iff {p : Entry → Bool} {entries : List (String × Entry)} :
    allIn p entries = true ↔ ∀ e ∈ entries, e.2.all p = true := by
  induction entries with
  | nil => simp [allIn]
  | cons e rest ih => simp [allIn, ih]

theorem all_self {p : Entry → Bool} {entry : Entry} (h : entry.all p = true) : p entry = true := by
  cases entry with
  | file blob => exact h
  | directory stand entries =>
    rw [all, Bool.and_eq_true] at h
    exact h.1

/-- What holds at all that a way leads to holds at the end of each. -/
theorem all_reach? {p : Entry → Bool} {way : List String} {entry found : Entry}
    (h : entry.all p = true) (hf : entry.reach? way = some found) : p found = true := by
  induction way generalizing entry with
  | nil =>
    cases hf
    exact all_self h
  | cons name rest ih =>
    cases entry with
    | file blob => cases hf
    | directory stand entries =>
      rw [all, Bool.and_eq_true] at h
      rw [reach?] at hf
      split at hf
      · rename_i hopen
        obtain ⟨e, he, hf⟩ := Option.bind_eq_some_iff.mp hf
        obtain ⟨k, hk, -⟩ := Assoc.mem_of_get? he
        have hall : allIn p entries = true := by simpa [hopen] using h.2
        exact ih (allIn_iff.mp hall _ hk) hf
      · cases hf

theorem exists_size {entry : Entry} (h : entry.isDangling = false) :
    ∃ size, entry.size = .ok size := by
  cases entry with
  | file blob =>
    rw [isDangling] at h
    exact ⟨blob.size, by simp [size, h]⟩
  | directory stand entries => exact ⟨stand.size, rfl⟩

mutual
/-- The directories that are gone into are those that a way leads to and that are open. -/
theorem mem_directories {way : List String} {d : List String × List (String × Entry)} :
    (entry : Entry) → entry.Proper → (d ∈ entry.directories way ↔ ∃ rest stand,
      d.1 = way ++ rest ∧ stand.isOpen = true ∧ entry.reach? rest = some (.directory stand d.2))
  | .file blob, _ => by
    simp only [directories, List.not_mem_nil, false_iff, not_exists, not_and]
    intro rest stand _ _
    cases rest <;> simp [reach?]
  | .directory stand entries, hentry => by
    obtain ⟨here, inside⟩ := d
    rw [directories]
    split
    · rename_i hopen
      rw [List.mem_cons, mem_directoriesIn entries hentry.2]
      constructor
      · rintro (heq | ⟨e, he, rest, stand', hway, hopen', hfound⟩)
        · cases heq
          exact ⟨[], stand, by simp, hopen, rfl⟩
        · refine ⟨e.1 :: rest, stand', by simpa using hway, hopen', ?_⟩
          rw [reach?_cons_of_mem hopen hentry.1 he, hfound]
      · rintro ⟨rest, stand', hway, hopen', hfound⟩
        cases rest with
        | nil =>
          cases hfound
          exact .inl (by simpa using hway)
        | cons name rest =>
          rw [← List.singleton_append, reach?_append] at hfound
          obtain ⟨e, he, hfound⟩ := Option.bind_eq_some_iff.mp hfound
          have hmem := (reach?_name hopen hentry.1).mp he
          exact .inr ⟨(name, e), hmem, rest, stand', by simpa using hway, hopen', hfound⟩
    · rename_i hclosed
      simp only [List.not_mem_nil, false_iff, not_exists, not_and]
      intro rest stand' _ hopen' hfound
      cases rest with
      | nil =>
        cases hfound
        exact hclosed hopen'
      | cons name rest =>
        rw [reach?, if_neg hclosed] at hfound
        cases hfound

theorem mem_directoriesIn {way : List String} {d : List String × List (String × Entry)} :
    (entries : List (String × Entry)) → ProperAll entries → (d ∈ directoriesIn way entries ↔
      ∃ e ∈ entries, ∃ rest stand, d.1 = way ++ [e.1] ++ rest ∧ stand.isOpen = true ∧
        e.2.reach? rest = some (.directory stand d.2))
  | [], _ => by simp [directoriesIn]
  | (name, entry) :: rest, ⟨_, hentry, hall⟩ => by
    rw [directoriesIn, List.mem_append, mem_directories entry hentry, mem_directoriesIn rest hall]
    simp
end

theorem mem_directoriesIn_nil {stand : Stand} {entries : List (String × Entry)}
    {way : List String} {inside : List (String × Entry)} (hopen : stand.isOpen = true)
    (h : (Entry.directory stand entries).Proper) :
    (way, inside) ∈ directoriesIn [] entries ↔ way ≠ [] ∧ ∃ stand', stand'.isOpen = true ∧
      (Entry.directory stand entries).reach? way = some (.directory stand' inside) := by
  have hall : (way, inside) ∈ (Entry.directory stand entries).directories [] ↔ _ :=
    mem_directories (.directory stand entries) h
  simp only [directories, hopen, if_true, List.mem_cons, Prod.mk.injEq, List.nil_append,
    exists_and_left, exists_eq_left'] at hall
  constructor
  · intro hmem
    refine ⟨?_, hall.mp (.inr hmem)⟩
    rintro rfl
    obtain ⟨e, -, rest, stand', heq, -⟩ := (mem_directoriesIn entries h.2).mp hmem
    cases heq
  · rintro ⟨hne, hreach⟩
    exact (hall.mpr hreach).resolve_left fun heq => hne heq.1

/-- All directories below an entry stand below its way. -/
theorem prefix_of_mem_directories {way : List String} {d : List String × List (String × Entry)}
    {entry : Entry} (hentry : entry.Proper) (h : d ∈ entry.directories way) : way <+: d.1 := by
  obtain ⟨rest, -, hway, -⟩ := (mem_directories entry hentry).mp h
  exact ⟨rest, hway.symm⟩

end Entry

namespace WalkRules
variable {r : WalkRules} {path root : String}

/-- Is it known that an entry is not passed over? -/
def shows (r : WalkRules) (path : String) (entry : Entry) : Bool :=
  Outcome.isYes (not <$> r.skips path entry)

/-- Is there something at the end of each part of a way, and is none of it passed over? The root
itself is not asked about. -/
def opens (r : WalkRules) (root : String) (top : Entry) (way : List String) : Bool :=
  way.inits.all fun part => part.isEmpty || (top.reach? part).any (r.shows (below root part))

/-- The folder of a directory with what is in it and is not passed over, as it is listed there. -/
def listed (r : WalkRules) (path : String) (entries : List (String × Entry)) : Folder where
  name := nameOf path
  path := path
  level := r.levelOf path
  files := (entries.filter fun e => !e.2.isDirectory && r.shows (join path e.1) e.2).map
    fun e => ⟨e.1, path, r.levelOf path + 1⟩
  folders := (entries.filter fun e => e.2.isDirectory && r.shows (join path e.1) e.2).map
    fun e => ⟨e.1, join path e.1, r.levelOf path + 1⟩

theorem shows_iff {entry : Entry} : r.shows path entry = true ↔ r.skips path entry = .ok false := by
  rw [shows]
  cases r.skips path entry with
  | error fault => simp [Outcome.isYes, Functor.map, Except.map]
  | ok skip => cases skip <;> simp [Outcome.isYes, Functor.map, Except.map]

theorem opens_iff {top : Entry} {way : List String} : r.opens root top way = true ↔
    ∀ part, part <+: way → part ≠ [] →
      ∃ entry, top.reach? part = some entry ∧ r.skips (below root part) entry = .ok false := by
  simp only [opens, List.all_eq_true, List.mem_inits, Bool.or_eq_true, List.isEmpty_iff,
    Option.any_eq_true_iff_get, or_iff_not_imp_left]
  refine forall_congr' fun part => imp_congr_right fun _ => imp_congr_right fun _ => ?_
  cases top.reach? part <;> simp [shows_iff]

@[simp] theorem opens_nil (r : WalkRules) (root : String) (top : Entry) :
    r.opens root top [] = true := by
  simp [opens]

/-- A way with one more name goes on from an open way to something that is not passed over. -/
theorem opens_concat {top : Entry} {way : List String} {name : String} :
    r.opens root top (way ++ [name]) = true ↔ r.opens root top way = true ∧
      ∃ entry, top.reach? (way ++ [name]) = some entry ∧
        r.skips (below root (way ++ [name])) entry = .ok false := by
  simp only [opens_iff]
  constructor
  · intro h
    exact ⟨fun part hpart => h part (hpart.trans (List.prefix_append way [name])),
      h _ List.prefix_rfl (by simp)⟩
  · rintro ⟨hway, hlast⟩ part hpart hne
    rcases List.prefix_concat_iff.mp hpart with rfl | hpart
    · exact hlast
    · exact hway part hpart hne

/-- A way is open as far as any way below it. -/
theorem opens_of_prefix {top : Entry} {way way' : List String} (hpre : way <+: way')
    (h : r.opens root top way' = true) : r.opens root top way = true :=
  opens_iff.mpr fun part hpart => opens_iff.mp h part (hpart.trans hpre)

theorem isBelow_known (path' : String) {starts : List Json} (h : isBelow path starts = .ok false) :
    ∃ answer, isBelow path' starts = .ok answer := by
  induction starts with
  | nil => exact ⟨false, rfl⟩
  | cons start starts ih =>
    simp only [isBelow, Outcome.bind_eq_ok] at h ⊢
    obtain ⟨text, htext, h⟩ := h
    split at h
    · cases h
    · obtain ⟨answer, hanswer⟩ := ih h
      by_cases hfits : startsWith path' text = true
      · exact ⟨true, text, htext, by rw [if_pos hfits]; rfl⟩
      · exact ⟨answer, text, htext, by rw [if_neg hfits, hanswer]⟩

theorem isLarge_known (bytes' : Int) {bytes : Int} {answer : Bool}
    (h : r.isLarge bytes = .ok answer) :
    ∃ answer', r.isLarge bytes' = .ok answer' := by
  unfold isLarge at h ⊢
  split at h
  · exact ⟨_, rfl⟩
  · simp only [Outcome.bind_eq_ok, Outcome.pure_eq_ok] at h ⊢
    obtain ⟨limit, hlimit, -⟩ := h
    exact ⟨_, limit, hlimit, rfl⟩

theorem holds_known (name' : String) {names : Json} {name : String} {answer : Bool}
    (h : names.holds (.str name) = .ok answer) :
    ∃ answer', names.holds (.str name') = .ok answer' := by
  cases names with
  | arr items => exact ⟨_, rfl⟩
  | str text => exact ⟨_, rfl⟩
  | obj members => exact ⟨_, rfl⟩
  | _ => cases h

/-- Rules that have an answer for one entry, and do not pass it over, have one for all entries that
have a size. -/
theorem skips_known {path' : String} {entry entry' : Entry} (h : r.skips path entry = .ok false)
    (hsize : ∃ size, entry'.size = .ok size) : ∃ answer, r.skips path' entry' = .ok answer := by
  simp only [skips, Outcome.bind_eq_ok, Outcome.pure_eq_ok, Bool.or_eq_false_iff] at h ⊢
  obtain ⟨named, hnamed, starts, hstarts, isBelow, hbelow, size, -, large, hlarge, ⟨-, rfl⟩, -⟩ := h
  obtain ⟨size', hsize'⟩ := hsize
  obtain ⟨named', hnamed'⟩ := holds_known (baseName path') hnamed
  obtain ⟨below', hbelow'⟩ := isBelow_known path' hbelow
  obtain ⟨large', hlarge'⟩ := isLarge_known size' hlarge
  exact ⟨_, named', hnamed', starts, hstarts, below', hbelow', size', hsize', large', hlarge', rfl⟩

theorem kept_eq {entries : List (String × Entry)}
    (h : ∀ e ∈ entries, ∃ answer, r.skips (join path e.1) e.2 = .ok answer) :
    r.kept path entries = .ok (entries.filter fun e => r.shows (join path e.1) e.2) := by
  induction entries with
  | nil => rfl
  | cons e rest ih =>
    obtain ⟨⟨skip, hskip⟩, hrest⟩ := List.forall_mem_cons.mp h
    simp only [kept, Outcome.bind_eq_ok, Outcome.pure_eq_ok]
    refine ⟨skip, hskip, _, ih hrest, ?_⟩
    cases skip with
    | true => simp [shows, hskip, Outcome.isYes, Functor.map, Except.map]
    | false => simp [shows_iff.mpr hskip]

/-- Where it is known of all that is in a directory whether it is passed over, the folder lists
what is not. -/
theorem folder_eq {stand : Stand} {entries : List (String × Entry)} {skip : Bool}
    (h : ∀ e ∈ entries, ∃ answer, r.skips (join path e.1) e.2 = .ok answer)
    (hskip : r.skips path (.directory stand entries) = .ok skip) :
    r.folder path stand entries = .ok (r.listed path entries, skip) := by
  have hpart : ∀ p : String × Entry → Bool, ∀ e ∈ entries.filter p,
      ∃ answer, r.skips (join path e.1) e.2 = .ok answer :=
    fun p e he => h e (List.mem_of_mem_filter he)
  simp only [folder, kept_eq (hpart _), hskip, listed, List.filter_filter]
  simp [bind, Except.bind, pure, Except.pure, Bool.and_comm]

end WalkRules

namespace Walk
section
variable {r : WalkRules} {root : String} {top : Entry}

/-- The directories of a list that an open way leads to, each with what it lists. -/
def shown (r : WalkRules) (root : String) (top : Entry)
    (dirs : List (List String × List (String × Entry))) : List Folder :=
  (dirs.filter fun d => r.opens root top d.1).map fun d => r.listed (below root d.1) d.2

theorem shown_append (dirs dirs' : List (List String × List (String × Entry))) :
    shown r root top (dirs ++ dirs') = shown r root top dirs ++ shown r root top dirs' := by
  simp [shown]

theorem shown_cons {way : List String} {entries : List (String × Entry)}
    {dirs : List (List String × List (String × Entry))} (h : r.opens root top way = true) :
    shown r root top ((way, entries) :: dirs) =
      r.listed (below root way) entries :: shown r root top dirs := by
  simp [shown, h]

/-- Nothing below a way that is not open is shown. -/
theorem shown_eq_nil {way : List String} {entry : Entry} (hentry : entry.Proper)
    (h : ¬r.opens root top way = true) : shown r root top (entry.directories way) = [] := by
  rw [shown, List.map_eq_nil_iff, List.filter_eq_nil_iff]
  intro d hd hopen
  exact h (WalkRules.opens_of_prefix (Entry.prefix_of_mem_directories hentry hd) hopen)

/-- Is it known of everything in a tree whether it is passed over? -/
def Known (r : WalkRules) (root : String) (top : Entry) : Prop :=
  ∀ way entry, top.reach? way = some entry → ∃ skip, r.skips (below root way) entry = .ok skip

theorem Known.folder_eq (hknown : Known r root top) (hroot : root ≠ "") (htop : top.Proper)
    {way : List String} (hway : ∀ n ∈ way, IsName n) {stand : Stand}
    {entries : List (String × Entry)} (hreach : top.reach? way = some (.directory stand entries))
    (hopen : stand.isOpen = true) {skip : Bool}
    (hskip : r.skips (below root way) (.directory stand entries) = .ok skip) :
    r.folder (below root way) stand entries = .ok (r.listed (below root way) entries, skip) := by
  refine WalkRules.folder_eq (fun e he => ?_) hskip
  have hname := ((Entry.proper_directory.mp (htop.reach? hreach)).2 e he).1
  rw [join_below hroot hway hname]
  exact hknown _ _ ((Entry.reach?_concat htop hreach hopen).mpr he)

mutual
/-- From an entry that is not passed over and that an open way leads to, the walk shows all that
open ways lead to. -/
theorem visit_eq_shown (hroot : root ≠ "") (htop : top.Proper) (hknown : Known r root top)
    {way : List String} (hway : ∀ n ∈ way, IsName n) (hshown : r.opens root top way = true) :
    (entry : Entry) → top.reach? way = some entry → r.skips (below root way) entry = .ok false →
      visit r (below root way) entry = ⟨shown r root top (entry.directories way), none⟩
  | .file _, _, _ => rfl
  | .directory stand entries, hreach, hskip => by
    have hentry := htop.reach? hreach
    rw [visit, Entry.directories]
    split
    · rename_i hopen
      rw [hknown.folder_eq hroot htop hway hreach hopen hskip, shown_cons hshown,
        visitAll_eq_shown hroot htop hknown hway hshown entries hentry.2
          fun e he => (Entry.reach?_concat htop hreach hopen).mpr he]
      rfl
    · rfl

theorem visitAll_eq_shown (hroot : root ≠ "") (htop : top.Proper) (hknown : Known r root top)
    {way : List String} (hway : ∀ n ∈ way, IsName n) (hshown : r.opens root top way = true) :
    (entries : List (String × Entry)) → ProperAll entries →
      (∀ e ∈ entries, top.reach? (way ++ [e.1]) = some e.2) →
      visitAll r (below root way) entries =
        ⟨shown r root top (Entry.directoriesIn way entries), none⟩
  | [], _, _ => rfl
  | (name, entry) :: rest, ⟨hname, hentry, hall⟩, hreach => by
    obtain ⟨hfirst, hrest⟩ := List.forall_mem_cons.mp hreach
    have hrest := visitAll_eq_shown hroot htop hknown hway hshown rest hall hrest
    have hway' := hname.concat hway
    rw [visitAll, Entry.directoriesIn, shown_append, join_below hroot hway hname]
    split
    · rename_i hskip
      have hshown' := WalkRules.opens_concat.mpr ⟨hshown, entry, hfirst, hskip⟩
      rw [visit_eq_shown hroot htop hknown hway' hshown' entry hfirst hskip, hrest]
      rfl
    · rename_i hnot
      -- a file is no directory, and what is passed over closes the way to all that is below it
      have hnone : shown r root top (entry.directories (way ++ [name])) = [] := by
        cases entry with
        | file blob => rfl
        | directory stand entries =>
          refine shown_eq_nil hentry fun hshown' => ?_
          obtain ⟨-, found, hfound, hskip⟩ := WalkRules.opens_concat.mp hshown'
          obtain rfl := Option.some.inj (hfound.symm.trans hfirst)
          exact hnot rfl hskip
      rw [hrest, hnone, List.nil_append]
end

/-- The walk from a directory that is gone into. If it is passed over, its subdirectories are
not. -/
theorem of_eq_shown {d : Disk} {stand : Stand} {entries : List (String × Entry)} {skip : Bool}
    (hd : d.Proper) (hr : r.root = .str root)
    (hdir : d.lookUp root = some (.directory stand entries)) (hopen : stand.isOpen = true)
    (hknown : Known r root (.directory stand entries))
    (hskip : r.skips root (.directory stand entries) = .ok skip) :
    Walk.of d r = ⟨(if skip then [] else [r.listed root entries]) ++
      shown r root (.directory stand entries) (Entry.directoriesIn [] entries), none⟩ := by
  have hroot := Disk.ne_empty_of_lookUp hdir
  have htop := hd.lookUp hdir
  have hnames : ∀ n ∈ ([] : List String), IsName n := by simp
  have hfolder := hknown.folder_eq hroot htop hnames rfl hopen hskip
  have hrest := visitAll_eq_shown hroot htop hknown hnames (WalkRules.opens_nil r root _) entries
    htop.2 fun e he => (Entry.reach?_concat htop rfl hopen).mpr he
  rw [below_nil] at hfolder hrest
  simp only [Walk.of, hr, hdir, visit, hopen, if_true, hfolder, hrest]
  rfl

/-- A directory that cannot be gone into gives nothing. -/
theorem of_closed {d : Disk} {stand : Stand} {entries : List (String × Entry)}
    (hr : r.root = .str root) (hdir : d.lookUp root = some (.directory stand entries))
    (hclosed : stand.isOpen = false) : Walk.of d r = {} := by
  simp [Walk.of, hr, hdir, visit, hclosed]

/-- Where it is known of everything whether it is passed over, nothing ends the walk. -/
theorem Known.fault_eq_none {d : Disk} {stand : Stand} {entries : List (String × Entry)}
    (hknown : Known r root (.directory stand entries)) (hd : d.Proper) (hr : r.root = .str root)
    (hdir : d.lookUp root = some (.directory stand entries)) : (Walk.of d r).fault = none := by
  cases hopen : stand.isOpen with
  | false => rw [of_closed hr hdir hopen]
  | true =>
    obtain ⟨skip, hskip⟩ := hknown [] _ rfl
    rw [of_eq_shown hd hr hdir hopen hknown hskip]

/-- The folders of a walk are those that open ways lead to, but for the root if it is passed
over. -/
theorem mem_folders_of {d : Disk} {stand : Stand} {entries : List (String × Entry)} (hd : d.Proper)
    (hr : r.root = .str root) (hdir : d.lookUp root = some (.directory stand entries))
    (hknown : Known r root (.directory stand entries)) {f : Folder} :
    f ∈ (Walk.of d r).folders ↔ ∃ way stand' inside,
      (Entry.directory stand entries).reach? way = some (.directory stand' inside) ∧
        stand'.isOpen = true ∧ r.opens root (.directory stand entries) way = true ∧
        (way = [] → r.skips root (.directory stand entries) = .ok false) ∧
        f = r.listed (below root way) inside := by
  have htop := hd.lookUp hdir
  obtain ⟨skip, hskip⟩ := hknown [] _ rfl
  rw [below_nil] at hskip
  cases hopen : stand.isOpen with
  | false =>
    rw [of_closed hr hdir hopen]
    refine iff_of_false List.not_mem_nil ?_
    rintro ⟨way, stand', inside, hreach, hopen', -⟩
    cases way with
    | nil =>
      cases hreach
      cases hopen.symm.trans hopen'
    | cons name rest => simp [Entry.reach?, hopen] at hreach
  | true =>
    simp only [of_eq_shown hd hr hdir hopen hknown hskip, List.mem_append, shown, List.mem_map,
      List.mem_filter, Prod.exists, Entry.mem_directoriesIn_nil hopen htop]
    constructor
    · rintro (hhead | ⟨way, inside, ⟨⟨hne, stand', hopen', hreach⟩, hshown⟩, rfl⟩)
      · cases skip with
        | true => cases hhead
        | false =>
          exact ⟨[], stand, entries, rfl, hopen, by simp, fun _ => hskip,
            List.mem_singleton.mp hhead⟩
      · exact ⟨way, stand', inside, hreach, hopen', hshown, fun h => absurd h hne, rfl⟩
    · rintro ⟨way, stand', inside, hreach, hopen', hshown, hself, rfl⟩
      by_cases hne : way = []
      · subst hne
        cases hreach
        obtain rfl := Except.ok.inj (hskip.symm.trans (hself rfl))
        exact .inl (List.mem_singleton_self _)
      · exact .inr ⟨way, inside, ⟨⟨hne, stand', hopen', hreach⟩, hshown⟩, rfl⟩

def Yields (w : Walk) (path : String) : Prop :=
  ∃ f ∈ w.folders, ∃ file ∈ f.files, file.path = path

instance (w : Walk) (path : String) : Decidable (w.Yields path) :=
  inferInstanceAs (Decidable (∃ f ∈ w.folders, ∃ file ∈ f.files, file.path = path))

/-- A walk comes to the files that open ways lead to, but for those in the root itself if that is
passed over. -/
theorem yields_iff {d : Disk} {stand : Stand} {entries : List (String × Entry)} (hd : d.Proper)
    (hr : r.root = .str root) (hdir : d.lookUp root = some (.directory stand entries))
    (hknown : Known r root (.directory stand entries)) {path : String} :
    (Walk.of d r).Yields path ↔ ∃ way blob,
      (Entry.directory stand entries).reach? way = some (.file blob) ∧ path = below root way ∧
        r.opens root (.directory stand entries) way = true ∧
        (way.length = 1 → r.skips root (.directory stand entries) = .ok false) := by
  have hroot := Disk.ne_empty_of_lookUp hdir
  have htop := hd.lookUp hdir
  constructor
  · rintro ⟨f, hf, file, hfile, rfl⟩
    obtain ⟨way, stand', inside, hreach, hopen, hshown, hself, rfl⟩ :=
      (mem_folders_of hd hr hdir hknown).mp hf
    obtain ⟨e, he, rfl⟩ := List.mem_map.mp hfile
    obtain ⟨hmem, hkept⟩ := List.mem_filter.mp he
    rw [Bool.and_eq_true] at hkept
    have hname := ((Entry.proper_directory.mp (htop.reach? hreach)).2 e hmem).1
    have hjoin := join_below hroot (Entry.names_of_reach? htop hreach) hname
    have hfound := (Entry.reach?_concat htop hreach hopen).mpr hmem
    rw [hjoin, WalkRules.shows_iff] at hkept
    obtain ⟨name, entry⟩ := e
    cases entry with
    | directory stand inside => cases hkept.1
    | file blob =>
      refine ⟨way ++ [name], blob, hfound, hjoin, ?_, ?_⟩
      · exact WalkRules.opens_concat.mpr ⟨hshown, _, hfound, hkept.2⟩
      · intro hlength
        exact hself (List.eq_nil_of_length_eq_zero (by simpa using hlength))
  · rintro ⟨way, blob, hreach, rfl, hshown, hself⟩
    rcases List.eq_nil_or_concat' way with rfl | ⟨way, name, rfl⟩
    · cases hreach
    · obtain ⟨stand', inside, hopen, hdir'⟩ := Entry.exists_directory_of_reach? hreach
      obtain ⟨hshown, found, hfound, hskip⟩ := WalkRules.opens_concat.mp hshown
      obtain rfl := Option.some.inj (hfound.symm.trans hreach)
      have hmem := (Entry.reach?_concat htop hdir' hopen).mp hreach
      have hname := ((Entry.proper_directory.mp (htop.reach? hdir')).2 _ hmem).1
      have hjoin := join_below hroot (Entry.names_of_reach? htop hdir') hname
      refine ⟨_, (mem_folders_of hd hr hdir hknown).mpr
          ⟨way, stand', inside, hdir', hopen, hshown, ?_, rfl⟩,
        ⟨name, below root way, r.levelOf (below root way) + 1⟩, ?_, hjoin⟩
      · rintro rfl
        exact hself rfl
      · refine List.mem_map.mpr ⟨_, List.mem_filter.mpr ⟨hmem, ?_⟩, rfl⟩
        rw [hjoin]
        simpa [Entry.isDirectory] using WalkRules.shows_iff.mpr hskip

end
end Walk

namespace PrunedTree

def file : Entry :=
  .file ⟨[], 0, false⟩

/-- A directory that is to be passed over with what is in it, another one and a link to a third. -/
def inside : List (String × Entry) :=
  [("a.py", file), ("build", .directory {} [("b.py", file)]),
    ("src", .directory {} [("c.py", file)]), ("now", .directory ⟨4096, .linked⟩ [("d.py", file)])]

def disk : Disk :=
  ⟨[("r", .directory {} inside)]⟩

def rules : WalkRules where
  root := .str "/r"
  namesToSkip := .arr [.str "build"]

end PrunedTree
end CodeAtlas
