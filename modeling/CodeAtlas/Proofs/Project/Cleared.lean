import CodeAtlas.Proofs.Project.Seen

namespace CodeAtlas
open Text CodeAtlas.Path

mutual
/-- An entry at a path without what is ignored below it, and without the sizes of directories. -/
def Entry.cleared (ignored : String → Bool) (path : String) : Entry → Entry
  | .file blob => .file blob
  | .directory stand entries => .directory ⟨0, stand.access⟩ (clearedIn ignored path entries)

def clearedIn (ignored : String → Bool) (path : String) :
    List (String × Entry) → List (String × Entry)
  | [] => []
  | (name, entry) :: rest =>
    if ignored (join path name) then clearedIn ignored path rest
    else (name, entry.cleared ignored (join path name)) :: clearedIn ignored path rest
end

namespace Entry
variable {ignored : String → Bool} {path : String} {entry entry' : Entry}

theorem isDirectory_cleared : (entry.cleared ignored path).isDirectory = entry.isDirectory := by
  cases entry with
  | file blob => rw [cleared]
  | directory stand entries =>
    rw [cleared]
    rfl

theorem eq_of_cleared_eq (hfile : entry.isDirectory = false)
    (h : entry.cleared ignored path = entry'.cleared ignored path) : entry = entry' := by
  have hfile' := congrArg isDirectory h
  rw [isDirectory_cleared, isDirectory_cleared, hfile] at hfile'
  cases entry with
  | directory stand entries => cases hfile
  | file blob =>
    cases entry' with
    | directory stand entries => cases hfile'
    | file blob' => simpa [cleared] using h

end Entry

theorem sublist_keys_clearedIn (ignored : String → Bool) (path : String)
    (entries : List (String × Entry)) :
    (Assoc.keys (clearedIn ignored path entries)).Sublist (Assoc.keys entries) := by
  induction entries with
  | nil => exact .slnil
  | cons e rest ih =>
    rw [clearedIn]
    split
    · exact ih.cons _
    · exact ih.cons_cons _

mutual
theorem Entry.Proper.cleared {ignored : String → Bool} {path : String} : (entry : Entry) →
    entry.Proper → (entry.cleared ignored path).Proper
  | .file _, _ => by
    rw [Entry.cleared]
    trivial
  | .directory stand entries, h => by
    rw [Entry.cleared]
    exact ⟨h.1.sublist (sublist_keys_clearedIn ignored path entries),
      properAll_clearedIn entries h.2⟩

theorem properAll_clearedIn {ignored : String → Bool} {path : String} :
    (entries : List (String × Entry)) → ProperAll entries →
      ProperAll (clearedIn ignored path entries)
  | [], _ => trivial
  | (name, entry) :: rest, ⟨hname, hentry, hall⟩ => by
    rw [clearedIn]
    split
    · exact properAll_clearedIn rest hall
    · exact ⟨hname, Entry.Proper.cleared entry hentry, properAll_clearedIn rest hall⟩
end

namespace Skipping
variable {s : Skipping} {path : String} {entries entries' : List (String × Entry)}

theorem lookIn_of_clearedIn_nil (h : clearedIn s.ignores path entries = []) :
    s.lookIn path entries = [] := by
  induction entries with
  | nil => rfl
  | cons e rest ih =>
    rw [clearedIn] at h
    rw [lookIn_cons]
    split at h
    · rename_i hignored
      rw [if_pos hignored, ih h]
    · cases h

/-- The first of the entries that are not ignored. -/
theorem exists_of_clearedIn_cons {name : String} {plain : Entry} {others : List (String × Entry)}
    (h : clearedIn s.ignores path entries = (name, plain) :: others) :
    ∃ entry rest, entry.cleared s.ignores (join path name) = plain ∧
      clearedIn s.ignores path rest = others ∧ s.ignores (join path name) = false ∧
      s.lookIn path entries = (name, s.glance (join path name) entry) :: s.lookIn path rest := by
  induction entries with
  | nil => cases h
  | cons e rest ih =>
    obtain ⟨name', entry⟩ := e
    rw [clearedIn] at h
    rw [lookIn_cons]
    split at h
    · rename_i hignored
      rw [if_pos hignored]
      exact ih h
    · rename_i hignored
      cases h
      rw [if_neg hignored]
      exact ⟨entry, rest, rfl, rfl, by simpa using hignored, rfl⟩

/-- A directory that is not ignored is shown unless its size is beyond the largest. -/
theorem measure_eq (h : s.ignores path = false) (stand : Stand) (entries : List (String × Entry)) :
    s.measure stand.size = if s.rules.shows path (.directory stand entries) then 0 else 1 := by
  obtain ⟨large, hlarge⟩ := s.isLarge_known stand.size
  have hskips : s.rules.skips path (.directory stand entries) = .ok large := by
    rw [skips_eq, h, Entry.size]
    simp only [bind, Except.bind, hlarge, pure, Except.pure, Bool.false_or]
  rw [measure, hlarge, WalkRules.shows, hskips]
  cases large <;> rfl

theorem ignores_of_shows {entry : Entry} (h : s.rules.shows path entry = true) :
    s.ignores path = false := by
  rw [← Bool.not_eq_true]
  intro hignored
  rw [not_shows_of_ignores hignored] at h
  cases h

/-- Two directories are seen alike from where they are too large. -/
theorem outline_eq {entry entry' : Entry} (hdir : entry.isDirectory = true)
    (hsame : entry.cleared s.ignores path = entry'.cleared s.ignores path)
    (hignored : s.ignores path = false) (h : s.rules.shows path entry = false)
    (h' : s.rules.shows path entry' = false) : s.outline entry = s.outline entry' := by
  cases entry with
  | file blob => cases hdir
  | directory stand entries =>
    cases entry' with
    | file blob => simp [Entry.cleared] at hsame
    | directory stand' entries' =>
      rw [Entry.cleared, Entry.cleared, Entry.directory.injEq, Stand.mk.injEq] at hsame
      rw [outline, outline, measure_eq hignored stand entries, measure_eq hignored stand' entries',
        h, h', hsame.1.2]

def told (s : Skipping) (path : String) (entries : List (String × Entry)) : List String :=
  ((s.lookIn path entries).filter fun e => e.2.isDirectory &&
    s.measured.rules.shows (join path e.1) e.2).map Prod.fst

end Skipping

/-- A directory is gone into if it is shown. -/
theorem Walk.visitAll_cons (r : WalkRules) (path name : String) (entry : Entry)
    (rest : List (String × Entry)) : visitAll r path ((name, entry) :: rest) =
      if (entry.isDirectory && r.shows (join path name) entry) = true then
        andThen (visit r (join path name) entry) (visitAll r path rest)
      else visitAll r path rest := by
  rw [visitAll]
  split
  · rename_i hdir hskip
    rw [if_pos (by rw [hdir, WalkRules.shows_iff.mpr hskip]; rfl)]
  · rename_i hnot
    rw [if_neg]
    rw [Bool.and_eq_true, WalkRules.shows_iff]
    exact fun h => hnot h.1 h.2

namespace Skipping
variable {s : Skipping} {path : String} {entries entries' : List (String × Entry)}

theorem told_cons {name : String} {entry : Entry} {rest : List (String × Entry)}
    (h : s.lookIn path entries = (name, s.glance (join path name) entry) :: s.lookIn path rest) :
    s.told path entries =
      if (entry.isDirectory && s.rules.shows (join path name) entry) = true then
        name :: s.told path rest
      else s.told path rest := by
  rw [told, h, List.filter_cons, isDirectory_glance, shows_glance]
  split <;> rfl

theorem told_subset (entries : List (String × Entry)) :
    ∀ name ∈ s.told path entries, name ∈ Assoc.keys (clearedIn s.ignores path entries) := by
  induction entries with
  | nil => simp [told, lookIn]
  | cons e rest ih =>
    obtain ⟨name, entry⟩ := e
    rw [clearedIn]
    split
    · rename_i hignored
      rw [told, lookIn_cons, if_pos hignored]
      exact ih
    · rename_i hignored
      have hlook : s.lookIn path ((name, entry) :: rest) =
          (name, s.glance (join path name) entry) :: s.lookIn path rest := by
        rw [lookIn_cons, if_neg hignored]
      rw [told_cons hlook]
      intro other hother
      split at hother
      · rcases List.mem_cons.mp hother with rfl | hother
        · exact List.mem_cons_self
        · exact List.mem_cons_of_mem _ (ih other hother)
      · exact List.mem_cons_of_mem _ (ih other hother)

theorem told_of_listed
    (h : s.measured.rules.listed path (s.lookIn path entries) =
      s.measured.rules.listed path (s.lookIn path entries')) :
    s.told path entries = s.told path entries' := by
  have hnames := congrArg (fun f : Folder => f.folders.map Subfolder.name) h
  simpa [WalkRules.listed, told, Function.comp_def] using hnames

/-- The walk from a directory that is shown and gone into. -/
theorem visit_look {stand : Stand} (hopen : stand.isOpen = true)
    (hshows : s.rules.shows path (.directory stand entries) = true)
    (hfault : (Walk.visit s.measured.rules path
      (s.look path (.directory stand entries))).fault = none) :
    (Walk.visitAll s.measured.rules path (s.lookIn path entries)).fault = none ∧
      (Walk.visit s.measured.rules path (s.look path (.directory stand entries))).folders =
        s.measured.rules.listed path (s.lookIn path entries) ::
          (Walk.visitAll s.measured.rules path (s.lookIn path entries)).folders := by
  have hlook : s.look path (.directory stand entries) =
      .directory ⟨s.measure stand.size, stand.access⟩ (s.lookIn path entries) := by
    rw [look, if_pos hopen]
  have hopen' : (Stand.mk (s.measure stand.size) stand.access).isOpen = true := hopen
  have hskips : s.measured.rules.skips path (.directory ⟨s.measure stand.size, stand.access⟩
      (s.lookIn path entries)) = .ok false :=
    (skips_measured rfl).trans (WalkRules.shows_iff.mp hshows)
  rw [hlook, Walk.visit, if_pos hopen'] at hfault ⊢
  cases hd : hasDangling (s.lookIn path entries) with
  | true =>
    rw [folder_of_hasDangling hd] at hfault
    cases hfault
  | false =>
    obtain ⟨skip, hskip, hfolder⟩ := s.measured.folder_of_not_hasDangling path
      ⟨s.measure stand.size, stand.access⟩ hd
    obtain rfl := Except.ok.inj (hskip.symm.trans hskips)
    rw [hfolder] at hfault ⊢
    obtain ⟨-, hrest, hfolders⟩ := Walk.fault_andThen hfault
    exact ⟨hrest, hfolders⟩

mutual
/-- Of two directories that differ in what is ignored and in sizes, the folders tell what is seen:
a walk from one of them gives no beginning of a walk from the other. -/
theorem look_eq_of_visit (s : Skipping) (path : String) : (plain : Entry) → plain.Proper →
    ∀ {entry entry' : Entry}, entry.cleared s.ignores path = plain →
      entry'.cleared s.ignores path = plain →
      s.rules.shows path entry = true → s.rules.shows path entry' = true →
      (Walk.visit s.measured.rules path (s.look path entry)).fault = none →
      (Walk.visit s.measured.rules path (s.look path entry')).fault = none →
      ∀ {later later' : List Folder},
        (Walk.visit s.measured.rules path (s.look path entry)).folders ++ later =
          (Walk.visit s.measured.rules path (s.look path entry')).folders ++ later' →
        s.look path entry = s.look path entry' ∧ later = later'
  | .file blob, _, entry, entry', h, h', _, _, _, _, later, later', heq => by
    have hfile : entry.isDirectory = false := by
      have hdir := congrArg Entry.isDirectory h
      rwa [Entry.isDirectory_cleared] at hdir
    obtain rfl := Entry.eq_of_cleared_eq hfile (h.trans h'.symm)
    exact ⟨rfl, List.append_cancel_left heq⟩
  | .directory plain inside, hproper, .file _, _, h, _, _, _, _, _, _, _, _ => by
    simp [Entry.cleared] at h
  | .directory plain inside, hproper, .directory _ _, .file _, _, h', _, _, _, _, _, _, _ => by
    simp [Entry.cleared] at h'
  | .directory plain inside, hproper, .directory stand entries, .directory stand' entries', h, h',
      hshows, hshows', hfault, hfault', later, later', heq => by
    rw [Entry.cleared, Entry.directory.injEq] at h h'
    have haccess : stand.access = stand'.access := (Stand.mk.inj (h.1.trans h'.1.symm)).2
    have hmeasure : s.measure stand.size = s.measure stand'.size := by
      rw [measure_eq (ignores_of_shows hshows) stand entries,
        measure_eq (ignores_of_shows hshows) stand' entries', hshows, hshows']
    cases hopen : stand.isOpen with
    | false =>
      have hopen' : stand'.isOpen = false := by rwa [Stand.isOpen, ← haccess, ← Stand.isOpen]
      have hlook : s.look path (.directory stand entries) =
          s.look path (.directory stand' entries') := by
        rw [look, look, hopen, hopen', hmeasure, haccess]
        rfl
      rw [hlook] at heq
      exact ⟨hlook, List.append_cancel_left heq⟩
    | true =>
      have hopen' : stand'.isOpen = true := by rwa [Stand.isOpen, ← haccess, ← Stand.isOpen]
      obtain ⟨hrest, hfolders⟩ := visit_look hopen hshows hfault
      obtain ⟨hrest', hfolders'⟩ := visit_look hopen' hshows' hfault'
      rw [hfolders, hfolders', List.cons_append, List.cons_append, List.cons.injEq] at heq
      obtain ⟨hlist, hlater⟩ := lookIn_eq_of_visitAll s path inside hproper.1 hproper.2 h.2 h'.2
        (told_of_listed heq.1) hrest hrest' heq.2
      refine ⟨?_, hlater⟩
      rw [look, look, if_pos hopen, if_pos hopen', hmeasure, haccess, hlist]

theorem lookIn_eq_of_visitAll (s : Skipping) (path : String) :
    (plain : List (String × Entry)) → (Assoc.keys plain).Nodup → ProperAll plain →
      ∀ {entries entries' : List (String × Entry)}, clearedIn s.ignores path entries = plain →
        clearedIn s.ignores path entries' = plain → s.told path entries = s.told path entries' →
        (Walk.visitAll s.measured.rules path (s.lookIn path entries)).fault = none →
        (Walk.visitAll s.measured.rules path (s.lookIn path entries')).fault = none →
        ∀ {later later' : List Folder},
          (Walk.visitAll s.measured.rules path (s.lookIn path entries)).folders ++ later =
            (Walk.visitAll s.measured.rules path (s.lookIn path entries')).folders ++ later' →
          s.lookIn path entries = s.lookIn path entries' ∧ later = later'
  | [], _, _, entries, entries', h, h', _, _, _, later, later', heq => by
    rw [lookIn_of_clearedIn_nil h, lookIn_of_clearedIn_nil h'] at heq ⊢
    exact ⟨rfl, heq⟩
  | (name, plain) :: others, hnodup, ⟨_, hplain, hothers⟩, entries, entries', h, h', htold, hfault,
      hfault', later, later', heq => by
    obtain ⟨hfresh, hnodup⟩ := List.nodup_cons.mp hnodup
    obtain ⟨entry, rest, hentry, hrest, hignored, hlook⟩ := exists_of_clearedIn_cons h
    obtain ⟨entry', rest', hentry', hrest', -, hlook'⟩ := exists_of_clearedIn_cons h'
    have hsame := hentry.trans hentry'.symm
    have hkind := congrArg Entry.isDirectory hsame
    rw [Entry.isDirectory_cleared, Entry.isDirectory_cleared] at hkind
    have hnew : name ∉ s.told path rest := fun hmem => hfresh (hrest ▸ told_subset rest name hmem)
    have hnew' : name ∉ s.told path rest' :=
      fun hmem => hfresh (hrest' ▸ told_subset rest' name hmem)
    rw [told_cons hlook, told_cons hlook', ← hkind] at htold
    rw [hlook, Walk.visitAll_cons, isDirectory_glance, shows_glance] at hfault heq
    rw [hlook', Walk.visitAll_cons, isDirectory_glance, shows_glance, ← hkind] at hfault' heq
    rw [hlook, hlook']
    cases hdir : entry.isDirectory with
    | false =>
      obtain rfl := Entry.eq_of_cleared_eq hdir hsame
      simp only [hdir, Bool.false_and, Bool.false_eq_true, ↓reduceIte] at htold hfault hfault' heq
      obtain ⟨hlist, hlater⟩ := lookIn_eq_of_visitAll s path others hnodup hothers hrest hrest'
        htold hfault hfault' heq
      exact ⟨by rw [hlist], hlater⟩
    | true =>
      simp only [hdir, Bool.true_and] at htold hfault hfault' heq
      cases hshows : s.rules.shows (join path name) entry with
      | true =>
        cases hshows' : s.rules.shows (join path name) entry' with
        | false =>
          rw [if_pos hshows, hshows', if_neg (by simp)] at htold
          exact absurd (htold ▸ List.mem_cons_self) hnew'
        | true =>
          rw [if_pos hshows, if_pos hshows', List.cons.injEq] at htold
          rw [if_pos hshows] at hfault heq
          rw [if_pos hshows'] at hfault' heq
          obtain ⟨hfirst, hrests, hfolders⟩ := Walk.fault_andThen hfault
          obtain ⟨hfirst', hrests', hfolders'⟩ := Walk.fault_andThen hfault'
          rw [hfolders, hfolders', List.append_assoc, List.append_assoc] at heq
          rw [glance, if_pos hshows] at hfirst heq ⊢
          rw [glance, if_pos hshows'] at hfirst' heq ⊢
          obtain ⟨hhere, hnext⟩ := look_eq_of_visit s (join path name) plain hplain hentry hentry'
            hshows hshows' hfirst hfirst' heq
          obtain ⟨hlist, hlater⟩ := lookIn_eq_of_visitAll s path others hnodup hothers hrest hrest'
            htold.2 hrests hrests' hnext
          exact ⟨by rw [hhere, hlist], hlater⟩
      | false =>
        cases hshows' : s.rules.shows (join path name) entry' with
        | true =>
          rw [if_pos hshows', hshows, if_neg (by simp)] at htold
          exact absurd (htold ▸ List.mem_cons_self) hnew
        | false =>
          simp only [hshows, hshows', Bool.false_eq_true, ↓reduceIte] at htold hfault hfault' heq
          obtain ⟨hlist, hlater⟩ := lookIn_eq_of_visitAll s path others hnodup hothers hrest hrest'
            htold hfault hfault' heq
          refine ⟨?_, hlater⟩
          rw [glance, glance, hshows, hshows', hlist]
          exact congrArg (fun e => (name, e) :: _) (outline_eq hdir hsame hignored hshows hshows')
end

/-- The tree at the root without what is ignored below it, and without the sizes of directories. -/
def view (s : Skipping) (d : Disk) : Option Entry :=
  (d.lookUp s.root).map (Entry.cleared s.ignores s.root)

theorem fault_eq_none {d : Disk} (h : ¬s.DanglesOn d) : (Walk.of d s.rules).fault = none := by
  have hroot : s.rules.root = .str s.root := rfl
  rw [Walk.of_eq_gather d hroot, fault_gather, if_neg]
  rwa [List.any_eq_true]

/-- From a root that is not passed over, two trees that differ in what is ignored and in sizes give
one walk only if the same is seen of them. -/
theorem seen_eq_of_folders {d d' : Disk} (hd : d.Proper) (hd' : d'.Proper)
    (hview : s.view d = s.view d') {stand : Stand} {entries : List (String × Entry)}
    (htop : d.lookUp s.root = some (.directory stand entries)) (hopen : stand.isOpen = true)
    (hskip : s.rules.skips s.root (.directory stand entries) = .ok false)
    (hdangles : ¬s.DanglesOn d) (hdangles' : ¬s.DanglesOn d')
    (hfolders : (Walk.of d s.rules).folders = (Walk.of d' s.rules).folders) :
    s.seen d = s.seen d' := by
  have hroot : s.rules.root = .str s.root := rfl
  have hview := hview
  rw [view, view, htop, Option.map_some] at hview
  obtain ⟨top', htop', hclear⟩ := Option.map_eq_some_iff.mp hview.symm
  have hdangling : top'.isDangling = false := by
    apply Entry.isDangling_of_isDirectory
    rw [← Entry.isDirectory_cleared, hclear, Entry.isDirectory_cleared]
    rfl
  obtain ⟨skip', hskip'⟩ := s.skips_known s.root hdangling
  -- the root is a folder of the one walk, so it is not passed over by the other
  obtain ⟨f, hf, hpath⟩ :=
    Walk.exists_root_of_shown hroot htop hopen hskip (fault_eq_none hdangles)
  cases skip' with
  | true => exact absurd hpath (Walk.path_ne_root_of_skips hd' hroot htop' hskip' (hfolders ▸ hf))
  | false =>
    have hsees := walk_eq_of_seen (soundOn_of_not_danglesOn hdangles)
    have hsees' := walk_eq_of_seen (soundOn_of_not_danglesOn hdangles')
    rw [seen, htop, Option.map_some, Option.elim_some] at hsees
    rw [seen, htop', Option.map_some, Option.elim_some] at hsees'
    have hproper : (Entry.cleared s.ignores s.root (.directory stand entries)).Proper :=
      Entry.Proper.cleared _ (hd.lookUp htop)
    have hlook := look_eq_of_visit s s.root _ hproper rfl hclear
      (WalkRules.shows_iff.mpr hskip) (WalkRules.shows_iff.mpr hskip')
      (hsees ▸ fault_eq_none hdangles) (hsees' ▸ fault_eq_none hdangles')
      (congrArg (· ++ []) (hsees ▸ hsees' ▸ hfolders))
    rw [seen, seen, htop, htop', Option.map_some, Option.map_some, hlook.1]

/-- Of two trees that differ in nothing but what is ignored, and in the sizes of directories, the
walks are the same where the same is seen and no ignored link dangles. Where the same is seen, the
results are the same exactly if links dangle in both or in neither, in directories that are gone
through. From a root that is gone into and not passed over, they are the same exactly if links
dangle in both, or in neither and the same is seen: the same directories are too large. -/
theorem same_result_iff_dangling {d d' : Disk} (hd : d.Proper) (hd' : d'.Proper)
    (hview : s.view d = s.view d') :
    (s.seen d = s.seen d' →
      (s.SoundOn d → s.SoundOn d' → Walk.of d s.rules = Walk.of d' s.rules) ∧
        ((Walk.of d s.rules).toList = (Walk.of d' s.rules).toList ↔
          (s.DanglesOn d ↔ s.DanglesOn d'))) ∧
      ∀ stand entries, d.lookUp s.root = some (.directory stand entries) → stand.isOpen = true →
        s.rules.skips s.root (.directory stand entries) = .ok false →
        ((Walk.of d s.rules).toList = (Walk.of d' s.rules).toList ↔
          (s.DanglesOn d ↔ s.DanglesOn d') ∧ (¬s.DanglesOn d → s.seen d = s.seen d')) := by
  have hwalk : s.seen d = s.seen d' → s.SoundOn d → s.SoundOn d' →
      Walk.of d s.rules = Walk.of d' s.rules := by
    intro hseen h h'
    rw [walk_eq_of_seen h, walk_eq_of_seen h', hseen]
  have halike : (Walk.of d s.rules).toList = (Walk.of d' s.rules).toList →
      (s.DanglesOn d ↔ s.DanglesOn d') := by
    intro h
    rw [← toList_eq_error_iff, h, toList_eq_error_iff]
  have hresult : (s.DanglesOn d ↔ s.DanglesOn d') → (¬s.DanglesOn d → s.seen d = s.seen d') →
      (Walk.of d s.rules).toList = (Walk.of d' s.rules).toList := by
    intro h hseen
    by_cases hdangles : s.DanglesOn d
    · rw [toList_eq_error_iff.mpr hdangles, toList_eq_error_iff.mpr (h.mp hdangles)]
    · rw [hwalk (hseen hdangles) (soundOn_of_not_danglesOn hdangles)
        (soundOn_of_not_danglesOn (mt h.mpr hdangles))]
  refine ⟨fun hseen => ⟨hwalk hseen, halike, fun h => hresult h fun _ => hseen⟩, ?_⟩
  intro stand entries htop hopen hskip
  refine ⟨fun h => ⟨halike h, fun hdangles => ?_⟩, fun h => hresult h.1 h.2⟩
  have hdangles' := mt (halike h).mpr hdangles
  have hfolders := h
  rw [Walk.toList, Walk.toList, fault_eq_none hdangles, fault_eq_none hdangles',
    Except.ok.injEq] at hfolders
  exact seen_eq_of_folders hd hd' hview htop hopen hskip hdangles hdangles' hfolders

end Skipping
namespace IgnoredLink

def file : Entry :=
  .file ⟨[], 0, false⟩

def link : Entry :=
  .file ⟨[], 0, true⟩

/-- A file in the root, and what else there is. -/
def disk (stand : Stand) (others : List (String × Entry)) : Disk :=
  ⟨[("r", .directory stand (("a.py", file) :: others))]⟩

/-- The walk from `/r` that passes over `x`. -/
def skipping : Skipping where
  root := "/r"
  paths := []
  names := ["x"]
  limit := .int 10
  limit_isSome := rfl

theorem lookUp_disk (size : Int) (others : List (String × Entry)) :
    (disk ⟨size, .own⟩ others).lookUp "/r" =
      some (.directory ⟨size, .own⟩ (("a.py", file) :: others)) := by
  have hroot : absoluteComponents "/r" = ["r"] := by decide +kernel
  rw [Disk.lookUp, hroot]
  rfl

theorem ignores_names : skipping.ignores (join "/r" "a.py") = false ∧
    skipping.ignores (join "/r" "x") = true := by
  decide +kernel

/-- What is called `x` does not belong to the view. -/
theorem view_disk (size : Int) (hidden : Entry) :
    skipping.view (disk ⟨size, .own⟩ [("x", hidden)]) = skipping.view (disk {} []) := by
  obtain ⟨ha, hx⟩ := ignores_names
  simp only [Skipping.view, show skipping.root = "/r" from rfl, lookUp_disk, Option.map_some,
    Entry.cleared, clearedIn, ha, hx, Bool.false_eq_true, ↓reduceIte]

/-- A link that dangles in an ignored directory does not come to notice. But ignored files can make
the directory that they are in too large. -/
theorem hidden_in_directory :
    Walk.of (disk {} [("x", .directory {} [("y", link)])]) skipping.rules =
        Walk.of (disk {} []) skipping.rules ∧
      ¬(Walk.of (disk {} []) skipping.rules).toList =
        (Walk.of (disk ⟨10485761, .own⟩ [("x", file)]) skipping.rules).toList := by
  obtain ⟨hr, ha, hx, hy⟩ : IsName "r" ∧ IsName "a.py" ∧ IsName "x" ∧ IsName "y" := by
    decide +kernel
  have hplain : (disk {} []).Proper :=
    ⟨by decide, hr, ⟨by decide, ha, trivial, trivial⟩, trivial⟩
  have hlinked : (disk {} [("x", .directory {} [("y", link)])]).Proper :=
    ⟨by decide, hr, ⟨by decide, ha, trivial, hx, ⟨by decide, hy, trivial, trivial⟩, trivial⟩,
      trivial⟩
  have hgrown : (disk ⟨10485761, .own⟩ [("x", file)]).Proper :=
    ⟨by decide, hr, ⟨by decide, ha, trivial, hx, trivial, trivial⟩, trivial⟩
  constructor
  · obtain ⟨ha, hx⟩ := ignores_names
    have hseen : skipping.seen (disk {} [("x", .directory {} [("y", link)])]) =
        skipping.seen (disk {} []) := by
      simp only [Skipping.seen, show skipping.root = "/r" from rfl, lookUp_disk, Option.map_some,
        Skipping.look, Skipping.lookIn, ha, hx, Bool.false_eq_true, ↓reduceIte]
    have hsame := Skipping.same_result_iff_dangling hlinked hplain (view_disk _ _)
    refine (hsame.1 hseen).1 ?_ ?_
    · exact Skipping.soundOn_of_not_danglesOn (by decide +kernel)
    · exact Skipping.soundOn_of_not_danglesOn (by decide +kernel)
  · rw [(Skipping.same_result_iff_dangling hplain hgrown (view_disk _ _).symm).2 _ _
      (lookUp_disk _ _) rfl (Outcome.eq_ok_of_toOption (by decide +kernel))]
    rintro ⟨-, hseen⟩
    have hsize := congrArg (Option.map fun e => e.size.toOption) (hseen (by decide +kernel))
    revert hsize
    decide +kernel

/-- An ignored link that dangles ends the walk. -/
theorem ended_by_ignored_link :
    skipping.view (disk {} [("x", link)]) = skipping.view (disk {} []) ∧
      (Walk.of (disk {} [("x", link)]) skipping.rules).toList = .error .fileNotFound ∧
      (Walk.of (disk {} []) skipping.rules).toList.isOk = true :=
  ⟨view_disk _ _, Outcome.eq_error_of_fault? (by decide +kernel), by decide +kernel⟩

end IgnoredLink
end CodeAtlas
