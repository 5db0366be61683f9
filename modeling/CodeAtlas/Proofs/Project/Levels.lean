import CodeAtlas.Proofs.Project.Passage

namespace CodeAtlas
open Text CodeAtlas.Path

namespace Path

theorem count_append (c : Char) (s t : String) : count c (s ++ t) = count c s + count c t := by
  rw [count, count, count, String.toList_append, List.count_append]

theorem count_slash_intercalate {way : List String} (h : ∀ n ∈ way, IsName n) (hne : way ≠ []) :
    count '/' ("/".intercalate way) + 1 = way.length := by
  rw [← length_split, split_intercalate h hne]

theorem count_slash_dropSlash (path : String) : count '/' path =
    count '/' (dropSlash path) + if endsWith path "/" = true then 1 else 0 := by
  by_cases hend : endsWith path "/" = true
  · obtain ⟨start, rfl⟩ := endsWith_iff.mp hend
    have hslash : count '/' "/" = 1 := by decide
    rw [dropSlash_append_slash, if_pos hend, count_append, hslash]
  · rw [dropSlash, if_neg hend, if_neg hend, Nat.add_zero]

/-- Each name on a way has a slash before it, for which the one at the end of the root will do. -/
theorem count_slash_below (root : String) {way : List String} (h : ∀ n ∈ way, IsName n) :
    count '/' (below root way) + (if way ≠ [] ∧ endsWith root "/" = true then 1 else 0) =
      count '/' root + way.length := by
  by_cases hne : way = []
  · simp [hne]
  · have hslash : count '/' "/" = 1 := by decide
    have hway := count_slash_intercalate h hne
    have hroot := count_slash_dropSlash root
    rw [below_of_ne_nil hne, count_append, count_append, hslash]
    simp only [ne_eq, hne, not_false_eq_true, true_and]
    omega

end Path

namespace WalkRules
variable {r : WalkRules} {root path : String}

theorem levelOf_below (hr : r.root = .str root) {way : List String} (h : ∀ n ∈ way, IsName n) :
    r.levelOf (below root way) =
      way.length - if way ≠ [] ∧ endsWith root "/" = true then 1 else 0 := by
  have hcount := count_slash_below root h
  rw [levelOf, rootText_eq hr]
  split at hcount
  · rename_i hslash
    rw [if_pos hslash]
    omega
  · rename_i hslash
    rw [if_neg hslash]
    omega

/-- A level is a depth at the root, and below it if no slash at its end stands for the first
step. -/
theorem levelOf_below_eq_length_iff (hr : r.root = .str root) {way : List String}
    (h : ∀ n ∈ way, IsName n) :
    r.levelOf (below root way) = way.length ↔ way = [] ∨ endsWith root "/" = false := by
  rw [levelOf_below hr h]
  cases hend : endsWith root "/" with
  | false => simp
  | true =>
    by_cases hne : way = []
    · simp [hne]
    · simp only [ne_eq, hne, not_false_eq_true, and_self, ↓reduceIte, Bool.true_eq_false, or_self,
        iff_false]
      have hpos := List.length_pos_iff.mpr hne
      omega

/-- From one directory to the next the level grows by one, except for the first step from a root
with a slash at its end. -/
theorem levelOf_below_succ_iff (hr : r.root = .str root) {way : List String} {name : String}
    (h : ∀ n ∈ way ++ [name], IsName n) :
    r.levelOf (below root way) + 1 = r.levelOf (below root (way ++ [name])) ↔
      way ≠ [] ∨ endsWith root "/" = false := by
  rw [levelOf_below hr h, levelOf_below hr fun n hn => h n (List.mem_append_left _ hn),
    List.length_append, List.length_singleton]
  cases hend : endsWith root "/" with
  | false => simp
  | true =>
    by_cases hne : way = []
    · simp [hne]
    · simp only [ne_eq, hne, not_false_eq_true, and_self, ↓reduceIte, List.append_eq_nil_iff,
        false_and, true_or, iff_true]
      have hpos := List.length_pos_iff.mpr hne
      omega

/-- The folder of a directory has the level of its path, and what is in it one more. -/
theorem levels_of_folder {stand : Stand} {entries : List (String × Entry)} {f : Folder}
    {skip : Bool} (h : r.folder path stand entries = .ok (f, skip)) :
    f.path = path ∧ f.level = r.levelOf path ∧
      (∀ file ∈ f.files, file.level = f.level + 1) ∧
      ∀ sub ∈ f.folders, sub.level = f.level + 1 := by
  simp only [folder, Outcome.bind_eq_ok, Outcome.pure_eq_ok, Prod.mk.injEq] at h
  obtain ⟨dirs, -, files, -, skip', -, rfl, rfl⟩ := h
  refine ⟨rfl, rfl, fun file hfile => ?_, fun sub hsub => ?_⟩
  · obtain ⟨e, -, rfl⟩ := List.mem_map.mp hfile
    rfl
  · obtain ⟨e, -, rfl⟩ := List.mem_map.mp hsub
    rfl

end WalkRules

namespace Walk
variable {d : Disk} {r : WalkRules} {root : String}

/-- A subfolder stands one name further on. -/
theorem exists_name_of_subfolder {top : Entry} (hroot : root ≠ "") (htop : top.Proper)
    {way : List String} {stand : Stand} {inside : List (String × Entry)}
    (hreach : top.reach? way = some (.directory stand inside)) {f : Folder} {skip : Bool}
    (hfolder : r.folder (below root way) stand inside = .ok (f, skip)) {sub : Subfolder}
    (hsub : sub ∈ f.folders) : ∃ name, IsName name ∧ sub.path = below root (way ++ [name]) := by
  obtain ⟨-, -, hsubs⟩ := enters_of_folder hfolder
  obtain ⟨e, he, -, -, hpath⟩ := hsubs sub hsub
  have hname := ((Entry.proper_directory.mp (htop.reach? hreach)).2 e he).1
  exact ⟨e.1, hname, hpath.trans (join_below hroot (Entry.names_of_reach? htop hreach) hname)⟩

/-- Each folder of a walk stands at the end of a way from the root. Its level is the length of the
way, less one if it is not the root and the root is written with a slash at its end. Its files have
its level and one more, and its subfolders have their own level unless it is itself such a root. -/
theorem level_eq_depth_iff (hd : d.Proper) (hr : r.root = .str root) {f : Folder}
    (hf : f ∈ (Walk.of d r).folders) : ∃ top way stand inside, d.lookUp root = some top ∧
      top.reach? way = some (.directory stand inside) ∧ f.path = below root way ∧
      f.level = way.length - (if way ≠ [] ∧ endsWith root "/" = true then 1 else 0) ∧
      (f.level = way.length ↔ way = [] ∨ endsWith root "/" = false) ∧
      (∀ file ∈ f.files, file.level = f.level + 1) ∧
      ∀ sub ∈ f.folders, ∀ g ∈ (Walk.of d r).folders, g.path = sub.path →
        (sub.level = g.level ↔ way ≠ [] ∨ endsWith root "/" = false) := by
  obtain ⟨top, way, stand, inside, skip, htop, hway, -, hreach, hfolder⟩ :=
    exists_directory_of_mem hd hr hf
  obtain ⟨hpath, hlevel, hfiles, hsubs⟩ := WalkRules.levels_of_folder hfolder
  refine ⟨top, way, stand, inside, htop, hreach, hpath, ?_, ?_, hfiles, fun sub hsub g hg hgs => ?_⟩
  · rw [hlevel, WalkRules.levelOf_below hr hway]
  · rw [hlevel, WalkRules.levelOf_below_eq_length_iff hr hway]
  · obtain ⟨name, hname, hsubpath⟩ := exists_name_of_subfolder (Disk.ne_empty_of_lookUp htop)
      (hd.lookUp htop) hreach hfolder hsub
    obtain ⟨top', way', stand', inside', skip', -, hway', -, -, hfolder'⟩ :=
      exists_directory_of_mem hd hr hg
    obtain ⟨hpath', hlevel', -, -⟩ := WalkRules.levels_of_folder hfolder'
    have hnames := hname.concat hway
    -- a path below the root is the path of one way only
    obtain rfl := below_injective hway' hnames (hpath'.symm.trans (hgs.trans hsubpath))
    rw [hsubs sub hsub, hlevel, hlevel', WalkRules.levelOf_below_succ_iff hr hnames]

end Walk

namespace TwoDeep

def disk : Disk :=
  (({} : Disk).addFile "/r/a.py" ⟨[], 0, false⟩).addFile "/r/s/t/b.py" ⟨[], 0, false⟩

/-- The folder of the inner directory, as the walk from `/r` comes to it. -/
def inner : Folder where
  name := "t"
  path := "/r/s/t"
  level := 2
  files := [⟨"b.py", "/r/s/t", 3⟩]
  folders := []

theorem inner_level_is_depth : inner ∈ (Walk.of disk { root := .str "/r" }).folders ∧
    ∃ way, inner.path = below "/r" way ∧ inner.level = way.length := by
  have hproper : disk.Proper := (Disk.proper_empty.addFile _ _).addFile _ _
  have hmem : inner ∈ (Walk.of disk { root := .str "/r" }).folders := by decide +kernel
  obtain ⟨-, way, -, -, -, -, hpath, -, hlevel, -⟩ := Walk.level_eq_depth_iff hproper rfl hmem
  exact ⟨hmem, way, hpath, hlevel.mpr (.inr (by decide))⟩

/-- With a slash at its end the root and what is in it have one level, though the root announces
another. -/
theorem slash_at_end_level_lost : ∃ f ∈ (Walk.of disk { root := .str "/r/" }).folders,
    ∃ sub ∈ f.folders, ∃ g ∈ (Walk.of disk { root := .str "/r/" }).folders,
      f.path = below "/r/" [] ∧ g.path = sub.path ∧ g.path = below "/r/" ["s"] ∧
        f.level = 0 ∧ sub.level = 1 ∧ g.level = 0 := by
  decide +kernel

end TwoDeep
end CodeAtlas
