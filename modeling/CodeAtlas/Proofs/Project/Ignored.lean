import CodeAtlas.Proofs.Json
import CodeAtlas.Proofs.Project.Listing

namespace CodeAtlas
open Text CodeAtlas.Path

namespace WalkRules
variable {d : Disk} {r : WalkRules} {root ignore : String} {limit : Json} {names : List String}

/-- Does an entry have a size, and is it not beyond the largest? -/
def fits (r : WalkRules) (entry : Entry) : Bool :=
  Outcome.isYes (not <$> (entry.size >>= r.isLarge))

theorem fits_iff {entry : Entry} : r.fits entry = true ↔
    ∃ size, entry.size = .ok size ∧ r.isLarge size = .ok false := by
  rw [fits]
  cases entry.size with
  | error fault => simp [Outcome.isYes, Functor.map, Except.map, bind, Except.bind]
  | ok size =>
    cases hlarge : r.isLarge size with
    | error fault => simp [Outcome.isYes, Functor.map, Except.map, bind, Except.bind, hlarge]
    | ok large => simp [Outcome.isYes, Functor.map, Except.map, bind, Except.bind, hlarge]

def onNames (root : String) (names : List String) (limit : Json) : WalkRules where
  root := .str root
  namesToSkip := .arr (names.map .str)
  largest := limit

/-- The names of an ignore file are all that is passed over by name. -/
theorem ignoring_eq (hnames : readNames d ignore = .ok names) :
    ignoring d { root := .str root, largest := limit } (.str ignore) =
      .ok (onNames root names limit) := by
  have hvoid : (Json.str ignore).isVoid = false := by
    rw [Json.isVoid, String.isEmpty_eq_false_iff]
    rintro rfl
    simp [readNames, Disk.readText, Disk.readBytes, Disk.lookUp, bind, Except.bind] at hnames
  simp only [ignoring, hvoid, Bool.false_eq_true, ↓reduceIte, Json.toText, Outcome.bind_eq_ok,
    Outcome.pure_eq_ok, Except.ok.injEq, exists_eq_left', hnames]
  rfl

/-- Where all sizes fit, the name as it is written decides. -/
theorem skips_eq_named (hr : r = onNames root names limit) (path : String) {entry : Entry}
    (hfits : r.fits entry = true) : r.skips path entry = .ok (decide (baseName path ∈ names)) := by
  obtain ⟨size, hsize, hlarge⟩ := fits_iff.mp hfits
  have hnamed : (names.map Json.str).any (Json.same (.str (baseName path))) =
      decide (baseName path ∈ names) := by
    rw [Bool.eq_iff_iff, Json.any_same_str, Json.texts_map_str, decide_eq_true_iff]
  subst hr
  simp only [onNames] at hlarge
  simp only [skips, onNames, Json.holds, Json.items, isBelow, hsize, hlarge, hnamed, bind,
    Except.bind, pure, Except.pure, Bool.or_false]

/-- A path that ends in a slash has the empty name after it. -/
theorem baseName_eq (root : String) :
    baseName root = if endsWith root "/" = true then "" else nameOf root := by
  split
  · rename_i hend
    rw [baseName, getLast?_split_of_endsWith hend, Option.getD_some]
  · rename_i hend
    rw [nameOf, dropEnd_slash (by simpa using hend), String.ofList_toList]

end WalkRules

namespace Walk
variable {d : Disk} {r : WalkRules} {root ignore : String} {limit : Json} {names : List String}

/-- A way is open if no name on it is to be passed over. -/
theorem opens_iff_names {top entry : Entry} (htop : top.Proper)
    (hr : r = WalkRules.onNames root names limit) (hfits : top.all r.fits = true)
    {way : List String} (hreach : top.reach? way = some entry) :
    r.opens root top way = true ↔ ∀ n ∈ way, n ∉ names := by
  induction way using List.reverseRecOn generalizing entry with
  | nil => simp
  | append_singleton way name ih =>
    obtain ⟨stand, entries, -, hdir⟩ := Entry.exists_directory_of_reach? hreach
    have hskip := WalkRules.skips_eq_named hr (below root (way ++ [name]))
      (Entry.all_reach? hfits hreach)
    rw [baseName_below (Entry.names_of_reach? htop hreach)] at hskip
    rw [WalkRules.opens_concat, ih hdir]
    simp [hreach, hskip, or_imp, forall_and]

/-- A walk that passes over names comes to the files on whose way there is none of them, but not to
those in a root whose last component is one. -/
theorem yields_below_iff {stand : Stand} {entries : List (String × Entry)} (hd : d.Proper)
    (hdir : d.lookUp root = some (.directory stand entries))
    (hr : r = WalkRules.onNames root names limit)
    (hfits : (Entry.directory stand entries).all r.fits = true) {way : List String} {blob : Blob}
    (hreach : (Entry.directory stand entries).reach? way = some (.file blob)) :
    (Walk.of d r).Yields (below root way) ↔ (∀ n ∈ way, n ∉ names) ∧
      (way.length = 1 →
        (if endsWith root "/" = true then "" else WalkRules.nameOf root) ∉ names) := by
  have htop := hd.lookUp hdir
  have hroot : r.root = .str root := by rw [hr, WalkRules.onNames]
  have hknown : Known r root (.directory stand entries) := fun way entry hreach =>
    ⟨_, WalkRules.skips_eq_named hr _ (Entry.all_reach? hfits hreach)⟩
  rw [yields_iff hd hroot hdir hknown, ← opens_iff_names htop hr hfits hreach,
    ← WalkRules.baseName_eq]
  simp only [WalkRules.skips_eq_named hr root (Entry.all_self hfits), Except.ok.injEq,
    decide_eq_false_iff_not]
  constructor
  · rintro ⟨way', blob', hreach', hpath, hopen⟩
    obtain rfl := below_injective (Entry.names_of_reach? htop hreach)
      (Entry.names_of_reach? htop hreach') hpath
    exact hopen
  · exact fun hopen => ⟨way, blob, hreach, rfl, hopen⟩

/-- Among files that fit, and that are behind no link and no directory that cannot be read, a walk
with an ignore file comes to those on whose way from the root no name is ignored, and of those in
the root itself to none if the last component of the root is ignored as it is written. So it does
as if the name of the root stood on every way exactly for the files that are ignored by another
name, for those in a root that is as much ignored by its last component as by its name, and for the
others if the root is not ignored by its name. -/
theorem yields_iff_not_ignored {stand : Stand} {entries : List (String × Entry)} (hd : d.Proper)
    (hdir : d.lookUp root = some (.directory stand entries))
    (hnames : WalkRules.readNames d ignore = .ok names)
    (hr : WalkRules.ignoring d { root := .str root, largest := limit } (.str ignore) = .ok r)
    (hfits : (Entry.directory stand entries).all r.fits = true) :
    (Walk.of d r).fault = none ∧
      (∀ path, (Walk.of d r).Yields path → ∃ way blob,
        (Entry.directory stand entries).reach? way = some (.file blob) ∧ path = below root way) ∧
      ∀ way blob, (Entry.directory stand entries).reach? way = some (.file blob) →
        ((Walk.of d r).Yields (below root way) ↔ (∀ n ∈ way, n ∉ names) ∧
          (way.length = 1 →
            (if endsWith root "/" = true then "" else WalkRules.nameOf root) ∉ names)) ∧
        (((Walk.of d r).Yields (below root way) ↔
            WalkRules.nameOf root ∉ names ∧ ∀ n ∈ way, n ∉ names) ↔
          (∃ n ∈ way, n ∈ names) ∨
            if way.length = 1 then
              endsWith root "/" = true → ("" ∈ names ↔ WalkRules.nameOf root ∈ names)
            else WalkRules.nameOf root ∉ names) := by
  have hrules := Except.ok.inj (hr.symm.trans (WalkRules.ignoring_eq hnames))
  have hroot : r.root = .str root := by rw [hrules, WalkRules.onNames]
  have hknown : Known r root (.directory stand entries) := fun way entry hreach =>
    ⟨_, WalkRules.skips_eq_named hrules _ (Entry.all_reach? hfits hreach)⟩
  refine ⟨hknown.fault_eq_none hd hroot hdir, fun path hpath => ?_, fun way blob hreach => ?_⟩
  · obtain ⟨way, blob, hreach, hpath, -⟩ := (yields_iff hd hroot hdir hknown).mp hpath
    exact ⟨way, blob, hreach, hpath⟩
  · have hyields := yields_below_iff hd hdir hrules hfits hreach
    refine ⟨hyields, ?_⟩
    rw [hyields]
    by_cases hway : ∀ n ∈ way, n ∉ names
    · have hnone : ¬∃ n ∈ way, n ∈ names := fun h => by
        obtain ⟨n, hn, hmem⟩ := h
        exact hway n hn hmem
      by_cases hlength : way.length = 1
      · by_cases hend : endsWith root "/" = true
        · simp only [hlength, hend, hnone, if_true, forall_const, false_or, and_iff_right hway,
            and_iff_left hway, not_iff_not]
        · simp only [hlength, hend, hnone, if_true, if_false, forall_const, false_or,
            and_iff_right hway, and_iff_left hway, false_implies, Bool.false_eq_true]
      · simp only [hlength, hnone, if_false, false_implies, false_or, and_true, and_iff_left hway,
          iff_true_left hway]
    · have hsome : ∃ n ∈ way, n ∈ names := by simpa using hway
      simp only [hway, hsome, false_and, and_false, true_or]

end Walk

namespace IgnoredRoot

/-- A root with a file in it and one in a directory, and an ignore file beside it. -/
def disk (ignored : String) : Disk :=
  ((({} : Disk).addFile "/ignore" ⟨Utf8.bytes ignored, 0, false⟩).addFile
    "/r/a.py" ⟨[], 0, false⟩).addFile "/r/s/b.py" ⟨[], 0, false⟩

def rules (root : String) (names : List String) : WalkRules :=
  .onNames root names (.int 10)

/-- A blank line changes nothing where the root is written without a slash at its end. -/
theorem directory_ignored :
    (Walk.of (disk "s\n\n") (rules "/r" ["s", ""])).Yields "/r/a.py" ∧
      ¬(Walk.of (disk "s\n\n") (rules "/r" ["s", ""])).Yields "/r/s/b.py" := by
  have hproper : (disk "s\n\n").Proper := ((Disk.proper_empty.addFile _ _).addFile _ _).addFile _ _
  have hnames : WalkRules.readNames (disk "s\n\n") "/ignore" = .ok ["s", ""] :=
    Outcome.eq_ok_of_toOption (by decide +kernel)
  have hrules : WalkRules.ignoring (disk "s\n\n") { root := .str "/r" } (.str "/ignore") =
      .ok (rules "/r" ["s", ""]) := WalkRules.ignoring_eq hnames
  obtain ⟨-, -, hyields⟩ :=
    Walk.yields_iff_not_ignored hproper rfl hnames hrules (by decide +kernel)
  constructor
  · exact (hyields ["a.py"] _ rfl).1.mpr (by decide +kernel)
  · intro h
    exact absurd ((hyields ["s", "b.py"] _ rfl).1.mp h) (by decide +kernel)

/-- A root whose name is ignored is gone through all the same, and a blank line hides the files of
a root that is written with a slash at its end. -/
theorem root_ignored_otherwise :
    (WalkRules.readNames (disk "r") "/ignore" = .ok ["r"] ∧
        WalkRules.ignoring (disk "r") { root := .str "/r" } (.str "/ignore") =
          .ok (rules "/r" ["r"]) ∧ WalkRules.nameOf "/r" = "r" ∧
        (Walk.of (disk "r") (rules "/r" ["r"])).Yields "/r/s/b.py") ∧
      WalkRules.readNames (disk "\n") "/ignore" = .ok [""] ∧
        WalkRules.ignoring (disk "\n") { root := .str "/r/" } (.str "/ignore") =
          .ok (rules "/r/" [""]) ∧ WalkRules.nameOf "/r/" = "r" ∧
        ¬(Walk.of (disk "\n") (rules "/r/" [""])).Yields "/r/a.py" := by
  have hname : WalkRules.readNames (disk "r") "/ignore" = .ok ["r"] :=
    Outcome.eq_ok_of_toOption (by decide +kernel)
  have hblank : WalkRules.readNames (disk "\n") "/ignore" = .ok [""] :=
    Outcome.eq_ok_of_toOption (by decide +kernel)
  exact ⟨⟨hname, WalkRules.ignoring_eq hname, by decide +kernel, by decide +kernel⟩,
    hblank, WalkRules.ignoring_eq hblank, by decide +kernel, by decide +kernel⟩

end IgnoredRoot
end CodeAtlas
