import CodeAtlas.Build.Change
import CodeAtlas.Proofs.Outcome
import CodeAtlas.Proofs.Path.Plain

namespace CodeAtlas.Path
open Text

def isAbove (folder path : String) : Bool :=
  startsWith path (folder ++ "/")

variable {folder path : String}

theorem isAbove_iff : isAbove folder path = true ↔ ∃ rest, path = folder ++ "/" ++ rest :=
  startsWith_iff

theorem not_isAbove_empty (folder : String) : isAbove folder "" = false := by
  rw [← Bool.not_eq_true, isAbove_iff]
  rintro ⟨rest, h⟩
  simpa using congrArg String.toList h

/-- What stands in front of the last slash is above the path. -/
theorem isAbove_parent (path : String) : parent path = "" ∨ isAbove (parent path) path = true := by
  obtain ⟨names, last, hsplit⟩ : ∃ names last, split '/' path = names ++ [last] :=
    ⟨_, _, (List.dropLast_append_getLast (split_ne_nil path)).symm⟩
  have hparent : parent path = "/".intercalate names := by
    rw [parent, hsplit, List.dropLast_concat]
  by_cases hne : names = []
  · left
    rw [hparent, hne, String.intercalate_nil]
  · right
    refine isAbove_iff.mpr ⟨last, ?_⟩
    rw [hparent, ← intercalate_split path, hsplit,
      String.intercalate_append_of_ne_nil hne (by simp), String.intercalate_singleton]

theorem isAbove_trans {folder' : String} (h : isAbove folder folder' = true)
    (h' : isAbove folder' path = true) : isAbove folder path = true := by
  obtain ⟨rest, rfl⟩ := isAbove_iff.mp h
  obtain ⟨last, rfl⟩ := isAbove_iff.mp h'
  exact isAbove_iff.mpr ⟨rest ++ "/" ++ last, by simp only [String.append_assoc]⟩

theorem isAbove_of_isAbove_parent (h : isAbove folder (parent path) = true) :
    isAbove folder path = true := by
  rcases isAbove_parent path with hempty | habove
  · rw [hempty, not_isAbove_empty] at h
    cases h
  · exact isAbove_trans h habove

/-- One step up from a path leads to the folder or to another path below it. -/
theorem parent_of_isAbove (h : isAbove folder path = true) :
    parent path = folder ∨ isAbove folder (parent path) = true := by
  obtain ⟨rest, rfl⟩ := isAbove_iff.mp h
  have hparent : parent (folder ++ "/" ++ rest) =
      "/".intercalate (split '/' folder ++ (split '/' rest).dropLast) := by
    rw [parent, split_append, List.dropLast_append_of_ne_nil (split_ne_nil rest)]
  rw [hparent]
  by_cases hne : (split '/' rest).dropLast = []
  · left
    rw [hne, List.append_nil, intercalate_split]
  · right
    refine isAbove_iff.mpr ⟨"/".intercalate (split '/' rest).dropLast, ?_⟩
    rw [String.intercalate_append_of_ne_nil (split_ne_nil folder) hne, intercalate_split]

variable {root : String} {left : Nat} {gathered parents : List String}

theorem isAbove_of_mem_climbFrom (h : climbFrom root left path gathered = .ok parents)
    (hmem : folder ∈ parents) : folder ∈ gathered ∨ folder = "" ∨ isAbove folder path = true := by
  induction left generalizing path gathered with
  | zero =>
    rw [climbFrom] at h
    split at h
    · cases h
    · cases h
      exact Or.inl (List.mem_reverse.mp hmem)
  | succ left ih =>
    rw [climbFrom] at h
    split at h
    · rcases ih h with hold | hempty | habove
      · rcases List.mem_cons.mp hold with rfl | hold
        · exact Or.inr (isAbove_parent path)
        · exact Or.inl hold
      · exact Or.inr (Or.inl hempty)
      · exact Or.inr (Or.inr (isAbove_of_isAbove_parent habove))
    · cases h
      exact Or.inl (List.mem_reverse.mp hmem)

/-- What occurs in a folder occurs in all that lies below it. -/
theorem contains_of_isAbove {part : String} (hc : contains part folder = true)
    (h : isAbove folder path = true) : contains part path = true := by
  obtain ⟨rest, rfl⟩ := isAbove_iff.mp h
  exact contains_append (contains_append hc _) _

/-- A climb gathers each folder above the path in which the root occurs. -/
theorem mem_climbFrom (h : climbFrom root left path gathered = .ok parents)
    (hmem : folder ∈ gathered ∨ contains root folder = true ∧ isAbove folder path = true) :
    folder ∈ parents := by
  -- where the climb ends the root does not occur, so no folder above is left to be gathered
  induction left generalizing path gathered with
  | zero =>
    rw [climbFrom] at h
    split at h
    · cases h
    · rename_i hc
      cases h
      rcases hmem with hmem | ⟨hroot, habove⟩
      · exact List.mem_reverse.mpr hmem
      · exact absurd (contains_of_isAbove hroot habove) hc
  | succ left ih =>
    rw [climbFrom] at h
    split at h
    · refine ih h ?_
      rcases hmem with hmem | ⟨hroot, habove⟩
      · exact Or.inl (List.mem_cons_of_mem _ hmem)
      · rcases parent_of_isAbove habove with rfl | habove
        · exact Or.inl List.mem_cons_self
        · exact Or.inr ⟨hroot, habove⟩
    · rename_i hc
      cases h
      rcases hmem with hmem | ⟨hroot, habove⟩
      · exact List.mem_reverse.mpr hmem
      · exact absurd (contains_of_isAbove hroot habove) hc

theorem mem_above (h : above root path = .ok parents) (hne : folder ≠ "")
    (hc : contains root folder = true) : folder ∈ parents ↔ isAbove folder path = true := by
  constructor
  · intro hmem
    rcases isAbove_of_mem_climbFrom h hmem with hnil | hempty | habove
    · cases hnil
    · exact absurd hempty hne
    · exact habove
  · exact fun habove => mem_climbFrom h (Or.inr ⟨hc, habove⟩)

theorem isAbove_toUri (folder path : String) :
    isAbove (toUri folder) (toUri path) = isAbove folder path := by
  rw [Bool.eq_iff_iff, isAbove_iff, isAbove_iff]
  simp only [toUri, String.append_assoc, String.append_right_inj]

/-- A folder is above what stands in it, unless it is a root that ends in a slash. -/
theorem isAbove_below {way : List String} (h : way ≠ [] ∨ endsWith root "/" = false)
    (name : String) : isAbove (below root way) (below root (way ++ [name])) = true := by
  refine isAbove_iff.mpr ⟨name, ?_⟩
  rw [below_of_ne_nil (List.append_ne_nil_of_right_ne_nil way (by simp))]
  by_cases hne : way = []
  · have hend : endsWith root "/" = false := h.resolve_left (not_not_intro hne)
    simp [hne, dropSlash, hend]
  · rw [below_of_ne_nil hne, String.intercalate_append_of_ne_nil hne (by simp)]
    simp [String.append_assoc]

/-- With two slashes in a row no path goes on below a root that ends in one. -/
theorem not_isAbove_below (hend : endsWith root "/" = true) {way : List String}
    (hway : ∀ n ∈ way, IsName n) : isAbove root (below root way) = false := by
  rw [← Bool.not_eq_true, isAbove_iff]
  rintro ⟨rest, h⟩
  by_cases hne : way = []
  · have hlength := congrArg (fun s => s.toList.length) h
    simp [hne] at hlength
  · obtain ⟨start, rfl⟩ := endsWith_iff.mp hend
    rw [below_of_ne_nil hne, dropSlash_append_slash] at h
    have htail : "/".intercalate way = "/" ++ rest :=
      (String.append_right_inj (start ++ "/")).mp (h.trans String.append_assoc)
    have hsplit := congrArg (split '/') htail
    rw [split_intercalate hway hne, split_slash] at hsplit
    exact (hway "" (by simp [hsplit])).ne_empty rfl

end CodeAtlas.Path

namespace CodeAtlas.Environment
open Text CodeAtlas.Path
variable {e : Option Environment} {folder : String}

/-- The folders above a path that an environment finds, if its root occurs in them. -/
theorem mem_parentsOf {path : String} {parents : List String}
    (h : parentsOf e (.str path) = .ok parents) (hne : folder ≠ "")
    (hroot : ∀ e' root, e = some e' → e'.root = .str root → contains root folder = true) :
    folder ∈ parents ↔ isAbove folder path = true := by
  cases e with
  | none => cases h
  | some e =>
    cases he : e.root with
    | str root =>
      have hc := hroot e root rfl he
      simp only [parentsOf, he, Json.holds, Outcome.bind_eq_ok] at h
      obtain ⟨_, hholds, h⟩ := h
      cases hholds
      split at h
      · exact mem_above h hne hc
      · rename_i hnot
        cases h
        simp only [List.not_mem_nil, false_iff]
        exact fun habove => hnot (contains_of_isAbove hc habove)
    | _ => simp [parentsOf, he, Json.holds] at h

/-- Whatever the root is, what is found above a path is above it, or has no path itself. -/
theorem isAbove_of_mem_parentsOf {path : Json} {parents : List String}
    (h : parentsOf e path = .ok parents) (hmem : folder ∈ parents) :
    folder = "" ∨ ∃ text, path = .str text ∧ isAbove folder text = true := by
  cases e with
  | none => cases h
  | some e =>
    simp only [parentsOf, Outcome.bind_eq_ok] at h
    obtain ⟨holds, -, h⟩ := h
    split at h
    · split at h
      · rename_i text root _
        rcases isAbove_of_mem_climbFrom h hmem with hnil | hempty | habove
        · cases hnil
        · exact Or.inl hempty
        · exact Or.inr ⟨text, rfl, habove⟩
      · cases h
    · cases h
      cases hmem

theorem isAbove_of_mem_parentsOfAll {paths : List Json} {folders : List String}
    (h : parentsOfAll e paths = .ok folders) (hmem : folder ∈ folders) :
    folder = "" ∨ ∃ path, .str path ∈ paths ∧ isAbove folder path = true := by
  simp only [parentsOfAll, Outcome.bind_eq_ok, Outcome.pure_eq_ok] at h
  obtain ⟨groups, hgroups, rfl⟩ := h
  obtain ⟨group, hgroup, hmem⟩ := List.mem_flatten.mp hmem
  obtain ⟨path, hpath, hparents⟩ := Outcome.mem_of_mapM_eq_ok hgroups hgroup
  rcases isAbove_of_mem_parentsOf hparents hmem with hempty | ⟨text, rfl, habove⟩
  · exact Or.inl hempty
  · exact Or.inr ⟨text, hpath, habove⟩

/-- The folders above paths that an environment finds, if its root occurs in them. -/
theorem mem_parentsOfAll {paths : List Json} {folders : List String}
    (h : parentsOfAll e paths = .ok folders) (hne : folder ≠ "")
    (hroot : ∀ e' root, e = some e' → e'.root = .str root → contains root folder = true) :
    folder ∈ folders ↔ ∃ path, .str path ∈ paths ∧ isAbove folder path = true := by
  constructor
  · exact fun hmem => (isAbove_of_mem_parentsOfAll h hmem).resolve_left hne
  · rintro ⟨path, hpath, habove⟩
    simp only [parentsOfAll, Outcome.bind_eq_ok, Outcome.pure_eq_ok] at h
    obtain ⟨groups, hgroups, rfl⟩ := h
    obtain ⟨group, hgroup⟩ := Outcome.exists_of_mapM_eq_ok hgroups hpath
    refine List.mem_flatten.mpr ⟨group, ?_, (mem_parentsOf hgroup hne hroot).mpr habove⟩
    exact (Outcome.mem_iff_of_mapM_eq_ok hgroups).mpr ⟨_, hpath, hgroup⟩

end CodeAtlas.Environment
