import CodeAtlas.Proofs.Path.Above
import Mathlib.Data.List.Infix

namespace CodeAtlas.Path
open Text

/-- The paths that begin with the first of some components, the longest first. -/
def beginningsOf (names : List String) : List String :=
  (names.inits.tail.map "/".intercalate).reverse

/-- The beginnings of a path that end with a component, from the path itself downwards. -/
def beginnings (path : String) : List String :=
  beginningsOf (split '/' path)

@[simp] theorem beginningsOf_nil : beginningsOf [] = [] :=
  rfl

@[simp] theorem beginningsOf_concat (names : List String) (last : String) :
    beginningsOf (names ++ [last]) = "/".intercalate (names ++ [last]) :: beginningsOf names := by
  have htail : (names.inits ++ [names ++ [last]]).tail = names.inits.tail ++ [names ++ [last]] := by
    apply List.tail_append_of_ne_nil
    cases names <;> simp
  simp [beginningsOf, List.inits_append, htail]

theorem parent_intercalate_concat {names : List String} {last : String}
    (h : ∀ n ∈ names ++ [last], '/' ∉ n.toList) :
    parent ("/".intercalate (names ++ [last])) = "/".intercalate names := by
  rw [parent, split_intercalate_of_no_slash h (by simp), List.dropLast_concat]

/-- What occurs in a beginning of a path occurs in the path. -/
theorem contains_of_mem_beginningsOf {root start : String} {names : List String}
    (hmem : start ∈ beginningsOf names) (hc : contains root start = true) :
    contains root ("/".intercalate names) = true := by
  induction names using List.reverseRecOn with
  | nil => simp at hmem
  | append_singleton names last ih =>
    rw [beginningsOf_concat, List.mem_cons] at hmem
    rcases hmem with hself | hmem
    · rwa [← hself]
    · have hne : names ≠ [] := by
        intro hnil
        simp [hnil] at hmem
      rw [String.intercalate_append_of_ne_nil hne (by simp)]
      exact contains_append (contains_append (ih hmem) _) _

theorem filter_beginningsOf_of_not_contains {root : String} {names : List String}
    (h : contains root ("/".intercalate names) = false) :
    (beginningsOf names).filter (contains root) = [] := by
  apply List.filter_eq_nil_iff.mpr
  intro start hmem hc
  simp [contains_of_mem_beginningsOf hmem hc] at h

theorem not_contains_empty {root : String} (hroot : root ≠ "") : contains root "" = false := by
  simpa [contains, occurs] using hroot

/-- One step for each component is enough. -/
theorem climbFrom_intercalate {root : String} (hroot : root ≠ "") {names : List String}
    (h : ∀ n ∈ names, '/' ∉ n.toList) {left : Nat} (hleft : names.length ≤ left)
    (gathered : List String) :
    climbFrom root left ("/".intercalate names) gathered =
      .ok (gathered.reverse ++ ((beginningsOf names).filter (contains root)).map parent) := by
  -- from the last component to the first, as the climb goes
  induction names using List.reverseRecOn generalizing left gathered with
  | nil =>
    cases left <;> simp [climbFrom, not_contains_empty hroot]
  | append_singleton names last ih =>
    obtain ⟨left, rfl⟩ : ∃ n, left = n + 1 := ⟨left - 1, by simp at hleft; omega⟩
    have hlength : names.length ≤ left := by simpa using hleft
    rw [climbFrom]
    split
    · rename_i hc
      rw [parent_intercalate_concat h, ih (fun n hn => h n (by simp [hn])) hlength]
      simp [hc, parent_intercalate_concat h]
    · rename_i hc
      rw [filter_beginningsOf_of_not_contains (by simpa using hc)]
      simp

/-- A climb from a path with few slashes comes to an end. -/
theorem above_eq_parents {root path : String} (hroot : root ≠ "")
    (hcount : count '/' path ≤ highestClimb) :
    above root path = .ok (((beginnings path).filter (contains root)).map parent) := by
  have hsteps : (split '/' path).length ≤ highestClimb + 1 := by
    rw [length_split]
    omega
  have hclimb := climbFrom_intercalate hroot (fun _ => no_slash_of_mem_split) hsteps []
  rwa [intercalate_split] at hclimb

/-- The empty text occurs everywhere, so the climb stays where nothing is left of the path. -/
theorem climbFrom_empty (left : Nat) (path : String) (gathered : List String) :
    climbFrom "" left path gathered = .error (.endlessParents (parent^[left + 1] path)) := by
  have hc : ∀ path, contains "" path = true := fun path => contains_iff.mpr ⟨"", path, by simp⟩
  induction left generalizing path gathered with
  | zero => simp [climbFrom, hc]
  | succ left ih => simp [climbFrom, hc, ih]

/-- The folder that a root names, be it written with a slash at its end or without. -/
def home (root : String) : String :=
  toUri (dropSlash root)

theorem contains_of_isAbove_home {root folder : String} (h : isAbove (home root) folder = true) :
    contains root folder = true := by
  obtain ⟨rest, rfl⟩ := isAbove_iff.mp h
  rw [contains_iff]
  by_cases hend : endsWith root "/" = true
  · obtain ⟨start, rfl⟩ := endsWith_iff.mp hend
    exact ⟨scheme, rest, by simp [home, toUri, dropSlash_append_slash, String.append_assoc]⟩
  · exact ⟨scheme, "/" ++ rest, by simp [home, toUri, dropSlash, hend, String.append_assoc]⟩

/-- A climb gathers a folder above the path if the root occurs in all that lies below the folder,
whether it occurs in the folder itself or not. -/
theorem mem_climbFrom_of_below {root folder : String}
    (hroot : ∀ path, isAbove folder path = true → contains root path = true) {left : Nat}
    {path : String} {gathered parents : List String}
    (h : climbFrom root left path gathered = .ok parents) (habove : isAbove folder path = true) :
    folder ∈ parents := by
  induction left generalizing path gathered with
  | zero => simp [climbFrom, hroot path habove] at h
  | succ left ih =>
    rw [climbFrom, if_pos (hroot path habove)] at h
    rcases parent_of_isAbove habove with hparent | habove
    · apply mem_climbFrom h
      simp [hparent]
    · exact ih h habove

/-- The folders from a path up to the root are gathered. -/
theorem mem_above_of_home {root folder path : String} {parents : List String}
    (h : above root path = .ok parents)
    (hhome : folder = home root ∨ isAbove (home root) folder = true)
    (habove : isAbove folder path = true) : folder ∈ parents := by
  apply mem_climbFrom_of_below _ h habove
  intro below hbelow
  apply contains_of_isAbove_home
  rcases hhome with rfl | hhome
  · exact hbelow
  · exact isAbove_trans hhome hbelow

end CodeAtlas.Path

namespace CodeAtlas.Environment
open Text CodeAtlas.Path

/-- The environment climbs where its root occurs in the path, and elsewhere has no step to take. -/
theorem parentsOf_eq_above {e : Environment} {root : String} (hroot : e.root = .str root)
    (path : String) : parentsOf (some e) (.str path) = above root path := by
  have hholds : Json.holds (.str path) e.root = .ok (contains root path) := by
    rw [hroot, Json.holds]
  unfold parentsOf
  dsimp only
  rw [hholds, hroot]
  cases hc : contains root path with
  | true => rfl
  | false =>
    unfold above climbFrom
    rw [hc]
    rfl

/-- With a root that is not empty, the climb from a path of at most as many slashes as the limit has
steps ends without a fault. It gathers the parents of the beginnings of the path in which the root
occurs, from the path itself downwards; among them is every folder from the path up to the root.
With an empty root every climb ends in a fault. -/
theorem climb_gathers_ancestors {e : Environment} {root : String} (hroot : e.root = .str root)
    (path : String) :
    (root ≠ "" → count '/' path ≤ highestClimb →
      ∃ parents, parentsOf (some e) (.str path) = .ok parents ∧
        parents = ((beginnings path).filter (contains root)).map parent ∧
        ∀ folder, folder = home root ∨ isAbove (home root) folder = true →
          isAbove folder path = true → folder ∈ parents) ∧
    (root = "" → parentsOf (some e) (.str path) =
      .error (.endlessParents (parent^[highestClimb + 2] path))) := by
  rw [parentsOf_eq_above hroot]
  constructor
  · intro hne hcount
    have habove := above_eq_parents hne hcount
    exact ⟨_, habove, rfl, fun folder hhome => mem_above_of_home habove hhome⟩
  · intro hempty
    rw [hempty, above, climbFrom_empty]

namespace RootTwice

def path : String :=
  "file:///r/x/r/b.py"

def within (root : String) : Environment :=
  ⟨.str "dev", .str "main", .str root⟩

theorem home_and_folders_gathered :
    count '/' path ≤ highestClimb ∧
    (∃ parents, parentsOf (some (within "/r")) (.str path) = .ok parents ∧
      parents = ["file:///r/x/r", "file:///r/x", "file:///r", "file://"] ∧ home "/r" ∈ parents) ∧
    ∃ last, parentsOf (some (within "")) (.str path) = .error (.endlessParents last) := by
  have hcount : count '/' path ≤ highestClimb := by decide
  obtain ⟨parents, hparents, heq, hmem⟩ :=
    (climb_gathers_ancestors (e := within "/r") rfl path).1 (by decide) hcount
  have hendless := (climb_gathers_ancestors (e := within "") rfl path).2 rfl
  refine ⟨hcount, ⟨parents, hparents, ?_, ?_⟩, _, hendless⟩
  · rw [heq]
    decide
  · exact hmem _ (.inl rfl) (by decide)

end RootTwice
end CodeAtlas.Environment
