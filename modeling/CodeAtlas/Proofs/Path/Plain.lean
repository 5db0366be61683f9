import CodeAtlas.Project.Walk
import CodeAtlas.Proofs.Path
import Mathlib.Data.List.Basic

namespace CodeAtlas.Text

theorem occurs_iff {needle cs : List Char} :
    occurs needle cs = true ↔ ∃ before after, cs = before ++ needle ++ after := by
  induction cs with
  | nil =>
    simp only [occurs, List.isEmpty_iff]
    constructor
    · rintro rfl
      exact ⟨[], [], rfl⟩
    · rintro ⟨before, after, h⟩
      simp_all
  | cons c r ih =>
    simp only [occurs, Bool.or_eq_true, List.isPrefixOf_iff_prefix, ih]
    constructor
    · rintro (⟨after, h⟩ | ⟨before, after, rfl⟩)
      · exact ⟨[], after, h.symm⟩
      · exact ⟨c :: before, after, rfl⟩
    · rintro ⟨before, after, h⟩
      cases before with
      | nil => exact Or.inl ⟨after, h.symm⟩
      | cons b before =>
        simp only [List.cons_append, List.cons.injEq] at h
        exact Or.inr ⟨before, after, h.2⟩

theorem contains_iff {needle s : String} :
    contains needle s = true ↔ ∃ before after, s = before ++ needle ++ after := by
  rw [contains, occurs_iff]
  constructor
  · rintro ⟨before, after, h⟩
    exact ⟨String.ofList before, String.ofList after, by rw [← String.toList_inj]; simp [h]⟩
  · rintro ⟨before, after, rfl⟩
    exact ⟨before.toList, after.toList, by simp⟩

theorem contains_append {needle s : String} (h : contains needle s = true) (rest : String) :
    contains needle (s ++ rest) = true := by
  obtain ⟨before, after, rfl⟩ := contains_iff.mp h
  exact contains_iff.mpr ⟨before, after ++ rest, by simp only [String.append_assoc]⟩

theorem substituteFrom_skip (old new : List Char) (before after : List Char) :
    substituteFrom old new before.length (before ++ after) = substituteFrom old new 0 after := by
  induction before with
  | nil => rfl
  | cons c before ih => simpa [substituteFrom] using ih

theorem substituteFrom_of_not_occurs {old new cs : List Char} (h : occurs old cs = false) :
    substituteFrom old new 0 cs = cs := by
  induction cs with
  | nil => rfl
  | cons c r ih =>
    simp only [occurs, Bool.or_eq_false_iff] at h
    simp [substituteFrom, h.1, ih h.2]

/-- A text that stands in front of a text without it is removed. -/
theorem substitute_append {old s : String} (hold : old ≠ "") (h : contains old s = false) :
    substitute old "" (old ++ s) = s := by
  rw [← String.toList_inj, substitute, String.toList_ofList, String.toList_append]
  rcases hcs : old.toList with _ | ⟨c, cs⟩
  · exact absurd (by simpa using hcs) hold
  · have hskip := substituteFrom_skip (c :: cs) [] cs s.toList
    simp only [List.cons_append, substituteFrom]
    rw [if_pos (by simp), List.length_cons, Nat.add_sub_cancel]
    simp only [String.toList_empty, List.nil_append]
    rw [hskip]
    rw [contains, hcs] at h
    exact substituteFrom_of_not_occurs h

end CodeAtlas.Text

namespace CodeAtlas.Path
open Text

/-- The names that lead from the root directory to an absolute path. -/
def components (root : String) : List String :=
  (split '/' (dropSlash root)).tail

/-- An absolute path whose components are names. A slash may stand at its end. -/
structure Plain (root : String) : Prop where
  absolute : startsWith root "/" = true
  names : ∀ c ∈ components root, IsName c

instance (root : String) : Decidable (Plain root) :=
  decidable_of_iff (startsWith root "/" = true ∧ ∀ c ∈ components root, IsName c)
    ⟨fun ⟨a, b⟩ => ⟨a, b⟩, fun ⟨a, b⟩ => ⟨a, b⟩⟩

theorem split_slash (path : String) : split '/' ("/" ++ path) = "" :: split '/' path := by
  have h := split_append "" path
  rw [split_of_not_mem (s := "") (by simp), List.singleton_append] at h
  simpa using h

namespace Plain
variable {root : String}

theorem eq_slash_append (h : Plain root) : ∃ rest, root = "/" ++ rest :=
  startsWith_iff.mp h.absolute

theorem ne_empty (h : Plain root) : root ≠ "" := by
  rintro rfl
  have := h.absolute
  simp [startsWith] at this

theorem split_dropSlash (h : Plain root) :
    split '/' (dropSlash root) = "" :: components root := by
  have hcases : dropSlash root = "" ∨ ∃ rest, dropSlash root = "/" ++ rest := by
    obtain ⟨rest, hrest⟩ := h.eq_slash_append
    by_cases hend : endsWith root "/" = true
    · obtain ⟨start, rfl⟩ := endsWith_iff.mp hend
      rw [dropSlash_append_slash]
      by_cases hstart : start = ""
      · exact Or.inl hstart
      · refine Or.inr (startsWith_iff.mp ?_)
        rcases hs : start.toList with _ | ⟨c, cs⟩
        · exact absurd (by simpa using hs) hstart
        · have hc := congrArg String.toList hrest
          have hslash : c = '/' := by
            simp only [String.toList_append, hs, List.cons_append] at hc
            exact (List.cons.inj hc).1
          simp [startsWith, hs, hslash]
    · rw [dropSlash, if_neg hend]
      exact Or.inr ⟨rest, hrest⟩
  rcases hcases with hempty | ⟨rest, hrest⟩
  · rw [components, hempty, split_of_not_mem (s := "") (by simp)]
    rfl
  · rw [components, hrest, split_slash, List.tail_cons]

theorem split_root (h : Plain root) :
    split '/' root = "" :: components root ++ if endsWith root "/" then [""] else [] := by
  rw [← h.split_dropSlash]
  by_cases hend : endsWith root "/" = true
  · obtain ⟨start, rfl⟩ := endsWith_iff.mp hend
    have happ := split_append start ""
    rw [String.append_empty, split_of_not_mem (s := "") (by simp)] at happ
    rw [dropSlash_append_slash, if_pos hend, happ]
  · rw [dropSlash, if_neg hend, if_neg hend, List.append_nil]

/-- Where a way of names from a plain root ends, the components are those of the root and the
names. -/
theorem split_below (h : Plain root) {way : List String} (hway : ∀ n ∈ way, IsName n)
    (hne : way ≠ []) : split '/' (below root way) = "" :: components root ++ way := by
  rw [Path.split_below hway hne, h.split_dropSlash]

end Plain

/-- Names are climbed one after the other, and empty components count for nothing. -/
theorem foldl_climb {absolute : Bool} {cs gathered : List String}
    (h : ∀ c ∈ cs, c = "" ∨ IsName c) :
    cs.foldl (climb absolute) gathered = (cs.filter (· ≠ "")).reverse ++ gathered := by
  induction cs generalizing gathered with
  | nil => rfl
  | cons c cs ih =>
    obtain ⟨hc, hcs⟩ := List.forall_mem_cons.mp h
    rw [List.foldl_cons, ih hcs]
    rcases hc with rfl | hc
    · simp [climb]
    · simp [climb, hc.ne_empty, hc.ne_dot, hc.ne_dots]

theorem filter_ne_empty {names : List String} (h : ∀ n ∈ names, IsName n) :
    names.filter (· ≠ "") = names :=
  List.filter_eq_self.mpr fun n hn => by simpa using (h n hn).ne_empty

namespace Plain
variable {root : String}

theorem normalComponents_root (h : Plain root) : normalComponents root = components root := by
  have hcs : ∀ c ∈ split '/' root, c = "" ∨ IsName c := by
    rw [h.split_root]
    intro c hc
    have := h.names c
    split at hc <;> simp only [List.mem_append, List.mem_cons] at hc <;> grind
  rw [normalComponents, foldl_climb hcs, List.append_nil, List.reverse_reverse, h.split_root]
  have hnames : (components root).filter (· ≠ "") = components root := filter_ne_empty h.names
  rw [List.filter_append, List.filter_cons_of_neg (by simp), hnames]
  split <;> simp

theorem absoluteComponents_root (h : Plain root) : absoluteComponents root = components root := by
  rw [absoluteComponents, join, if_pos h.absolute, h.normalComponents_root]

theorem startsWith_below (h : Plain root) {way : List String} (hway : ∀ n ∈ way, IsName n)
    (hne : way ≠ []) : startsWith (below root way) "/" = true := by
  have hsplit := h.split_below hway hne
  refine startsWith_iff.mpr ⟨"/".intercalate (components root ++ way), ?_⟩
  rw [← intercalate_split (below root way), hsplit, List.cons_append,
    String.intercalate_cons_of_ne_nil (by simp [hne])]
  simp

theorem absoluteComponents_below (h : Plain root) {way : List String}
    (hway : ∀ n ∈ way, IsName n) (hne : way ≠ []) :
    absoluteComponents (below root way) = components root ++ way := by
  have hnames : ∀ c ∈ components root ++ way, IsName c := fun c hc =>
    (List.mem_append.mp hc).elim (h.names c) (hway c)
  have hcs : ∀ c ∈ split '/' (below root way), c = "" ∨ IsName c := by
    rw [h.split_below hway hne, List.cons_append]
    exact List.forall_mem_cons.mpr ⟨Or.inl rfl, fun c hc => Or.inr (hnames c hc)⟩
  rw [absoluteComponents, join, if_pos (h.startsWith_below hway hne), normalComponents,
    foldl_climb hcs, List.append_nil, List.reverse_reverse, h.split_below hway hne,
    List.cons_append, List.filter_cons_of_neg (by simp), filter_ne_empty hnames]

theorem dropCommon_append (xs ys : List String) : dropCommon (xs ++ ys) xs = (ys, []) := by
  induction xs with
  | nil => cases ys <;> rfl
  | cons x xs ih => simpa [dropCommon] using ih

/-- The names of a way are the relative path to its end. -/
theorem relative?_below (h : Plain root) {way : List String} (hway : ∀ n ∈ way, IsName n)
    (hne : way ≠ []) : relative? (below root way) root = some ("/".intercalate way) := by
  have hempty : (below root way).isEmpty = false := by
    simpa using below_ne_empty h.ne_empty
  rw [relative?, h.absoluteComponents_below hway hne, h.absoluteComponents_root,
    dropCommon_append, hempty]
  simp [hne]

theorem eq_intercalate (h : Plain root) :
    root = "/" ++ "/".intercalate (components root) ∨
      components root ≠ [] ∧ root = "/" ++ "/".intercalate (components root) ++ "/" := by
  have hdrop := intercalate_split (dropSlash root)
  rw [h.split_dropSlash] at hdrop
  by_cases hne : components root = []
  · rw [hne, String.intercalate_singleton] at hdrop
    rw [hne, String.intercalate_nil, String.append_empty]
    by_cases hend : endsWith root "/" = true
    · obtain ⟨start, rfl⟩ := endsWith_iff.mp hend
      rw [dropSlash_append_slash] at hdrop
      exact Or.inl (by rw [← hdrop, String.empty_append])
    · rw [dropSlash, if_neg hend] at hdrop
      have := h.absolute
      rw [← hdrop] at this
      simp [startsWith] at this
  · rw [String.intercalate_cons_of_ne_nil hne, String.empty_append] at hdrop
    by_cases hend : endsWith root "/" = true
    · obtain ⟨start, hstart⟩ := endsWith_iff.mp hend
      have : dropSlash root = start := by rw [hstart, dropSlash_append_slash]
      exact Or.inr ⟨hne, by rw [hdrop, this, hstart]⟩
    · rw [dropSlash, if_neg hend] at hdrop
      exact Or.inl hdrop.symm

theorem not_slash_slash (h : Plain root) (rest : String) : root ≠ "/" ++ ("/" ++ rest) := by
  rintro rfl
  have hsplit := h.split_root
  rw [split_slash, split_slash, List.cons_append, List.cons.injEq] at hsplit
  rcases hcs : components ("/" ++ ("/" ++ rest)) with _ | ⟨c, cs⟩
  · rw [hcs, List.nil_append] at hsplit
    split at hsplit
    · exact split_ne_nil rest (List.cons.inj hsplit.2).2
    · simp at hsplit
  · rw [hcs, List.cons_append, List.cons.injEq] at hsplit
    have hname := h.names c (by simp [hcs])
    exact hname.ne_empty hsplit.2.1.symm

theorem leadingSlashes_eq_one (h : Plain root) : leadingSlashes root = 1 := by
  obtain ⟨rest, hrest⟩ := h.eq_slash_append
  have htoList : root.toList = '/' :: rest.toList := by rw [hrest]; simp
  rw [leadingSlashes, htoList]
  rcases hcs : rest.toList with _ | ⟨c, cs⟩
  · simp
  · have hc : c ≠ '/' := by
      rintro rfl
      refine h.not_slash_slash (String.ofList cs) ?_
      rw [← String.toList_inj, htoList, hcs]
      simp
    simp [hc]

theorem normal_root (h : Plain root) :
    normal root = "/" ++ "/".intercalate (components root) := by
  have hslash : String.ofList (List.replicate 1 '/') = "/" := rfl
  have hempty : ("/" ++ "/".intercalate (components root)).isEmpty = false := by
    simp
  rw [normal, h.leadingSlashes_eq_one, h.normalComponents_root, hslash]
  simp only [hempty, Bool.false_eq_true, if_false]

theorem baseName_normal (h : Plain root) :
    baseName (normal root) = (components root).getLast?.getD "" := by
  rw [h.normal_root, baseName, split_slash]
  by_cases hne : components root = []
  · rw [hne, String.intercalate_nil, split_of_not_mem (s := "") (by simp)]
    rfl
  · rw [split_intercalate h.names hne]
    cases hcs : components root with
    | nil => exact absurd hcs hne
    | cons c cs => rw [List.getLast?_cons_cons]

theorem dropEnd_append_slash (path : String) :
    dropEnd (· = '/') (path ++ "/").toList = dropEnd (· = '/') path.toList := by
  simp [dropEnd]

/-- The walk gives a root the name that its normal form has. -/
theorem nameOf_root (h : Plain root) : WalkRules.nameOf root = baseName (normal root) := by
  have hnormal : WalkRules.nameOf (normal root) = baseName (normal root) := by
    by_cases hne : components root = []
    · rw [h.normal_root, hne, String.intercalate_nil, String.append_empty]
      decide
    · have hend : endsWith (normal root) "/" = false := by
        rw [← Bool.not_eq_true]
        intro hend
        have hlast := getLast?_split_of_endsWith hend
        have hbase := h.baseName_normal
        rw [baseName, hlast, Option.getD_some] at hbase
        obtain ⟨c, hc⟩ := List.getLast?_isSome.mpr hne |> Option.isSome_iff_exists.mp
        rw [hc, Option.getD_some] at hbase
        exact (h.names c (List.mem_of_getLast? hc)).ne_empty hbase.symm
      rw [WalkRules.nameOf, dropEnd_slash hend, String.ofList_toList]
  rw [← hnormal]
  rcases h.eq_intercalate with hroot | ⟨-, hroot⟩
  · rw [h.normal_root, ← hroot]
  · rw [h.normal_root, WalkRules.nameOf, WalkRules.nameOf,
      ← dropEnd_append_slash ("/" ++ _), ← hroot]

/-- Under the name of the root stands the relative path. -/
theorem belowHome?_below (h : Plain root) {way : List String} (hway : ∀ n ∈ way, IsName n)
    (hne : way ≠ []) : belowHome? (below root way) root =
      some ("/" ++ (WalkRules.nameOf root ++ "/" ++ "/".intercalate way)) := by
  rw [belowHome?, h.relative?_below hway hne, Option.map_some, homeName, h.nameOf_root]
  simp [String.append_assoc]

theorem ofUri_toUri_below (h : Plain root) {way : List String} (hway : ∀ n ∈ way, IsName n)
    (hne : way ≠ []) : ofUri (toUri (below root way)) = below root way := by
  refine substitute_append (by simp [scheme]) ?_
  rw [← Bool.not_eq_true, contains_iff]
  rintro ⟨before, after, hpath⟩
  -- the two slashes of the scheme would have nothing between them
  have hsplit := h.split_below hway hne
  have hpath' : below root way = before ++ "file:" ++ "/" ++ ("" ++ "/" ++ after) := by
    rw [hpath, scheme, ← String.toList_inj]
    simp
  rw [hpath', split_append, split_append, split_of_not_mem (s := "") (by simp)] at hsplit
  have hmem : "" ∈ components root ++ way := by
    rcases hfirst : split '/' (before ++ "file:") with _ | ⟨c, cs⟩
    · exact absurd hfirst (split_ne_nil _)
    · simp only [hfirst, List.cons_append, List.cons.injEq] at hsplit
      rw [← hsplit.2]
      simp
  exact ((List.mem_append.mp hmem).elim (h.names "") (hway "")).ne_empty rfl

end Plain
end CodeAtlas.Path
