import CodeAtlas.Path
import Mathlib.Data.List.Basic

namespace CodeAtlas.Text
variable {sep : Char}

theorem pieces_ne_nil (sep : Char) (cs : List Char) : pieces sep cs ≠ [] := by
  cases cs with
  | nil => simp [pieces]
  | cons c r =>
    simp only [pieces]
    split
    · simp
    · split <;> simp

theorem pieces_append (sep : Char) (as bs : List Char) :
    pieces sep (as ++ sep :: bs) = pieces sep as ++ pieces sep bs := by
  induction as with
  | nil => simp [pieces]
  | cons c r ih =>
    simp only [List.cons_append, pieces, ih]
    by_cases hc : c = sep
    · simp [hc]
    · rcases hp : pieces sep r with _ | ⟨p, ps⟩
      · exact absurd hp (pieces_ne_nil sep r)
      · simp [hc]

theorem pieces_of_not_mem {cs : List Char} (h : sep ∉ cs) : pieces sep cs = [cs] := by
  induction cs with
  | nil => rfl
  | cons c r ih =>
    rw [List.mem_cons, not_or] at h
    simp [pieces, ih h.2, Ne.symm h.1]

theorem not_mem_of_mem_pieces {cs p : List Char} (h : p ∈ pieces sep cs) : sep ∉ p := by
  induction cs generalizing p with
  | nil =>
    simp only [pieces, List.mem_singleton] at h
    simp [h]
  | cons c r ih =>
    simp only [pieces] at h
    split at h
    · rcases List.mem_cons.mp h with rfl | h
      · simp
      · exact ih h
    · rcases hp : pieces sep r with _ | ⟨q, qs⟩
      · exact absurd hp (pieces_ne_nil sep r)
      · rw [hp] at h ih
        rcases List.mem_cons.mp h with rfl | h
        · simp [Ne.symm ‹_›, ih (List.mem_cons_self)]
        · exact ih (List.mem_cons_of_mem _ h)

theorem length_pieces (sep : Char) (cs : List Char) :
    (pieces sep cs).length = cs.count sep + 1 := by
  induction cs with
  | nil => rfl
  | cons c r ih =>
    simp only [pieces, List.count_cons, beq_iff_eq]
    rcases hp : pieces sep r with _ | ⟨p, ps⟩
    · exact absurd hp (pieces_ne_nil sep r)
    · rw [hp] at ih
      by_cases hc : c = sep
      · rw [if_pos hc, if_pos hc, List.length_cons, ih]
      · rw [if_neg hc, if_neg hc, Nat.add_zero, ← ih, List.length_cons, List.length_cons]

theorem intercalate_pieces (cs : List Char) : [sep].intercalate (pieces sep cs) = cs := by
  induction cs with
  | nil => rfl
  | cons c r ih =>
    simp only [pieces]
    rcases hp : pieces sep r with _ | ⟨p, ps⟩
    · exact absurd hp (pieces_ne_nil sep r)
    · rw [hp] at ih
      by_cases hc : c = sep
      · simp only [if_pos hc, List.intercalate_cons_cons, ih]
        simp [hc]
      · cases ps with
        | nil => simp_all
        | cons q qs => simp_all

theorem split_append (as bs : String) :
    split '/' (as ++ "/" ++ bs) = split '/' as ++ split '/' bs := by
  simp [split, pieces_append]

theorem split_of_not_mem {s : String} (h : '/' ∉ s.toList) : split '/' s = [s] := by
  simp [split, pieces_of_not_mem h]

theorem split_ne_nil (s : String) : split '/' s ≠ [] := by
  simp [split, pieces_ne_nil]

theorem no_slash_of_mem_split {path c : String} (h : c ∈ split '/' path) : '/' ∉ c.toList := by
  obtain ⟨p, hp, rfl⟩ := List.mem_map.mp h
  simpa using not_mem_of_mem_pieces hp

/-- There is one component more than there are slashes. -/
theorem length_split (s : String) : (split '/' s).length = count '/' s + 1 := by
  rw [split, List.length_map, length_pieces, count]

theorem intercalate_split (s : String) : "/".intercalate (split '/' s) = s := by
  rw [← String.toList_inj]
  simp [split, Function.comp_def, intercalate_pieces]

theorem split_intercalate_of_no_slash {names : List String} (h : ∀ n ∈ names, '/' ∉ n.toList)
    (hne : names ≠ []) : split '/' ("/".intercalate names) = names := by
  induction names with
  | nil => exact absurd rfl hne
  | cons n names ih =>
    obtain ⟨hn, hnames⟩ := List.forall_mem_cons.mp h
    by_cases hrest : names = []
    · rw [hrest, String.intercalate_singleton, split_of_not_mem hn]
    · rw [String.intercalate_cons_of_ne_nil hrest, split_append, split_of_not_mem hn,
        ih hnames hrest, List.singleton_append]

theorem startsWith_iff {s start : String} :
    startsWith s start = true ↔ ∃ rest, s = start ++ rest := by
  rw [startsWith, List.isPrefixOf_iff_prefix]
  constructor
  · rintro ⟨rest, h⟩
    exact ⟨String.ofList rest, by rw [← String.toList_inj]; simp [h]⟩
  · rintro ⟨rest, h⟩
    exact ⟨rest.toList, by simp [h]⟩

theorem endsWith_iff {s ending : String} :
    endsWith s ending = true ↔ ∃ start, s = start ++ ending := by
  rw [endsWith, List.isPrefixOf_iff_prefix, List.reverse_prefix]
  constructor
  · rintro ⟨start, h⟩
    exact ⟨String.ofList start, by rw [← String.toList_inj]; simp [h]⟩
  · rintro ⟨start, h⟩
    exact ⟨start.toList, by simp [h]⟩

end CodeAtlas.Text

namespace CodeAtlas.Path
open Text

structure IsName (name : String) : Prop where
  ne_empty : name ≠ ""
  ne_dot : name ≠ "."
  ne_dots : name ≠ ".."
  no_slash : '/' ∉ name.toList

instance (name : String) : Decidable (IsName name) :=
  decidable_of_iff (name ≠ "" ∧ name ≠ "." ∧ name ≠ ".." ∧ '/' ∉ name.toList)
    ⟨fun ⟨a, b, c, d⟩ => ⟨a, b, c, d⟩, fun ⟨a, b, c, d⟩ => ⟨a, b, c, d⟩⟩

def below (root : String) (way : List String) : String :=
  if way = [] then root else "/".intercalate (dropSlash root :: way)

@[simp] theorem below_nil (root : String) : below root [] = root := rfl

theorem below_of_ne_nil {root : String} {way : List String} (h : way ≠ []) :
    below root way = dropSlash root ++ "/" ++ "/".intercalate way := by
  rw [below, if_neg h, String.intercalate_cons_of_ne_nil h]

theorem dropSlash_append_slash (path : String) : dropSlash (path ++ "/") = path := by
  rw [dropSlash, if_pos (endsWith_iff.mpr ⟨path, rfl⟩), ← String.toList_inj]
  simp

theorem IsName.concat {way : List String} {name : String} (hname : IsName name)
    (hway : ∀ n ∈ way, IsName n) : ∀ n ∈ way ++ [name], IsName n := by
  simpa [or_imp, forall_and] using ⟨hway, hname⟩

theorem IsName.split {name : String} (h : IsName name) : split '/' name = [name] :=
  split_of_not_mem h.no_slash

theorem IsName.not_startsWith {name : String} (h : IsName name) : startsWith name "/" = false := by
  rw [← Bool.not_eq_true, startsWith_iff]
  rintro ⟨rest, rfl⟩
  exact h.no_slash (by simp)

theorem split_intercalate {way : List String} (h : ∀ n ∈ way, IsName n) (hne : way ≠ []) :
    split '/' ("/".intercalate way) = way :=
  split_intercalate_of_no_slash (fun n hn => (h n hn).no_slash) hne

/-- The names of a way are the last components of the path at its end. -/
theorem split_below {root : String} {way : List String} (h : ∀ n ∈ way, IsName n)
    (hne : way ≠ []) : split '/' (below root way) = split '/' (dropSlash root) ++ way := by
  rw [below_of_ne_nil hne, split_append, split_intercalate h hne]

theorem baseName_below {root name : String} {way : List String}
    (h : ∀ n ∈ way ++ [name], IsName n) : baseName (below root (way ++ [name])) = name := by
  rw [baseName, split_below h (by simp), ← List.append_assoc, List.getLast?_concat,
    Option.getD_some]

/-- A file has the extension of its name. -/
theorem extension_below {root name : String} {way : List String}
    (h : ∀ n ∈ way ++ [name], IsName n) :
    extension (below root (way ++ [name])) = extension name := by
  have hname : baseName name = name := by
    rw [baseName, (h name (by simp)).split]
    rfl
  rw [extension, baseName_below h, extension, hname]

theorem exists_append_baseName (path : String) : ∃ start, path = start ++ baseName path := by
  obtain ⟨init, last, hsplit⟩ : ∃ init last, split '/' path = init ++ [last] :=
    ⟨_, _, (List.dropLast_append_getLast (split_ne_nil path)).symm⟩
  have hbase : baseName path = last := by
    rw [baseName, hsplit, List.getLast?_concat, Option.getD_some]
  have hpath := intercalate_split path
  rw [hsplit] at hpath
  rw [hbase, ← hpath]
  by_cases hne : init = []
  · subst hne
    exact ⟨"", by simp⟩
  · rw [String.intercalate_append_of_ne_nil hne (by simp), String.intercalate_singleton]
    exact ⟨_, rfl⟩

theorem takeWhile_dot_prefix {cs : List Char} (h : '.' ∈ cs) :
    cs.takeWhile (· ≠ '.') ++ ['.'] <+: cs := by
  induction cs with
  | nil => cases h
  | cons c cs ih =>
    by_cases hc : c = '.'
    · simp [hc]
    · have hmem : '.' ∈ cs := by simpa [Ne.symm hc] using h
      simpa [hc] using ih hmem

/-- A path ends in its extension. -/
theorem endsWith_extension (path : String) : endsWith path (extension path) = true := by
  obtain ⟨start, hstart⟩ := exists_append_baseName path
  rw [endsWith, List.isPrefixOf_iff_prefix, List.reverse_prefix]
  have hbase : (baseName path).toList <:+ path.toList := by
    rw [congrArg String.toList hstart, String.toList_append]
    exact List.suffix_append _ _
  unfold extension
  dsimp only
  split
  · rename_i hdot
    have hlast := takeWhile_dot_prefix (List.mem_reverse.mpr (List.contains_iff_mem.mp hdot))
    rw [← List.reverse_suffix, List.reverse_reverse, List.reverse_concat] at hlast
    rw [String.toList_ofList]
    exact hlast.trans ((List.dropWhile_suffix _).trans hbase)
  · simp

theorem endsWith_join (base path : String) : endsWith (join base path) path = true := by
  rw [endsWith_iff]
  unfold join
  split
  · exact ⟨"", by simp⟩
  · split
    · exact ⟨base, rfl⟩
    · exact ⟨base ++ "/", rfl⟩

/-- A path ends in a slash only if its last component is empty. -/
theorem getLast?_split_of_endsWith {path : String} (h : endsWith path "/" = true) :
    (split '/' path).getLast? = some "" := by
  obtain ⟨start, rfl⟩ := endsWith_iff.mp h
  have happ := split_append start ""
  rw [String.append_empty] at happ
  rw [happ, split_of_not_mem (s := "") (by simp), List.getLast?_concat]

theorem not_endsWith_below {root : String} {way : List String} (h : ∀ n ∈ way, IsName n)
    (hne : way ≠ []) : endsWith (below root way) "/" = false := by
  rw [← Bool.not_eq_true]
  intro hend
  have hlast := getLast?_split_of_endsWith hend
  rw [split_below h hne, List.getLast?_append_of_ne_nil _ hne] at hlast
  exact (h "" (List.mem_of_getLast? hlast)).ne_empty rfl

theorem dropEnd_slash {path : String} (h : endsWith path "/" = false) :
    dropEnd (· = '/') path.toList = path.toList := by
  rw [dropEnd, List.reverse_eq_iff]
  rcases hr : path.toList.reverse with _ | ⟨c, cs⟩
  · rfl
  · have hc : c ≠ '/' := by
      rintro rfl
      simp [endsWith, hr, List.isPrefixOf] at h
    simp [hc]

theorem below_ne_empty {root : String} {way : List String} (hroot : root ≠ "") :
    below root way ≠ "" := by
  by_cases hne : way = []
  · simpa [hne] using hroot
  · rw [below_of_ne_nil hne]
    intro h
    simpa using congrArg String.toList h

theorem join_below {root name : String} {way : List String} (hroot : root ≠ "")
    (hway : ∀ n ∈ way, IsName n) (hname : IsName name) :
    join (below root way) name = below root (way ++ [name]) := by
  have hempty : (below root way).isEmpty = false := by
    simpa using below_ne_empty hroot
  rw [join, hname.not_startsWith, hempty, Bool.false_or,
    below_of_ne_nil (List.append_ne_nil_of_right_ne_nil way (by simp))]
  by_cases hne : way = []
  · subst hne
    by_cases hend : endsWith root "/" = true
    · obtain ⟨start, rfl⟩ := endsWith_iff.mp hend
      simp [hend, dropSlash_append_slash]
    · simp [hend, dropSlash]
  · rw [not_endsWith_below hway hne, below_of_ne_nil hne,
      String.intercalate_append_of_ne_nil hne (by simp)]
    simp [String.append_assoc]

/-- Different ways lead to different paths. -/
theorem below_injective {root : String} {way way' : List String} (hway : ∀ n ∈ way, IsName n)
    (hway' : ∀ n ∈ way', IsName n) (h : below root way = below root way') : way = way' := by
  -- a way of no steps ends at the root, whose components are no more than those of the others
  have hnil : ∀ {way : List String}, (∀ n ∈ way, IsName n) → way ≠ [] →
      root ≠ below root way := by
    intro way hway hne heq
    have hs : split '/' root = split '/' (dropSlash root) ++ way := by
      rw [← split_below hway hne, ← heq]
    by_cases hend : endsWith root "/" = true
    · have hlast := getLast?_split_of_endsWith hend
      rw [hs, List.getLast?_append_of_ne_nil _ hne] at hlast
      exact (hway "" (List.mem_of_getLast? hlast)).ne_empty rfl
    · rw [dropSlash, if_neg hend] at hs
      exact hne (by simpa using hs)
  by_cases hne : way = [] <;> by_cases hne' : way' = []
  · rw [hne, hne']
  · subst hne
    exact absurd h (hnil hway' hne')
  · subst hne'
    exact absurd h.symm (hnil hway hne)
  · have hs := congrArg (split '/') h
    rw [split_below hway hne, split_below hway' hne'] at hs
    exact List.append_cancel_left hs

theorem toUri_injective {path path' : String} (h : toUri path = toUri path') : path = path' := by
  have hl := congrArg String.toList h
  simp only [toUri, String.toList_append] at hl
  exact String.toList_inj.mp (List.append_cancel_left hl)

end CodeAtlas.Path
