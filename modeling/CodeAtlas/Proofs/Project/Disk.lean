import CodeAtlas.Description
import CodeAtlas.Proofs.Assoc
import CodeAtlas.Proofs.Path

namespace CodeAtlas
open Text CodeAtlas.Path

mutual
/-- Are all names at and below an entry proper, and those in one directory different? -/
def Entry.Proper : Entry → Prop
  | .file _ => True
  | .directory _ entries => (Assoc.keys entries).Nodup ∧ ProperAll entries

def ProperAll : List (String × Entry) → Prop
  | [] => True
  | (name, entry) :: rest => IsName name ∧ entry.Proper ∧ ProperAll rest
end

def Disk.Proper (d : Disk) : Prop :=
  d.top.Proper

theorem properAll_iff {entries : List (String × Entry)} :
    ProperAll entries ↔ ∀ e ∈ entries, IsName e.1 ∧ e.2.Proper := by
  induction entries with
  | nil => simp [ProperAll]
  | cons e rest ih => simp [ProperAll, ih, and_assoc]

theorem Entry.proper_directory {stand : Stand} {entries : List (String × Entry)} :
    (Entry.directory stand entries).Proper ↔
      (Assoc.keys entries).Nodup ∧ ∀ e ∈ entries, IsName e.1 ∧ e.2.Proper := by
  rw [Entry.Proper, properAll_iff]

theorem Entry.Proper.find? {way : List String} {entry found : Entry} (h : entry.Proper)
    (hf : entry.find? way = some found) : found.Proper := by
  induction way generalizing entry with
  | nil =>
    cases hf
    exact h
  | cons name rest ih =>
    cases entry with
    | file blob => cases hf
    | directory stand entries =>
      simp only [Entry.find?] at hf
      split at hf
      next e he =>
        obtain ⟨k, hk, _⟩ := Assoc.mem_of_get? he
        exact ih ((proper_directory.mp h).2 _ hk).2 hf
      next => cases hf

namespace Entry

/-- The entry at the end of a way through directories that are gone into. -/
def reach? : List String → Entry → Option Entry
  | [], entry => some entry
  | name :: rest, .directory stand entries =>
    if stand.isOpen then (Assoc.get? entries name).bind (reach? rest) else none
  | _ :: _, .file _ => none

theorem reach?_append (way way' : List String) (entry : Entry) :
    entry.reach? (way ++ way') = (entry.reach? way).bind (reach? way') := by
  induction way generalizing entry with
  | nil => rfl
  | cons name rest ih =>
    cases entry with
    | file blob => rfl
    | directory stand entries =>
      simp only [List.cons_append, reach?]
      split
      · cases Assoc.get? entries name with
        | none => rfl
        | some e => exact ih e
      · rfl

theorem reach?_name {stand : Stand} {entries : List (String × Entry)}
    (hopen : stand.isOpen = true) (h : (Assoc.keys entries).Nodup) {name : String}
    {entry : Entry} :
    (Entry.directory stand entries).reach? [name] = some entry ↔ (name, entry) ∈ entries := by
  rw [reach?, if_pos hopen, ← Assoc.get?_eq_some_iff_mem h]
  cases Assoc.get? entries name <;> simp [reach?]

theorem reach?_cons_of_mem {stand : Stand} {entries : List (String × Entry)}
    (hopen : stand.isOpen = true) (h : (Assoc.keys entries).Nodup) {e : String × Entry}
    (he : e ∈ entries) (rest : List String) :
    (Entry.directory stand entries).reach? (e.1 :: rest) = e.2.reach? rest := by
  rw [← List.singleton_append, reach?_append, (reach?_name hopen h).mpr he, Option.bind_some]

theorem Proper.reach? {way : List String} {entry found : Entry} (h : entry.Proper)
    (hf : entry.reach? way = some found) : found.Proper := by
  induction way generalizing entry with
  | nil =>
    cases hf
    exact h
  | cons name rest ih =>
    cases entry with
    | file blob => cases hf
    | directory stand entries =>
      rw [Entry.reach?] at hf
      split at hf
      · obtain ⟨e, he, hf⟩ := Option.bind_eq_some_iff.mp hf
        obtain ⟨k, hk, _⟩ := Assoc.mem_of_get? he
        exact ih ((proper_directory.mp h).2 _ hk).2 hf
      · cases hf

/-- What is in a directory stands at the end of its way and one more name. -/
theorem reach?_concat {top : Entry} (hproper : top.Proper) {way : List String} {stand : Stand}
    {entries : List (String × Entry)} (h : top.reach? way = some (.directory stand entries))
    (hopen : stand.isOpen = true) {name : String} {entry : Entry} :
    top.reach? (way ++ [name]) = some entry ↔ (name, entry) ∈ entries := by
  rw [reach?_append, h, Option.bind_some, reach?_name hopen (hproper.reach? h).1]

/-- Only a directory that is gone into has anything below it. -/
theorem exists_directory_of_reach? {top entry : Entry} {way : List String} {name : String}
    (h : top.reach? (way ++ [name]) = some entry) :
    ∃ stand entries, stand.isOpen = true ∧ top.reach? way = some (.directory stand entries) := by
  rw [reach?_append] at h
  obtain ⟨e, he, hfound⟩ := Option.bind_eq_some_iff.mp h
  cases e with
  | file blob => cases hfound
  | directory stand entries =>
    rw [reach?] at hfound
    split at hfound
    · rename_i hopen
      exact ⟨stand, entries, hopen, he⟩
    · cases hfound

theorem names_of_reach? {top entry : Entry} (htop : top.Proper) {way : List String}
    (h : top.reach? way = some entry) : ∀ n ∈ way, IsName n := by
  induction way generalizing top with
  | nil => simp
  | cons name rest ih =>
    cases top with
    | file blob => cases h
    | directory stand entries =>
      rw [Entry.reach?] at h
      split at h
      · obtain ⟨e, he, h⟩ := Option.bind_eq_some_iff.mp h
        have hmem := (Assoc.get?_eq_some_iff_mem (proper_directory.mp htop).1).mp he
        obtain ⟨hname, hproper⟩ := (proper_directory.mp htop).2 _ hmem
        exact List.forall_mem_cons.mpr ⟨hname, ih hproper h⟩
      · cases h

end Entry

theorem Entry.Proper.followed {entry : Entry} (h : entry.Proper) : entry.followed.Proper := by
  unfold Entry.followed
  split
  · exact h
  · exact h

/-- Nothing is found at the empty path. -/
theorem Disk.ne_empty_of_lookUp {d : Disk} {root : String} {entry : Entry}
    (h : d.lookUp root = some entry) : root ≠ "" := by
  rintro rfl
  simp [lookUp] at h

theorem Disk.Proper.lookUp {d : Disk} {path : String} {entry : Entry} (h : d.Proper)
    (hl : d.lookUp path = some entry) : entry.Proper := by
  rw [Disk.lookUp] at hl
  split at hl
  · cases hl
  · obtain ⟨found, hfound, rfl⟩ := Option.map_eq_some_iff.mp hl
    exact (Entry.Proper.find? h hfound).followed

namespace Path

/-- Seen from the root directory there is nothing above it, so all components are names. -/
theorem isName_of_mem_climb {components gathered : List String}
    (hc : ∀ c ∈ components, '/' ∉ c.toList) (hg : ∀ c ∈ gathered, IsName c) :
    ∀ c ∈ components.foldl (climb true) gathered, IsName c := by
  induction components generalizing gathered with
  | nil => exact hg
  | cons component components ih =>
    obtain ⟨hslash, hc⟩ := List.forall_mem_cons.mp hc
    refine ih hc ?_
    simp only [climb, Bool.or_eq_true, decide_eq_true_eq]
    split
    · exact hg
    · rename_i hplain
      rw [not_or] at hplain
      split
      · rename_i hdots
        exact List.forall_mem_cons.mpr ⟨⟨hplain.1, hplain.2, hdots, hslash⟩, hg⟩
      · cases gathered with
        | nil => simp
        | cons last rest =>
          obtain ⟨hlast, hrest⟩ := List.forall_mem_cons.mp hg
          simp only [if_neg hlast.ne_dots]
          exact hrest

theorem startsWith_join_slash (path : String) : startsWith (join "/" path) "/" = true := by
  by_cases h : startsWith path "/" = true
  · rw [join, if_pos h, h]
  · have hend : endsWith "/" "/" = true := endsWith_iff.mpr ⟨"", by simp⟩
    have hjoin : join "/" path = "/" ++ path := by
      rw [join, if_neg h, hend, Bool.or_true, if_pos rfl]
    exact startsWith_iff.mpr ⟨path, hjoin⟩

theorem isName_of_mem_absoluteComponents {path c : String} (h : c ∈ absoluteComponents path) :
    IsName c := by
  rw [absoluteComponents, normalComponents, startsWith_join_slash, List.mem_reverse] at h
  exact isName_of_mem_climb (fun _ => no_slash_of_mem_split) (by simp) c h

end Path

namespace Disk

theorem proper_insert {name : String} {entry : Entry} {stand : Stand}
    {entries : List (String × Entry)} (hname : IsName name) (he : entry.Proper)
    (h : (Entry.directory stand entries).Proper) :
    (Entry.directory stand (Assoc.insert entries name entry)).Proper := by
  obtain ⟨hnodup, hall⟩ := Entry.proper_directory.mp h
  refine Entry.proper_directory.mpr ⟨Assoc.nodup_keys_insert hnodup, fun e hmem => ?_⟩
  rcases Assoc.mem_insert hmem with hold | ⟨hval, hkey | ⟨v, hv⟩⟩
  · exact hall e hold
  · exact ⟨hkey ▸ hname, hval ▸ he⟩
  · exact ⟨(hall _ hv).1, hval ▸ he⟩

/-- Placing a proper entry at the end of a way of names leaves all names proper. -/
theorem proper_place {entry : Entry} (he : entry.Proper) {way : List String}
    (hway : ∀ n ∈ way, IsName n) {stand : Stand} {entries : List (String × Entry)}
    (h : (Entry.directory stand entries).Proper) :
    (Entry.directory stand (place entry way entries)).Proper := by
  fun_induction place entry way entries generalizing stand with
  | case1 entries => exact h
  | case2 name entries => exact proper_insert (hway name (by simp)) he h
  | case3 name rest entries _ stand' inside hget ih =>
    obtain ⟨k, hk, _⟩ := Assoc.mem_of_get? hget
    have hinside := ((Entry.proper_directory.mp h).2 _ hk).2
    exact proper_insert (hway name (by simp)) (ih (fun n hn => hway n (by simp [hn])) hinside) h
  | case4 name rest entries _ _ ih =>
    -- nothing is kept of what was no directory
    have hnothing : (Entry.directory {} []).Proper := by simp [Entry.proper_directory, Assoc.keys]
    exact proper_insert (hway name (by simp)) (ih (fun n hn => hway n (by simp [hn])) hnothing) h

theorem proper_empty : ({} : Disk).Proper := by
  simp [Proper, top, Entry.proper_directory, Assoc.keys]

theorem Proper.addFile {d : Disk} (h : d.Proper) (path : String) (blob : Blob) :
    (d.addFile path blob).Proper := by
  rw [Proper, Disk.addFile, top]
  exact proper_place (by simp [Entry.Proper]) (fun _ => isName_of_mem_absoluteComponents) h

theorem Proper.addDirectory {d : Disk} (h : d.Proper) (path : String) :
    (d.addDirectory path).Proper := by
  rw [Disk.addDirectory]
  split
  · exact h
  · rw [Proper, top]
    exact proper_place (by simp [Entry.proper_directory, Assoc.keys])
      (fun _ => isName_of_mem_absoluteComponents) h

end Disk

/-- All disks that are described are proper. -/
theorem Description.proper_disk (j : Json) : (disk j).Proper := by
  have hdirs : ((texts j "dirs").foldl Disk.addDirectory {}).Proper :=
    List.foldlRecOn _ _ Disk.proper_empty fun _ h path _ => h.addDirectory path
  exact List.foldlRecOn _ _ hdirs fun _ h file _ => h.addFile _ _

end CodeAtlas
