import CodeAtlas.Database.Escape
import CodeAtlas.Proofs.Path.Plain
import Mathlib.Data.List.Induction

namespace CodeAtlas.Text

theorem substituteFrom_char (c : Char) (new cs : List Char) :
    substituteFrom [c] new 0 cs = cs.flatMap fun d => if d = c then new else [d] := by
  induction cs with
  | nil => rfl
  | cons d r ih =>
    by_cases h : d = c
    · simp [substituteFrom, h, ih]
    · simp [substituteFrom, h, Ne.symm h, ih]

/-- What is replaced by itself with something in front of it does not vanish. -/
theorem occurs_substituteFrom {old cs : List Char} (before : List Char)
    (h : occurs old cs = true) : occurs old (substituteFrom old (before ++ old) 0 cs) = true := by
  induction cs with
  | nil => exact h
  | cons c r ih =>
    rw [substituteFrom]
    split
    · exact occurs_iff.mpr ⟨before, _, rfl⟩
    · rename_i hnot
      simp only [occurs, hnot, Bool.false_or] at h
      rw [occurs, ih h, Bool.or_true]

/-- A text does not become shorter, and it becomes longer if there is something to replace. -/
theorem length_substituteFrom (old : List Char) (b : Char) (skip : Nat) (cs : List Char) :
    cs.length ≤ (substituteFrom old (b :: old) skip cs).length + skip ∧
      (skip = 0 → old ≠ [] → occurs old cs = true →
        cs.length < (substituteFrom old (b :: old) skip cs).length) := by
  fun_induction substituteFrom old (b :: old) skip cs with
  | case1 skip => simp +contextual [occurs]
  | case2 skip c r ih =>
    refine ⟨?_, fun h => by cases h⟩
    rw [List.length_cons]
    omega
  | case3 c r hstart ih =>
    have hlength := ih.1
    simp only [List.length_cons, List.length_append]
    refine ⟨by omega, fun _ hold _ => ?_⟩
    have hpos := List.length_pos_iff.mpr hold
    omega
  | case4 c r hnot ih =>
    simp only [List.length_cons, occurs, hnot, Bool.false_or]
    exact ⟨Nat.succ_le_succ ih.1, fun _ hold h => Nat.succ_lt_succ (ih.2 rfl hold h)⟩

end CodeAtlas.Text

namespace CodeAtlas.Database
open Text

def literal : List Char → List Char
  | [] => []
  | [c] => [c]
  | c :: d :: r => if c = '\\' then d :: literal r else c :: literal (d :: r)

/-- Does a special text begin at a character that no backslash makes literal? -/
def leavesBare : List Char → Bool
  | [] => false
  | [c] => special.any fun s => s.toList.isPrefixOf [c]
  | c :: d :: r =>
    if c = '\\' then leavesBare r
    else special.any (fun s => s.toList.isPrefixOf (c :: d :: r)) || leavesBare (d :: r)

/-- The special texts that are escaped before the backslash is. -/
def early : List String :=
  special.takeWhile (· ≠ "\\")

/-- Is nothing in a text that is escaped before the backslash is? -/
def IsPlain (text : String) : Prop :=
  ∀ s ∈ special, contains s text = true → s = "\\" ∨ s = "/"

theorem literal_cons {c : Char} (h : c ≠ '\\') (r : List Char) :
    literal (c :: r) = c :: literal r := by
  cases r with
  | nil => rfl
  | cons d r => rw [literal, if_neg h]

theorem leavesBare_cons {c : Char} (h : c ≠ '\\') (r : List Char) : leavesBare (c :: r) =
    (special.any (fun s => s.toList.isPrefixOf (c :: r)) || leavesBare r) := by
  cases r with
  | nil => simp [leavesBare]
  | cons d r => rw [leavesBare, if_neg h]

/-- A backslash before the backslash and the slash. -/
def guarded (cs : List Char) : List Char :=
  cs.flatMap fun c => if c = '\\' ∨ c = '/' then ['\\', c] else [c]

theorem escape_eq_guarded (text : String) :
    (escape text).toList = guarded (early.foldl escapeOne text).toList := by
  have hspecial : special = early ++ ["\\", "/"] := by decide
  rw [escape, hspecial, List.foldl_append]
  simp only [List.foldl_cons, List.foldl_nil, escapeOne, substitute, String.toList_ofList,
    String.toList_append]
  rw [show "\\".toList = ['\\'] from rfl, show "/".toList = ['/'] from rfl, substituteFrom_char,
    substituteFrom_char, List.flatMap_assoc, guarded]
  refine List.flatMap_congr fun c _ => ?_
  by_cases hback : c = '\\'
  · subst hback
    decide
  · by_cases hslash : c = '/'
    · subst hslash
      decide
    · simp [hback, hslash]

theorem literal_guarded (cs : List Char) : literal (guarded cs) = cs := by
  induction cs with
  | nil => rfl
  | cons c r ih =>
    rw [guarded, List.flatMap_cons, ← guarded]
    split
    · simp [literal, ih]
    · rename_i hc
      rw [List.singleton_append, literal_cons (not_or.mp hc).1, ih]

/-- What has neither a backslash nor a slash begins where it began before. -/
theorem isPrefixOf_guarded {s cs : List Char} (h : ∀ c ∈ s, ¬(c = '\\' ∨ c = '/')) :
    s.isPrefixOf (guarded cs) = s.isPrefixOf cs := by
  induction s generalizing cs with
  | nil => simp
  | cons c s ih =>
    obtain ⟨hc, hs⟩ := List.forall_mem_cons.mp h
    cases cs with
    | nil => rfl
    | cons d r =>
      rw [guarded, List.flatMap_cons, ← guarded]
      split
      · rename_i hd
        have hback : (c == '\\') = false := by simpa using (not_or.mp hc).1
        have hne : (c == d) = false := by
          rw [beq_eq_false_iff_ne]
          rintro rfl
          exact hc hd
        simp only [List.cons_append, List.isPrefixOf, hback, hne, Bool.false_and]
      · simp only [List.singleton_append, List.isPrefixOf, ih hs]

theorem early_characters : ∀ s ∈ early, ∀ c ∈ s.toList, ¬(c = '\\' ∨ c = '/') := by
  have hall : (early.all fun s => s.toList.all fun c => !(c == '\\' || c == '/')) = true := by
    decide
  intro s hs c hc
  simpa using List.all_eq_true.mp (List.all_eq_true.mp hall s hs) c hc

theorem early_subset : early ⊆ special := by
  decide

/-- The backslash and the slash are the only special texts that are not escaped early. -/
theorem mem_early_iff {s : String} : s ∈ early ↔ s ∈ special ∧ ¬(s = "\\" ∨ s = "/") := by
  constructor
  · revert s
    decide
  · rintro ⟨hs, hnot⟩
    revert hnot
    revert s
    decide

/-- At a character that is not guarded a special text begins if one began there before. -/
theorem exists_start_iff {c : Char} (hc : ¬(c = '\\' ∨ c = '/')) (r : List Char) :
    (∃ s ∈ special, s.toList.isPrefixOf (c :: guarded r) = true) ↔
      ∃ s ∈ early, s.toList.isPrefixOf (c :: r) = true := by
  have hcons : c :: guarded r = guarded (c :: r) := by
    rw [guarded, guarded, List.flatMap_cons, if_neg hc, List.singleton_append]
  constructor
  · rintro ⟨s, hs, hstart⟩
    have hearly : s ∈ early := by
      refine mem_early_iff.mpr ⟨hs, ?_⟩
      rintro (rfl | rfl)
      · have heq : '\\' = c := by simpa using hstart
        exact hc (.inl heq.symm)
      · have heq : '/' = c := by simpa using hstart
        exact hc (.inr heq.symm)
    rw [hcons, isPrefixOf_guarded (early_characters s hearly)] at hstart
    exact ⟨s, hearly, hstart⟩
  · rintro ⟨s, hs, hstart⟩
    rw [← isPrefixOf_guarded (early_characters s hs), ← hcons] at hstart
    exact ⟨s, early_subset hs, hstart⟩

/-- Nothing that is escaped early begins with a backslash or a slash. -/
theorem not_start_of_guarded {c : Char} (hc : c = '\\' ∨ c = '/') {s : String} (hs : s ∈ early)
    (r : List Char) : s.toList.isPrefixOf (c :: r) = false := by
  have hne : s.toList ≠ [] := by
    revert s
    decide
  have hchars := early_characters s hs
  rcases hs : s.toList with _ | ⟨d, cs⟩
  · exact absurd hs hne
  · have hd : (d == c) = false := by
      rw [beq_eq_false_iff_ne]
      rintro rfl
      exact hchars d (by simp [hs]) hc
    rw [List.isPrefixOf, hd, Bool.false_and]

theorem leavesBare_guarded (cs : List Char) :
    leavesBare (guarded cs) = true ↔ ∃ s ∈ early, occurs s.toList cs = true := by
  induction cs with
  | nil => decide
  | cons c r ih =>
    rw [guarded, List.flatMap_cons, ← guarded]
    simp only [occurs, Bool.or_eq_true, and_or_left, exists_or]
    split
    · rename_i hc
      have hnone : ¬∃ s ∈ early, s.toList.isPrefixOf (c :: r) = true := by
        rintro ⟨s, hs, hstart⟩
        rw [not_start_of_guarded hc hs] at hstart
        cases hstart
      simp only [List.cons_append, List.nil_append, leavesBare, if_true, ih, hnone, false_or]
    · rename_i hc
      rw [List.singleton_append, leavesBare_cons (not_or.mp hc).1, Bool.or_eq_true,
        List.any_eq_true, exists_start_iff hc, ih]

theorem escapeOne_eq_self {text s : String} (h : contains s text = false) :
    escapeOne text s = text := by
  rw [escapeOne, substitute, substituteFrom_of_not_occurs h, String.ofList_toList]

theorem contains_escapeOne {text s : String} (h : contains s text = true) :
    contains s (escapeOne text s) = true := by
  rw [contains, escapeOne, substitute, String.toList_ofList, String.toList_append]
  exact occurs_substituteFrom _ h

theorem length_escapeOne {text s : String} (hs : s ≠ "") : text.length ≤ (escapeOne text s).length ∧
    (contains s text = true → text.length < (escapeOne text s).length) := by
  have hlength := length_substituteFrom s.toList '\\' 0 text.toList
  have hne : s.toList ≠ [] := by simpa using hs
  rw [escapeOne, substitute, ← String.length_toList, ← String.length_toList, String.toList_ofList,
    String.toList_append]
  exact ⟨hlength.1, hlength.2 rfl hne⟩

/-- Escaping texts one after the other leaves a text as it is only if it has none of them. -/
theorem foldl_escapeOne_eq_self_iff {found : List String} (hne : "" ∉ found) {text : String} :
    found.foldl escapeOne text = text ↔ ∀ s ∈ found, contains s text = false := by
  have hgrows : ∀ found : List String, "" ∉ found → ∀ text : String,
      text.length ≤ (found.foldl escapeOne text).length := by
    intro found hne
    induction found with
    | nil => exact fun _ => Nat.le_refl _
    | cons s found ih =>
      rw [List.mem_cons, not_or] at hne
      exact fun text => Nat.le_trans (length_escapeOne (Ne.symm hne.1)).1 (ih hne.2 _)
  induction found with
  | nil => simp
  | cons s found ih =>
    rw [List.mem_cons, not_or] at hne
    rw [List.foldl_cons, List.forall_mem_cons]
    cases hs : contains s text with
    | false =>
      rw [escapeOne_eq_self hs]
      simpa using ih hne.2
    | true =>
      have hlonger := (length_escapeOne (Ne.symm hne.1)).2 hs
      have hrest := hgrows found hne.2 (escapeOne text s)
      simp only [Bool.true_eq_false, false_and, iff_false]
      intro heq
      rw [heq] at hrest
      omega

/-- A text that has one of some texts has one of them still when they have been escaped. -/
theorem contains_foldl_escapeOne_iff {found : List String} (hne : "" ∉ found) {text : String} :
    (∀ s ∈ found, contains s (found.foldl escapeOne text) = false) ↔
      ∀ s ∈ found, contains s text = false := by
  constructor
  · induction found using List.reverseRecOn with
    | nil => simp
    | append_singleton found last ih =>
      -- the last text is not there, so it was not there before and nothing was done for it
      intro h
      rw [List.foldl_append] at h
      simp only [List.foldl_cons, List.foldl_nil, List.forall_mem_append,
        List.forall_mem_singleton] at h ⊢
      have hne' : "" ∉ found := fun hmem => hne (List.mem_append_left _ hmem)
      have hlast : contains last (found.foldl escapeOne text) = false := by
        rw [← Bool.not_eq_true]
        intro hthere
        rw [contains_escapeOne hthere] at h
        exact absurd h.2 (by simp)
      rw [escapeOne_eq_self hlast] at h
      have hfound := ih hne' h.1
      rw [(foldl_escapeOne_eq_self_iff hne').mpr hfound] at hlast
      exact ⟨hfound, hlast⟩
  · intro h
    rwa [(foldl_escapeOne_eq_self_iff hne).mpr h]

theorem isPlain_iff {text : String} : IsPlain text ↔ ∀ s ∈ early, contains s text = false := by
  rw [IsPlain]
  constructor
  · intro h s hs
    obtain ⟨hspecial, hnot⟩ := mem_early_iff.mp hs
    rw [← Bool.not_eq_true]
    exact fun hthere => hnot (h s hspecial hthere)
  · intro h s hs hthere
    by_contra hnot
    rw [h s (mem_early_iff.mpr ⟨hs, hnot⟩)] at hthere
    cases hthere

/-- An escaped text is read as the text with a backslash before each special text other than the
backslash and the slash. So it is read as it was exactly if there is none, and if there is one it
is left bare. -/
theorem escape_faithful_iff_plain (text : String) :
    literal (escape text).toList = (early.foldl escapeOne text).toList ∧
      (literal (escape text).toList = text.toList ↔ IsPlain text) ∧
      (leavesBare (escape text).toList = false ↔ IsPlain text) := by
  have hne : "" ∉ early := by decide
  have hread : literal (escape text).toList = (early.foldl escapeOne text).toList := by
    rw [escape_eq_guarded, literal_guarded]
  refine ⟨hread, ?_, ?_⟩
  · rw [hread, String.toList_inj, foldl_escapeOne_eq_self_iff hne, isPlain_iff]
  · rw [isPlain_iff, ← contains_foldl_escapeOne_iff hne, ← Bool.not_eq_true, escape_eq_guarded,
      leavesBare_guarded]
    simp [contains]

/-- A plus sign is read with a backslash in front of it, and it is left bare. -/
theorem plus_left_bare : literal (escape "a+b").toList = "a\\+b".toList ∧
    literal (escape "a+b").toList ≠ "a+b".toList ∧ leavesBare (escape "a+b").toList = true := by
  decide +kernel

end CodeAtlas.Database
