import CodeAtlas.Proofs.Marking.Uses
import CodeAtlas.Proofs.Outcome
import Mathlib.Data.List.TakeWhile

namespace CodeAtlas.Marking
open Text

def blankCodes : List Nat :=
  List.range' 0x09 5 ++ List.range' 0x1C 5 ++ [0x85, 0xA0, 0x1680] ++ List.range' 0x2000 11 ++
    [0x2028, 0x2029, 0x202F, 0x205F, 0x3000]

theorem blankCodes_not_word : blankCodes.all (fun n => !isWord (Char.ofNat n)) = true := by
  decide +kernel

theorem not_isBlank_of_isWord {c : Char} (h : isWord c = true) : isBlank c = false := by
  rw [Bool.eq_false_iff]
  intro hblank
  have hcode : c.toNat ∈ blankCodes := by
    simp only [isBlank, Bool.or_eq_true, Bool.and_eq_true, decide_eq_true_eq, beq_iff_eq] at hblank
    simp only [blankCodes, List.mem_append, List.mem_range'_1, List.mem_cons, List.not_mem_nil,
      or_false]
    omega
  have hword := List.all_eq_true.mp blankCodes_not_word _ hcode
  rw [Char.ofNat_toNat, h] at hword
  cases hword

theorem isUsed_cons_of_blank {c : Char} (h : isBlank c = true) (rest : List Char) :
    isUsed (c :: rest) = isUsed rest := by
  rw [isUsed, isUsed, List.dropWhile_cons, if_pos h]

theorem isUsed_cons_of_not_blank {c : Char} (h : isBlank c = false) (rest : List Char) :
    isUsed (c :: rest) = (c == '(' || c == '.' || c == ':') := by
  rw [isUsed, List.dropWhile_cons, if_neg (by simp [h])]
  rfl

theorem IsWhole.exists_cons {word : List Char} (h : IsWhole word) :
    ∃ c rest, word = c :: rest ∧ isWord c = true := by
  obtain ⟨c, rest, rfl⟩ := List.exists_cons_of_ne_nil h.ne_nil
  exact ⟨c, rest, rfl, h.all_isWord c List.mem_cons_self⟩

def Apart (text : List Char) : Prop :=
  text.head?.any isWord = false

theorem apart_nil : Apart [] :=
  rfl

@[simp] theorem apart_cons {c : Char} {rest : List Char} :
    Apart (c :: rest) ↔ isWord c = false :=
  Iff.rfl

theorem takeWhile_of_apart {after : List Char} (h : Apart after) : after.takeWhile isWord = [] := by
  cases after with
  | nil => rfl
  | cons c rest => exact List.takeWhile_cons_of_neg (by simpa using h)

theorem dropWhile_of_apart {after : List Char} (h : Apart after) :
    after.dropWhile isWord = after := by
  cases after with
  | nil => rfl
  | cons c rest => exact List.dropWhile_cons_of_neg (by simpa using h)

theorem apart_dropWhile (text : List Char) : Apart (text.dropWhile isWord) := by
  induction text with
  | nil => exact apart_nil
  | cons c rest ih =>
    rw [List.dropWhile_cons]
    split
    case isTrue => exact ih
    case isFalse hc => simpa using hc

theorem IsWhole.takeWhile_append {word after : List Char} (hw : IsWhole word) (ha : Apart after) :
    (word ++ after).takeWhile isWord = word := by
  rw [List.takeWhile_append_of_pos hw.all_isWord, takeWhile_of_apart ha, List.append_nil]

theorem IsWhole.dropWhile_append {word after : List Char} (hw : IsWhole word) (ha : Apart after) :
    (word ++ after).dropWhile isWord = after := by
  rw [List.dropWhile_append_of_pos hw.all_isWord, dropWhile_of_apart ha]

theorem length_dropWhile_lt {c : Char} (h : isWord c = true) (rest : List Char) :
    ((c :: rest).dropWhile isWord).length < (c :: rest).length := by
  rw [List.dropWhile_cons_of_pos h, List.length_cons]
  exact Nat.lt_succ_of_le (List.length_dropWhile_le _ _)

/-- A text is empty, or begins with a character that is in no word, or with a word. -/
@[elab_as_elim]
theorem word_induction {motive : List Char → Prop} (nil : motive [])
    (other : ∀ c rest, isWord c = false → motive rest → motive (c :: rest))
    (word : ∀ word after, IsWhole word → Apart after → motive after → motive (word ++ after))
    (text : List Char) : motive text := by
  match text with
  | [] => exact nil
  | c :: rest =>
    cases hc : isWord c with
    | false => exact other c rest hc (word_induction nil other word rest)
    | true =>
      rw [← List.takeWhile_append_dropWhile (p := isWord) (l := c :: rest)]
      refine word _ _ ⟨?_, fun _ h => List.mem_takeWhile_imp h⟩ (apart_dropWhile _)
        (word_induction nil other word _)
      rw [List.takeWhile_cons_of_pos hc]
      exact List.cons_ne_nil _ _
termination_by text.length
decreasing_by
  · exact Nat.lt_succ_self _
  · exact length_dropWhile_lt ‹_› rest

def bracketed (word : List Char) : List Char :=
  "<<<".toList ++ word ++ ">>>".toList

/-- A word that is followed by a text, with its mark if it is one of the names and used. -/
def markWord (names : List String) (word after : List Char) : List Char :=
  if names.contains (String.ofList word) && isUsed after then bracketed word else word

def marked (names : List String) : List Char → List Char
  | [] => []
  | c :: rest =>
    if isWord c then
      markWord names ((c :: rest).takeWhile isWord) ((c :: rest).dropWhile isWord) ++
        marked names ((c :: rest).dropWhile isWord)
    else c :: marked names rest
termination_by text => text.length
decreasing_by
  · exact length_dropWhile_lt ‹_› rest
  · exact Nat.lt_succ_self _

@[simp] theorem marked_nil (names : List String) : marked names [] = [] := by
  rw [marked]

@[simp] theorem marked_cons {c : Char} (h : isWord c = false) (names : List String)
    (rest : List Char) : marked names (c :: rest) = c :: marked names rest := by
  rw [marked, if_neg (by simp [h])]

theorem marked_word {word after : List Char} (hw : IsWhole word) (ha : Apart after)
    (names : List String) :
    marked names (word ++ after) = markWord names word after ++ marked names after := by
  obtain ⟨c, rest, hcons, hc⟩ := hw.exists_cons
  have htake := hw.takeWhile_append ha
  have hdrop := hw.dropWhile_append ha
  rw [hcons, List.cons_append] at htake hdrop ⊢
  rw [marked, if_pos hc, htake, hdrop]

theorem Apart.marked {text : List Char} (h : Apart text) (names : List String) :
    Apart (marked names text) := by
  cases text with
  | nil => rwa [marked_nil]
  | cons c rest =>
    rw [marked_cons (apart_cons.mp h)]
    exact h

theorem IsWhole.isUsed_append {word : List Char} (h : IsWhole word) (rest : List Char) :
    isUsed (word ++ rest) = false := by
  obtain ⟨c, cs, rfl, hc⟩ := h.exists_cons
  rw [List.cons_append, isUsed_cons_of_not_blank (not_isBlank_of_isWord hc), Bool.eq_false_iff]
  simp only [ne_eq, Bool.or_eq_true, beq_iff_eq]
  rintro ((rfl | rfl) | rfl) <;> exact absurd hc (by decide)

/-- Marks change for no word before them whether it is used. -/
theorem isUsed_marked (names : List String) (text : List Char) :
    isUsed (marked names text) = isUsed text := by
  induction text using word_induction with
  | nil => rw [marked_nil]
  | other c rest hc ih =>
    rw [marked_cons hc]
    cases hb : isBlank c with
    | true => rw [isUsed_cons_of_blank hb, isUsed_cons_of_blank hb, ih]
    | false => rw [isUsed_cons_of_not_blank hb, isUsed_cons_of_not_blank hb]
  | word word after hw ha _ =>
    rw [marked_word hw ha, hw.isUsed_append, markWord]
    split
    · rfl
    · rw [hw.isUsed_append]

/-- A word in brackets is not used. -/
theorem marked_bracketed {word : List Char} (hw : IsWhole word) (names : List String)
    (after : List Char) :
    marked names (bracketed word ++ after) = bracketed word ++ marked names after := by
  have hclose : ∀ rest,
      marked names (">>>".toList ++ rest) = ">>>".toList ++ marked names rest := by
    intro rest
    simp [marked_cons (c := '>') (by decide)]
  have hopen : ∀ rest, marked names ("<<<".toList ++ rest) = "<<<".toList ++ marked names rest := by
    intro rest
    simp [marked_cons (c := '<') (by decide)]
  have hapart : Apart (">>>".toList ++ after) := rfl
  have hunused : markWord names word (">>>".toList ++ after) = word := by
    have hnot : isUsed (">>>".toList ++ after) = false := rfl
    rw [markWord, hnot, Bool.and_false, if_neg Bool.false_ne_true]
  rw [bracketed, List.append_assoc, List.append_assoc, hopen,
    marked_word hw hapart, hunused, hclose]
  simp only [List.append_assoc]

/-- Marking twice is marking the names of both times at once. -/
theorem marked_marked (names names' : List String) (text : List Char) :
    marked names (marked names' text) = marked (names ++ names') text := by
  induction text using word_induction with
  | nil => simp only [marked_nil]
  | other c rest hc ih => rw [marked_cons hc, marked_cons hc, marked_cons hc, ih]
  | word word after hw ha ih =>
    rw [marked_word hw ha, marked_word hw ha, ← ih]
    cases hin : names'.contains (String.ofList word) && isUsed after with
    | true =>
      obtain ⟨hname, hused⟩ := Bool.and_eq_true_iff.mp hin
      have hboth : markWord (names ++ names') word after = bracketed word := by
        rw [markWord, if_pos (by simp [hused, List.contains_iff_mem.mp hname])]
      rw [markWord, if_pos hin, marked_bracketed hw, hboth]
    | false =>
      have hboth : markWord (names ++ names') word after =
          markWord names word (marked names' after) := by
        rw [markWord, markWord, isUsed_marked]
        congr 1
        cases hused : isUsed after <;> simp_all
      rw [markWord, if_neg (Bool.eq_false_iff.mp hin), marked_word hw (ha.marked names'), hboth]

theorem marked_congr {names names' : List String} (h : ∀ name, name ∈ names ↔ name ∈ names') :
    marked names = marked names' := by
  have hword : markWord names = markWord names' := by
    funext word after
    have hcontains :
        names.contains (String.ofList word) = names'.contains (String.ofList word) := by
      rw [Bool.eq_iff_iff, List.contains_iff_mem, List.contains_iff_mem, h]
    rw [markWord, markWord, hcontains]
  funext text
  induction text using word_induction with
  | nil => simp only [marked_nil]
  | other c rest hc ih => rw [marked_cons hc, marked_cons hc, ih]
  | word word after hw ha ih => rw [marked_word hw ha, marked_word hw ha, hword, ih]

section Spans
variable {name : List Char} {before : List Char} (hn : IsWhole name) (index : Nat)

include hn in
theorem beginsUse_of_apart {rest : List Char} (h : Apart rest) (last : Option Char) :
    beginsUse name last rest = false := by
  obtain ⟨c, cs, rfl, hc⟩ := hn.exists_cons
  cases rest with
  | nil => simp [beginsUse, List.isPrefixOf]
  | cons d rest =>
    have hne : (c == d) = false := by
      rw [beq_eq_false_iff_ne]
      rintro rfl
      rw [apart_cons, hc] at h
      cases h
    simp [beginsUse, List.isPrefixOf, hne]

theorem beginsUse_of_inside {last : Option Char} (h : last.any isWord = true) (rest : List Char) :
    beginsUse name last rest = false := by
  simp [beginsUse, h]

include hn in
/-- Where a word begins, a use of the name begins if the name is this very word and the word is
used. -/
theorem beginsUse_word {word after : List Char} (hw : IsWhole word) (ha : Apart after)
    {last : Option Char} (h : last.any isWord = false) :
    beginsUse name last (word ++ after) = (name == word && isUsed after) := by
  by_cases heq : name = word
  · subst heq
    have hapart : after.head?.any isWord = false := ha
    have hpre : name.isPrefixOf (name ++ after) = true :=
      List.isPrefixOf_iff_prefix.mpr (List.prefix_append _ _)
    rw [beginsUse, hpre, List.drop_left, hapart, h, beq_self_eq_true]
    rfl
  · rw [beq_eq_false_iff_ne.mpr heq, Bool.false_and, Bool.eq_false_iff]
    intro hbegins
    simp only [beginsUse, Bool.and_eq_true] at hbegins
    obtain ⟨⟨⟨-, hpre⟩, hend⟩, -⟩ := hbegins
    obtain ⟨rest, hrest⟩ := List.isPrefixOf_iff_prefix.mp hpre
    rw [← hrest, List.drop_left, Bool.not_eq_true'] at hend
    exact heq (by rw [← hn.takeWhile_append hend, hrest, hw.takeWhile_append ha])

theorem spansFrom_skip (p : Pattern) (word rest : List Char) :
    p.spansFrom word.length index before (word ++ rest) =
      p.spansFrom 0 (index + word.length) (word.reverse ++ before) rest := by
  induction word generalizing index before with
  | nil => rfl
  | cons c word ih =>
    rw [List.length_cons, List.cons_append, Pattern.spansFrom, ih, List.reverse_cons,
      List.append_assoc, List.singleton_append, Nat.add_assoc, Nat.add_comm 1]

include hn in
theorem spansFrom_kept {c : Char} {rest : List Char}
    (h : beginsUse name before.head? (c :: rest) = false) :
    (usePattern name).spansFrom 0 index before (c :: rest) =
      .kept c :: (usePattern name).spansFrom 0 (index + 1) (c :: before) rest := by
  rw [Pattern.spansFrom, fit?_usePattern hn rfl, if_neg (by simp [h])]

include hn in
theorem spansFrom_found {after : List Char}
    (h : beginsUse name before.head? (name ++ after) = true) :
    ∃ start stop, (usePattern name).spansFrom 0 index before (name ++ after) =
      .found start stop ::
        (usePattern name).spansFrom 0 (index + name.length) (name.reverse ++ before) after := by
  obtain ⟨c, cs, rfl, -⟩ := hn.exists_cons
  have hfit := fit?_usePattern hn (s := ⟨index, before, c :: cs ++ after, []⟩) rfl
  rw [if_pos h] at hfit
  have hlength : index + (cs.length + 1) - index = cs.length + 1 := Nat.add_sub_cancel_left ..
  rw [← spansFrom_skip, List.length_cons, List.cons_append, Pattern.spansFrom, Pattern.spansFrom,
    ← List.cons_append, hfit]
  dsimp only [Cursor.skip, List.length_cons]
  rw [hlength]
  exact ⟨_, _, rfl⟩

/-- What stands for a piece of a text if every fit is replaced by the same text. -/
def shown (mark : List Char) : Pattern.Span → List Char
  | .kept c => [c]
  | .found _ _ => mark

include hn in
/-- Within a word no use begins. -/
theorem shown_inside (mark : List Char) {word : List Char} (hw : ∀ c ∈ word, isWord c = true)
    (h : before.head?.any isWord = true) (rest : List Char) :
    ((usePattern name).spansFrom 0 index before (word ++ rest)).flatMap (shown mark) =
      word ++ ((usePattern name).spansFrom 0 (index + word.length) (word.reverse ++ before)
        rest).flatMap (shown mark) := by
  induction word generalizing index before with
  | nil => rfl
  | cons c word ih =>
    obtain ⟨hc, hword⟩ := List.forall_mem_cons.mp hw
    have hfirst : (c :: before).head?.any isWord = true := hc
    rw [List.cons_append, spansFrom_kept hn index (beginsUse_of_inside h _), List.flatMap_cons,
      ih (index + 1) hword hfirst, List.reverse_cons, List.append_assoc,
      List.length_cons, Nat.add_assoc, Nat.add_comm 1]
    rfl

end Spans

theorem contains_singleton (name : String) (word : List Char) :
    [name].contains (String.ofList word) = (name.toList == word) := by
  rw [Bool.eq_iff_iff, List.contains_iff_mem, List.mem_singleton, beq_iff_eq]
  constructor
  · rintro rfl
    exact String.toList_ofList
  · rintro rfl
    exact String.ofList_toList

/-- The pieces of a text with the mark in the place of each fit are the text marked word by word. No
word goes over the place from which on the pieces are told. -/
theorem shown_spansFrom {name : String} (hn : IsWhole name.toList) (text : List Char) :
    ∀ (index : Nat) (before : List Char), before.head?.any isWord = false ∨ Apart text →
      ((usePattern name.toList).spansFrom 0 index before text).flatMap
        (shown (bracketed name.toList)) = marked [name] text := by
  induction text using word_induction with
  | nil =>
    intro index before _
    rw [Pattern.spansFrom, fit?_usePattern hn rfl,
      beginsUse_of_apart hn apart_nil, marked_nil]
    rfl
  | other c rest hc ih =>
    intro index before _
    rw [spansFrom_kept hn index (beginsUse_of_apart hn (apart_cons.mpr hc) _), List.flatMap_cons,
      ih (index + 1) (c :: before) (.inl hc), marked_cons hc]
    rfl
  | word word after hw ha ih =>
    intro index before hbefore
    obtain ⟨c, cs, hcons, hc⟩ := hw.exists_cons
    have hlast : before.head?.any isWord = false := by
      refine hbefore.resolve_right fun h => ?_
      rw [hcons, List.cons_append, apart_cons, hc] at h
      cases h
    have hbegins := beginsUse_word hn hw ha hlast
    rw [marked_word hw ha, markWord, contains_singleton, ← hbegins]
    cases huse : beginsUse name.toList before.head? (word ++ after) with
    | true =>
      obtain ⟨hname, -⟩ := Bool.and_eq_true_iff.mp (hbegins.symm.trans huse)
      obtain rfl := eq_of_beq hname
      obtain ⟨start, stop, hspans⟩ := spansFrom_found hn index huse
      rw [hspans, List.flatMap_cons, ih _ _ (.inr ha)]
      rfl
    | false =>
      obtain ⟨-, hcs⟩ := List.forall_mem_cons.mp (hcons ▸ hw.all_isWord)
      have hfirst : (c :: before).head?.any isWord = true := hc
      rw [hcons, List.cons_append] at huse
      rw [hcons, List.cons_append, spansFrom_kept hn index huse, List.flatMap_cons,
        shown_inside hn (index + 1) _ hcs hfirst, ih _ _ (.inr ha)]
      rfl

theorem read_plain (e : Expression) {cs : List Char} (h : '\\' ∉ cs) :
    Replacement.read e cs.length cs = .ok (cs.map .char) := by
  induction cs with
  | nil => rfl
  | cons c cs ih =>
    obtain ⟨hc, hcs⟩ := not_or.mp (mt List.mem_cons.mpr h)
    rw [List.length_cons, Replacement.read, if_neg (Ne.symm hc), ih hcs]
    · rfl
    · intro d rest heq _
      exact hc heq.symm

theorem fill_plain (groups : Nat) (cs : List Char) (span : Pattern.Span) :
    Replacement.fill groups (cs.map .char) span = .ok (shown cs span) := by
  cases span with
  | kept c => rfl
  | found start stop =>
    have hgroup : Replacement.hasGroup (cs.map .char) = false := by simp [Replacement.hasGroup]
    rw [Replacement.fill, hgroup, Bool.false_and, if_neg Bool.false_ne_true, List.flatMap_map]
    simp [Replacement.textOf, shown]

theorem toList_markOf (name : String) : (markOf name).toList = bracketed name.toList := by
  rw [markOf, String.toList_append, String.toList_append]
  rfl

theorem ofText_markOf (e : Expression) {name : String} (hn : '\\' ∉ name.toList) :
    Replacement.ofText e (markOf name) = .ok ((bracketed name.toList).map .char) := by
  have hplain : '\\' ∉ bracketed name.toList := by simp [bracketed, hn]
  rw [Replacement.ofText, ← String.length_toList, toList_markOf, read_plain e hplain]

/-- A name without a backslash stands in its mark as it is, and the mark in the place of each
fit. -/
theorem markName_of_ofText {name : String} {e : Expression}
    (he : Expression.ofText (useOf name) = .ok e) (hn : '\\' ∉ name.toList) (text : String) :
    markName name (.str text) = .ok (String.ofList
      ((e.pattern.spans text.toList).flatMap (shown (bracketed name.toList)))) := by
  have hpieces : (e.pattern.spans text.toList).mapM
      (Replacement.fill e.groups ((bracketed name.toList).map .char)) =
        .ok ((e.pattern.spans text.toList).map (shown (bracketed name.toList))) := by
    rw [Outcome.mapM_eq_ok, List.forall₂_map_right_iff, List.forall₂_same]
    exact fun span _ => fill_plain e.groups _ span
  rw [List.flatMap_def, markName, Outcome.bind_eq_ok]
  refine ⟨_, he, Outcome.bind_eq_ok.mpr ⟨_, ofText_markOf _ hn, ?_⟩⟩
  exact Outcome.bind_eq_ok.mpr ⟨_, hpieces, rfl⟩

/-- Marking a name that is a word marks it in every text. -/
theorem markName_word {name : String} (hn : IsWhole name.toList) (text : String) :
    markName name (.str text) = .ok (String.ofList (marked [name] text.toList)) := by
  have hplain : '\\' ∉ name.toList := fun h => absurd (hn.all_isWord _ h) (by decide)
  rw [markName_of_ofText (ofText_useOf hn.all_isWord) hplain,
    ← shown_spansFrom hn text.toList 0 [] (.inl rfl)]
  rfl

end CodeAtlas.Marking
