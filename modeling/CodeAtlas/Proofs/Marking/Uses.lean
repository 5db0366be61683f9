import CodeAtlas.Marking
import Mathlib.Data.List.Basic

namespace CodeAtlas.Text

theorem isBoundary_left {before after : Option Char} (h : after.any isWord = true) :
    isBoundary isWord before after = !before.any isWord := by
  rw [isBoundary, h]
  cases before.any isWord <;> rfl

theorem isBoundary_right {before after : Option Char} (h : before.any isWord = true) :
    isBoundary isWord before after = !after.any isWord := by
  rw [isBoundary, h]
  cases after.any isWord <;> rfl

theorem hasOf_false (k : Kind) (c : Char) : k.hasOf false c = k.has c := by
  simp [Kind.hasOf]

theorem takes_single (c d : Char) : (CharSet.single .exact c).takes d = (c == d) := by
  simp only [CharSet.takes, CharSet.single, Likeness.kin, List.any_cons, List.any_nil,
    Bool.or_false, Member.has]
  rw [beq_true, Bool.eq_iff_iff, Bool.and_eq_true, decide_eq_true_eq, decide_eq_true_eq,
    beq_iff_eq]
  constructor
  · exact fun h => Char.le_antisymm h.1 h.2
  · rintro rfl
    exact ⟨Char.le_refl c, Char.le_refl c⟩

def CharSet.blanks : CharSet :=
  ⟨[.kind .blank false true], true, .exact⟩

theorem takes_blanks (c : Char) : CharSet.blanks.takes c = isBlank c := by
  simp [CharSet.blanks, CharSet.takes, Likeness.kin, Member.has, hasOf_false, Kind.has]

namespace Cursor

def skip (cs : List Char) (s : Cursor) : Cursor :=
  { s with
    index := s.index + cs.length, before := cs.reverse ++ s.before, rest := s.rest.drop cs.length }

end Cursor

namespace Pattern

theorem run_all_cons {p : Pattern} {ps : List Pattern} (hps : ps ≠ []) (looped : Bool) (k : Onward)
    (s : Cursor) : run (all (p :: ps)) looped k s = run p looped (run (all ps) looped k) s := by
  cases ps with
  | nil => exact absurd rfl hps
  | cons q ps => rfl

/-- The characters of a text, one after the other. -/
def ofChars (cs : List Char) : List Pattern :=
  cs.map fun c => .one (.single .exact c)

theorem run_ofChars (cs : List Char) {ps : List Pattern} (hps : ps ≠ []) (looped : Bool)
    (k : Onward) (s : Cursor) : run (all (ofChars cs ++ ps)) looped k s =
      if cs.isPrefixOf s.rest then run (all ps) looped k (s.skip cs) else .error s.marks := by
  induction cs generalizing s with
  | nil => simp [ofChars, Cursor.skip]
  | cons c cs ih =>
    have hne : ofChars cs ++ ps ≠ [] := by simp [hps]
    rw [ofChars, List.map_cons, List.cons_append, ← ofChars, run_all_cons hne, run, Cursor.next?]
    rcases hrest : s.rest with _ | ⟨d, rest⟩
    · simp
    · simp only [takes_single, List.isPrefixOf, Bool.and_eq_true]
      by_cases hc : (c == d) = true
      · obtain rfl := eq_of_beq hc
        have hskip : (s.pass c rest).skip cs = s.skip (c :: cs) := by
          simp [Cursor.skip, Cursor.pass, hrest, Nat.add_comm, Nat.add_left_comm]
        simp only [if_true, ih, hskip, beq_self_eq_true, true_and]
        rfl
      · simp [hc]

end Pattern
end CodeAtlas.Text

namespace CodeAtlas.Marking
open Text Text.Expression

def wordEdge : Pattern :=
  .anchor (.boundary false true)

def sign (c : Char) : Pattern :=
  .seq (.times (.one .blanks) ⟨0, none, .mostFirst⟩) (.one (.single .exact c))

def signs : Pattern :=
  .either (sign '(') (.either (sign '.') (sign ':'))

def usePattern (name : List Char) : Pattern :=
  .all (wordEdge :: (Pattern.ofChars name ++ [wordEdge, .look 0 true signs]))

structure IsWhole (word : List Char) : Prop where
  ne_nil : word ≠ []
  all_isWord : ∀ c ∈ word, isWord c = true

/-- What has been read of an expression in which no group is open. -/
def reading (pieces : List Piece) : Reading :=
  { inner := { opening := .whole, pieces } }

theorem read_cons {r r' : Reading} {c : Char} {rest rest' : List Char}
    (h : r.step c rest = .ok (r', rest')) (left : Nat) :
    Reading.read (left + 1) r (c :: rest) = Reading.read left r' rest' := by
  rw [Reading.read, h]
  rfl

def isOwn (c : Char) : Bool :=
  !(['\\', '[', '(', ')', '\x7b', '|', '^', '$', '.', '?', '*', '+'].contains c)

theorem isOwn_of_isWord {c : Char} (h : isWord c = true) : isOwn c = true := by
  rw [isOwn, Bool.not_eq_true', List.contains_eq_mem, decide_eq_false_iff_not]
  intro hmem
  simp only [List.mem_cons, List.not_mem_nil, or_false] at hmem
  rcases hmem with rfl | rfl | rfl | rfl | rfl | rfl | rfl | rfl | rfl | rfl | rfl | rfl <;>
    exact absurd h (by decide)

theorem count?_of_isOwn {c : Char} (h : isOwn c = true) (rest : List Char) :
    count? (c :: rest) = none := by
  unfold count?
  split
  case h_5 => rfl
  all_goals
    rename_i heq
    obtain ⟨rfl, rfl⟩ := List.cons.inj heq
    exact absurd h (by decide)

/-- A character that stands for itself is read as the part that takes it. -/
theorem step_of_isOwn {c : Char} (h : isOwn c = true) (pieces : List Piece) (rest : List Char) :
    (reading pieces).step c rest =
      .ok (reading (⟨.one (.single .exact c), true⟩ :: pieces), rest) := by
  unfold Reading.step
  split
  case h_9 =>
    rw [count?_of_isOwn h]
    rfl
  all_goals exact absurd h (by decide)

theorem read_word {cs : List Char} (h : ∀ c ∈ cs, isWord c = true) (left : Nat)
    (pieces : List Piece) (rest : List Char) :
    Reading.read (cs.length + left) (reading pieces) (cs ++ rest) =
      Reading.read left (reading
        ((cs.map fun c => ⟨.one (.single .exact c), true⟩).reverse ++ pieces)) rest := by
  induction cs generalizing pieces with
  | nil => simp
  | cons c cs ih =>
    obtain ⟨hc, hcs⟩ := List.forall_mem_cons.mp h
    rw [List.length_cons, Nat.add_right_comm, List.cons_append,
      read_cons (step_of_isOwn (isOwn_of_isWord hc) _ _), ih hcs, List.map_cons, List.reverse_cons,
      List.append_assoc, List.singleton_append]

def useEnd : List Char :=
  "\\b(?=\\s*\\(|\\s*\\.|\\s*:)".toList

theorem read_useEnd (extra : Nat) (pieces : List Piece) :
    Reading.read (extra + (useEnd.length + 1)) (reading pieces) useEnd =
      .ok ⟨(reading (⟨.look 0 true signs, true⟩ :: ⟨wordEdge, false⟩ :: pieces)).inner.pattern, 0,
        []⟩ :=
  rfl

theorem pattern_of_others_nil {f : Frame} (h : f.others = []) : f.pattern = f.last := by
  unfold Frame.pattern
  rw [h]
  dsimp only
  split
  · rename_i heq
    cases heq
  · rfl

theorem toList_useOf (name : String) :
    (useOf name).toList = '\\' :: 'b' :: (name.toList ++ useEnd) := by
  rw [useOf, String.toList_append, String.toList_append, List.append_assoc]
  rfl

theorem length_useOf (name : String) :
    (useOf name).length = name.toList.length + (useEnd.length + 1) + 1 := by
  rw [← String.length_toList, toList_useOf, List.length_cons, List.length_cons, List.length_append]
  rfl

theorem ofText_useOf_eq_read (name : String) : Expression.ofText (useOf name) =
    Reading.read (useEnd.length + 1 + name.toList.length) (reading [⟨wordEdge, false⟩])
      (name.toList ++ useEnd) := by
  have hempty : ({} : Reading) = reading [] := rfl
  have hstart : ∀ rest, (reading []).step '\\' ('b' :: rest) =
      .ok (reading [⟨wordEdge, false⟩], rest) := fun _ => rfl
  rw [Expression.ofText, hempty, length_useOf, toList_useOf, read_cons (hstart _),
    Nat.add_comm name.toList.length]

theorem ofText_useOf {name : String} (h : ∀ c ∈ name.toList, isWord c = true) :
    Expression.ofText (useOf name) = .ok ⟨usePattern name.toList, 0, []⟩ := by
  rw [ofText_useOf_eq_read, Nat.add_comm, read_word h, ← Nat.zero_add (useEnd.length + 1),
    read_useEnd, pattern_of_others_nil rfl]
  simp [Frame.last, reading, usePattern, Pattern.ofChars, Function.comp_def]

/-- Whether the pattern fits at a place hangs on the text behind the place alone, and no marks are
left. -/
structure Foresees (p : Pattern) (test : List Char → Bool) : Prop where
  fits : ∀ (looped : Bool) {s : Cursor}, s.marks = [] → test s.rest = true →
    ∃ t, p.run looped .ok s = .ok t ∧ t.marks = []
  fails : ∀ (looped : Bool) {s : Cursor}, s.marks = [] → test s.rest = false →
    p.run looped .ok s = .error []

theorem after_nil (looped : Bool) (left : Marks) : Marks.after looped [] left = [] := by
  cases looped <;> rfl

theorem again_of_marks_nil {s : Cursor} (h : s.marks = []) (looped : Bool) (left : Marks) :
    s.again looped left = s := by
  obtain ⟨index, before, rest, marks⟩ := s
  obtain rfl : marks = [] := h
  rw [Cursor.again, after_nil]

theorem Foresees.either {p q : Pattern} {test test' : List Char → Bool} (hp : Foresees p test)
    (hq : Foresees q test') : Foresees (.either p q) fun rest => test rest || test' rest where
  fits looped s hs h := by
    rw [Pattern.run]
    cases ht : test s.rest with
    | true =>
      obtain ⟨t, hrun, hmarks⟩ := hp.fits looped hs ht
      exact ⟨t, by rw [hrun], hmarks⟩
    | false =>
      obtain ⟨t, hrun, hmarks⟩ := hq.fits looped hs (by simpa [ht] using h)
      refine ⟨t, ?_, hmarks⟩
      simp only [hp.fails looped hs ht, again_of_marks_nil hs, hrun]
  fails looped s hs h := by
    obtain ⟨ht, ht'⟩ := Bool.or_eq_false_iff.mp h
    simp only [Pattern.run, hp.fails looped hs ht, again_of_marks_nil hs,
      hq.fails looped hs ht', hs, after_nil]

theorem Foresees.run_look {p : Pattern} {test : List Char → Bool} (hp : Foresees p test)
    {looped : Bool} {k : Onward} {s : Cursor} (hs : s.marks = []) :
    Pattern.run (.look 0 true p) looped k s = if test s.rest then k s else .error [] := by
  rw [Pattern.run, Cursor.back?]
  dsimp only
  cases ht : test s.rest with
  | true =>
    obtain ⟨t, hrun, hmarks⟩ := hp.fits looped hs ht
    simp only [hrun, hmarks, ← hs, if_true]
  | false => simp [hp.fails looped hs ht]

/-- The last place along white space is behind all of it. -/
theorem along_blanks (rest : List Char) : ∀ s : Cursor, s.rest = rest → s.marks = [] →
    ∃ others last, s.along .blanks none rest = others ++ [last] ∧ last.marks = [] ∧
      last.rest = rest.dropWhile isBlank ∧
      ∀ t ∈ others, t.marks = [] ∧ ∃ b r, t.rest = b :: r ∧ isBlank b = true := by
  induction rest with
  | nil => exact fun s hs hmarks => ⟨[], s, rfl, hmarks, hs, by simp⟩
  | cons c rest ih =>
    intro s hs hmarks
    cases hc : isBlank c with
    | true =>
      obtain ⟨others, last, halong, hlast, hrest, hothers⟩ := ih (s.pass c rest) rfl hmarks
      refine ⟨s :: others, last, ?_, hlast, ?_, ?_⟩
      · rw [Cursor.along, takes_blanks, hc, Option.map_none, halong]
        rfl
      · rw [hrest, List.dropWhile_cons, if_pos hc]
      · exact List.forall_mem_cons.mpr ⟨⟨hmarks, c, rest, hs, hc⟩, hothers⟩
    | false =>
      refine ⟨[], s, ?_, hmarks, ?_, by simp⟩
      · rw [Cursor.along, takes_blanks, hc]
        rfl
      · rw [hs, List.dropWhile_cons, if_neg (by simp [hc])]

theorem tryEach_eq_error {k : Onward} {places : List Cursor}
    (h : ∀ t ∈ places, k { t with marks := [] } = .error []) (looped : Bool) :
    Pattern.tryEach looped k [] places = .error [] := by
  induction places with
  | nil => rfl
  | cons t places ih =>
    obtain ⟨ht, hplaces⟩ := List.forall_mem_cons.mp h
    rw [Pattern.tryEach, ht]
    dsimp only
    rw [after_nil, ih hplaces]

theorem run_char_of_ne {c : Char} {s : Cursor} (h : s.rest.head? ≠ some c) (looped : Bool) :
    Pattern.run (.one (.single .exact c)) looped .ok s = .error s.marks := by
  rw [Pattern.run, Cursor.next?]
  rcases hrest : s.rest with _ | ⟨d, rest⟩
  · rfl
  · have hne : (c == d) = false := by
      rw [beq_eq_false_iff_ne]
      rintro rfl
      exact h (by rw [hrest]; rfl)
    simp [takes_single, hne]

theorem foresees_sign {c : Char} (hc : isBlank c = false) :
    Foresees (sign c) fun rest => (rest.dropWhile isBlank).head? == some c := by
  have hrun : ∀ looped s, (sign c).run looped .ok s = Pattern.tryEach looped
      (Pattern.run (.one (.single .exact c)) looped .ok) s.marks
        (s.along .blanks none s.rest).reverse := fun _ _ => rfl
  constructor
  · intro looped s hs h
    obtain ⟨others, last, halong, hlast, hrest, -⟩ := along_blanks s.rest s rfl hs
    have hhead : last.rest.head? = some c := by
      rw [hrest]
      exact eq_of_beq h
    obtain ⟨index, before, rest, marks⟩ := last
    obtain rfl : marks = [] := hlast
    obtain ⟨r, rfl⟩ : ∃ r, rest = c :: r := List.head?_eq_some_iff.mp hhead
    refine ⟨⟨index + 1, c :: before, r, []⟩, ?_, rfl⟩
    rw [hrun, halong, hs, List.reverse_concat, Pattern.tryEach]
    simp [Pattern.run, Cursor.next?, Cursor.pass, takes_single]
  · intro looped s hs h
    obtain ⟨others, last, halong, hlast, hrest, hothers⟩ := along_blanks s.rest s rfl hs
    rw [hrun, halong, hs, List.reverse_concat]
    refine tryEach_eq_error (List.forall_mem_cons.mpr ⟨?_, fun t ht => ?_⟩) looped
    · exact run_char_of_ne (by simpa [hrest] using h) looped
    · obtain ⟨-, b, r, hr, hb⟩ := hothers t (List.mem_reverse.mp ht)
      refine run_char_of_ne ?_ looped
      intro heq
      obtain rfl : b = c := by simpa [hr] using heq
      rw [hb] at hc
      cases hc

/-- Does a sign of use come next, after white space or none? -/
def isUsed (rest : List Char) : Bool :=
  (rest.dropWhile isBlank).head?.any fun c => c == '(' || c == '.' || c == ':'

theorem foresees_signs : Foresees signs isUsed := by
  have heither := (foresees_sign (c := '(') (by decide)).either
    ((foresees_sign (c := '.') (by decide)).either (foresees_sign (c := ':') (by decide)))
  have htest : isUsed = fun rest => (rest.dropWhile isBlank).head? == some '(' ||
      ((rest.dropWhile isBlank).head? == some '.' ||
        (rest.dropWhile isBlank).head? == some ':') := by
    funext rest
    rw [isUsed]
    cases (rest.dropWhile isBlank).head? <;> simp [Bool.or_assoc]
  rw [htest]
  exact heither

def beginsUse (name : List Char) (before : Option Char) (rest : List Char) : Bool :=
  !before.any isWord && name.isPrefixOf rest && !(rest.drop name.length).head?.any isWord &&
    isUsed (rest.drop name.length)

theorem run_wordEdge (looped : Bool) (k : Onward) (s : Cursor) : wordEdge.run looped k s =
    if isBoundary isWord s.before.head? s.rest.head? then k s else .error s.marks := by
  have hword : Kind.word.hasOf false = isWord := funext fun c => by rw [hasOf_false, Kind.has]
  simp [wordEdge, Pattern.run, Anchor.holds, hword]

theorem fit?_false (p : Pattern) (s : Cursor) : p.fit? false s = (p.run false .ok s).toOption :=
  rfl

/-- The expression fits the uses of the name, and nothing else. -/
theorem fit?_usePattern {name : List Char} (hn : IsWhole name) {s : Cursor} (hs : s.marks = []) :
    (usePattern name).fit? false s =
      if beginsUse name s.before.head? s.rest then some (s.skip name) else none := by
  rw [fit?_false, usePattern, Pattern.run_all_cons (by simp), run_wordEdge,
    Pattern.run_ofChars name (by simp), Pattern.run_all_cons (by simp), run_wordEdge, beginsUse]
  cases hpre : name.isPrefixOf s.rest with
  | false =>
    split <;> simp [Except.toOption]
  | true =>
    have hne := hn.ne_nil
    have hfirst : s.rest.head?.any isWord = true := by
      obtain ⟨rest, hrest⟩ := List.isPrefixOf_iff_prefix.mp hpre
      rw [← hrest, List.head?_append_of_ne_nil _ hne, List.head?_eq_some_head hne]
      exact hn.all_isWord _ (List.head_mem hne)
    have hlast : (s.skip name).before.head?.any isWord = true := by
      rw [Cursor.skip, List.head?_append_of_ne_nil _ (by simpa using hne), List.head?_reverse,
        List.getLast?_eq_some_getLast hne]
      exact hn.all_isWord _ (List.getLast_mem hne)
    have hlook : Pattern.run (.all [.look 0 true signs]) false .ok (s.skip name) =
        if isUsed (s.rest.drop name.length) then .ok (s.skip name) else .error [] :=
      foresees_signs.run_look hs
    have hafter : (s.skip name).rest = s.rest.drop name.length := rfl
    rw [isBoundary_left hfirst, isBoundary_right hlast, hlook, hafter]
    cases s.before.head?.any isWord <;> cases (s.rest.drop name.length).head?.any isWord <;>
      cases isUsed (s.rest.drop name.length) <;> rfl

end CodeAtlas.Marking
