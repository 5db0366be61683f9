import CodeAtlas.Proofs.Marking.Names

namespace CodeAtlas.Marking
open Text Text.Expression

/-- The parts of a name take a text one after the other, where another text follows it. -/
inductive Takes : List Item → List Char → List Char → Prop where
  | nil (after : List Char) : Takes [] [] after
  | once {slot : Slot} {items : List Item} {c : Char} {taken after : List Char}
      (first : slot.set.takes c = true) (others : Takes items taken after) :
      Takes (.once slot :: items) (c :: taken) after
  | counted {slot : Slot} {sign : Sign} {lazily : Bool} {items : List Item}
      {cs taken after : List Char} (first : ∀ c ∈ cs, slot.set.takes c = true)
      (least : sign.least ≤ cs.length) (most : ∀ n, sign.most = some n → cs.length ≤ n)
      (others : Takes items taken after) :
      Takes (.counted slot sign lazily :: items) (cs ++ taken) after
  | ending {items : List Item} {taken after : List Char}
      (last : taken ++ after = [] ∨ taken ++ after = ['\n']) (others : Takes items taken after) :
      Takes (.ending :: items) taken after

section Skip
variable {s : Cursor}

@[simp] theorem skip_nil (s : Cursor) : s.skip [] = s := by
  simp [Cursor.skip]

theorem skip_append (cs ds : List Char) (s : Cursor) : (s.skip cs).skip ds = s.skip (cs ++ ds) := by
  simp [Cursor.skip, Nat.add_assoc]

theorem pass_eq_skip {c : Char} {rest : List Char} (h : s.rest = c :: rest) :
    s.pass c rest = s.skip [c] := by
  simp [Cursor.pass, Cursor.skip, h]

theorem rest_skip (cs : List Char) {after : List Char} (h : s.rest = cs ++ after) :
    (s.skip cs).rest = after := by
  simp [Cursor.skip, h]

/-- A text begins with characters of a set, so many as a count allows. -/
def Begins (set : CharSet) (least : Nat) (most : Option Nat) (rest cs : List Char) : Prop :=
  cs <+: rest ∧ (∀ c ∈ cs, set.takes c = true) ∧ least ≤ cs.length ∧
    ∀ n, most = some n → cs.length ≤ n

theorem begins_nil {set : CharSet} {least : Nat} {most : Option Nat} {rest : List Char} :
    Begins set least most rest [] ↔ least = 0 := by
  simp [Begins]

theorem begins_cons {set : CharSet} {least : Nat} {most : Option Nat} {c d : Char}
    {rest cs : List Char} : Begins set least most (d :: rest) (c :: cs) ↔
      c = d ∧ set.takes c = true ∧ most ≠ some 0 ∧
        Begins set (least - 1) (most.map (· - 1)) rest cs := by
  have hmost : (∀ n, most = some n → cs.length + 1 ≤ n) ↔
      most ≠ some 0 ∧ ∀ n, most.map (· - 1) = some n → cs.length ≤ n := by
    cases most with
    | none => simp
    | some m =>
      simp only [Option.some.injEq, forall_eq', Option.map_some, ne_eq]
      omega
  simp only [Begins, List.cons_prefix_cons, List.forall_mem_cons, List.length_cons, hmost,
    Nat.sub_le_iff_le_add]
  tauto

theorem mem_drop_cons {α : Type} {a b : α} {as : List α} {n : Nat} :
    a ∈ (b :: as).drop n ↔ n = 0 ∧ a = b ∨ a ∈ as.drop (n - 1) := by
  cases n <;> simp

/-- The places along the characters of a set, from a number of characters on. -/
theorem mem_drop_along {set : CharSet} {t : Cursor} (rest : List Char) :
    ∀ (s : Cursor) (most : Option Nat) (least : Nat), s.rest = rest →
      (t ∈ (s.along set most rest).drop least ↔
        ∃ cs, Begins set least most rest cs ∧ t = s.skip cs) := by
  induction rest with
  | nil =>
    intro s most least _
    rw [Cursor.along, mem_drop_cons, List.drop_nil]
    constructor
    · rintro (⟨hleast, rfl⟩ | hmem)
      · exact ⟨[], begins_nil.mpr hleast, (skip_nil t).symm⟩
      · simp at hmem
    · rintro ⟨cs, hbegins, rfl⟩
      obtain rfl := List.prefix_nil.mp hbegins.1
      exact .inl ⟨begins_nil.mp hbegins, skip_nil s⟩
  | cons d rest ih =>
    intro s most least hs
    have hpass := ih (s.pass d rest) (most.map (· - 1)) (least - 1) rfl
    have hskip : ∀ cs, s.skip (d :: cs) = (s.pass d rest).skip cs := by
      intro cs
      rw [pass_eq_skip hs, skip_append]
      rfl
    rw [Cursor.along]
    constructor
    · intro hmem
      split at hmem
      · rename_i htest
        simp only [Bool.and_eq_true, bne_iff_ne] at htest
        rcases mem_drop_cons.mp hmem with ⟨hleast, rfl⟩ | hmem
        · exact ⟨[], begins_nil.mpr hleast, (skip_nil t).symm⟩
        · obtain ⟨cs, hbegins, rfl⟩ := hpass.mp hmem
          exact ⟨d :: cs, begins_cons.mpr ⟨rfl, htest.2, htest.1, hbegins⟩, (hskip cs).symm⟩
      · rcases mem_drop_cons.mp hmem with ⟨hleast, rfl⟩ | hmem
        · exact ⟨[], begins_nil.mpr hleast, (skip_nil t).symm⟩
        · simp at hmem
    · rintro ⟨cs, hbegins, rfl⟩
      cases cs with
      | nil =>
        have hleast := begins_nil.mp hbegins
        split <;> exact mem_drop_cons.mpr (.inl ⟨hleast, skip_nil s⟩)
      | cons c cs =>
        obtain ⟨rfl, htakes, hmost, hbegins⟩ := begins_cons.mp hbegins
        rw [if_pos (by simp [htakes, hmost])]
        exact mem_drop_cons.mpr (.inr (hpass.mpr ⟨cs, hbegins, hskip cs⟩))

end Skip

section Tries
variable {k : Onward} {looped : Bool} {places : List Cursor}

theorem exists_of_tryEach {t : Cursor} (h : Pattern.tryEach looped k [] places = .ok t) :
    ∃ s ∈ places, k { s with marks := [] } = .ok t := by
  induction places with
  | nil => simp [Pattern.tryEach] at h
  | cons s places ih =>
    rw [Pattern.tryEach] at h
    split at h
    · rename_i hk
      rw [← h]
      exact ⟨s, by simp, hk⟩
    · rw [after_nil] at h
      obtain ⟨s', hs', hk⟩ := ih h
      exact ⟨s', by simp [hs'], hk⟩

theorem exists_tryEach {s t : Cursor} (hs : s ∈ places) (h : k { s with marks := [] } = .ok t) :
    ∃ t', Pattern.tryEach looped k [] places = .ok t' := by
  induction places with
  | nil => simp at hs
  | cons s' places ih =>
    rw [Pattern.tryEach]
    split
    · exact ⟨_, rfl⟩
    · rename_i hfailed
      rw [after_nil]
      rcases List.mem_cons.mp hs with rfl | hs
      · simp [h] at hfailed
      · exact ih hs

variable {set : CharSet} {sign : Sign} {lazily : Bool} {s : Cursor} (hs : s.marks = [])

include hs in
/-- A part that is counted takes characters of its set, and the rest goes on behind them. -/
theorem begins_of_countedOf {t : Cursor}
    (h : Pattern.countedOf set looped (sign.count lazily) k s = .ok t) :
    ∃ cs, Begins set sign.least sign.most s.rest cs ∧ k (s.skip cs) = .ok t := by
  have htry : ∃ s' ∈ (s.along set sign.most s.rest).drop sign.least,
      k { s' with marks := [] } = .ok t := by
    unfold Pattern.countedOf at h
    rw [hs] at h
    cases lazily with
    | false =>
      obtain ⟨s', hs', hk⟩ := exists_of_tryEach h
      exact ⟨s', List.mem_reverse.mp hs', hk⟩
    | true => exact exists_of_tryEach h
  obtain ⟨s', hmem, hk⟩ := htry
  obtain ⟨cs, hbegins, rfl⟩ := (mem_drop_along s.rest s _ _ rfl).mp hmem
  refine ⟨cs, hbegins, ?_⟩
  rwa [← hs] at hk

include hs in
theorem exists_countedOf {t : Cursor} {cs : List Char}
    (hbegins : Begins set sign.least sign.most s.rest cs) (h : k (s.skip cs) = .ok t) :
    ∃ t', Pattern.countedOf set looped (sign.count lazily) k s = .ok t' := by
  have hmem := (mem_drop_along s.rest s _ _ rfl).mpr ⟨cs, hbegins, rfl⟩
  have hk : k { s.skip cs with marks := [] } = .ok t := by
    rw [← hs]
    exact h
  unfold Pattern.countedOf
  rw [hs]
  cases lazily with
  | false => exact exists_tryEach (List.mem_reverse.mpr hmem) hk
  | true => exact exists_tryEach hmem hk

end Tries

section Run
variable {items : List Item} {ps : List Pattern} (hps : ps ≠ []) {looped : Bool} {k : Onward}

include hps in
/-- Where the patterns of the parts fit, the parts take what is fitted. -/
theorem takes_of_run {s t : Cursor} (hs : s.marks = [])
    (h : Pattern.run (.all (items.map (·.piece.pattern) ++ ps)) looped k s = .ok t) :
    ∃ taken after, s.rest = taken ++ after ∧ Takes items taken after ∧
      Pattern.run (.all ps) looped k (s.skip taken) = .ok t := by
  induction items generalizing s with
  | nil => exact ⟨[], s.rest, rfl, .nil _, by simpa using h⟩
  | cons item items ih =>
    have hne : items.map (·.piece.pattern) ++ ps ≠ [] := by simp [hps]
    rw [List.map_cons, List.cons_append, Pattern.run_all_cons hne] at h
    cases item with
    | once slot =>
      rcases hrest : s.rest with _ | ⟨c, rest⟩
      · simp [Item.piece, Pattern.run, Cursor.next?, hrest] at h
      · simp only [Item.piece, Pattern.run, Cursor.next?, hrest] at h
        split at h
        · rename_i hc
          rw [pass_eq_skip hrest] at h
          obtain ⟨taken, after, hafter, htakes, hlast⟩ := ih (s := s.skip [c]) hs h
          rw [rest_skip [c] hrest] at hafter
          refine ⟨c :: taken, after, by rw [hafter, List.cons_append], .once hc htakes, ?_⟩
          rwa [skip_append] at hlast
        · simp at h
    | counted slot sign lazily =>
      obtain ⟨cs, ⟨⟨rest, hrest⟩, hcs, hleast, hmost⟩, hrun⟩ := begins_of_countedOf hs h
      obtain ⟨taken, after, hafter, htakes, hlast⟩ := ih (s := s.skip cs) hs hrun
      rw [rest_skip cs hrest.symm] at hafter
      refine ⟨cs ++ taken, after, ?_, .counted hcs hleast hmost htakes, ?_⟩
      · rw [← hrest, hafter, List.append_assoc]
      · rwa [← skip_append]
    | ending =>
      simp only [Item.piece, Pattern.run] at h
      split at h
      · rename_i hlast
        obtain ⟨taken, after, hafter, htakes, hrun⟩ := ih hs h
        refine ⟨taken, after, hafter, .ending ?_ htakes, hrun⟩
        rw [← hafter]
        simpa [Anchor.holds] using hlast
      · simp at h

include hps in
/-- What the parts take is fitted, or else something that is tried before it. -/
theorem exists_run_of_takes {s t : Cursor} {taken after : List Char} (hs : s.marks = [])
    (hrest : s.rest = taken ++ after) (htakes : Takes items taken after)
    (h : Pattern.run (.all ps) looped k (s.skip taken) = .ok t) :
    ∃ t', Pattern.run (.all (items.map (·.piece.pattern) ++ ps)) looped k s = .ok t' := by
  have hne : ∀ items : List Item, items.map (·.piece.pattern) ++ ps ≠ [] := by simp [hps]
  induction htakes generalizing s with
  | nil after => exact ⟨t, by simpa using h⟩
  | @once slot items c taken after first others ih =>
    rw [List.map_cons, List.cons_append, Pattern.run_all_cons (hne items)]
    rw [List.cons_append] at hrest
    have hnext := ih (s := s.skip [c]) hs (rest_skip [c] hrest) (by rwa [skip_append])
    simp only [Item.piece, Pattern.run, Cursor.next?, hrest, first, if_true]
    rwa [pass_eq_skip hrest]
  | @counted slot sign lazily items cs taken after first least most others ih =>
    rw [List.map_cons, List.cons_append, Pattern.run_all_cons (hne items)]
    rw [List.append_assoc] at hrest
    obtain ⟨t', hnext⟩ := ih (s := s.skip cs) hs (rest_skip cs hrest) (by rwa [skip_append])
    exact exists_countedOf hs ⟨⟨_, hrest.symm⟩, first, least, most⟩ hnext
  | @ending items taken after last others ih =>
    rw [List.map_cons, List.cons_append, Pattern.run_all_cons (hne items)]
    have hholds : Anchor.holds s.before.head? s.rest .lastEnd = true := by
      rw [hrest]
      simpa [Anchor.holds] using last
    simp only [Item.piece, Pattern.run, hholds, if_true]
    exact ih hs hrest h

end Run

/-- A use of a name that is made of some parts: a piece of a text that the parts take, between edges
of words and with a sign of use behind it. The text before the piece stands in reverse. -/
structure IsUse (items : List Item) (before taken after : List Char) : Prop where
  takes : Takes items taken after
  starts : isBoundary isWord before.head? (taken ++ after).head? = true
  stops : isBoundary isWord (taken.reverse ++ before).head? after.head? = true
  used : isUsed after = true

theorem run_lastParts {k : Onward} {s : Cursor} (hs : s.marks = []) :
    Pattern.run (.all [wordEdge, .look 0 true signs]) false k s =
      if isBoundary isWord s.before.head? s.rest.head? && isUsed s.rest then k s
      else .error [] := by
  rw [Pattern.run_all_cons (by simp), run_wordEdge]
  have hlook : Pattern.run (.all [.look 0 true signs]) false k s =
      if isUsed s.rest then k s else .error [] := foresees_signs.run_look hs
  rw [hlook, hs]
  cases isBoundary isWord s.before.head? s.rest.head? <;> cases isUsed s.rest <;> rfl

theorem run_patternOf (items : List Item) (k : Onward) (s : Cursor) :
    (patternOf items).run false k s = if isBoundary isWord s.before.head? s.rest.head? then
      Pattern.run (.all (items.map (·.piece.pattern) ++ [wordEdge, .look 0 true signs])) false k s
      else .error s.marks := by
  rw [patternOf, Pattern.run_all_cons (by simp), run_wordEdge]

/-- What the expression fits is a use of the name. -/
theorem isUse_of_fit? {items : List Item} {advance : Bool} {s t : Cursor} (hs : s.marks = [])
    (h : (patternOf items).fit? advance s = some t) :
    ∃ taken after, s.rest = taken ++ after ∧ IsUse items s.before taken after ∧
      t = s.skip taken ∧ (advance = true → taken ≠ []) := by
  have hrun := Outcome.eq_ok_of_toOption h
  rw [run_patternOf] at hrun
  split at hrun
  · rename_i hstarts
    obtain ⟨taken, after, hrest, htakes, hlast⟩ := takes_of_run (by simp) hs hrun
    rw [run_lastParts (s := s.skip taken) hs, rest_skip taken hrest] at hlast
    split at hlast
    · rename_i hstops
      obtain ⟨hstops, hused⟩ := Bool.and_eq_true_iff.mp hstops
      rw [hrest] at hstarts
      refine ⟨taken, after, hrest, ⟨htakes, hstarts, hstops, hused⟩, ?_⟩
      split at hlast
      · simp at hlast
      · rename_i hadvance
        refine ⟨(Except.ok.inj hlast).symm, ?_⟩
        rintro rfl rfl
        simp at hadvance
    · simp at hlast
  · simp at hrun

/-- At a use of the name the expression fits. -/
theorem exists_fit?_of_isUse {items : List Item} {s : Cursor} (hs : s.marks = [])
    {taken after : List Char} (hrest : s.rest = taken ++ after)
    (h : IsUse items s.before taken after) : ∃ t, (patternOf items).fit? false s = some t := by
  have hlast : Pattern.run (.all [wordEdge, .look 0 true signs]) false .ok (s.skip taken) =
      .ok (s.skip taken) := by
    have hstops : isBoundary isWord (s.skip taken).before.head? after.head? = true := h.stops
    rw [run_lastParts (s := s.skip taken) hs, rest_skip taken hrest, hstops, h.used]
    rfl
  obtain ⟨t, hrun⟩ := exists_run_of_takes (by simp) hs hrest h.takes hlast
  refine ⟨t, ?_⟩
  rw [fit?_false, run_patternOf, hrest, if_pos h.starts, hrun]
  rfl

/-- May the parts of a name end behind a word character? It counts whether they begin behind one if
they take nothing. -/
def mayEnd : Bool → List Item → Bool
  | word, [] => word
  | _, .once slot :: items => mayEnd slot.isWordly items
  | word, .counted slot sign _ :: items =>
    sign.least == 0 && mayEnd word items || mayEnd slot.isWordly items
  | _, .ending :: _ => false

theorem mayEnd_true {word : Bool} {items : List Item} (h : mayEnd word items = true) :
    mayEnd true items = true := by
  induction items generalizing word with
  | nil => rfl
  | cons item items ih =>
    cases item with
    | once slot => exact h
    | counted slot sign lazily =>
      simp only [mayEnd, Bool.or_eq_true, Bool.and_eq_true] at h ⊢
      exact h.imp_left (And.imp_right ih)
    | ending => exact h

/-- Behind a character that a slot takes the parts may end as they may behind the slot. -/
theorem mayEnd_isWordly {slot : Slot} {c : Char} {items : List Item}
    (htakes : slot.set.takes c = true) (h : mayEnd (isWord c) items = true) :
    mayEnd slot.isWordly items = true := by
  cases hslot : slot.isWordly with
  | true => exact mayEnd_true h
  | false =>
    have hc : isWord c = false := by
      rw [Bool.eq_false_iff]
      intro hc
      simp [Slot.isWordly_of_takes htakes hc] at hslot
    rwa [hc] at h

theorem not_isWord_of_isUsed {after : List Char} (h : isUsed after = true) :
    after.head?.any isWord = false := by
  cases after with
  | nil => rfl
  | cons c rest =>
    rw [List.head?_cons, Option.any_some, Bool.eq_false_iff]
    intro hc
    have hword : IsWhole [c] := ⟨by simp, by simpa using hc⟩
    have hnot := hword.isUsed_append rest
    rw [List.singleton_append, h] at hnot
    cases hnot

/-- Is the last of some characters a word character? If there is none, it counts what stands before
them. -/
def lastIsWord (word : Bool) (cs : List Char) : Bool :=
  cs.foldl (fun _ c => isWord c) word

theorem lastIsWord_concat (word : Bool) (cs : List Char) (c : Char) :
    lastIsWord word (cs ++ [c]) = isWord c := by
  simp [lastIsWord]

theorem head?_reverse_append (taken before : List Char) :
    (taken.reverse ++ before).head?.any isWord = lastIsWord (before.head?.any isWord) taken := by
  rcases List.eq_nil_or_concat' taken with rfl | ⟨taken, c, rfl⟩
  · rfl
  · simp [lastIsWord_concat]

/-- Where the parts end behind a word character, they may. The dollar sign is never followed by a
sign of use. -/
theorem mayEnd_of_takes {items : List Item} {taken after : List Char} {word : Bool}
    (htakes : Takes items taken after) (hused : isUsed after = true)
    (h : lastIsWord word taken = true) : mayEnd word items = true := by
  induction htakes generalizing word with
  | nil => exact h
  | @once slot items c taken after first others ih => exact mayEnd_isWordly first (ih hused h)
  | @counted slot sign lazily items cs taken after first least most others ih =>
    rw [lastIsWord, List.foldl_append] at h
    have hrest := ih hused h
    rw [mayEnd, Bool.or_eq_true, Bool.and_eq_true]
    rcases List.eq_nil_or_concat' cs with rfl | ⟨cs, c, rfl⟩
    · left
      exact ⟨by simpa using least, hrest⟩
    · right
      rw [← lastIsWord, lastIsWord_concat] at hrest
      exact mayEnd_isWordly (first c (by simp)) hrest
  | @ending items taken after last others ih =>
    have hafter : after = [] ∨ after = ['\n'] := by
      rcases last with hnil | hline
      · exact .inl (List.append_eq_nil_iff.mp hnil).2
      · exact (List.append_eq_singleton_iff.mp hline).symm.imp And.right And.right
    rcases hafter with rfl | rfl
    · exact absurd hused (by decide)
    · exact absurd hused (by decide)

/-- If the parts cannot end behind a word character, there are no uses. -/
theorem mayEnd_of_isUse {items : List Item} {before taken after : List Char}
    (h : IsUse items before taken after) : mayEnd true items = true := by
  have hlast : lastIsWord (before.head?.any isWord) taken = true := by
    have hstops := h.stops
    rw [isBoundary, not_isWord_of_isUsed h.used, head?_reverse_append] at hstops
    simpa using hstops
  exact mayEnd_true (mayEnd_of_takes h.takes h.used hlast)

def innerOf (items : List Item) : List Char :=
  items.flatMap Item.inner

/-- If the parts may end behind a word character, there are characters that the parts take in every
place, so that they end behind a word character: one for each part, or none where the parts behind
it may end without. They stand for themselves, or between the brackets of the name. -/
theorem exists_takes_of_mayEnd {word : Bool} {items : List Item} (h : mayEnd word items = true) :
    ∃ taken, (∀ after, Takes items taken after) ∧
      (∀ c ∈ taken, isOwn c = true ∨ c ∈ innerOf items) ∧ lastIsWord word taken = true := by
  induction items generalizing word with
  | nil => exact ⟨[], .nil, by simp, h⟩
  | cons item items ih =>
    have hinner : innerOf (item :: items) = item.inner ++ innerOf items := List.flatMap_cons
    have hothers : ∀ c, isOwn c = true ∨ c ∈ innerOf items →
        isOwn c = true ∨ c ∈ innerOf (item :: items) := fun c hc =>
      hc.imp_right fun hmem => by simp [hinner, hmem]
    -- a slot takes one character, and the other parts what they take behind it
    have hone : ∀ slot : Slot, slot.inner = item.inner → mayEnd slot.isWordly items = true →
        ∃ c taken, slot.set.takes c = true ∧ (∀ after, Takes items taken after) ∧
          (∀ d ∈ c :: taken, isOwn d = true ∨ d ∈ innerOf (item :: items)) ∧
            lastIsWord word (c :: taken) = true := by
      intro slot hslot hend
      obtain ⟨c, htakes, hc, hword⟩ := slot.exists_takes
      rw [← hword] at hend
      obtain ⟨taken, hall, hcs, hlast⟩ := ih hend
      refine ⟨c, taken, htakes, hall, ?_, hlast⟩
      rw [hslot] at hc
      exact List.forall_mem_cons.mpr ⟨hc.imp_right fun hmem => by simp [hinner, hmem],
        fun d hd => hothers d (hcs d hd)⟩
    cases item with
    | once slot =>
      obtain ⟨c, taken, htakes, hall, hcs, hlast⟩ := hone slot rfl h
      exact ⟨c :: taken, fun after => .once htakes (hall after), hcs, hlast⟩
    | counted slot sign lazily =>
      rw [mayEnd, Bool.or_eq_true, Bool.and_eq_true] at h
      rcases h with ⟨hleast, h⟩ | h
      · obtain ⟨taken, hall, hcs, hlast⟩ := ih h
        have hnone : ∀ after, Takes (.counted slot sign lazily :: items) ([] ++ taken) after :=
          fun after => .counted (by simp) (by simpa using hleast) (by simp) (hall after)
        exact ⟨taken, hnone, fun d hd => hothers d (hcs d hd), hlast⟩
      · obtain ⟨c, taken, htakes, hall, hcs, hlast⟩ := hone slot rfl h
        have htaken : ∀ after, Takes (.counted slot sign lazily :: items) ([c] ++ taken) after :=
          fun after => .counted (by simpa using htakes) (by cases sign <;> simp [Sign.least])
            (by cases sign <;> simp [Sign.most]) (hall after)
        exact ⟨c :: taken, htaken, hcs, hlast⟩
    | ending => cases h

/-- If the parts may end behind a word character, there is a use in a text of such characters and a
parenthesis. -/
theorem exists_isUse {items : List Item} (h : mayEnd true items = true) :
    ∃ before taken, IsUse items before taken ['('] ∧
      ∀ c ∈ before ++ taken, isOwn c = true ∨ c ∈ innerOf items := by
  obtain ⟨taken, hall, hcs, hlast⟩ := exists_takes_of_mayEnd h
  -- a piece that begins with a word stands at the beginning, and any other one behind a word
  cases hfirst : taken.head?.any isWord with
  | true =>
    obtain ⟨c, rest, rfl⟩ : ∃ c rest, taken = c :: rest := by
      cases taken with
      | nil => simp at hfirst
      | cons c rest => exact ⟨c, rest, rfl⟩
    refine ⟨[], c :: rest, ⟨hall _, ?_, ?_, by decide⟩, hcs⟩
    · simpa [isBoundary] using hfirst
    · have hstops : lastIsWord (([] : List Char).head?.any isWord) (c :: rest) = true := hlast
      rw [isBoundary, head?_reverse_append, hstops]
      decide
  | false =>
    refine ⟨['x'], taken, ⟨hall _, ?_, ?_, by decide⟩, ?_⟩
    · have hnext : (taken ++ ['(']).head?.any isWord = false := by
        cases taken with
        | nil => decide
        | cons c taken => exact hfirst
      rw [isBoundary, hnext]
      decide
    · have hstops : lastIsWord (['x'].head?.any isWord) taken = true := hlast
      rw [isBoundary, head?_reverse_append, hstops]
      decide
    · exact List.forall_mem_cons.mpr ⟨.inl (by decide), hcs⟩

end CodeAtlas.Marking
