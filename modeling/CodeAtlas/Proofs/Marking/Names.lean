import CodeAtlas.Proofs.Marking.Words

namespace CodeAtlas.Text.Expression

/-- Does a character stand for itself wherever it stands between square brackets? -/
def isMember (c : Char) : Bool :=
  !(['\\', '[', ']', '^', '-'].contains c)

theorem member?_of_isMember {c : Char} (h : isMember c = true) (asciiOnly : Bool)
    (rest : List Char) : member? asciiOnly (c :: rest) = some (.range c c, rest) := by
  unfold member?
  split
  · contradiction
  · rename_i heq
    obtain ⟨rfl, -⟩ := List.cons.inj heq
    exact absurd h (by decide)
  · rename_i heq
    obtain ⟨rfl, rfl⟩ := List.cons.inj heq
    rfl

/-- Characters that stand for themselves are read up to the bracket that closes the set. -/
theorem readMembers_chars {cs : List Char} (hcs : ∀ c ∈ cs, isMember c = true) (rest : List Char)
    {left : Nat} (hleft : cs.length < left) {members : List Member}
    (hne : cs ≠ [] ∨ members ≠ []) :
    readMembers false left (cs ++ ']' :: rest) members =
      some (members.reverse ++ cs.map (fun c => .range c c), rest) := by
  induction cs generalizing left members with
  | nil =>
    obtain ⟨left, rfl⟩ : ∃ n, left = n + 1 := ⟨left - 1, by simp at hleft; omega⟩
    simp [readMembers, hne.resolve_left]
  | cons c cs ih =>
    obtain ⟨left, rfl⟩ : ∃ n, left = n + 1 := ⟨left - 1, by simp at hleft; omega⟩
    obtain ⟨hc, hcs⟩ := List.forall_mem_cons.mp hcs
    have hclose : c ≠ ']' := by
      rintro rfl
      exact absurd hc (by decide)
    have hrange : (cs ++ ']' :: rest).head? ≠ some '-' := by
      cases cs with
      | nil => simp
      | cons d cs =>
        intro heq
        obtain rfl := Option.some.inj heq
        exact absurd (hcs '-' (by simp)) (by decide)
    rw [List.cons_append, readMembers, if_neg (by simp [hclose]), member?_of_isMember hc]
    dsimp only [bind, Option.bind]
    split
    · rename_i heq
      simp [heq] at hrange
    · rename_i heq
      simp [heq] at hrange
    · rw [ih hcs (by simpa using hleft) (.inr (by simp))]
      simp

theorem set?_chars {cs : List Char} (hcs : ∀ c ∈ cs, isMember c = true) (hne : cs ≠ [])
    (rest : List Char) :
    set? {} (cs ++ ']' :: rest) = some (⟨cs.map (fun c => .range c c), true, .exact⟩, rest) := by
  have hlength : cs.length < (cs ++ ']' :: rest).length := by
    rw [List.length_append, List.length_cons]
    omega
  unfold set?
  split
  rename_i among text heq
  split at heq
  · rename_i rest' hfirst
    have hmem : '^' ∈ cs := by
      cases cs with
      | nil => exact absurd rfl hne
      | cons c cs =>
        obtain ⟨rfl, -⟩ := List.cons.inj hfirst
        simp
    exact absurd (hcs '^' hmem) (by decide)
  · cases heq
    rw [readMembers_chars hcs rest hlength (.inl hne)]
    rfl

theorem coded?_suffix {width : Nat} {text rest : List Char} {c : Char}
    (h : coded? width text = some (c, rest)) : rest <:+ text := by
  unfold coded? at h
  dsimp only at h
  split at h
  · obtain ⟨-, rfl⟩ := Prod.mk.inj (Option.some.inj h)
    exact List.drop_suffix ..
  · cases h

theorem escaped?_suffix {text rest : List Char} {c d : Char}
    (h : escaped? c text = some (d, rest)) : rest <:+ text := by
  unfold escaped? at h
  split at h
  · obtain ⟨-, rfl⟩ := Prod.mk.inj (Option.some.inj h)
    exact List.suffix_rfl
  · split at h
    · exact coded?_suffix h
    · exact coded?_suffix h
    · exact coded?_suffix h
    · split at h
      · cases h
      · obtain ⟨-, rfl⟩ := Prod.mk.inj (Option.some.inj h)
        exact List.suffix_rfl

/-- A member takes at least one character, and the rest is what stands behind it. -/
theorem member?_suffix {asciiOnly : Bool} {text rest : List Char} {m : Member}
    (h : member? asciiOnly text = some (m, rest)) : rest <:+ text.tail := by
  unfold member? at h
  split at h
  · cases h
  · rename_i c rest'
    rw [List.tail_cons]
    refine List.IsSuffix.trans ?_ (List.suffix_cons c rest')
    split at h
    · obtain ⟨-, rfl⟩ := Prod.mk.inj (Option.some.inj h)
      exact List.suffix_rfl
    · split at h
      · obtain ⟨d, -, hd⟩ := Option.map_eq_some_iff.mp h
        obtain ⟨-, rfl⟩ := Prod.mk.inj hd
        exact List.drop_suffix ..
      · split at h
        · obtain ⟨-, rfl⟩ := Prod.mk.inj (Option.some.inj h)
          exact List.suffix_rfl
        · obtain ⟨⟨d, rest''⟩, hd, heq⟩ := Option.map_eq_some_iff.mp h
          obtain ⟨-, rfl⟩ := Prod.mk.inj heq
          exact escaped?_suffix hd
  · obtain ⟨-, rfl⟩ := Prod.mk.inj (Option.some.inj h)
    exact List.suffix_rfl

/-- Without a bracket that closes it no set can be read. One at its beginning stands for itself. -/
theorem readMembers_eq_none {asciiOnly : Bool} {left : Nat} {text : List Char}
    {members : List Member} (htail : ']' ∉ text.tail)
    (hhead : text.head? ≠ some ']' ∨ members = []) :
    readMembers asciiOnly left text members = none := by
  induction left generalizing text members with
  | zero => rfl
  | succ left ih =>
    rw [readMembers, if_neg (by rcases hhead with hhead | rfl <;> simp_all)]
    cases hmember : member? asciiOnly text with
    | none => rfl
    | some read =>
      obtain ⟨m, rest⟩ := read
      have hopen : ∀ {later : List Char}, later <:+ rest → ']' ∉ later := fun hlater hmem =>
        htail (((hlater.trans (member?_suffix hmember)).mem hmem))
      have hnext : ∀ {later : List Char} (members : List Member), later <:+ rest →
          readMembers asciiOnly left later members = none := fun members hlater =>
        ih (fun hmem => hopen hlater (List.mem_of_mem_tail hmem))
          (.inl fun hfirst => hopen hlater (List.mem_of_mem_head? hfirst))
      dsimp only [bind, Option.bind]
      split
      · exact absurd (by simp) (hopen List.suffix_rfl)
      · rename_i rest' _
        have hrest' : rest' <:+ '-' :: rest' := List.suffix_cons ..
        cases hlast : member? asciiOnly rest' with
        | none => rfl
        | some read =>
          obtain ⟨n, later⟩ := read
          have hlater := ((member?_suffix hlast).trans (List.tail_suffix rest')).trans hrest'
          dsimp only
          split
          · split
            · rfl
            · exact hnext _ hlater
          · rfl
      · exact hnext _ List.suffix_rfl

theorem set?_eq_none {text : List Char} (h : ']' ∉ text.tail) (flags : Flags) :
    set? flags text = none := by
  unfold set?
  split
  rename_i among rest heq
  split at heq
  · cases heq
    rw [List.tail_cons] at h
    rw [readMembers_eq_none (fun hmem => h (List.mem_of_mem_tail hmem)) (.inr rfl)]
    rfl
  · cases heq
    rw [readMembers_eq_none h (.inr rfl)]
    rfl

end CodeAtlas.Text.Expression

namespace CodeAtlas.Marking
open Text Text.Expression

structure Members where
  chars : List Char
  ne_nil : chars ≠ []
  all_isMember : ∀ c ∈ chars, isMember c = true

inductive Slot where
  | char (c : { c : Char // isOwn c = true })
  /-- Any character of a line. -/
  | any
  /-- One of some characters. -/
  | among (m : Members)

namespace Slot

def spelled : Slot → List Char
  | char c => [c.val]
  | any => ['.']
  | among m => '[' :: m.chars ++ [']']

def set : Slot → CharSet
  | char c => .single .exact c
  | any => .ofLine
  | among m => ⟨m.chars.map (fun c => .range c c), true, .exact⟩

def isWordly : Slot → Bool
  | char c => isWord c
  | any => true
  | among m => m.chars.any isWord

/-- The characters between the brackets of a slot. They need not stand for themselves elsewhere. -/
def inner : Slot → List Char
  | among m => m.chars
  | _ => []

theorem takes_char {c : { c : Char // isOwn c = true }} {d : Char} :
    (char c).set.takes d = true ↔ d = c := by
  rw [set, takes_single, beq_iff_eq, eq_comm]

theorem takes_among {m : Members} {d : Char} : (among m).set.takes d = true ↔ d ∈ m.chars := by
  have hhas : ∀ c, (Member.range c c).has d = true ↔ c = d := by
    intro c
    rw [Member.has, Bool.and_eq_true, decide_eq_true_eq, decide_eq_true_eq]
    exact ⟨fun h => Char.le_antisymm h.1 h.2, fun h => h ▸ ⟨Char.le_refl c, Char.le_refl c⟩⟩
  simp [set, CharSet.takes, Likeness.kin, hhas]

theorem isWordly_of_takes {slot : Slot} {c : Char} (h : slot.set.takes c = true)
    (hc : isWord c = true) : slot.isWordly = true := by
  cases slot with
  | char d => rwa [isWordly, ← takes_char.mp h]
  | any => rfl
  | among m => exact List.any_eq_true.mpr ⟨c, takes_among.mp h, hc⟩

/-- There is a character that is taken, a word character if it may be one. It stands for itself, or
between the brackets. -/
theorem exists_takes (slot : Slot) : ∃ c, slot.set.takes c = true ∧
    (isOwn c = true ∨ c ∈ slot.inner) ∧ isWord c = slot.isWordly := by
  cases slot with
  | char d => exact ⟨d, takes_char.mpr rfl, .inl d.2, rfl⟩
  | any => exact ⟨'x', by decide, .inl (by decide), by decide⟩
  | among m =>
    cases hword : m.chars.any isWord with
    | true =>
      obtain ⟨c, hmem, hc⟩ := List.any_eq_true.mp hword
      exact ⟨c, takes_among.mpr hmem, .inr hmem, by rw [isWordly, hc, hword]⟩
    | false =>
      obtain ⟨c, hmem⟩ := List.exists_mem_of_ne_nil _ m.ne_nil
      have hc : isWord c = false := by simpa using List.any_eq_false.mp hword c hmem
      exact ⟨c, takes_among.mpr hmem, .inr hmem, by rw [isWordly, hc, hword]⟩

end Slot

/-- How often a part may stand, as its sign says. -/
inductive Sign where
  | maybe
  | any
  | many

namespace Sign

def spelled : Sign → Char
  | maybe => '?'
  | any => '*'
  | many => '+'

def least : Sign → Nat
  | maybe | any => 0
  | many => 1

def most : Sign → Option Nat
  | maybe => some 1
  | any | many => none

/-- The count of a sign. Behind the sign a question mark says that as few as possible are taken. -/
def count (lazily : Bool) (sign : Sign) : Count :=
  ⟨sign.least, sign.most, if lazily then .fewestFirst else .mostFirst⟩

end Sign

inductive Item where
  | once (slot : Slot)
  | counted (slot : Slot) (sign : Sign) (lazily : Bool)
  /-- The end of the text. -/
  | ending

namespace Item

def spelled : Item → List Char
  | once slot => slot.spelled
  | counted slot sign lazily => slot.spelled ++ sign.spelled :: if lazily then ['?'] else []
  | ending => ['$']

def piece : Item → Piece
  | once slot => ⟨.one slot.set, true⟩
  | counted slot sign lazily => ⟨.times (.one slot.set) (sign.count lazily), false⟩
  | ending => ⟨.anchor .lastEnd, false⟩

def isPlain : Item → Bool
  | once (.char _) => true
  | _ => false

def inner : Item → List Char
  | once slot | counted slot _ _ => slot.inner
  | ending => []

end Item

/-- The characters of a name that is made of some parts. -/
def spelled (items : List Item) : List Char :=
  items.flatMap Item.spelled

theorem spelled_cons (item : Item) (items : List Item) :
    spelled (item :: items) = item.spelled ++ spelled items :=
  List.flatMap_cons

/-- The pattern of the uses of a name that is made of some parts. -/
def patternOf (items : List Item) : Pattern :=
  .all (wordEdge :: (items.map (·.piece.pattern) ++ [wordEdge, .look 0 true signs]))

section Reading
variable (pieces : List Piece) (rest : List Char)

/-- A slot is read in one step. -/
theorem read_slot (slot : Slot) (left : Nat) :
    ∃ extra, Reading.read (left + slot.spelled.length) (reading pieces) (slot.spelled ++ rest) =
      Reading.read (left + extra) (reading (⟨.one slot.set, true⟩ :: pieces)) rest := by
  cases slot with
  | char c => exact ⟨0, read_cons (step_of_isOwn c.2 pieces rest) left⟩
  | any => exact ⟨0, rfl⟩
  | among m =>
    have hstep : (reading pieces).step '[' (m.chars ++ ']' :: rest) =
        .ok (reading (⟨.one (Slot.among m).set, true⟩ :: pieces), rest) := by
      have hset := set?_chars m.all_isMember m.ne_nil rest
      have hflags : (reading pieces).flags = {} := rfl
      dsimp only [Reading.step, bind, Except.bind]
      rw [hflags, hset]
      rfl
    refine ⟨m.chars.length + 1, ?_⟩
    have hspelled : (Slot.among m).spelled ++ rest = '[' :: (m.chars ++ ']' :: rest) := by
      simp [Slot.spelled]
    have hlength : (Slot.among m).spelled.length = m.chars.length + 1 + 1 := by
      simp [Slot.spelled]
    rw [hspelled, hlength, ← Nat.add_assoc left, read_cons hstep]

theorem step_sign (r : Reading) (sign : Sign) :
    r.step sign.spelled rest = r.readCount (.ok (sign.least, sign.most)) rest := by
  cases sign <;> rfl

theorem step_sign_greedily {p : Pattern} (sign : Sign) (h : manner rest = (.mostFirst, rest)) :
    (reading (⟨p, true⟩ :: pieces)).step sign.spelled rest =
      .ok (reading (⟨.times p (sign.count false), false⟩ :: pieces), rest) := by
  rw [step_sign, Reading.readCount]
  dsimp only [bind, Except.bind]
  rw [h]
  rfl

theorem step_sign_lazily {p : Pattern} (sign : Sign) :
    (reading (⟨p, true⟩ :: pieces)).step sign.spelled ('?' :: rest) =
      .ok (reading (⟨.times p (sign.count true), false⟩ :: pieces), rest) := by
  rw [step_sign]
  rfl

/-- A part is read in at most as many steps as it has characters. -/
theorem read_item (item : Item) (h : manner rest = (.mostFirst, rest)) (left : Nat) :
    ∃ extra, Reading.read (left + item.spelled.length) (reading pieces) (item.spelled ++ rest) =
      Reading.read (left + extra) (reading (item.piece :: pieces)) rest := by
  cases item with
  | once slot => exact read_slot pieces rest slot left
  | counted slot sign lazily =>
    cases lazily with
    | false =>
      obtain ⟨extra, hslot⟩ := read_slot pieces (sign.spelled :: rest) slot (left + 1)
      refine ⟨extra, ?_⟩
      have hsign := read_cons (step_sign_greedily (p := .one slot.set) pieces rest sign h)
        (left + extra)
      rw [Nat.add_right_comm, ← hslot] at hsign
      rw [Item.piece, ← hsign]
      simp [Item.spelled, Nat.add_assoc, Nat.add_comm 1]
    | true =>
      obtain ⟨extra, hslot⟩ := read_slot pieces (sign.spelled :: '?' :: rest) slot (left + 2)
      refine ⟨extra + 1, ?_⟩
      have hsign := read_cons (step_sign_lazily (p := .one slot.set) pieces rest sign)
        (left + (extra + 1))
      have hleft : left + (extra + 1) + 1 = left + 2 + extra := by omega
      rw [hleft, ← hslot] at hsign
      rw [Item.piece, ← hsign]
      simp [Item.spelled, Nat.add_assoc, Nat.add_comm 2]
  | ending => exact ⟨0, rfl⟩

end Reading

theorem manner_of_head {c : Char} (hq : c ≠ '?') (hp : c ≠ '+') (rest : List Char) :
    manner (c :: rest) = (.mostFirst, c :: rest) := by
  unfold manner
  split
  · rename_i heq
    exact absurd (List.cons.inj heq).1 hq
  · rename_i heq
    exact absurd (List.cons.inj heq).1 hp
  · rfl

theorem manner_slot (slot : Slot) (rest : List Char) :
    manner (slot.spelled ++ rest) = (.mostFirst, slot.spelled ++ rest) := by
  cases slot with
  | char c =>
    obtain ⟨c, hc⟩ := c
    apply manner_of_head
    · rintro rfl
      exact absurd hc (by decide)
    · rintro rfl
      exact absurd hc (by decide)
  | any => rfl
  | among m => rfl

/-- No part begins with a sign, so none is taken for a manner of the part before it. -/
theorem manner_spelled (items : List Item) {rest : List Char}
    (h : manner rest = (.mostFirst, rest)) :
    manner (spelled items ++ rest) = (.mostFirst, spelled items ++ rest) := by
  cases items with
  | nil => exact h
  | cons item items =>
    rw [spelled_cons]
    cases item with
    | once slot =>
      rw [Item.spelled, List.append_assoc]
      exact manner_slot slot _
    | counted slot sign lazily =>
      rw [Item.spelled, List.append_assoc, List.append_assoc]
      exact manner_slot slot _
    | ending => rfl

theorem read_spelled (items : List Item) (rest : List Char) (h : manner rest = (.mostFirst, rest))
    (left : Nat) (pieces : List Piece) :
    ∃ extra, Reading.read (left + (spelled items).length) (reading pieces) (spelled items ++ rest) =
      Reading.read (left + extra) (reading ((items.map Item.piece).reverse ++ pieces)) rest := by
  induction items generalizing left pieces with
  | nil => exact ⟨0, rfl⟩
  | cons item items ih =>
    obtain ⟨extra, hitem⟩ := read_item pieces _ item (manner_spelled items h)
      (left + (spelled items).length)
    obtain ⟨extra', hitems⟩ := ih (left + extra) (item.piece :: pieces)
    refine ⟨extra + extra', ?_⟩
    have hlength : left + (item.spelled ++ spelled items).length =
        left + (spelled items).length + item.spelled.length := by
      rw [List.length_append, Nat.add_right_comm, Nat.add_assoc]
    rw [spelled_cons, hlength, List.append_assoc, hitem, Nat.add_right_comm, hitems]
    simp [Nat.add_assoc]

/-- The expression of a name that is made of parts can be read. -/
theorem ofText_spelled (items : List Item) :
    Expression.ofText (useOf (String.ofList (spelled items))) = .ok ⟨patternOf items, 0, []⟩ := by
  obtain ⟨extra, hread⟩ := read_spelled items useEnd rfl (useEnd.length + 1) [⟨wordEdge, false⟩]
  rw [ofText_useOf_eq_read, String.toList_ofList, hread, Nat.add_comm _ extra, read_useEnd,
    pattern_of_others_nil rfl]
  simp [Frame.last, reading, patternOf, Function.comp_def]

/-- Names that cannot be read as expressions: a sign at the beginning has nothing to count, and a
set has to be closed. A bracket that would close it at once stands for itself. -/
inductive Unreadable : List Char → Prop where
  | sign (sign : Sign) (rest : List Char) : Unreadable (sign.spelled :: rest)
  | unclosed (items : List Item) {rest : List Char} (h : ']' ∉ rest.tail) :
      Unreadable (spelled items ++ '[' :: rest)

theorem read_of_step_error {r : Reading} {c : Char} {rest : List Char} {fault : Fault}
    (h : r.step c rest = .error fault) (left : Nat) :
    Reading.read (left + 1) r (c :: rest) = .error fault := by
  rw [Reading.read, h]
  rfl

theorem step_unclosed {rest : List Char} (h : ']' ∉ rest.tail) (pieces : List Piece) :
    (reading pieces).step '[' (rest ++ useEnd) = .error .patternMalformed := by
  have htail : ']' ∉ (rest ++ useEnd).tail := by
    cases rest with
    | nil => decide
    | cons c rest =>
      rw [List.cons_append, List.tail_cons, List.mem_append, not_or]
      exact ⟨h, by decide⟩
  have hflags : (reading pieces).flags = {} := rfl
  dsimp only [Reading.step, bind, Except.bind]
  rw [hflags, set?_eq_none htail]
  rfl

theorem ofText_of_unreadable {name : String} (h : Unreadable name.toList) :
    Expression.ofText (useOf name) = .error .patternMalformed := by
  rw [ofText_useOf_eq_read]
  generalize name.toList = cs at h
  cases h with
  | sign sign rest =>
    have hstep : (reading [⟨wordEdge, false⟩]).step sign.spelled (rest ++ useEnd) =
        .error .patternMalformed := by
      rw [step_sign]
      rfl
    exact read_of_step_error hstep _
  | @unclosed items rest hrest =>
    obtain ⟨extra, hread⟩ := read_spelled items ('[' :: (rest ++ useEnd)) rfl
      (useEnd.length + 1 + rest.length + 1) [⟨wordEdge, false⟩]
    have hlength : useEnd.length + 1 + (spelled items ++ '[' :: rest).length =
        useEnd.length + 1 + rest.length + 1 + (spelled items).length := by
      rw [List.length_append, List.length_cons]
      omega
    rw [hlength, List.append_assoc, List.cons_append, hread, Nat.add_right_comm]
    exact read_of_step_error (step_unclosed hrest _) _

end CodeAtlas.Marking
