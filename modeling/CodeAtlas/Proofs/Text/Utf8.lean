import CodeAtlas.Text.Utf8
import Mathlib.Data.List.Basic

namespace CodeAtlas.Text.Utf8

/-- The bytes of a character: one below 0x80, or one that begins a longer sequence and as many
continuation bytes as it asks for. -/
inductive Spelt (x : Char) : List UInt8 → Prop where
  | one {a : UInt8} (plain : a < 0x80) (value : x.toNat = a.toNat) : Spelt x [a]
  | two {a b low high : UInt8} (first : lead a = some (low, high, 1)) (above : low ≤ b)
      (below : b ≤ high) (second : isTail b = true)
      (value : x.toNat = a.toNat % 32 * 64 + payload b) : Spelt x [a, b]
  | three {a b c low high : UInt8} (first : lead a = some (low, high, 2)) (above : low ≤ b)
      (below : b ≤ high) (second : isTail b = true) (third : isTail c = true)
      (value : x.toNat = (a.toNat % 16 * 64 + payload b) * 64 + payload c) : Spelt x [a, b, c]
  | four {a b c d low high : UInt8} (first : lead a = some (low, high, 3)) (above : low ≤ b)
      (below : b ≤ high) (second : isTail b = true) (third : isTail c = true)
      (fourth : isTail d = true)
      (value : x.toNat = ((a.toNat % 8 * 64 + payload b) * 64 + payload c) * 64 + payload d) :
      Spelt x [a, b, c, d]

theorem toNat_ofNat_of_lt {n : Nat} (h : n < 256) : (UInt8.ofNat n).toNat = n := by
  rw [UInt8.toNat_ofNat']
  exact Nat.mod_eq_of_lt h

theorem lt_ofNat {n : Nat} (h : n < 256) (m : UInt8) : UInt8.ofNat n < m ↔ n < m.toNat := by
  rw [UInt8.lt_iff_toNat_lt, toNat_ofNat_of_lt h]

theorem ofNat_eq {n : Nat} (h : n < 256) (m : UInt8) : UInt8.ofNat n = m ↔ n = m.toNat := by
  rw [← UInt8.toNat_inj, toNat_ofNat_of_lt h]

theorem isTail_iff {b : UInt8} : isTail b = true ↔ 0x80 ≤ b ∧ b ≤ 0xBF := by
  simp [isTail]

theorem isTail_ofNat (n : Nat) : isTail (UInt8.ofNat (n % 64 + 128)) = true := by
  have hn := toNat_ofNat_of_lt (show n % 64 + 128 < 256 by omega)
  simp only [isTail_iff, UInt8.le_iff_toNat_le, hn, UInt8.reduceToNat]
  omega

theorem payload_ofNat (n : Nat) : payload (UInt8.ofNat (n % 64 + 128)) = n % 64 := by
  rw [payload, toNat_ofNat_of_lt (by omega)]
  omega

theorem lead_ofNat {n : Nat} (h : n < 256) : lead (UInt8.ofNat n) =
    if n < 0xC2 then none
    else if n < 0xE0 then some (0x80, 0xBF, 1)
    else if n = 0xE0 then some (0xA0, 0xBF, 2)
    else if n = 0xED then some (0x80, 0x9F, 2)
    else if n < 0xF0 then some (0x80, 0xBF, 2)
    else if n = 0xF0 then some (0x90, 0xBF, 3)
    else if n < 0xF4 then some (0x80, 0xBF, 3)
    else if n = 0xF4 then some (0x80, 0x8F, 3)
    else none := by
  simp only [lead, lt_ofNat h, ofNat_eq h, UInt8.reduceToNat]

theorem lead_two {n : Nat} (h : 0xC2 ≤ n) (h' : n < 0xE0) :
    lead (UInt8.ofNat n) = some (0x80, 0xBF, 1) := by
  rw [lead_ofNat (by omega), if_neg (by omega), if_pos h']

/-- A sequence of three bytes is not overlong and no surrogate. -/
theorem lead_three {n m : Nat} (h : 0xE0 ≤ n) (h' : n < 0xF0) (hm : m < 64)
    (hlow : n = 0xE0 → 32 ≤ m) (hhigh : n = 0xED → m < 32) :
    ∃ low high, lead (UInt8.ofNat n) = some (low, high, 2) ∧ low ≤ UInt8.ofNat (m + 128) ∧
      UInt8.ofNat (m + 128) ≤ high := by
  have hb := toNat_ofNat_of_lt (show m + 128 < 256 by omega)
  rw [lead_ofNat (by omega), if_neg (by omega), if_neg (by omega)]
  simp only [UInt8.le_iff_toNat_le, hb]
  split
  · refine ⟨_, _, rfl, ?_, ?_⟩ <;> simp only [UInt8.reduceToNat] <;> omega
  split
  · refine ⟨_, _, rfl, ?_, ?_⟩ <;> simp only [UInt8.reduceToNat] <;> omega
  · refine ⟨_, _, rfl, ?_, ?_⟩ <;> simp only [UInt8.reduceToNat] <;> omega

/-- A sequence of four bytes is not overlong and not above the last scalar value. -/
theorem lead_four {n m : Nat} (h : 0xF0 ≤ n) (h' : n ≤ 0xF4) (hm : m < 64)
    (hlow : n = 0xF0 → 16 ≤ m) (hhigh : n = 0xF4 → m < 16) :
    ∃ low high, lead (UInt8.ofNat n) = some (low, high, 3) ∧ low ≤ UInt8.ofNat (m + 128) ∧
      UInt8.ofNat (m + 128) ≤ high := by
  have hb := toNat_ofNat_of_lt (show m + 128 < 256 by omega)
  rw [lead_ofNat (by omega), if_neg (by omega), if_neg (by omega), if_neg (by omega),
    if_neg (by omega), if_neg (by omega)]
  simp only [UInt8.le_iff_toNat_le, hb]
  split
  · refine ⟨_, _, rfl, ?_, ?_⟩ <;> simp only [UInt8.reduceToNat] <;> omega
  split
  · refine ⟨_, _, rfl, ?_, ?_⟩ <;> simp only [UInt8.reduceToNat] <;> omega
  · refine ⟨_, _, by rw [if_pos (by omega)], ?_, ?_⟩ <;> simp only [UInt8.reduceToNat] <;> omega

theorem spelt (x : Char) : Spelt x (String.utf8EncodeChar x) := by
  have hvalid : x.toNat < 0xD800 ∨ 0xDFFF < x.toNat ∧ x.toNat < 0x110000 := x.valid
  have hx : x.val.toNat = x.toNat := rfl
  simp only [String.utf8EncodeChar, hx]
  split
  · rename_i h
    refine .one ((lt_ofNat (by omega) _).mpr ?_) (toNat_ofNat_of_lt (by omega)).symm
    simp only [UInt8.reduceToNat]
    omega
  split
  · rename_i h₁ h₂
    have htail := isTail_ofNat x.toNat
    obtain ⟨hlow, hhigh⟩ := isTail_iff.mp htail
    refine .two (lead_two (by omega) (by omega)) hlow hhigh htail ?_
    rw [payload_ofNat, toNat_ofNat_of_lt (by omega)]
    omega
  split
  · rename_i h₁ h₂ h₃
    obtain ⟨low, high, hlead, hlow, hhigh⟩ := lead_three
      (show 0xE0 ≤ x.toNat / 4096 % 16 + 224 by omega) (by omega)
      (show x.toNat / 64 % 64 < 64 by omega) (by omega) (by omega)
    refine .three hlead hlow hhigh (isTail_ofNat _) (isTail_ofNat _) ?_
    rw [payload_ofNat, payload_ofNat, toNat_ofNat_of_lt (by omega)]
    omega
  · rename_i h₁ h₂ h₃
    obtain ⟨low, high, hlead, hlow, hhigh⟩ := lead_four
      (show 0xF0 ≤ x.toNat / 262144 % 8 + 240 by omega) (by omega)
      (show x.toNat / 4096 % 64 < 64 by omega) (by omega) (by omega)
    refine .four hlead hlow hhigh (isTail_ofNat _) (isTail_ofNat _) (isTail_ofNat _) ?_
    rw [payload_ofNat, payload_ofNat, payload_ofNat, toNat_ofNat_of_lt (by omega)]
    omega

/-- What begins a longer sequence asks for a second byte that is no character of its own. -/
theorem le_of_lead {a low high : UInt8} {more : Nat} (h : lead a = some (low, high, more)) :
    0xC2 ≤ a ∧ 0x80 ≤ low := by
  unfold lead at h
  split at h
  · cases h
  rename_i ha
  refine ⟨UInt8.not_lt.mp ha, ?_⟩
  repeat' split at h
  all_goals cases h
  all_goals decide

theorem not_lt_of_lead {a low high : UInt8} {more : Nat} (h : lead a = some (low, high, more)) :
    ¬a < 0x80 :=
  UInt8.not_lt.mpr (UInt8.le_trans (by decide) (le_of_lead h).1)

theorem scan_spelt {x : Char} {bs : List UInt8} (h : Spelt x bs) (rest : List UInt8) :
    scan (bs ++ rest) = some x :: scan rest := by
  have hx : Char.ofNat x.toNat = x := Char.ofNat_toNat x
  cases h with
  | one plain value =>
    rw [List.cons_append, List.nil_append, scan, if_pos plain, ← value, hx]
  | two first above below second value =>
    rw [List.cons_append, scan, if_neg (not_lt_of_lead first), first]
    simp [UInt8.not_lt.mpr above, UInt8.not_lt.mpr below, ← value, hx]
  | three first above below second third value =>
    rw [List.cons_append, scan, if_neg (not_lt_of_lead first), first]
    simp [UInt8.not_lt.mpr above, UInt8.not_lt.mpr below, ← value, hx, third]
  | four first above below second third fourth value =>
    rw [List.cons_append, scan, if_neg (not_lt_of_lead first), first]
    simp [UInt8.not_lt.mpr above, UInt8.not_lt.mpr below, ← value, hx, third, fourth]

theorem decodeKnown_spelt {x : Char} {bs : List UInt8} (h : Spelt x bs) (rest : List UInt8) :
    decodeKnown (bs ++ rest) = x :: decodeKnown rest := by
  rw [decodeKnown, scan_spelt h]
  rfl

/-- What was encoded is decoded to what it was, whatever follows it. -/
theorem decodeKnown_encode (cs : List Char) (rest : List UInt8) :
    decodeKnown (encode cs ++ rest) = cs ++ decodeKnown rest := by
  induction cs with
  | nil => rfl
  | cons c cs ih =>
    have hcons : encode (c :: cs) = String.utf8EncodeChar c ++ encode cs := rfl
    rw [hcons, List.append_assoc, decodeKnown_spelt (spelt c), ih, List.cons_append]

theorem decodeKnown_isTail {b : UInt8} (h : isTail b = true) (rest : List UInt8) :
    decodeKnown (b :: rest) = decodeKnown rest := by
  obtain ⟨hlow, hhigh⟩ := isTail_iff.mp h
  have hb : lead b = none := by
    rw [lead, if_pos (UInt8.lt_of_le_of_lt hhigh (by decide))]
  rw [decodeKnown, scan, if_neg (UInt8.not_lt.mpr hlow), hb]
  rfl

theorem decodeKnown_tails {bs : List UInt8} (h : ∀ b ∈ bs, isTail b = true) (rest : List UInt8) :
    decodeKnown (bs ++ rest) = decodeKnown rest := by
  induction bs with
  | nil => rfl
  | cons b bs ih =>
    obtain ⟨hb, hbs⟩ := List.forall_mem_cons.mp h
    rw [List.cons_append, decodeKnown_isTail hb, ih hbs]

/-- Bytes that do not go on with a sequence: there are none, or a character of one byte is the
first. -/
def Breaks (rest : List UInt8) : Prop :=
  ∀ r ∈ rest.head?, r < 0x80

/-- All bytes of a character but the first are continuation bytes. -/
theorem Spelt.tails {x : Char} {bs : List UInt8} (h : Spelt x bs) {k : Nat} (hk : k ≠ 0) :
    ∀ b ∈ bs.drop k, isTail b = true := by
  have htail : ∀ b ∈ bs.tail, isTail b = true := by
    cases h <;> simp [*]
  intro b hb
  apply htail
  rw [← List.drop_one]
  exact List.drop_subset_drop_left bs (Nat.pos_of_ne_zero hk) hb

theorem Breaks.not_isTail {r : UInt8} {rest : List UInt8} (h : Breaks (r :: rest)) :
    isTail r = false := by
  have hr : r < 0x80 := h r rfl
  rw [Bool.eq_false_iff]
  intro htail
  exact UInt8.not_lt.mpr (isTail_iff.mp htail).1 hr

section
variable {a b c low high : UInt8} {more : Nat} {rest : List UInt8}

theorem scan_broken_one (first : lead a = some (low, high, more)) (hrest : Breaks rest) :
    scan (a :: rest) = none :: scan rest := by
  rw [scan, if_neg (not_lt_of_lead first), first]
  cases rest with
  | nil => rfl
  | cons r rest =>
    have hr : r < low := UInt8.lt_of_lt_of_le (hrest r rfl) (le_of_lead first).2
    simp [hr]

theorem scan_broken_two (first : lead a = some (low, high, more)) (above : low ≤ b)
    (below : b ≤ high) (hmore : more ≠ 1) (hrest : Breaks rest) :
    scan (a :: b :: rest) = none :: scan rest := by
  rw [scan, if_neg (not_lt_of_lead first), first]
  cases rest with
  | nil => simp [UInt8.not_lt.mpr above, UInt8.not_lt.mpr below, hmore, scan]
  | cons r rest =>
    simp [UInt8.not_lt.mpr above, UInt8.not_lt.mpr below, hmore, hrest.not_isTail]

theorem scan_broken_three (first : lead a = some (low, high, 3)) (above : low ≤ b)
    (below : b ≤ high) (third : isTail c = true) (hrest : Breaks rest) :
    scan (a :: b :: c :: rest) = none :: scan rest := by
  rw [scan, if_neg (not_lt_of_lead first), first]
  cases rest with
  | nil => simp [UInt8.not_lt.mpr above, UInt8.not_lt.mpr below, third, scan]
  | cons r rest =>
    simp [UInt8.not_lt.mpr above, UInt8.not_lt.mpr below, third, hrest.not_isTail]

end

/-- A sequence that is broken off is lost. -/
theorem decodeKnown_take {x : Char} {bs : List UInt8} (h : Spelt x bs) {k : Nat}
    (hk : k < bs.length) {rest : List UInt8} (hrest : Breaks rest) :
    decodeKnown (bs.take k ++ rest) = decodeKnown rest := by
  suffices hscan : k = 0 ∨ scan (bs.take k ++ rest) = none :: scan rest by
    rcases hscan with rfl | hscan
    · rfl
    · rw [decodeKnown, hscan]
      rfl
  cases h with
  | one => exact .inl (by simpa using hk)
  | two first =>
    match k, hk with
    | 0, _ => exact .inl rfl
    | 1, _ => exact .inr (scan_broken_one first hrest)
  | three first above below =>
    match k, hk with
    | 0, _ => exact .inl rfl
    | 1, _ => exact .inr (scan_broken_one first hrest)
    | 2, _ => exact .inr (scan_broken_two first above below (by decide) hrest)
  | four first above below second third =>
    match k, hk with
    | 0, _ => exact .inl rfl
    | 1, _ => exact .inr (scan_broken_one first hrest)
    | 2, _ => exact .inr (scan_broken_two first above below (by decide) hrest)
    | 3, _ => exact .inr (scan_broken_three first above below third hrest)

/-- The characters of a text with the places of their first bytes, if the text begins at a given
place. -/
def placed : Nat → List Char → List (Nat × Char)
  | _, [] => []
  | place, c :: cs => (place, c) :: placed (place + c.utf8Size) cs

/-- Does a character lie between two places as a whole? -/
abbrev Within (first last : Nat) (p : Nat × Char) : Prop :=
  first ≤ p.1 ∧ p.1 + p.2.utf8Size ≤ last

theorem within_of_mem_placed {place : Nat} {cs : List Char} {p : Nat × Char}
    (h : p ∈ placed place cs) : Within place (place + (encode cs).length) p := by
  induction cs generalizing place with
  | nil => simp [placed] at h
  | cons c cs ih =>
    have hlen : (encode (c :: cs)).length = c.utf8Size + (encode cs).length := by
      simp [encode, String.length_utf8EncodeChar]
    rcases List.mem_cons.mp h with rfl | h
    · exact ⟨Nat.le_refl _, by dsimp only; omega⟩
    · obtain ⟨hfirst, hlast⟩ := ih h
      exact ⟨by omega, by omega⟩

theorem placed_pairwise (place : Nat) (cs : List Char) :
    (placed place cs).Pairwise fun p q => p.1 < q.1 := by
  induction cs generalizing place with
  | nil => exact .nil
  | cons c cs ih =>
    refine .cons (fun q hq => ?_) (ih _)
    have hpos := c.utf8Size_pos
    have hfirst := (within_of_mem_placed hq).1
    dsimp only
    omega

/-- A stretch of a text is decoded to the characters in it. -/
theorem decodeKnown_slice (cs : List Char) (first last place : Nat) {rest : List UInt8}
    (hrest : Breaks rest) :
    decodeKnown (((encode cs).take (last - place)).drop (first - place) ++ rest) =
      ((placed place cs).filter fun p => Within first last p).map Prod.snd ++ decodeKnown rest := by
  induction cs generalizing place with
  | nil => simp [encode, placed]
  | cons c cs ih =>
    have hc := spelt c
    have hlen := String.length_utf8EncodeChar c
    have hpos := c.utf8Size_pos
    have hcons : encode (c :: cs) = String.utf8EncodeChar c ++ encode cs := rfl
    rw [placed, hcons, List.filter_cons]
    generalize String.utf8EncodeChar c = bs at hc hlen
    by_cases hlast : place + c.utf8Size ≤ last
    · -- the character does not go beyond the stretch
      have htake : (bs ++ encode cs).take (last - place) =
          bs ++ (encode cs).take (last - (place + c.utf8Size)) := by
        rw [List.take_append, List.take_of_length_le (by omega), hlen, Nat.sub_sub]
      rw [htake, List.drop_append, hlen, Nat.sub_sub, List.append_assoc]
      by_cases hfirst : first ≤ place
      · rw [if_pos (decide_eq_true ⟨hfirst, hlast⟩), show first - place = 0 by omega,
          List.drop_zero, decodeKnown_spelt hc, ih, List.map_cons, List.cons_append]
      · rw [if_neg (by simp [hfirst]), decodeKnown_tails (hc.tails (by omega)), ih]
    · have hnone := ih (place + c.utf8Size)
      rw [show last - (place + c.utf8Size) = 0 by omega, List.take_zero, List.drop_nil,
        List.nil_append] at hnone
      rw [if_neg (by simp [hlast]), ← hnone, List.take_append_of_le_length (by omega)]
      by_cases hfirst : first ≤ place
      · rw [show first - place = 0 by omega, List.drop_zero, decodeKnown_take hc (by omega) hrest]
      · apply decodeKnown_tails
        intro b hb
        rw [List.drop_take] at hb
        exact hc.tails (by omega) b (List.mem_of_mem_take hb)

/-- What is left of a text from a place on. -/
theorem decodeKnown_drop (cs : List Char) (first : Nat) :
    decodeKnown ((encode cs).drop first) =
      ((placed 0 cs).filter fun p => first ≤ p.1).map Prod.snd := by
  have hend : Breaks [] := by simp [Breaks]
  have hslice := decodeKnown_slice cs first (encode cs).length 0 hend
  have hwithin : ∀ p ∈ placed 0 cs,
      decide (Within first (encode cs).length p) = decide (first ≤ p.1) := by
    intro p hp
    have hlast := (within_of_mem_placed hp).2
    rw [Nat.zero_add] at hlast
    simp [Within, hlast]
  rw [List.filter_congr hwithin] at hslice
  simpa [decodeKnown, scan] using hslice

end CodeAtlas.Text.Utf8
