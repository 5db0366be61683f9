import CodeAtlas.Proofs.Source.Quotes
import Mathlib.Data.List.DropRight

namespace CodeAtlas

namespace Text
open Utf8 (encode)

def charUnits (c : Char) : Nat :=
  if c.toNat < 0x10000 then 1 else 2

def units : List Char → Nat
  | [] => 0
  | c :: cs => charUnits c + units cs

theorem utf8Size_eq (c : Char) : c.utf8Size =
    if c.toNat < 0x80 then 1 else if c.toNat < 0x800 then 2 else if c.toNat < 0x10000 then 3
    else 4 := by
  simp only [Char.utf8Size, UInt32.le_iff_toNat_le, Char.toNat]
  have h127 : (UInt32.ofNatLT 127 (by decide)).toNat = 127 := rfl
  have h2047 : (UInt32.ofNatLT 2047 (by decide)).toNat = 2047 := rfl
  have h65535 : (UInt32.ofNatLT 65535 (by decide)).toNat = 65535 := rfl
  simp only [h127, h2047, h65535]
  split_ifs <;> omega

theorem charUnits_le (c : Char) : charUnits c ≤ c.utf8Size := by
  rw [charUnits, utf8Size_eq]
  split_ifs <;> omega

theorem charUnits_eq_iff {c : Char} : charUnits c = c.utf8Size ↔ c.toNat < 0x80 := by
  rw [charUnits, utf8Size_eq]
  split_ifs <;> omega

theorem length_encode_cons (c : Char) (cs : List Char) :
    (encode (c :: cs)).length = c.utf8Size + (encode cs).length := by
  simp [encode, String.length_utf8EncodeChar]

theorem units_le (cs : List Char) : units cs ≤ (encode cs).length := by
  induction cs with
  | nil => exact Nat.le_refl _
  | cons c cs ih =>
    rw [length_encode_cons, units]
    exact Nat.add_le_add (charUnits_le c) ih

/-- Characters outside ASCII have more bytes than code units, so that nothing makes up for them. -/
theorem units_eq_iff {cs : List Char} :
    units cs = (encode cs).length ↔ ∀ c ∈ cs, c.toNat < 0x80 := by
  induction cs with
  | nil => simp [units, encode]
  | cons c cs ih =>
    have hc := charUnits_le c
    have hcs := units_le cs
    rw [List.forall_mem_cons, ← ih, ← charUnits_eq_iff, length_encode_cons, units]
    omega

def breaks (text : String) : Nat :=
  text.toList.count '\n'

def lastLine (text : String) : List Char :=
  text.toList.rtakeWhile (· != '\n')

end Text

open Text

def Point.inBytes (text : String) : Point :=
  ⟨breaks text, (Utf8.encode (lastLine text)).length⟩

/-- Where a text ends, if columns are UTF-16 code units. -/
def Point.inUnits (text : String) : Point :=
  ⟨breaks text, units (lastLine text)⟩

theorem Point.inBytes_eq_inUnits {text : String} :
    inBytes text = inUnits text ↔ ∀ c ∈ lastLine text, c.toNat < 0x80 := by
  rw [← units_eq_iff, inBytes, inUnits, Point.mk.injEq]
  omega

theorem Source.Spot.point_after (text : String) : (zero.after text).point = .inBytes text := by
  have hfold : ∀ cs : List Char, (cs.foldl afterChar zero).row = cs.count '\n' ∧
      (cs.foldl afterChar zero).column = (Utf8.encode (cs.rtakeWhile (· != '\n'))).length := by
    intro cs
    induction cs using List.reverseRecOn with
    | nil => exact ⟨rfl, rfl⟩
    | append_singleton cs c ih =>
      obtain ⟨hrow, hcolumn⟩ := ih
      rw [List.foldl_concat, afterChar]
      by_cases hc : c = '\n'
      · subst hc
        refine ⟨by simp [hrow], ?_⟩
        rw [List.rtakeWhile_concat_neg _ _ _ (by decide)]
        rfl
      · rw [List.rtakeWhile_concat_pos _ _ _ (by simpa using hc)]
        simp [hc, hrow, hcolumn, Utf8.encode, String.length_utf8EncodeChar]
  obtain ⟨hrow, hcolumn⟩ := hfold text.toList
  simp only [point, after, hrow, hcolumn]
  rfl

end CodeAtlas
