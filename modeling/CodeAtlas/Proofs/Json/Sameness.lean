import CodeAtlas.Proofs.Json
import Mathlib.Algebra.Field.Rat
import Mathlib.Algebra.Order.Field.Rat
import Mathlib.Tactic.NormNum

namespace CodeAtlas

namespace Number

def rational (negative : Bool) (mantissa : Nat) (exponent : Int) : ℚ :=
  (if negative then -(mantissa : ℚ) else mantissa) * 2 ^ exponent

theorem unitsOf_mul (negative : Bool) (mantissa : Nat) {exponent least : Int}
    (h : least ≤ exponent) :
    (unitsOf negative mantissa exponent least : ℚ) * 2 ^ least =
      rational negative mantissa exponent := by
  have hcast : ((Nat.pow 2 (exponent - least).toNat : Nat) : ℚ) = 2 ^ (exponent - least) := by
    have hexp : ((exponent - least).toNat : Int) = exponent - least := by omega
    rw [← hexp, zpow_natCast]
    exact Nat.cast_pow 2 _
  have hpow : (2 : ℚ) ^ (exponent - least) * 2 ^ least = 2 ^ exponent := by
    rw [← zpow_add₀ (by norm_num), Int.sub_add_cancel]
  cases negative with
  | false =>
    simp only [unitsOf, rational, Bool.false_eq_true, if_false, Int.cast_mul, Int.cast_natCast]
    rw [hcast, mul_assoc, hpow]
  | true =>
    simp only [unitsOf, rational, if_true, Int.cast_neg, Int.cast_mul, Int.cast_natCast]
    rw [hcast, neg_mul, neg_mul, mul_assoc, hpow]

theorem order?_finite_eq {s t : Bool} {m n : Nat} {e f : Int} :
    (finite s m e).order? (finite t n f) = some .eq ↔ rational s m e = rational t n f := by
  have hs := unitsOf_mul s m (Int.min_le_left e f)
  have ht := unitsOf_mul t n (Int.min_le_right e f)
  have hne : (2 : ℚ) ^ min e f ≠ 0 := zpow_ne_zero _ (by norm_num)
  simp only [order?, Option.some.injEq, compare_eq_iff_eq]
  rw [← hs, ← ht, mul_left_inj' hne, Int.cast_inj]

theorem order?_infinite_eq {a b : Bool} :
    (infinite a).order? (infinite b) = some .eq ↔ a = b := by
  cases a <;> cases b <;> decide

/-- Numbers of one value stand in the same order to every other. -/
theorem order?_eq_congr {x y : Number} (h : x.order? y = some .eq) (z : Number) :
    x.order? z = some .eq ↔ y.order? z = some .eq := by
  cases x with
  | undefined => simp [order?] at h
  | infinite a =>
    cases y with
    | undefined => simp [order?] at h
    | infinite b => rw [order?_infinite_eq.mp h]
    | finite t n f => cases a <;> simp [order?] at h
  | finite s m e =>
    cases y with
    | undefined => simp [order?] at h
    | infinite b => cases b <;> simp [order?] at h
    | finite t n f =>
      cases z with
      | undefined => simp [order?]
      | infinite c => simp [order?]
      | finite u k g =>
        rw [order?_finite_eq, order?_finite_eq, order?_finite_eq.mp h]

end Number

namespace Json

theorem agrees_number {a : Json} {x : Number} (ha : a.number? = some x) (b : Json) :
    a.agrees b = true ↔ ∃ y, b.number? = some y ∧ x.order? y = some .eq := by
  cases a with
  | bool v => cases b <;> simp_all [agrees, number?]
  | int n => cases b <;> simp_all [agrees, number?]
  | real r => cases b <;> simp_all [agrees, number?]
  | _ => simp [number?] at ha

theorem number?_of_agrees {a b : Json} {y : Number} (hb : b.number? = some y)
    (h : a.agrees b = true) : ∃ x, a.number? = some x ∧ x.order? y = some .eq := by
  cases b with
  | bool v => cases a <;> simp_all [agrees, number?]
  | int n => cases a <;> simp_all [agrees, number?]
  | real r => cases a <;> simp_all [agrees, number?]
  | _ => simp [number?] at hb

theorem isUndefined_iff {a : Json} : a.isUndefined = true ↔ a = .real .undefined := by
  unfold isUndefined
  split <;> simp_all

/-- What is the same as a key is the same as all that the key is the same as. -/
theorem same_congr {a b : Json} (hb : b.isKey = true) (h : a.same b = true) (c : Json) :
    a.same c = b.same c := by
  by_cases hu : b.isUndefined = true
  · -- only what is no number is the same as what is no number
    rw [isUndefined_iff] at hu
    have ha : a = .real .undefined := by
      subst hu
      cases a with
      | real x => cases x <;> simp_all [same, isUndefined, agrees, number?, Number.order?]
      | bool v =>
        cases v <;> simp [same, isUndefined, agrees, number?, Number.order?, Number.ofInt] at h
      | _ => simp [same, isUndefined, agrees, number?, Number.order?, Number.ofInt] at h
    rw [ha, hu]
  · have hab : a.agrees b = true := by simpa [same, hu] using h
    cases hy : b.number? with
    | some y =>
      obtain ⟨x, hx, hxy⟩ := number?_of_agrees hy hab
      have hua : a.isUndefined = false := by
        rw [Bool.eq_false_iff]
        intro hua
        rw [isUndefined_iff.mp hua] at hx
        cases hx
        simp [Number.order?] at hxy
      have hcongr : a.agrees c = true ↔ b.agrees c = true := by
        rw [agrees_number hx, agrees_number hy]
        simp only [Number.order?_eq_congr hxy]
      simp only [same, hua, hu, Bool.false_and, Bool.false_or]
      exact Bool.eq_iff_iff.mpr hcongr
    | none =>
      have heq : a = b := by
        cases b with
        | arr items => cases hb
        | obj members => cases hb
        | bool v => cases hy
        | int n => cases hy
        | real x => cases hy
        | null => cases a <;> simp_all [agrees, number?]
        | str s => cases a <;> simp_all [agrees, number?]
        | ragged codes => cases a <;> simp_all [agrees, number?]
      rw [heq]

theorem same_self {a : Json} (ha : a.isKey = true) : a.same a = true := by
  cases a with
  | real x =>
    cases x with
    | finite s m e => simp [same, isUndefined, agrees, number?, Number.order?]
    | infinite s => simp [same, isUndefined, agrees, number?, Number.order?]
    | undefined => rfl
  | bool v => cases v <;> decide
  | int n => simp
  | arr items => cases ha
  | obj members => cases ha
  | _ => simp [same, isUndefined, agrees]

theorem same_comm {a b : Json} (ha : a.isKey = true) (hb : b.isKey = true) :
    a.same b = b.same a := by
  apply Bool.eq_iff_iff.mpr
  constructor
  · intro h
    rw [← same_congr hb h a, same_self ha]
  · intro h
    rw [← same_congr ha h b, same_self hb]

end Json
end CodeAtlas
