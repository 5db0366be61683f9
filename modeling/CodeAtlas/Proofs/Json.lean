import CodeAtlas.Json.Access

namespace CodeAtlas

theorem Number.unitsOf_ofInt (n : Int) :
    Number.unitsOf (decide (n < 0)) n.natAbs 0 (min 0 0) = n := by
  have hsize : (n.natAbs : Int) * (Nat.pow 2 (0 - min 0 0 : Int).toNat : Nat) = n.natAbs :=
    Int.mul_one _
  simp only [Number.unitsOf, hsize, decide_eq_true_eq]
  split <;> omega

theorem Number.order?_ofInt (m n : Int) :
    (Number.ofInt m).order? (Number.ofInt n) = some (compare m n) := by
  simp only [Number.ofInt, Number.order?, Number.unitsOf_ofInt]

namespace Json

@[simp] theorem agrees_int (m n : Int) : (Json.int m).agrees (.int n) = decide (m = n) := by
  simp only [agrees, number?, Number.order?_ofInt]
  by_cases h : m = n
  · simp [h]
  · simp [h]

@[simp] theorem same_int (m n : Int) : (Json.int m).same (.int n) = decide (m = n) := by
  simp [same, isUndefined]

theorem order_int (m n : Int) : (Json.int m).order (.int n) = .ok (some (compare m n)) := by
  simp only [order, number?, Number.order?_ofInt]

@[simp] theorem lt_int (m n : Int) : (Json.int m).lt (.int n) = .ok (decide (m < n)) := by
  have hlt : (some (compare m n) == some Ordering.lt) = decide (m < n) := by
    apply Bool.eq_iff_iff.mpr
    simp [Int.compare_eq_lt]
  rw [lt, order_int, ← hlt]
  rfl

@[simp] theorem le_int (m n : Int) : (Json.int m).le (.int n) = .ok (decide (m ≤ n)) := by
  have hle : (some (compare m n) == some Ordering.lt || some (compare m n) == some Ordering.eq) =
      decide (m ≤ n) := by
    apply Bool.eq_iff_iff.mpr
    simp [Int.compare_eq_lt, Int.le_iff_lt_or_eq]
  rw [le, order_int, ← hle]
  rfl

@[simp] theorem agrees_str (a b : String) : (Json.str a).agrees (.str b) = (a == b) := by
  simp [agrees]

@[simp] theorem same_str (a b : String) : (Json.str a).same (.str b) = (a == b) := by
  simp [same, isUndefined]

theorem same_str_iff {a : String} {value : Json} :
    (Json.str a).same value = true ↔ value = .str a := by
  cases value with
  | str b => rw [same_str, beq_iff_eq, Json.str.injEq, eq_comm]
  | _ => simp [same, isUndefined, agrees, number?]

def texts (values : List Json) : List String :=
  values.filterMap fun
    | .str text => some text
    | _ => none

theorem mem_texts {values : List Json} {text : String} :
    text ∈ texts values ↔ .str text ∈ values := by
  simp only [texts, List.mem_filterMap]
  constructor
  · rintro ⟨value, hvalue, h⟩
    split at h <;> cases h
    exact hvalue
  · exact fun h => ⟨_, h, rfl⟩

@[simp] theorem texts_map_str (texts' : List String) : texts (texts'.map .str) = texts' := by
  induction texts' with
  | nil => rfl
  | cons text rest ih => simp_all [texts]

theorem texts_append (values values' : List Json) :
    texts (values ++ values') = texts values ++ texts values' :=
  List.filterMap_append

theorem any_same_str {values : List Json} {text : String} :
    values.any (Json.str text).same = true ↔ text ∈ texts values := by
  rw [List.any_eq_true, mem_texts]
  constructor
  · rintro ⟨value, hvalue, h⟩
    rwa [← same_str_iff.mp h]
  · exact fun h => ⟨_, h, same_str_iff.mpr rfl⟩

end Json
end CodeAtlas
