import CodeAtlas.Fault
import Mathlib.Data.List.Basic
import Mathlib.Data.List.Forall2

namespace CodeAtlas

/-- Does an item stand in a list, and are those before it all quiet? -/
def Reached {α : Type} (quiet : α → Prop) (xs : List α) (x : α) : Prop :=
  ∃ before after, xs = before ++ x :: after ∧ ∀ y ∈ before, quiet y

section
variable {α : Type} {quiet : α → Prop} {x y : α} {xs : List α}

theorem not_reached_nil : ¬Reached quiet [] x := by
  rintro ⟨before, after, h, -⟩
  simp at h

theorem reached_cons : Reached quiet (y :: xs) x ↔ x = y ∨ quiet y ∧ Reached quiet xs x := by
  constructor
  · rintro ⟨before, after, h, hquiet⟩
    cases before with
    | nil => exact .inl (List.cons.inj h).1.symm
    | cons first before =>
      obtain ⟨rfl, rfl⟩ := List.cons.inj h
      obtain ⟨hy, hbefore⟩ := List.forall_mem_cons.mp hquiet
      exact .inr ⟨hy, before, after, rfl, hbefore⟩
  · rintro (rfl | ⟨hy, before, after, rfl, hbefore⟩)
    · exact ⟨[], xs, rfl, by simp⟩
    · exact ⟨y :: before, after, rfl, List.forall_mem_cons.mpr ⟨hy, hbefore⟩⟩

theorem Reached.mem (h : Reached quiet xs x) : x ∈ xs := by
  obtain ⟨before, after, rfl, -⟩ := h
  simp

theorem Reached.imp {quiet' : α → Prop} (h : Reached quiet xs x)
    (himp : ∀ y ∈ xs, quiet y → quiet' y) : Reached quiet' xs x := by
  obtain ⟨before, after, rfl, hbefore⟩ := h
  exact ⟨before, after, rfl, fun y hy => himp y (List.mem_append_left _ hy) (hbefore y hy)⟩

/-- What is reached stands no later than anything that is not quiet. -/
theorem Reached.mem_left {ys : List α} (h : Reached quiet (xs ++ ys) x) (hy : y ∈ xs)
    (hloud : ¬quiet y) : x ∈ xs := by
  obtain ⟨before, after, heq, hquiet⟩ := h
  rcases List.append_eq_append_iff.mp heq with ⟨rest, rfl, -⟩ | ⟨rest, rfl, hrest⟩
  · exact absurd (hquiet y (List.mem_append_left _ hy)) hloud
  · cases rest with
    | nil =>
      rw [List.append_nil] at hy
      exact absurd (hquiet y hy) hloud
    | cons first rest =>
      obtain ⟨rfl, -⟩ := List.cons.inj hrest
      simp

end

namespace Outcome
variable {ε α β : Type}

@[simp] theorem bind_eq_ok {x : Except ε α} {f : α → Except ε β} {b : β} :
    (x >>= f) = .ok b ↔ ∃ a, x = .ok a ∧ f a = .ok b := by
  cases x with
  | ok a => simp [bind, Except.bind]
  | error e => simp [bind, Except.bind]

@[simp] theorem map_eq_ok {x : Except ε α} {f : α → β} {b : β} :
    (f <$> x) = .ok b ↔ ∃ a, x = .ok a ∧ f a = b := by
  cases x with
  | ok a => simp [Functor.map, Except.map]
  | error e => simp [Functor.map, Except.map]

@[simp] theorem pure_eq_ok {a b : α} : (pure a : Except ε α) = .ok b ↔ a = b := by
  simp [pure, Except.pure]

/-- What does not tell two results apart goes on alike from outcomes that a function does not tell
apart. -/
theorem bind_congr_of_map {γ : Type} {x x' : Except ε α} {f : α → γ} {g : α → Except ε β}
    (h : f <$> x = f <$> x') (hg : ∀ a a', f a = f a' → g a = g a') : (x >>= g) = (x' >>= g) := by
  cases x with
  | error e =>
    cases x' with
    | error e' =>
      cases h
      rfl
    | ok a' => cases h
  | ok a =>
    cases x' with
    | error e' => cases h
    | ok a' => exact hg a a' (Except.ok.inj h)

theorem eq_ok_of_toOption {x : Except ε α} {a : α} (h : x.toOption = some a) : x = .ok a := by
  cases x with
  | ok b => exact congrArg Except.ok (Option.some.inj h)
  | error e => cases h

theorem pair_eq_of_toOption {σ : Type} {p : Except ε α × σ} {a : α}
    (h : p.1.toOption = some a) : p = (.ok a, p.2) :=
  Prod.ext (eq_ok_of_toOption h) rfl

/-- The fault that a computation ends in, if any. -/
def fault? : Except ε α → Option ε
  | .ok _ => none
  | .error e => some e

theorem eq_error_of_fault? {x : Except ε α} {e : ε} (h : fault? x = some e) : x = .error e := by
  cases x with
  | ok a => cases h
  | error e' => exact congrArg Except.error (Option.some.inj h)

theorem isOk_iff {x : Except ε α} : x.isOk = true ↔ ∃ a, x = .ok a := by
  cases x <;> simp [Except.isOk, Except.toBool]

theorem exists_ok_iff {x : Except ε α} : (∃ a, x = .ok a) ↔ ∀ e, x ≠ .error e := by
  cases x <;> simp

theorem mapM_eq_ok {f : α → Except ε β} {xs : List α} {ys : List β} :
    xs.mapM f = .ok ys ↔ List.Forall₂ (fun x y => f x = .ok y) xs ys := by
  induction xs generalizing ys with
  | nil => cases ys <;> simp
  | cons x xs ih =>
    rw [List.mapM_cons, List.forall₂_cons_left_iff]
    simp only [bind_eq_ok, pure_eq_ok, ih]
    constructor
    · rintro ⟨y, hy, ys, hys, rfl⟩
      exact ⟨y, ys, hy, hys, rfl⟩
    · rintro ⟨y, ys, hy, hys, rfl⟩
      exact ⟨y, hy, ys, hys, rfl⟩

theorem mapM_congr_of_map {γ : Type} {f : α → γ} {g : α → Except ε β} {xs xs' : List α}
    (hg : ∀ a a', f a = f a' → g a = g a') (h : xs.map f = xs'.map f) : xs.mapM g = xs'.mapM g := by
  induction xs generalizing xs' with
  | nil =>
    cases xs' with
    | nil => rfl
    | cons x' xs' => cases h
  | cons x xs ih =>
    cases xs' with
    | nil => cases h
    | cons x' xs' =>
      obtain ⟨hx, hxs⟩ := List.cons.inj h
      rw [List.mapM_cons, List.mapM_cons, hg x x' hx, ih hxs]

theorem mem_iff_of_mapM_eq_ok {f : α → Except ε β} {xs : List α} {ys : List β}
    (h : xs.mapM f = .ok ys) {y : β} : y ∈ ys ↔ ∃ x ∈ xs, f x = .ok y := by
  have hall := mapM_eq_ok.mp h
  clear h
  induction hall with
  | nil => simp
  | cons hx _ ih => simp [ih, hx, eq_comm]

theorem exists_of_forall₂ {R : α → β → Prop} {xs : List α} {ys : List β}
    (h : List.Forall₂ R xs ys) {y : β} (hy : y ∈ ys) : ∃ x ∈ xs, R x y := by
  induction h with
  | nil => cases hy
  | cons hx _ ih =>
    rcases List.mem_cons.mp hy with rfl | hy
    · exact ⟨_, List.mem_cons_self, hx⟩
    · obtain ⟨x, hmem, hr⟩ := ih hy
      exact ⟨x, List.mem_cons_of_mem _ hmem, hr⟩

theorem mem_of_mapM_eq_ok {f : α → Except ε β} {xs : List α} {ys : List β} (h : xs.mapM f = .ok ys)
    {y : β} (hy : y ∈ ys) : ∃ x ∈ xs, f x = .ok y :=
  exists_of_forall₂ (mapM_eq_ok.mp h) hy

theorem exists_of_mapM_eq_ok {f : α → Except ε β} {xs : List α} {ys : List β}
    (h : xs.mapM f = .ok ys) {x : α} (hx : x ∈ xs) : ∃ y, f x = .ok y := by
  have hall := mapM_eq_ok.mp h
  clear h
  induction hall with
  | nil => cases hx
  | cons hy _ ih =>
    rcases List.mem_cons.mp hx with rfl | hx
    · exact ⟨_, hy⟩
    · exact ih hx

theorem flatten_of_mapM_eq_ok {f : α → Except ε (List β)} {xs : List α} {ys : List (List β)}
    (h : xs.mapM f = .ok ys) : ys.flatten = xs.flatMap fun x => (f x).toOption.getD [] := by
  have hall := mapM_eq_ok.mp h
  clear h
  induction hall with
  | nil => rfl
  | cons hx _ ih => simp [hx, ih, Except.toOption]

theorem exists_mapM_forall₂ {f : α → Except ε β} {P : α → β → Prop} {xs : List α}
    (h : ∀ x ∈ xs, ∃ y, f x = .ok y ∧ P x y) :
    ∃ ys, xs.mapM f = .ok ys ∧ List.Forall₂ P xs ys := by
  induction xs with
  | nil => exact ⟨[], rfl, .nil⟩
  | cons x xs ih =>
    obtain ⟨⟨y, hy, hp⟩, hxs⟩ := List.forall_mem_cons.mp h
    obtain ⟨ys, hys, hps⟩ := ih hxs
    exact ⟨y :: ys, mapM_eq_ok.mpr (.cons hy (mapM_eq_ok.mp hys)), .cons hp hps⟩

theorem exists_mapM_eq_ok {f : α → Except ε β} {xs : List α} (h : ∀ x ∈ xs, ∃ y, f x = .ok y) :
    ∃ ys, xs.mapM f = .ok ys := by
  obtain ⟨ys, hys, -⟩ := exists_mapM_forall₂ (P := fun _ _ => True) fun x hx =>
    (h x hx).imp fun _ hy => ⟨hy, trivial⟩
  exact ⟨ys, hys⟩

/-- A list comes to the fault of the first item that has one. -/
theorem mapM_eq_error {f : α → Except ε β} {xs : List α} {fault : ε} :
    xs.mapM f = .error fault ↔
      ∃ x, Reached (fun y => ∀ e, f y ≠ .error e) xs x ∧ f x = .error fault := by
  induction xs with
  | nil => simp [not_reached_nil, pure, Except.pure]
  | cons x xs ih =>
    simp only [List.mapM_cons, reached_cons, or_and_right, exists_or, exists_eq_left]
    cases hx : f x with
    | error e => simp [bind, Except.bind]
    | ok y =>
      simp only [bind, Except.bind, reduceCtorEq, ne_eq, not_false_eq_true, implies_true,
        true_and, false_or, ← ih]
      cases xs.mapM f <;> simp [pure, Except.pure]

/-- Whether a loop comes to a result may be known step by step, whatever is carried along. -/
theorem isOk_foldlM_congr {f g : β → α → Except ε β} {xs : List α}
    (h : ∀ x ∈ xs, ∀ b b', (f b x).isOk = (g b' x).isOk) (b b' : β) :
    (xs.foldlM f b).isOk = (xs.foldlM g b').isOk := by
  induction xs generalizing b b' with
  | nil => rfl
  | cons x xs ih =>
    obtain ⟨hx, hxs⟩ := List.forall_mem_cons.mp h
    specialize hx b b'
    rw [List.foldlM_cons, List.foldlM_cons]
    cases hf : f b x <;> cases hg : g b' x <;> rw [hf, hg] at hx
    · rfl
    · cases hx
    · cases hx
    · exact ih hxs _ _

/-- To leave out items is to leave out their results. -/
theorem mapM_filter {f : α → Except ε β} {p : α → Bool} {q : β → Bool} {xs : List α} {ys : List β}
    (h : xs.mapM f = .ok ys) (hpq : ∀ x y, f x = .ok y → q y = p x) :
    (xs.filter p).mapM f = .ok (ys.filter q) := by
  rw [mapM_eq_ok] at h ⊢
  induction h with
  | nil => simp
  | @cons x y xs ys hx _ ih =>
    rw [List.filter_cons, List.filter_cons, hpq x y hx]
    split
    · exact .cons hx ih
    · exact ih

def isYes : Except ε Bool → Bool
  | .ok answer => answer
  | .error _ => false

theorem filterAuxM_eq_ok {f : α → Except ε Bool} {xs acc ys : List α} :
    xs.filterAuxM f acc = .ok ys ↔
      (∀ x ∈ xs, ∃ b, f x = .ok b) ∧ ys = (xs.filter fun x => isYes (f x)).reverse ++ acc := by
  induction xs generalizing acc with
  | nil => simpa [List.filterAuxM] using eq_comm
  | cons x xs ih =>
    rw [List.filterAuxM, List.forall_mem_cons]
    simp only [bind_eq_ok, ih]
    constructor
    · rintro ⟨b, hb, hxs, rfl⟩
      refine ⟨⟨⟨b, hb⟩, hxs⟩, ?_⟩
      cases b <;> simp [hb, isYes]
    · rintro ⟨⟨⟨b, hb⟩, hxs⟩, rfl⟩
      refine ⟨b, hb, hxs, ?_⟩
      cases b <;> simp [hb, isYes]

/-- A filter that came to a result had an answer for each item. -/
theorem filterM_eq_ok {f : α → Except ε Bool} {xs ys : List α} :
    xs.filterM f = .ok ys ↔
      (∀ x ∈ xs, ∃ b, f x = .ok b) ∧ ys = xs.filter fun x => isYes (f x) := by
  simp only [List.filterM, bind_eq_ok, pure_eq_ok, filterAuxM_eq_ok]
  constructor
  · rintro ⟨_, ⟨hxs, rfl⟩, rfl⟩
    exact ⟨hxs, by simp⟩
  · rintro ⟨hxs, rfl⟩
    exact ⟨_, ⟨hxs, rfl⟩, by simp⟩

end Outcome
end CodeAtlas
