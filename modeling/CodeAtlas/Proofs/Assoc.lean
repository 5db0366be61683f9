import CodeAtlas.Assoc

namespace CodeAtlas.Assoc
variable {α β : Type}

section
variable [BEq α]

theorem mem_insert {m : Assoc α β} {key : α} {value : β} {e : α × β}
    (h : e ∈ insert m key value) : e ∈ m ∨ e.2 = value ∧ (e.1 = key ∨ ∃ v, (e.1, v) ∈ m) := by
  induction m with
  | nil =>
    simp only [insert, List.mem_singleton] at h
    subst h
    exact Or.inr ⟨rfl, Or.inl rfl⟩
  | cons first rest ih =>
    simp only [insert] at h
    split at h
    · rcases List.mem_cons.mp h with he | hm
      · subst he
        exact Or.inr ⟨rfl, Or.inr ⟨first.2, by simp⟩⟩
      · exact Or.inl (List.mem_cons_of_mem _ hm)
    · rcases List.mem_cons.mp h with he | hm
      · exact Or.inl (by simp [he])
      · rcases ih hm with h | ⟨hv, hk | ⟨v, hv'⟩⟩
        · exact Or.inl (List.mem_cons_of_mem _ h)
        · exact Or.inr ⟨hv, Or.inl hk⟩
        · exact Or.inr ⟨hv, Or.inr ⟨v, List.mem_cons_of_mem _ hv'⟩⟩

theorem insert_ne_nil (m : Assoc α β) (key : α) (value : β) : insert m key value ≠ [] := by
  cases m with
  | nil => simp [insert]
  | cons first rest => simp only [insert]; split <;> simp

theorem foldl_insert_ne_nil {m : Assoc α β} {key : α} {values : List β}
    (h : values ≠ [] ∨ m ≠ []) : values.foldl (fun m v => insert m key v) m ≠ [] := by
  induction values generalizing m with
  | nil => simpa using h
  | cons v values ih => exact ih (Or.inr (insert_ne_nil m key v))

/-- Values that are inserted under one key keep company with what stood there. -/
theorem forall_mem_foldl_insert {m : Assoc α β} {key : α} {P : β → Prop} {values : List β}
    (hm : ∀ e ∈ m, e.1 = key ∧ P e.2) (hv : ∀ v ∈ values, P v) :
    ∀ e ∈ values.foldl (fun m v => insert m key v) m, e.1 = key ∧ P e.2 := by
  induction values generalizing m with
  | nil => exact hm
  | cons v values ih =>
    refine ih ?_ (fun w hw => hv w (List.mem_cons_of_mem _ hw))
    intro e he
    rcases mem_insert he with hold | ⟨hval, hkey | ⟨w, hw⟩⟩
    · exact hm e hold
    · exact ⟨hkey, hval ▸ hv v (by simp)⟩
    · exact ⟨(hm _ hw).1, hval ▸ hv v (by simp)⟩

theorem mem_of_get? {m : Assoc α β} {key : α} {value : β} (h : get? m key = some value) :
    ∃ k, (k, value) ∈ m ∧ (k == key) = true := by
  simp only [get?, Option.map_eq_some_iff] at h
  obtain ⟨⟨k, v⟩, hf, hv⟩ := h
  subst hv
  exact ⟨k, List.mem_of_find?_eq_some hf, by simpa using List.find?_some hf⟩

theorem get?_eq_none_iff {m : Assoc α β} {key : α} :
    get? m key = none ↔ ∀ e ∈ m, ¬(e.1 == key) = true := by
  simp [get?]

/-- Keys may be equal without being one, as long as what equals one of the two keys in question
equals what that key does. -/
theorem get?_insert_of_congr (m : Assoc α β) {key other : α} (value : β)
    (hkey : ∀ k, (k == key) = true → (k == other) = (key == other))
    (hother : ∀ k, (k == other) = true → (k == key) = (key == other)) :
    get? (insert m key value) other = if key == other then some value else get? m other := by
  induction m with
  | nil => cases heq : key == other <;> simp [insert, get?, heq]
  | cons first rest ih =>
    simp only [insert]
    split
    · rename_i hfirst
      cases heq : key == other <;> simp [get?, hkey _ hfirst, heq]
    · rename_i hfirst
      cases hfound : first.1 == other with
      | false => simpa [get?, hfound] using ih
      | true =>
        rw [hother _ hfound] at hfirst
        simp [get?, hfound, hfirst]

theorem get?_erase_of_congr (m : Assoc α β) {key other : α}
    (h : ∀ k, (k == other) = true → (k == key) = false) :
    get? (erase m key) other = get? m other := by
  induction m with
  | nil => rfl
  | cons first rest ih =>
    cases hfound : first.1 == other with
    | true => simp [erase, get?, hfound, h _ hfound]
    | false =>
      cases hkey : first.1 == key with
      | true => simpa [erase, get?, hfound, hkey] using ih
      | false => simpa [erase, get?, hfound, hkey] using ih

/-- Of several values under one key the last is found. -/
theorem get?_foldl_insert (keyOf : β → α) {other : α} (values : List β)
    (hkey : ∀ v ∈ values, ∀ k, (k == keyOf v) = true → (k == other) = (keyOf v == other))
    (hother : ∀ v ∈ values, ∀ k, (k == other) = true → (k == keyOf v) = (keyOf v == other))
    (m : Assoc α β) :
    get? (values.foldl (fun m v => insert m (keyOf v) v) m) other =
      ((values.filter fun v => keyOf v == other).getLast?).or (get? m other) := by
  induction values generalizing m with
  | nil => rfl
  | cons v values ih =>
    obtain ⟨hv, hkey⟩ := List.forall_mem_cons.mp hkey
    obtain ⟨hv', hother⟩ := List.forall_mem_cons.mp hother
    rw [List.foldl_cons, ih hkey hother, get?_insert_of_congr m v hv hv', List.filter_cons]
    cases heq : keyOf v == other with
    | false => rfl
    | true =>
      rw [if_pos rfl, if_pos rfl]
      cases values.filter fun v => keyOf v == other with
      | nil => rfl
      | cons w ws => simp [List.getLast?_cons]

end

section
variable [BEq α] [LawfulBEq α]

theorem eq_or_mem_of_mem_insert {m : Assoc α β} {key : α} {value : β} {e : α × β}
    (h : e ∈ insert m key value) : e = (key, value) ∨ e ∈ m := by
  induction m with
  | nil => simpa [insert] using h
  | cons first rest ih =>
    simp only [insert] at h
    split at h
    · rename_i hkey
      rw [beq_iff_eq] at hkey
      rw [hkey] at h
      exact (List.mem_cons.mp h).imp_right (List.mem_cons_of_mem _)
    · rcases List.mem_cons.mp h with rfl | h
      · exact Or.inr (by simp)
      · exact (ih h).imp_right (List.mem_cons_of_mem _)

theorem get?_insert_self (m : Assoc α β) (key : α) (value : β) :
    get? (insert m key value) key = some value := by
  induction m with
  | nil => simp [insert, get?]
  | cons first rest ih =>
    simp only [insert]
    split
    · simp_all [get?]
    · simpa [get?, *] using ih

theorem get?_insert_of_ne (m : Assoc α β) {key other : α} (value : β) (h : other ≠ key) :
    get? (insert m key value) other = get? m other := by
  induction m with
  | nil => simp [insert, get?, h.symm]
  | cons first rest ih =>
    simp only [insert]
    split
    · rename_i hkey
      rw [beq_iff_eq] at hkey
      simp [get?, hkey, h.symm]
    · by_cases hother : first.1 = other
      · simp [get?, hother]
      · simpa [get?, hother] using ih

theorem get?_insert (m : Assoc α β) (key other : α) (value : β) :
    get? (insert m key value) other = if other == key then some value else get? m other := by
  by_cases h : other = key
  · subst h
    simp [get?_insert_self]
  · simp [get?_insert_of_ne m value h, h]

/-- Of two values under one key the later one counts. -/
theorem insert_insert (m : Assoc α β) (key : α) (value value' : β) :
    insert (insert m key value) key value' = insert m key value' := by
  induction m with
  | nil => simp [insert]
  | cons first rest ih => by_cases hkey : (first.1 == key) = true <;> simp [insert, hkey, ih]

omit [LawfulBEq α] in
/-- The value that is already there changes nothing. -/
theorem insert_of_get? {m : Assoc α β} {key : α} {value : β} (h : get? m key = some value) :
    insert m key value = m := by
  induction m with
  | nil => cases h
  | cons first rest ih =>
    rw [get?, List.find?_cons] at h
    rw [insert]
    split at h
    · rename_i hkey
      rw [if_pos hkey, ← Option.some.inj h]
    · rename_i hkey
      rw [if_neg (by simp [hkey]), ih h]

theorem keys_insert (m : Assoc α β) (key : α) (value : β) :
    keys (insert m key value) = if key ∈ keys m then keys m else keys m ++ [key] := by
  induction m with
  | nil => simp [insert, keys]
  | cons first rest ih =>
    simp only [insert]
    split
    · simp_all [keys]
    · rename_i hkey
      rw [beq_iff_eq] at hkey
      simp only [keys, List.map_cons] at ih ⊢
      rw [ih]
      by_cases hmem : key ∈ rest.map Prod.fst
      · simp [hmem]
      · simp [hmem, Ne.symm hkey]

theorem mem_keys_insert {m : Assoc α β} {key other : α} {value : β} :
    other ∈ keys (insert m key value) ↔ other = key ∨ other ∈ keys m := by
  rw [keys_insert]
  split
  · rename_i hold
    exact ⟨Or.inr, fun h => h.elim (fun h => h ▸ hold) fun h => h⟩
  · simp [or_comm]

theorem nodup_keys_insert {m : Assoc α β} {key : α} {value : β} (h : (keys m).Nodup) :
    (keys (insert m key value)).Nodup := by
  rw [keys_insert]
  split
  · exact h
  · rename_i hkey
    rw [List.nodup_append]
    refine ⟨h, by simp, fun a ha b hb hab => hkey ?_⟩
    rw [List.mem_singleton] at hb
    rwa [← hb, ← hab]

/-- A new key stands at the end. -/
theorem insert_of_not_mem {m : Assoc α β} {key : α} (value : β) (h : key ∉ keys m) :
    insert m key value = m ++ [(key, value)] := by
  induction m with
  | nil => rfl
  | cons first rest ih =>
    simp only [keys, List.map_cons, List.mem_cons, not_or] at h
    have hne : (first.1 == key) = false := by simpa using Ne.symm h.1
    rw [insert, hne, if_neg (by simp), ih h.2, List.cons_append]

/-- What is inserted one after the other stands at the end, if all keys are new. -/
theorem foldl_insert_of_nodup {m added : Assoc α β} (h : (keys m ++ keys added).Nodup) :
    added.foldl (fun m e => insert m e.1 e.2) m = m ++ added := by
  induction added generalizing m with
  | nil => simp
  | cons e added ih =>
    have hnew : e.1 ∉ keys m := fun hmem =>
      (List.nodup_append.mp h).2.2 e.1 hmem e.1 List.mem_cons_self rfl
    have hinsert := insert_of_not_mem e.2 hnew
    rw [List.foldl_cons, hinsert, ih (by simpa [keys] using h), List.append_assoc]
    rfl

theorem mem_of_mem_foldl_insert {m added : Assoc α β} {e : α × β}
    (h : e ∈ added.foldl (fun m e => insert m e.1 e.2) m) : e ∈ m ∨ e ∈ added := by
  induction added generalizing m with
  | nil => exact Or.inl h
  | cons first added ih =>
    rcases ih h with hm | hadded
    · rcases eq_or_mem_of_mem_insert hm with rfl | hm
      · exact Or.inr List.mem_cons_self
      · exact Or.inl hm
    · exact Or.inr (List.mem_cons_of_mem _ hadded)

theorem mem_keys_foldl_insert {m added : Assoc α β} {key : α} :
    key ∈ keys (added.foldl (fun m e => insert m e.1 e.2) m) ↔ key ∈ keys m ∨ key ∈ keys added := by
  induction added generalizing m with
  | nil => simp [keys]
  | cons first added ih =>
    rw [List.foldl_cons, ih, mem_keys_insert]
    simp [keys, or_assoc, or_left_comm]

theorem nodup_keys_foldl_insert {m added : Assoc α β} (h : (keys m).Nodup) :
    (keys (added.foldl (fun m e => insert m e.1 e.2) m)).Nodup := by
  induction added generalizing m with
  | nil => exact h
  | cons first added ih => exact ih (nodup_keys_insert h)

theorem mem_keys_of_get? {m : Assoc α β} {key : α} {value : β} (h : get? m key = some value) :
    key ∈ keys m := by
  obtain ⟨k, hk, hkey⟩ := mem_of_get? h
  exact List.mem_map.mpr ⟨(k, value), hk, eq_of_beq hkey⟩

theorem get?_eq_some_iff_mem {m : Assoc α β} (h : (keys m).Nodup) {key : α} {value : β} :
    get? m key = some value ↔ (key, value) ∈ m := by
  constructor
  · intro hget
    obtain ⟨k, hmem, hk⟩ := mem_of_get? hget
    rwa [← eq_of_beq hk]
  · intro hmem
    induction m with
    | nil => cases hmem
    | cons first rest ih =>
      obtain ⟨hfirst, hrest⟩ := List.nodup_cons.mp h
      rcases List.mem_cons.mp hmem with rfl | hmem
      · simp [get?]
      · have hne : first.1 ≠ key := by
          rintro rfl
          exact hfirst (List.mem_map.mpr ⟨_, hmem, rfl⟩)
        simpa [get?, hne] using ih hrest hmem

/-- What is done to all values is done to the value that is looked up. -/
theorem get?_map (f : α → β → β) (m : Assoc α β) (key : α) :
    get? (m.map fun e => (e.1, f e.1 e.2)) key = (get? m key).map (f key) := by
  rw [get?, get?, List.find?_map, Option.map_map, Option.map_map]
  change Option.map _ (m.find? fun e => e.1 == key) = _
  cases hfound : m.find? fun e => e.1 == key with
  | none => rfl
  | some e =>
    have hkey : e.1 = key := by simpa using List.find?_some hfound
    rw [Option.map_some, Option.map_some, ← hkey]
    rfl

theorem contains_iff {m : Assoc α β} {key : α} : contains m key = true ↔ (get? m key).isSome := by
  simp [contains, get?]

end
end CodeAtlas.Assoc
