import CodeAtlas.Action

namespace CodeAtlas.Action
variable {σ τ α β : Type}

@[simp] theorem perform_pure (a : α) (s : σ) : (pure a : Action σ α).perform s = (.ok a, s) := rfl

@[simp] theorem perform_get (s : σ) : (get : Action σ σ).perform s = (.ok s, s) := rfl

@[simp] theorem perform_set (s s' : σ) : (set s' : Action σ PUnit).perform s = (.ok ⟨⟩, s') := rfl

@[simp] theorem perform_modify (f : σ → σ) (s : σ) :
    (modify f : Action σ PUnit).perform s = (.ok ⟨⟩, f s) := rfl

@[simp] theorem perform_modifyGet (f : σ → α × σ) (s : σ) :
    (modifyGet f : Action σ α).perform s = (.ok (f s).1, (f s).2) := rfl

@[simp] theorem perform_throw (fault : Fault) (s : σ) :
    (throw fault : Action σ α).perform s = (.error fault, s) := rfl

@[simp] theorem perform_ofExcept (x : Except Fault α) (s : σ) :
    (ofExcept x : Action σ α).perform s = (x, s) := by
  cases x <;> rfl

@[simp] theorem perform_zoom (get : σ → τ) (set : σ → τ → σ) (act : Action τ α) (s : σ) :
    (act.zoom get set).perform s =
      ((act.perform (get s)).1, set s (act.perform (get s)).2) := rfl

@[simp] theorem perform_outcome (act : Action σ α) (s : σ) :
    act.outcome.perform s = (.ok (act.perform s).1, (act.perform s).2) := rfl

/-- A second action starts where the first came to, unless that was a fault. -/
theorem perform_bind (x : Action σ α) (f : α → Action σ β) (s : σ) :
    (x >>= f).perform s = match x.perform s with
      | (.ok a, s') => (f a).perform s'
      | (.error fault, s') => (.error fault, s') := by
  have hbind : (x >>= f).perform s =
      (ExceptT.bindCont f (x.perform s).1).run (x.perform s).2 := rfl
  rw [hbind]
  rcases x.perform s with ⟨_ | _, _⟩ <;> rfl

theorem perform_bind_of_ok {x : Action σ α} {f : α → Action σ β} {s s' : σ} {a : α}
    (h : x.perform s = (.ok a, s')) : (x >>= f).perform s = (f a).perform s' := by
  rw [perform_bind, h]

theorem perform_map (f : α → β) (x : Action σ α) (s : σ) :
    (f <$> x).perform s = ((x.perform s).1.map f, (x.perform s).2) := by
  rw [map_eq_pure_bind, perform_bind]
  rcases x.perform s with ⟨_ | _, _⟩ <;> rfl

/-- Reading a result leaves the state as it is. -/
theorem perform_bind_ofExcept_snd (x : Action σ α) (f : α → Except Fault β) (s : σ) :
    ((x >>= fun a => ofExcept (f a)).perform s).2 = (x.perform s).2 := by
  rw [perform_bind]
  rcases x.perform s with ⟨_ | _, _⟩ <;> simp

theorem perform_bind_pure_snd (x : Action σ α) (f : α → β) (s : σ) :
    ((x >>= fun a => pure (f a)).perform s).2 = (x.perform s).2 :=
  perform_bind_ofExcept_snd x (fun a => .ok (f a)) s

theorem exists_of_isOk {act : Action σ PUnit} {s : σ} (h : (act.perform s).1.isOk = true) :
    ∃ s', act.perform s = (.ok ⟨⟩, s') := by
  rcases hp : act.perform s with ⟨_ | _, s'⟩
  · rw [hp] at h
    cases h
  · exact ⟨s', rfl⟩

/-- What holds at the end of an action: of its result and the state after it, or of the state in
which a fault left it. -/
def Ends (act : Action σ α) (s : σ) (done : α → σ → Prop) (failed : σ → Prop) : Prop :=
  match act.perform s with
  | (.ok a, s') => done a s'
  | (.error _, s') => failed s'

section
variable {s : σ} {failed : σ → Prop}

theorem Ends.of_ok {act : Action σ α} {s' : σ} {a : α} {done : α → σ → Prop}
    (h : act.Ends s done failed) (hr : act.perform s = (.ok a, s')) : done a s' := by
  simpa only [Ends, hr] using h

/-- What holds whether or not there is a fault holds of the state at the end. -/
theorem Ends.snd {act : Action σ α} {P : σ → Prop} (h : act.Ends s (fun _ => P) P) :
    P (act.perform s).2 := by
  unfold Ends at h
  split at h <;> simp [*]

theorem Ends.mono {act : Action σ α} {done done' : α → σ → Prop} {failed' : σ → Prop}
    (h : act.Ends s done failed) (hd : ∀ a s', done a s' → done' a s')
    (hf : ∀ s', failed s' → failed' s') : act.Ends s done' failed' := by
  unfold Ends at h ⊢
  split
  · exact hd _ _ (by simpa [*] using h)
  · exact hf _ (by simpa [*] using h)

theorem Ends.and {act : Action σ α} {done done' : α → σ → Prop} {failed' : σ → Prop}
    (h : act.Ends s done failed) (h' : act.Ends s done' failed') :
    act.Ends s (fun a s' => done a s' ∧ done' a s') (fun s' => failed s' ∧ failed' s') := by
  unfold Ends at h h' ⊢
  split at h <;> rename_i hr <;> simp only [hr] at h' ⊢ <;> exact ⟨h, h'⟩

/-- An action that cannot end in a fault comes to a result. -/
theorem Ends.exists_ok {act : Action σ α} {done : α → σ → Prop}
    (h : act.Ends s done fun _ => False) : ∃ a s', act.perform s = (.ok a, s') ∧ done a s' := by
  unfold Ends at h
  rcases hr : act.perform s with ⟨fault | a, s'⟩
  · rw [hr] at h
    cases h
  · rw [hr] at h
    exact ⟨a, s', rfl, h⟩

theorem ends_iff {act : Action σ α} {done : α → σ → Prop} :
    act.Ends s done failed ↔ (∀ a s', act.perform s = (.ok a, s') → done a s') ∧
      ∀ fault s', act.perform s = (.error fault, s') → failed s' := by
  unfold Ends
  rcases act.perform s with ⟨fault | a, s'⟩ <;> simp

@[simp] theorem ends_pure {a : α} {done : α → σ → Prop} :
    (pure a : Action σ α).Ends s done failed ↔ done a s := Iff.rfl

@[simp] theorem ends_bind {x : Action σ α} {f : α → Action σ β} {done : β → σ → Prop} :
    (x >>= f).Ends s done failed ↔ x.Ends s (fun a s' => (f a).Ends s' done failed) failed := by
  unfold Ends
  rw [perform_bind]
  rcases x.perform s with ⟨_ | _, _⟩ <;> rfl

@[simp] theorem ends_get {done : σ → σ → Prop} :
    (get : Action σ σ).Ends s done failed ↔ done s s := Iff.rfl

@[simp] theorem ends_set {s' : σ} {done : PUnit → σ → Prop} :
    (set s' : Action σ PUnit).Ends s done failed ↔ done ⟨⟩ s' := Iff.rfl

@[simp] theorem ends_modify {f : σ → σ} {done : PUnit → σ → Prop} :
    (modify f : Action σ PUnit).Ends s done failed ↔ done ⟨⟩ (f s) := Iff.rfl

@[simp] theorem ends_modifyGet {f : σ → α × σ} {done : α → σ → Prop} :
    (modifyGet f : Action σ α).Ends s done failed ↔ done (f s).1 (f s).2 := Iff.rfl

@[simp] theorem ends_throw {fault : Fault} {done : α → σ → Prop} :
    (throw fault : Action σ α).Ends s done failed ↔ failed s := Iff.rfl

@[simp] theorem ends_outcome {act : Action σ α} {done : Except Fault α → σ → Prop} :
    act.outcome.Ends s done failed ↔ done (act.perform s).1 (act.perform s).2 := Iff.rfl

theorem ends_ofExcept {x : Except Fault α} {done : α → σ → Prop}
    (hd : ∀ a, x = .ok a → done a s) (hf : failed s) :
    (ofExcept x : Action σ α).Ends s done failed := by
  cases x with
  | ok a => exact hd a rfl
  | error fault => exact hf

@[simp] theorem ends_ofExcept_ok {a : α} {done : α → σ → Prop} :
    (ofExcept (.ok a) : Action σ α).Ends s done failed ↔ done a s := Iff.rfl

@[simp] theorem ends_zoom {get : σ → τ} {set : σ → τ → σ} {act : Action τ α}
    {done : α → σ → Prop} : (act.zoom get set).Ends s done failed ↔
      act.Ends (get s) (fun a part => done a (set s part)) (fun part => failed (set s part)) := by
  unfold Ends
  rw [perform_zoom]
  rcases act.perform (get s) with ⟨_ | _, _⟩ <;> rfl

theorem ends_snd (act : Action σ α) (s : σ) :
    act.Ends s (fun _ s' => s' = (act.perform s).2) (fun s' => s' = (act.perform s).2) := by
  unfold Ends
  split <;> simp [*]

theorem ends_self (act : Action σ α) (s : σ) :
    act.Ends s (fun _ s' => s' = (act.perform s).2) (fun _ => True) :=
  (ends_snd act s).mono (fun _ _ h => h) fun _ _ => trivial

theorem ends_isOk (act : Action σ α) (s : σ) :
    act.Ends s (fun _ _ => (act.perform s).1.isOk = true)
      (fun _ => (act.perform s).1.isOk = false) := by
  unfold Ends
  split <;> simp [*, Except.isOk, Except.toBool]

-- from here on an end is known by these rules only, whatever the action does on the way
attribute [irreducible] Ends

/-- A loop keeps an invariant that goes by what has been done so far. -/
theorem ends_forM {xs : List β} {f : β → Action σ PUnit} {I : List β → σ → Prop}
    (start : I [] s)
    (step : ∀ before x after, xs = before ++ x :: after → ∀ s, I before s →
      (f x).Ends s (fun _ s' => I (before ++ [x]) s') failed) :
    (xs.forM f).Ends s (fun _ s' => I xs s') failed := by
  suffices h : ∀ before after, xs = before ++ after → ∀ s, I before s →
      (after.forM f).Ends s (fun _ s' => I xs s') failed from h [] xs rfl s start
  intro before after hxs
  induction after generalizing before with
  | nil =>
    intro s hs
    change (pure PUnit.unit : Action σ PUnit).Ends s _ failed
    rw [ends_pure, hxs, List.append_nil]
    exact hs
  | cons x after ih =>
    intro s hs
    change (f x >>= fun _ => after.forM f).Ends s _ failed
    rw [ends_bind]
    refine (step before x after hxs s hs).mono (fun _ s' hs' => ?_) (fun _ h => h)
    exact ih (before ++ [x]) (by simp [hxs]) s' hs'

/-- A loop with results keeps an invariant that goes by what has been done and found so far. -/
theorem ends_mapM {xs : List β} {f : β → Action σ α} {I : List β → List α → σ → Prop}
    (start : I [] [] s)
    (step : ∀ before x after, xs = before ++ x :: after → ∀ found s, I before found s →
      (f x).Ends s (fun y s' => I (before ++ [x]) (found ++ [y]) s') failed) :
    (xs.mapM f).Ends s (fun found s' => I xs found s') failed := by
  suffices h : ∀ before after, xs = before ++ after → ∀ found s, I before found s →
      (after.mapM f).Ends s (fun more s' => I xs (found ++ more) s') failed from
    h [] xs rfl [] s start
  intro before after hxs
  induction after generalizing before with
  | nil =>
    intro found s hs
    rw [List.mapM_nil, ends_pure, hxs, List.append_nil, List.append_nil]
    exact hs
  | cons x after ih =>
    intro found s hs
    rw [List.mapM_cons, ends_bind]
    refine (step before x after hxs found s hs).mono (fun y s' hs' => ?_) (fun _ h => h)
    rw [ends_bind]
    refine (ih (before ++ [x]) (by simp [hxs]) (found ++ [y]) s' hs').mono ?_ (fun _ h => h)
    intro more s'' h
    rw [ends_pure]
    simpa using h

theorem ends_forM_keeps {xs : List β} {f : β → Action σ PUnit} {I : σ → Prop} (start : I s)
    (step : ∀ x ∈ xs, ∀ s, I s → (f x).Ends s (fun _ s' => I s') failed) :
    (xs.forM f).Ends s (fun _ s' => I s') failed :=
  ends_forM (I := fun _ => I) start fun before x after hxs =>
    step x (by simp [hxs])

end

/-- What holds at the end of an action, where this depends on the fault that it may end in. -/
def Settles (act : Action σ α) (s : σ) (done : α → σ → Prop) (failed : Fault → σ → Prop) : Prop :=
  (∀ a s', act.perform s = (.ok a, s') → done a s') ∧
    ∀ fault s', act.perform s = (.error fault, s') → failed fault s'

section
variable {s : σ} {failed : Fault → σ → Prop}

theorem Settles.mono {act : Action σ α} {done done' : α → σ → Prop} {failed' : Fault → σ → Prop}
    (h : act.Settles s done failed) (hd : ∀ a s', done a s' → done' a s')
    (hf : ∀ fault s', failed fault s' → failed' fault s') : act.Settles s done' failed' :=
  ⟨fun a s' hr => hd a s' (h.1 a s' hr), fun fault s' hr => hf fault s' (h.2 fault s' hr)⟩

theorem Settles.bind {x : Action σ α} {f : α → Action σ β} {done : β → σ → Prop}
    (h : x.Settles s (fun a s' => (f a).Settles s' done failed) failed) :
    (x >>= f).Settles s done failed := by
  rw [Settles, perform_bind]
  rcases hx : x.perform s with ⟨fault | a, s'⟩
  · refine ⟨fun _ _ hr => (by cases hr), fun _ _ hr => ?_⟩
    cases hr
    exact h.2 fault s' hx
  · exact h.1 a s' hx

end

/-- An action keeps a property of the state, also where it ends in a fault. -/
def Preserves (P : σ → Prop) (act : Action σ α) : Prop :=
  ∀ s, P s → P (act.perform s).2

section
variable {P : σ → Prop}

theorem Preserves.ends {act : Action σ α} (h : Preserves P act) {s : σ} (hs : P s) :
    act.Ends s (fun _ => P) P :=
  (ends_snd act s).mono (fun _ _ heq => heq ▸ h s hs) fun _ heq => heq ▸ h s hs

theorem preserves_pure (a : α) : Preserves P (pure a : Action σ α) := fun _ h => h

theorem preserves_throw (fault : Fault) : Preserves P (throw fault : Action σ α) := fun _ h => h

theorem preserves_ofExcept (x : Except Fault α) : Preserves P (ofExcept x : Action σ α) := by
  intro s h
  rw [perform_ofExcept]
  exact h

theorem preserves_bind {x : Action σ α} {f : α → Action σ β} (hx : Preserves P x)
    (hf : ∀ a, Preserves P (f a)) : Preserves P (x >>= f) := by
  intro s hs
  have hs' := hx s hs
  rw [perform_bind]
  rcases hperform : x.perform s with ⟨_ | a, s'⟩ <;> rw [hperform] at hs'
  · exact hs'
  · exact hf a s' hs'

/-- What an action has read may be used for what follows it. -/
theorem preserves_bind_ends {x : Action σ α} {f : α → Action σ β} {R : α → Prop}
    (hx : ∀ s, P s → x.Ends s (fun a s' => P s' ∧ R a) P) (hf : ∀ a, R a → Preserves P (f a)) :
    Preserves P (x >>= f) := by
  intro s hs
  refine Ends.snd ?_
  rw [ends_bind]
  exact (hx s hs).mono (fun a s' h => (hf a h.2).ends h.1) fun _ h => h

theorem preserves_forM {xs : List β} {f : β → Action σ PUnit} (hf : ∀ x ∈ xs, Preserves P (f x)) :
    Preserves P (xs.forM f) := by
  induction xs with
  | nil => exact preserves_pure _
  | cons x xs ih =>
    obtain ⟨hx, hxs⟩ := List.forall_mem_cons.mp hf
    exact preserves_bind hx fun _ => ih hxs

theorem preserves_mapM {xs : List β} {f : β → Action σ α} (hf : ∀ x ∈ xs, Preserves P (f x)) :
    Preserves P (xs.mapM f) := by
  induction xs with
  | nil => exact preserves_pure _
  | cons x xs ih =>
    obtain ⟨hx, hxs⟩ := List.forall_mem_cons.mp hf
    rw [List.mapM_cons]
    exact preserves_bind hx fun _ => preserves_bind (ih hxs) fun _ => preserves_pure _

end

/-- An action that comes to one result from all states of a kind, and leaves such a state. -/
def Yields (I : σ → Prop) (act : Action σ α) (result : Except Fault α) : Prop :=
  ∀ s, I s → ∃ s', act.perform s = (result, s') ∧ I s'

section
variable {I : σ → Prop}

theorem yields_pure (a : α) : Yields I (pure a) (.ok a) := fun s h => ⟨s, rfl, h⟩

theorem yields_ofExcept (x : Except Fault α) : Yields I (ofExcept x) x :=
  fun s h => ⟨s, perform_ofExcept x s, h⟩

theorem yields_bind {x : Action σ α} {f : α → Action σ β} {y : Except Fault α}
    {g : α → Except Fault β} (hx : Yields I x y)
    (hf : ∀ a, y = .ok a → Yields I (f a) (g a)) : Yields I (x >>= f) (y >>= g) := by
  intro s hs
  obtain ⟨s', hs', h⟩ := hx s hs
  rw [perform_bind, hs']
  cases y with
  | error fault => exact ⟨s', rfl, h⟩
  | ok a => exact hf a rfl s' h

/-- What is known beforehand is only read. -/
theorem yields_bind_ok {x : Action σ α} {f : α → Action σ β} {a : α} {result : Except Fault β}
    (hx : Yields I x (.ok a)) (hf : Yields I (f a) result) : Yields I (x >>= f) result :=
  yields_bind (g := fun _ => result) hx fun a' heq => by cases heq; exact hf

theorem yields_bind_error {x : Action σ α} {f : α → Action σ β} {fault : Fault}
    (hx : Yields I x (.error fault)) : Yields I (x >>= f) (.error fault) :=
  yields_bind (g := fun _ => .error fault) hx fun _ heq => by cases heq

theorem yields_mapM {xs : List β} {f : β → Action σ α} {g : β → Except Fault α}
    (h : ∀ x ∈ xs, Yields I (f x) (g x)) : Yields I (xs.mapM f) (xs.mapM g) := by
  induction xs with
  | nil => exact yields_pure []
  | cons x xs ih =>
    obtain ⟨hx, hxs⟩ := List.forall_mem_cons.mp h
    rw [List.mapM_cons, List.mapM_cons]
    exact yields_bind hx fun _ _ => yields_bind (ih hxs) fun _ _ => yields_pure _

theorem yields_foldlM {xs : List β} {f : α → β → Action σ α} {g : α → β → Except Fault α}
    (h : ∀ a, ∀ x ∈ xs, Yields I (f a x) (g a x)) (a : α) :
    Yields I (xs.foldlM f a) (xs.foldlM g a) := by
  induction xs generalizing a with
  | nil => exact yields_pure a
  | cons x xs ih =>
    rw [List.foldlM_cons, List.foldlM_cons]
    exact yields_bind (h a x List.mem_cons_self) fun a' _ =>
      ih (fun a x hx => h a x (List.mem_cons_of_mem _ hx)) a'

end

/-- Two runs of an action, from states that are alike, come to one result and to states that are
alike. -/
def Agrees (R : σ → σ → Prop) (act : Action σ α) : Prop :=
  ∀ s s', R s s' → (act.perform s).1 = (act.perform s').1 ∧ R (act.perform s).2 (act.perform s').2

section
variable {R : σ → σ → Prop}

theorem agrees_pure (a : α) : Agrees R (pure a : Action σ α) := fun _ _ h => ⟨rfl, h⟩

theorem agrees_throw (fault : Fault) : Agrees R (throw fault : Action σ α) := fun _ _ h => ⟨rfl, h⟩

theorem agrees_ofExcept (x : Except Fault α) : Agrees R (ofExcept x) := by
  intro s s' h
  rw [perform_ofExcept, perform_ofExcept]
  exact ⟨rfl, h⟩

theorem agrees_bind {x : Action σ α} {f : α → Action σ β} (hx : Agrees R x)
    (hf : ∀ a, Agrees R (f a)) : Agrees R (x >>= f) := by
  intro s s' hs
  obtain ⟨hresult, hafter⟩ := hx s s' hs
  rw [perform_bind, perform_bind]
  rcases hperform : x.perform s with ⟨result, after⟩
  rcases hperform' : x.perform s' with ⟨result', after'⟩
  rw [hperform, hperform'] at hresult hafter
  cases hresult
  cases result with
  | error fault => exact ⟨rfl, hafter⟩
  | ok a => exact hf a after after' hafter

/-- What is read of the state must be the same in states that are alike. -/
theorem agrees_read (read : σ → τ) (hread : ∀ s s', R s s' → read s = read s')
    {f : τ → Action σ α} (hf : ∀ t, Agrees R (f t)) : Agrees R (get >>= fun s => f (read s)) := by
  intro s s' h
  rw [perform_bind, perform_bind, perform_get, perform_get]
  dsimp only
  rw [hread s s' h]
  exact hf (read s') s s' h

theorem agrees_forM {xs : List β} {f : β → Action σ PUnit} (hf : ∀ x ∈ xs, Agrees R (f x)) :
    Agrees R (xs.forM f) := by
  induction xs with
  | nil => exact agrees_pure _
  | cons x xs ih =>
    obtain ⟨hx, hxs⟩ := List.forall_mem_cons.mp hf
    exact agrees_bind hx fun _ => ih hxs

theorem agrees_mapM {xs : List β} {f : β → Action σ α} (hf : ∀ x ∈ xs, Agrees R (f x)) :
    Agrees R (xs.mapM f) := by
  induction xs with
  | nil => exact agrees_pure _
  | cons x xs ih =>
    obtain ⟨hx, hxs⟩ := List.forall_mem_cons.mp hf
    rw [List.mapM_cons]
    exact agrees_bind hx fun _ => agrees_bind (ih hxs) fun _ => agrees_pure _

end
end CodeAtlas.Action
