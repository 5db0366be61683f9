import CodeAtlas.Proofs.Build.Mark

namespace CodeAtlas
open NodeTable

namespace NodeTable
variable {t t' t'' : NodeTable} {key m : NodeKey} {n : Node}

/-- A table in which definitions may have been marked and moved. -/
structure Reworked (t t' : NodeTable) : Prop extends Reshaped t t' where
  folder : ∀ {m n n'}, t.get? m = some n → t'.get? m = some n' → n.content = .folder → n.Kin n'

namespace Reworked

theorem refl (t : NodeTable) : Reworked t t where
  strays := rfl
  groups := rfl
  size := rfl
  node {_ n} hn := ⟨n, hn, rfl, .refl n⟩
  folder hn hn' _ := by
    cases hn.symm.trans hn'
    exact .refl _

theorem trans (h : Reworked t t') (h' : Reworked t' t'') : Reworked t t'' where
  strays := h'.strays.trans h.strays
  groups := h'.groups.trans h.groups
  size := h'.size.trans h.size
  node {m n} hn := by
    obtain ⟨n', hn', hmembers, halike⟩ := h.node hn
    obtain ⟨n'', hn'', hmembers', halike'⟩ := h'.node hn'
    exact ⟨n'', hn'', hmembers'.trans hmembers, halike.trans halike'⟩
  folder {m n n''} hn hn'' hf := by
    obtain ⟨n', hn', -, halike⟩ := h.node hn
    exact (h.folder hn hn' hf).trans (h'.folder hn' hn'' (halike.folder hf))

theorem of_retold (h : t.Retold t') : Reworked t t' where
  strays := h.strays
  groups := h.groups
  size := h.size
  node {m n} hn := by
    obtain ⟨n', hn', hkin⟩ := h.keeps m n hn
    exact ⟨n', hn', h.own hn hn', hkin.alike⟩
  folder {m n n'} hn hn' _ := by
    obtain ⟨n'', hn'', hkin⟩ := h.keeps m n hn
    cases hn'.symm.trans hn''
    exact hkin

/-- Of folders nothing is changed as long as only definitions are. -/
theorem of_touched {f : Node → Node} {P : NodeKey → Prop} (hf : Node.Gentle f)
    (h : Touched f P t t') (hP : ∀ {m n}, P m → t.get? m = some n → n.content ≠ .folder) :
    Reworked t t' where
  toReshaped := h.reshaped hf
  folder {m n n'} hn hn' hfolder := by
    obtain ⟨n'', hn'', -, -, hno⟩ := h.node hn
    cases hn'.symm.trans hn''
    exact hno fun hp => hP hp hn hfolder

end Reworked

/-- An action on one definition, handed down to those below it. -/
theorem ends_eachFrom_reworked {act : NodeKey → Action NodeTable Unit}
    (hact : ∀ t key d, t.definition key = .ok d →
      (act key).Ends t (fun _ => Reworked t) fun _ => True) (depth : Nat) (key : NodeKey)
    (t : NodeTable) : (eachFrom act depth key).Ends t (fun _ => Reworked t) fun _ => True := by
  induction depth generalizing key t with
  | zero => exact Action.ends_throw.mpr trivial
  | succ depth ih =>
    rw [eachFrom, Action.ends_bind, Action.ends_get, Action.ends_bind]
    refine Action.ends_ofExcept (fun d hd => ?_) trivial
    rw [Action.ends_bind]
    refine (hact t key d hd).mono (fun _ t₁ h₁ => ?_) fun _ h => h
    rw [Action.ends_bind, Action.ends_get]
    refine Action.ends_forM_keeps h₁ fun m _ t₂ h₂ => ?_
    exact (ih m t₂).mono (fun _ _ h => h₂.trans h) fun _ h => h

theorem ends_eachDefinition_reworked {f : Node → Node} (hf : Node.Gentle f)
    {act : NodeKey → Action NodeTable Unit}
    (hact : ∀ t key, (act key).Ends t (fun _ => Touched f (· = key) t) fun _ => True)
    (key : NodeKey) (t : NodeTable) :
    (eachDefinition act key).Ends t (fun _ => Reworked t) fun _ => True := by
  rw [eachDefinition, Action.ends_bind, Action.ends_get]
  refine ends_eachFrom_reworked (fun t key d hd => ?_) t.depth key t
  refine (hact t key).mono (fun _ t' h => .of_touched hf h ?_) fun _ h => h
  rintro m n rfl hn hfolder
  obtain ⟨n', hn', hd'⟩ := definition_eq_ok.mp hd
  cases hn.symm.trans hn'
  cases hfolder.symm.trans hd'

end NodeTable

namespace Review
variable {r : Review} {b : Builder}

theorem ends_touch_reworked (r : Review) (change : FileChange) (key : NodeKey) (t : NodeTable) :
    (do
      addLabel (.str "DIFF") key
      addLabel (.str change.type.name) key
      addAttribute (.str "diff_text") change.text key
      moveTo r.environment key : Action NodeTable Unit).Ends t
      (fun _ => Reworked t) fun _ => True := by
  have hlabel : ∀ label t, (addLabel label key).Ends t (fun _ => Reworked t) fun _ => True :=
    fun label => ends_eachDefinition_reworked (.withLabel label)
      (ends_updateDefinition (.withLabel label)) key
  rw [Action.ends_bind]
  refine (hlabel _ t).mono (fun _ t₁ h₁ => ?_) fun _ h => h
  rw [Action.ends_bind]
  refine (hlabel _ t₁).mono (fun _ t₂ h₂ => ?_) fun _ h => h
  rw [Action.ends_bind]
  refine (ends_eachDefinition_reworked (.withAttribute _ _) (ends_addOwnAttribute _ _) key
    t₂).mono (fun _ t₃ h₃ => ?_) fun _ h => h
  refine (ends_eachDefinition_reworked (.within r.environment) (ends_setEnvironment _) key
    t₃).mono (fun _ t₄ h₄ => ?_) fun _ h => h
  exact h₁.trans (h₂.trans (h₃.trans h₄))

theorem ends_mark_reworked (r : Review) (key : NodeKey) (b : Builder) :
    (r.mark key).Ends b (fun _ b' => b'.atlas.graph = b.atlas.graph ∧
      Reworked b.atlas.table b'.atlas.table) fun _ => True := by
  have hskeleton : ∀ b₂ : Builder, b₂.atlas.graph = b.atlas.graph →
      Reworked b.atlas.table b₂.atlas.table →
      (Builder.onTable (skeletonize key)).Ends b₂ (fun _ b' => b'.atlas.graph = b.atlas.graph ∧
        Reworked b.atlas.table b'.atlas.table) fun _ => True := by
    intro b₂ hgraph htable
    rw [Surroundings.ends_onTable]
    refine (ends_skeletonize key _).mono (fun _ t₂ h₂ => ?_) fun _ _ => trivial
    exact ⟨hgraph, htable.trans (.of_retold h₂)⟩
  rw [mark, Action.ends_bind]
  refine Builder.ends_table ?_
  rw [Action.ends_bind]
  refine Action.ends_ofExcept (fun before _ => ?_) trivial
  rw [Action.ends_bind]
  refine Action.ends_ofExcept (fun n _ => ?_) trivial
  rw [Action.ends_bind]
  refine Action.ends_ofExcept (fun change _ => ?_) trivial
  rw [Action.ends_bind, Surroundings.ends_onTable]
  refine (ends_touch_reworked r change key _).mono (fun _ t₁ h₁ => ?_) fun _ h => h
  split
  · rw [Action.ends_bind]
    refine Builder.ends_table ?_
    rw [Action.ends_bind]
    refine Action.ends_ofExcept (fun after _ => ?_) trivial
    rw [Action.ends_bind, relateOutside, Action.ends_modify]
    exact hskeleton _ rfl h₁
  · exact hskeleton _ rfl h₁

/-- However often its files are marked, the graph of a review is what it was, and of the table only
definitions are changed. -/
theorem ends_markAll_reworked (r : Review) (b : Builder) :
    r.markAll.Ends b (fun _ b' => b'.atlas.graph = b.atlas.graph ∧
      Reworked b.atlas.table b'.atlas.table) fun _ => True := by
  rw [markAll, Action.ends_bind]
  refine Builder.ends_graph ?_
  rw [Action.ends_bind]
  refine Action.ends_ofExcept (fun keys _ => ?_) trivial
  refine Action.ends_forM_keeps (I := fun b' : Builder => b'.atlas.graph = b.atlas.graph ∧
    Reworked b.atlas.table b'.atlas.table) ⟨rfl, .refl _⟩ fun key _ b₁ h₁ => ?_
  refine (ends_mark_reworked r key b₁).mono (fun _ b₂ h₂ => ?_) fun _ h => h
  exact ⟨h₂.1.trans h₁.1, h₁.2.trans h₂.2⟩

end Review
end CodeAtlas
