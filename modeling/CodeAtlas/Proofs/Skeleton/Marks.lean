import CodeAtlas.Build.Review
import CodeAtlas.Proofs.Graph.Family
import CodeAtlas.Proofs.Outline.Traversal
import CodeAtlas.Proofs.Skeleton.Telling

namespace CodeAtlas

/-- The code of a definition without labels and attributes. -/
def Definition.plain (d : Definition) : Definition :=
  { d with extraLabels := [], extraAttributes := [] }

def Content.plain : Content → Content
  | .definition d => .definition d.plain
  | other => other

def Node.plain (n : Node) : Node :=
  { n with content := n.content.plain, environment := none }

section
variable {n n' : Node}

theorem Node.plain_definition {d : Definition} (h : n'.plain = n.plain)
    (hn : n.content = .definition d) : ∃ d', n'.content = .definition d' ∧ d'.plain = d.plain := by
  have hc : n'.content.plain = n.content.plain := (Node.mk.inj h).1
  rw [hn] at hc
  cases hn' : n'.content with
  | definition d' =>
    rw [hn'] at hc
    exact ⟨d', rfl, Content.definition.inj hc⟩
  | _ => simp [hn', Content.plain] at hc

theorem Node.plain_alike (h : n'.plain = n.plain) : n.Alike n' := by
  have hcore : ∀ n : Node, n.plain.core = n.core := by
    intro n
    unfold Node.plain Node.core
    cases n.content <;> rfl
  rw [Node.Alike, ← hcore n, ← hcore n', h]

theorem Node.plain_updateDefinition {g : Definition → Definition}
    (hg : ∀ d, (g d).plain = d.plain) (n : Node) : (n.updateDefinition g).plain = n.plain := by
  unfold Node.updateDefinition
  split
  · rename_i d hd
    simp only [Node.plain, hd, Content.plain, hg]
  · rfl

end

namespace NodeTable
variable {t t' t'' : NodeTable} {base : Nat} {key m : NodeKey}

/-- A table in which nothing but marks is different. -/
structure Remarked (t t' : NodeTable) : Prop where
  strays : t'.strays = t.strays
  groups : t'.groups = t.groups
  size : t'.nodes.size = t.nodes.size
  node : ∀ {m n}, t.get? m = some n → ∃ n', t'.get? m = some n' ∧ n'.plain = n.plain

namespace Remarked

theorem refl (t : NodeTable) : Remarked t t :=
  ⟨rfl, rfl, rfl, fun hn => ⟨_, hn, rfl⟩⟩

theorem trans (h : Remarked t t') (h' : Remarked t' t'') : Remarked t t'' where
  strays := h'.strays.trans h.strays
  groups := h'.groups.trans h.groups
  size := h'.size.trans h.size
  node hn := by
    obtain ⟨n', hn', hplain⟩ := h.node hn
    obtain ⟨n'', hn'', hplain'⟩ := h'.node hn'
    exact ⟨n'', hn'', hplain'.trans hplain⟩

theorem reshaped (h : Remarked t t') : Reshaped t t' where
  strays := h.strays
  groups := h.groups
  size := h.size
  node hn := by
    obtain ⟨n', hn', hplain⟩ := h.node hn
    exact ⟨n', hn', (Node.mk.inj hplain).2.2.2.2.2.2.2, Node.plain_alike hplain⟩

theorem definition (h : Remarked t t') {d : Definition} (hd : t.definition key = .ok d) :
    ∃ d', t'.definition key = .ok d' ∧ d'.plain = d.plain := by
  obtain ⟨n, hn, hcontent⟩ := definition_eq_ok.mp hd
  obtain ⟨n', hn', hplain⟩ := h.node hn
  obtain ⟨d', hd', hplain'⟩ := Node.plain_definition hplain hcontent
  exact ⟨d', definition_eq_ok.mpr ⟨n', hn', hd'⟩, hplain'⟩

theorem modify (f : Node → Node) (hf : ∀ n, (f n).plain = n.plain) (t : NodeTable)
    (key : NodeKey) :
    Remarked t (t.modify key f) where
  strays := rfl
  groups := rfl
  size := by simp [NodeTable.modify]
  node {m n} hn := by
    rw [get?_modify]
    split
    · exact ⟨f n, by rw [hn]; rfl, hf n⟩
    · exact ⟨n, hn, rfl⟩

end Remarked

/-- An action on one definition that does not fail and changes nothing but marks. What it is for
holds of the definition after it, and goes on to hold. -/
def Marks (act : NodeKey → Action NodeTable Unit) (Q : NodeKey → NodeTable → Prop) : Prop :=
  ∀ key t d, t.definition key = .ok d → (act key).Ends t (fun _ t' =>
    Remarked t t' ∧ Q key t' ∧ ∀ m, Q m t → Q m t') fun _ => False

/-- A mark is handed down to all below a definition. -/
theorem ends_eachFrom_marks {act : NodeKey → Action NodeTable Unit}
    {Q : NodeKey → NodeTable → Prop} (hact : Marks act Q) (ht : Legible base t) (depth : Nat)
    (hle : base ≤ key) (hlt : key < t.nodes.size) (hdepth : t.nodes.size < key + depth)
    (h : Remarked t t') :
    (eachFrom act depth key).Ends t' (fun _ t'' => Remarked t t'' ∧ (∀ m, Q m t' → Q m t'') ∧
      ∀ m, m = key ∨ t.Inside key m → Q m t'') fun _ => False := by
  induction depth generalizing key t' with
  | zero => exact absurd hdepth (Nat.lt_asymm hlt)
  | succ depth ih =>
    obtain ⟨⟨d, hd⟩, -⟩ := ht.known hle hlt
    obtain ⟨d', hd', -⟩ := h.definition hd
    rw [eachFrom, Action.ends_bind, Action.ends_get, Action.ends_bind, hd',
      Action.ends_ofExcept_ok, Action.ends_bind]
    refine (hact key t' d' hd').mono ?_ fun _ h => h
    rintro - t₁ ⟨h₁, hown, hkeep⟩
    have h₁ := h.trans h₁
    rw [Action.ends_bind, Action.ends_get, h₁.reshaped.members_eq]
    -- what the members before have come to stays with what comes after
    refine (Action.ends_forM (I := fun before t₂ => Remarked t t₂ ∧ (∀ m, Q m t₁ → Q m t₂) ∧
      ∀ x ∈ before, ∀ m, m = x ∨ t.Inside x m → Q m t₂) ?_ ?_).mono ?_ fun _ h => h
    · exact ⟨h₁, fun _ hm => hm, by simp⟩
    · rintro before x after hsplit t₂ ⟨h₂, hkeep₂, hbefore⟩
      have hx : x ∈ t.members key := by simp [hsplit]
      have hgt := (ht.below hle hx).1
      refine (ih (ht.known_of_mem hle hx).1 (ht.tidy.inside hx) (by omega) h₂).mono ?_
        fun _ h => h
      rintro - t₃ ⟨h₃, hkeep₃, hall⟩
      refine ⟨h₃, fun m hm => hkeep₃ m (hkeep₂ m hm), ?_⟩
      intro y hy m hm
      rcases List.mem_append.mp hy with hy | hy
      · exact hkeep₃ m (hbefore y hy m hm)
      · rw [List.mem_singleton] at hy
        subst hy
        exact hall m hm
    · rintro - t₂ ⟨h₂, hkeep₂, hall⟩
      refine ⟨h₂, fun m hm => hkeep₂ m (hkeep m hm), ?_⟩
      rintro m (rfl | hinside)
      · exact hkeep₂ m hown
      · obtain ⟨x, hx, hbelow⟩ := Relation.TransGen.head'_iff.mp hinside
        rcases Relation.reflTransGen_iff_eq_or_transGen.mp hbelow with heq | hbelow
        · exact hall x hx m (.inl heq)
        · exact hall x hx m (.inr hbelow)

theorem ends_eachDefinition_marks {act : NodeKey → Action NodeTable Unit}
    {Q : NodeKey → NodeTable → Prop} (hact : Marks act Q) (ht : Legible base t) (hle : base ≤ key)
    (hlt : key < t.nodes.size) (h : Remarked t t') :
    (eachDefinition act key).Ends t' (fun _ t'' => Remarked t t'' ∧
      ∀ m, m = key ∨ t.Inside key m → Q m t'') fun _ => False := by
  rw [eachDefinition, Action.ends_bind, Action.ends_get]
  refine (ends_eachFrom_marks hact ht t'.depth hle hlt ?_ h).mono
    (fun _ _ h => ⟨h.1, h.2.2⟩) fun _ h => h
  rw [depth, h.size]
  omega

theorem marks_updateDefinition (g : Definition → Definition) (hg : ∀ d, (g d).plain = d.plain) :
    Marks (updateDefinition g) fun _ _ => True := by
  intro key t d hd
  rw [updateDefinition, Action.ends_bind, Action.ends_get, Action.ends_bind, hd,
    Action.ends_ofExcept_ok, Action.ends_set]
  exact ⟨.modify _ (Node.plain_updateDefinition hg) t key, trivial, fun _ _ => trivial⟩

theorem marks_addOwnAttribute {name : Json} (hname : name.isKey = true) (value : Json) :
    Marks (addOwnAttribute name value) fun _ _ => True := by
  intro key t d hd
  rw [addOwnAttribute, hname]
  exact marks_updateDefinition
    (fun d => { d with extraAttributes := Assoc.insert d.extraAttributes name value })
    (fun _ => rfl) key t d hd

/-- Does a node stand in an environment, if it is there? -/
def StandsUnder (e : Option Environment) (key : NodeKey) (t : NodeTable) : Prop :=
  ∀ n, t.get? key = some n → n.environment = e

theorem marks_setEnvironment (e : Option Environment) :
    Marks (setEnvironment e) (StandsUnder e) := by
  intro key t d hd
  obtain ⟨n, hn, -⟩ := definition_eq_ok.mp hd
  rw [setEnvironment, Action.ends_bind, Action.ends_get, Action.ends_bind, node_eq_ok.mpr hn,
    Action.ends_ofExcept_ok, Action.ends_set]
  refine ⟨.modify (Node.within e) (fun _ => rfl) t key, ?_, ?_⟩
  · intro n' hn'
    rw [get?_modify, if_pos rfl, hn] at hn'
    cases hn'
    rfl
  · intro m hm n' hn'
    rw [get?_modify] at hn'
    split at hn'
    · rename_i heq
      subst heq
      rw [hn] at hn'
      cases hn'
      rfl
    · exact hm n' hn'

end NodeTable

namespace Review
open NodeTable

/-- What a review hands down changes nothing but marks, and all below the definition is moved to the
environment of the review. -/
theorem ends_handDown {t : NodeTable} {base key : NodeKey} (ht : Legible base t)
    (hle : base ≤ key) (hlt : key < t.nodes.size) (r : Review) (change : FileChange) :
    (do
      addLabel (.str "DIFF") key
      addLabel (.str change.type.name) key
      addAttribute (.str "diff_text") change.text key
      moveTo r.environment key : Action NodeTable Unit).Ends t
      (fun _ t' => Remarked t t' ∧
        ∀ m, m = key ∨ t.Inside key m → StandsUnder r.environment m t') fun _ => False := by
  have hlabel : ∀ (label : Json) {t' : NodeTable}, Remarked t t' →
      (addLabel label key).Ends t' (fun _ t'' => Remarked t t'') fun _ => False := by
    intro label t' h
    have hmarks := marks_updateDefinition
      (fun d => { d with extraLabels := d.extraLabels ++ [label] }) fun _ => rfl
    exact (ends_eachDefinition_marks hmarks ht hle hlt h).mono (fun _ _ h => h.1) fun _ h => h
  rw [Action.ends_bind]
  refine (hlabel _ (.refl t)).mono (fun _ t₁ h₁ => ?_) fun _ h => h
  rw [Action.ends_bind]
  refine (hlabel _ h₁).mono (fun _ t₂ h₂ => ?_) fun _ h => h
  rw [Action.ends_bind]
  refine (ends_eachDefinition_marks (marks_addOwnAttribute rfl change.text) ht hle hlt h₂).mono
    (fun _ t₃ h₃ => ?_) fun _ h => h
  exact ends_eachDefinition_marks (marks_setEnvironment r.environment) ht hle hlt h₃.1

end Review
end CodeAtlas
