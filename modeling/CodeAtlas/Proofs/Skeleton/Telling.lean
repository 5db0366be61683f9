import CodeAtlas.Proofs.Skeleton.Patches
import CodeAtlas.Proofs.Skeleton.Planting

namespace CodeAtlas
open Source

namespace NodeTable
variable {t t' : NodeTable} {base : Nat} {key : NodeKey}

def tree? (t : NodeTable) (key : NodeKey) : Option SyntaxNode :=
  ((t.definition key).toOption.bind Definition.cursor).map Cursor.node

def omission? (t : NodeTable) (m : NodeKey) : Option Omission := do
  let body ← (t.definition m).toOption.bind Definition.body
  let hash ← (t.hashedId m).toOption
  some ⟨body, hash⟩

def omissions (t : NodeTable) (key : NodeKey) : List Omission :=
  (t.members key).filterMap t.omission?

def text? (t : NodeTable) (key : NodeKey) : Option String :=
  (t.definition key).toOption.bind fun d => d.text.toText.toOption

def Reaches (t : NodeTable) : NodeKey → NodeKey → Prop :=
  Relation.ReflTransGen fun key m => m ∈ t.members key ∧ t.hasBody m

/-- A table in which nothing but texts is changed, and some nodes are told by their skeletons, where
there are bodies to leave out. All others keep their texts. -/
structure Told (t : NodeTable) (done : NodeKey → Prop) (t' : NodeTable) : Prop where
  retold : Retold t t'
  told : ∀ k, done k → ∀ n, t.tree? k = some n → t.omissions k ≠ [] →
    t'.text? k = some (skeletonText n ((t.omissions k).map Omission.cut))
  kept : ∀ k, (done k → t.omissions k = []) → t'.text? k = t.text? k

theorem Told.congr {done done' : NodeKey → Prop} (h : Told t done t')
    (hd : ∀ k, done' k ↔ done k) : Told t done' t' :=
  ⟨h.retold, fun k hk => h.told k ((hd k).mp hk), fun k hk => h.kept k fun h => hk ((hd k).mpr h)⟩

section
variable {d : Definition} (hd : t.definition key = .ok d)
include hd

theorem tree?_eq : t.tree? key = d.cursor.map Cursor.node := by
  rw [tree?, hd]
  rfl

theorem text?_eq : t.text? key = d.text.toText.toOption := by
  rw [text?, hd]
  rfl

theorem hasBody_eq : t.hasBody key = d.body.isSome := by
  obtain ⟨n, hn, hcontent⟩ := definition_eq_ok.mp hd
  simp [hasBody, hn, Node.definition?, hcontent]

theorem omission?_eq (hs : t.strays = []) {id : String} (hid : t.id key = .ok id) :
    t.omission? key = d.body.map fun body => ⟨body, Digest.hex id⟩ := by
  rw [omission?, hd, hashedId_of_id hs hid]
  cases hbody : d.body <;> simp [Except.toOption, hbody]

theorem cut?_eq (hs : t.strays = []) {id : String} (hid : t.id key = .ok id) :
    t.cut? key = .ok ((t.omission? key).map Omission.cut) := by
  rw [omission?_eq hd hs hid, cut?, hd]
  cases hbody : d.body <;> simp [hbody, hashedId_of_id hs hid, Omission.cut]

end

theorem Shows.tree? {n : SyntaxNode} (h : t.Shows key n) : t.tree? key = some n := by
  obtain ⟨d, hd, ⟨c, hc, rfl⟩, _⟩ := h
  rw [tree?_eq hd, hc]
  rfl

/-- The cuts are made for the bodies of the members. -/
theorem mapM_cut? (hs : t.strays = []) {ms : List NodeKey}
    (h : ∀ m ∈ ms, (∃ d, t.definition m = .ok d) ∧ ∃ id, t.id m = .ok id) :
    ∃ cuts, ms.mapM t.cut? = .ok cuts ∧
      cuts.filterMap (fun c => c) = (ms.filterMap t.omission?).map Omission.cut := by
  refine ⟨ms.map fun m => (t.omission? m).map Omission.cut, ?_, ?_⟩
  · rw [Outcome.mapM_eq_ok, List.forall₂_map_right_iff, List.forall₂_same]
    intro m hm
    obtain ⟨⟨d, hd⟩, id, hid⟩ := h m hm
    exact cut?_eq hd hs hid
  · rw [List.filterMap_map, List.map_filterMap]
    rfl

section
variable (h : Retold t t')
include h

/-- The syntax behind a node stays as it is. -/
theorem Retold.definition {d : Definition} (hd : t.definition key = .ok d) :
    ∃ d', t'.definition key = .ok d' ∧ d'.body = d.body ∧ d'.cursor = d.cursor := by
  obtain ⟨n, hn, hcontent⟩ := definition_eq_ok.mp hd
  obtain ⟨n', hn', hk⟩ := h.keeps _ _ hn
  obtain ⟨d', hd', hblank⟩ := hk.definition hcontent
  obtain ⟨_, _, _, _, hbody, hcursor, _⟩ := Definition.mk.inj hblank
  exact ⟨d', definition_eq_ok.mpr ⟨n', hn', hd'⟩, hbody, hcursor⟩

theorem Retold.members (ht : t.Regular) (key : NodeKey) : t'.members key = t.members key := by
  rw [(h.regular ht).members_eq, h.groups, ← ht.members_eq]

theorem Retold.hasBody {d : Definition} (hd : t.definition key = .ok d) :
    t'.hasBody key = t.hasBody key := by
  obtain ⟨d', hd', hbody, _⟩ := h.definition hd
  rw [hasBody_eq hd, hasBody_eq hd', hbody]

theorem Retold.omission? (hs : t.strays = []) {d : Definition} (hd : t.definition key = .ok d)
    {id : String} (hid : t.id key = .ok id) : t'.omission? key = t.omission? key := by
  obtain ⟨d', hd', hbody, _⟩ := h.definition hd
  rw [omission?_eq hd hs hid, omission?_eq hd' (h.strays.trans hs) (h.keeps.id hid), hbody]

end

namespace Legible
variable (ht : Legible base t) (hle : base ≤ key)
include ht hle

theorem known_of_mem {m : NodeKey} (hm : m ∈ t.members key) :
    base ≤ m ∧ (∃ d, t.definition m = .ok d) ∧ ∃ id, t.id m = .ok id := by
  have hlt := (ht.below hle hm).1
  have hle' : base ≤ m := Nat.le_trans hle (Nat.le_of_lt hlt)
  exact ⟨hle', ht.known hle' (ht.tidy.inside hm)⟩

theorem known_retold (h : Retold t t') :
    ∀ m ∈ t'.members key, (∃ d, t'.definition m = .ok d) ∧ ∃ id, t'.id m = .ok id := by
  intro m hm
  rw [h.members ht.tidy.toRegular] at hm
  obtain ⟨_, ⟨d, hd⟩, id, hid⟩ := ht.known_of_mem hle hm
  obtain ⟨d', hd', _⟩ := h.definition hd
  exact ⟨⟨d', hd'⟩, id, h.keeps.id hid⟩

theorem omissions_retold (h : Retold t t') : t'.omissions key = t.omissions key := by
  rw [omissions, omissions, h.members ht.tidy.toRegular]
  apply List.filterMap_congr
  intro m hm
  obtain ⟨_, ⟨d, hd⟩, id, hid⟩ := ht.known_of_mem hle hm
  exact h.omission? ht.tidy.strays_eq hd hid

theorem bodied_retold (h : Retold t t') :
    (t'.members key).filter t'.hasBody = (t.members key).filter t.hasBody := by
  rw [h.members ht.tidy.toRegular]
  apply List.filter_congr
  intro m hm
  obtain ⟨_, ⟨d, hd⟩, _⟩ := ht.known_of_mem hle hm
  exact h.hasBody hd

/-- What has members has a syntax tree. -/
theorem tree?_of_mem {m : NodeKey} (hm : m ∈ t.members key) : t.tree? key ≠ none := by
  obtain ⟨_, n, _, hn, _⟩ := ht.below hle hm
  rw [hn.tree?]
  exact Option.some_ne_none n

end Legible

/-- A node with bodies to leave out is told by a text, if that is its skeleton. -/
theorem ends_updateDefinition_told {done : NodeKey → Prop} (h : Told t done t')
    (hbodies : t.omissions key ≠ []) {text : String}
    (htext : ∀ n, t.tree? key = some n →
      text = skeletonText n ((t.omissions key).map Omission.cut))
    {d : Definition} (hd : t'.definition key = .ok d) :
    (updateDefinition (fun d => { d with text := .str text }) key).Ends t'
      (fun _ t'' => Told t (fun k => done k ∨ k = key) t'') (fun _ => False) := by
  rw [updateDefinition, Action.ends_bind, Action.ends_get, Action.ends_bind, hd,
    Action.ends_ofExcept_ok, Action.ends_set]
  have hother : ∀ k, k ≠ key → (t'.modify key (Node.updateDefinition fun d =>
      { d with text := .str text })).text? k = t'.text? k := by
    intro k hkey
    rw [text?, definition, node, get?_modify, if_neg hkey]
    rfl
  refine ⟨h.retold.trans (retold_modify _ key), ?_, ?_⟩
  · intro k hk n hn hne
    by_cases hkey : k = key
    · subst hkey
      obtain ⟨node, hnode, hcontent⟩ := definition_eq_ok.mp hd
      have hnew : (t'.modify k (Node.updateDefinition fun d =>
          { d with text := .str text })).definition k = .ok { d with text := .str text } := by
        rw [definition_eq_ok, get?_modify, if_pos rfl, hnode]
        exact ⟨_, rfl, by simp [Node.updateDefinition, hcontent]⟩
      rw [text?_eq hnew, htext n hn]
      rfl
    · rw [hother k hkey]
      exact h.told k (hk.resolve_right hkey) n hn hne
  · intro k hk
    have hkey : k ≠ key := by
      rintro rfl
      exact hbodies (hk (.inr rfl))
    rw [hother k hkey]
    exact h.kept k fun hdone => hk (.inl hdone)

/-- Without a syntax tree there are no members, and there is no skeleton. -/
theorem Told.of_no_tree {done : NodeKey → Prop} (h : Told t done t') (ht : Legible base t)
    (hle : base ≤ key) (hno : t.tree? key = none) :
    Told t (fun k => done k ∨ t.Reaches key k) t' := by
  refine ⟨h.retold, fun k hk n hn hne => ?_, fun k hk => h.kept k fun hdone => hk (.inl hdone)⟩
  rcases hk with hk | hk
  · exact h.told k hk n hn hne
  rcases Relation.ReflTransGen.cases_head hk with rfl | ⟨m, hm, _⟩
  · rw [hno] at hn
    cases hn
  · exact absurd hno (ht.tree?_of_mem hle hm.1)

/-- What is reached from a node is the node and what is reached from its members with bodies. -/
theorem ends_forM_told {act : NodeKey → Action NodeTable Unit} {done : NodeKey → Prop}
    (hact : ∀ m ∈ (t.members key).filter t.hasBody, ∀ {done t'}, Told t done t' →
      (act m).Ends t' (fun _ t'' => Told t (fun k => done k ∨ t.Reaches m k) t'') (fun _ => False))
    (h : Told t (fun k => done k ∨ k = key) t') :
    (((t.members key).filter t.hasBody).forM act).Ends t'
      (fun _ t'' => Told t (fun k => done k ∨ t.Reaches key k) t'') (fun _ => False) := by
  have hstart : Told t (fun k => (done k ∨ k = key) ∨ ∃ m ∈ [], t.Reaches m k) t' :=
    h.congr fun k => by simp
  refine (Action.ends_forM (I := fun before t₁ =>
    Told t (fun k => (done k ∨ k = key) ∨ ∃ m ∈ before, t.Reaches m k) t₁) hstart ?_).mono
    (fun _ t₁ h₁ => h₁.congr fun k => ?_) fun _ h => h
  · intro before m after heq t₁ h₁
    refine (hact m (by simp [heq]) h₁).mono (fun _ t₂ h₂ => h₂.congr fun k => ?_) fun _ h => h
    simp only [List.mem_append, List.mem_singleton, or_and_right, exists_or, exists_eq_left,
      or_assoc]
  · have hreaches : t.Reaches key k ↔
        k = key ∨ ∃ m ∈ (t.members key).filter t.hasBody, t.Reaches m k := by
      rw [Reaches, Relation.ReflTransGen.cases_head_iff]
      simp only [List.mem_filter, eq_comm]
    rw [hreaches, or_assoc]

/-- Down to a depth that goes beyond the table, all nodes that are reached are told by their
skeletons. -/
theorem ends_skeletonizeFrom_told (ht : Legible base t) (depth : Nat) {done : NodeKey → Prop}
    (hle : base ≤ key) (hlt : key < t.nodes.size) (hdepth : t.nodes.size < key + depth)
    (h : Told t done t') :
    (skeletonizeFrom depth key).Ends t'
      (fun _ t'' => Told t (fun k => done k ∨ t.Reaches key k) t'')
      (fun _ => False) := by
  induction depth generalizing key done t' with
  | zero => exact absurd hdepth (Nat.lt_asymm hlt)
  | succ depth ih =>
    obtain ⟨⟨d, hd⟩, _⟩ := ht.known hle hlt
    obtain ⟨d', hd', _, hcursor⟩ := h.retold.definition hd
    have htree : t.tree? key = d'.cursor.map Cursor.node := by
      rw [tree?_eq hd, hcursor]
    have hloop : ∀ t₁, Told t (fun k => done k ∨ k = key) t₁ →
        (((t.members key).filter t.hasBody).forM (skeletonizeFrom depth)).Ends t₁
          (fun _ t₂ => Told t (fun k => done k ∨ t.Reaches key k) t₂) (fun _ => False) := by
      intro t₁ h₁
      apply ends_forM_told _ h₁
      intro m hm done t₂ h₂
      have hmem := List.mem_of_mem_filter hm
      have hkm := (ht.below hle hmem).1
      exact ih (ht.known_of_mem hle hmem).1 (ht.tidy.inside hmem) (by omega) h₂
    rw [skeletonizeFrom, Action.ends_bind, Action.ends_get, Action.ends_bind, hd',
      Action.ends_ofExcept_ok]
    split
    · rename_i hnone
      rw [Action.ends_pure]
      apply h.of_no_tree ht hle
      rw [htree, hnone]
      rfl
    · rename_i cursor hsome
      rw [hsome] at htree
      obtain ⟨cuts, hcuts, heq⟩ := mapM_cut? (h.retold.strays.trans ht.tidy.strays_eq)
        (ht.known_retold hle h.retold)
      rw [← omissions, ht.omissions_retold hle h.retold] at heq
      dsimp only
      rw [Action.ends_bind, hcuts, Action.ends_ofExcept_ok, heq, ht.bodied_retold hle h.retold]
      split
      · rw [Action.ends_bind]
        have hbodies : t.omissions key ≠ [] := by
          rename_i hcut
          simpa using hcut
        refine (ends_updateDefinition_told h hbodies (fun n hn => ?_) hd').mono (fun _ => hloop)
          fun _ h => h
        cases htree.symm.trans hn
        rfl
      · rename_i hempty
        apply hloop
        refine ⟨h.retold, ?_, fun k hk => h.kept k fun hdone => hk (.inl hdone)⟩
        intro k hk n hn hne
        rcases hk with hk | rfl
        · exact h.told k hk n hn hne
        · exact absurd (by simpa using hempty) hne

/-- A node of a legible table can be made a skeleton, and so are all that are reached from it. -/
theorem ends_skeletonize_told (ht : Legible base t) (hle : base ≤ key) (hlt : key < t.nodes.size) :
    (skeletonize key).Ends t (fun _ t' => Told t (t.Reaches key) t') (fun _ => False) := by
  rw [skeletonize, Action.ends_bind, Action.ends_get]
  have hstart : Told t (fun _ => False) t := ⟨.refl t, fun _ hk => hk.elim, fun _ _ => rfl⟩
  refine (ends_skeletonizeFrom_told ht t.depth hle hlt ?_ hstart).mono
    (fun _ _ h => h.congr fun _ => (or_iff_right not_false).symm) fun _ h => h
  rw [depth]
  omega

end NodeTable
end CodeAtlas
