import CodeAtlas.Proofs.Graph.Trail
import CodeAtlas.Proofs.Skeleton.Bodies
import CodeAtlas.Proofs.Skeleton.Marks

namespace CodeAtlas
open Source

def Environment.lead (e : Option Environment) : String :=
  (e.map Environment.spelling).getD ""

namespace NodeTable
variable {t u v t' u' v' : NodeTable} {base : Nat} {key k m : NodeKey}

/-- From a place on, two tables have the same members, with the same bodies and syntax. -/
structure SameCode (base : Nat) (t u : NodeTable) : Prop where
  strays : u.strays = t.strays
  size : u.nodes.size = t.nodes.size
  members : ∀ {key}, base ≤ key → u.members key = t.members key
  code : ∀ {key d}, base ≤ key → t.definition key = .ok d →
    ∃ d', u.definition key = .ok d' ∧ d'.body = d.body ∧ d'.cursor = d.cursor

theorem Retold.sameCode (h : Retold t u) (ht : t.Regular) : SameCode base t u where
  strays := h.strays
  size := h.size
  members _ := h.members ht _
  code _ hd := h.definition hd

theorem Remarked.sameCode (h : Remarked t u) : SameCode base t u where
  strays := h.strays
  size := h.size
  members _ := h.reshaped.members_eq _
  code _ hd := by
    obtain ⟨d', hd', hplain⟩ := h.definition hd
    obtain ⟨-, -, -, -, hbody, hcursor, -⟩ := Definition.mk.inj hplain
    exact ⟨d', hd', hbody, hcursor⟩

namespace SameCode

theorem trans (h : SameCode base t u) (h' : SameCode base u v) : SameCode base t v where
  strays := h'.strays.trans h.strays
  size := h'.size.trans h.size
  members hle := (h'.members hle).trans (h.members hle)
  code hle hd := by
    obtain ⟨d', hd', hbody, hcursor⟩ := h.code hle hd
    obtain ⟨d'', hd'', hbody', hcursor'⟩ := h'.code hle hd'
    exact ⟨d'', hd'', hbody'.trans hbody, hcursor'.trans hcursor⟩

theorem shows (h : SameCode base t u) (hle : base ≤ key) {n : SyntaxNode} (hn : t.Shows key n) :
    u.Shows key n := by
  obtain ⟨d, hd, hstands⟩ := hn
  obtain ⟨d', hd', hbody, hcursor⟩ := h.code hle hd
  exact ⟨d', hd', hcursor ▸ hstands.cursor, hstands.fits, hbody ▸ hstands.body⟩

/-- A table is as legible as one with the same code, if its identifiers are known. -/
theorem legible (h : SameCode base t u) (ht : Legible base t) (htidy : u.Tidy)
    (hids : ∀ {key}, base ≤ key → key < u.nodes.size → ∃ id, u.id key = .ok id) :
    Legible base u where
  tidy := htidy
  known {key} hle hlt := by
    obtain ⟨⟨d, hd⟩, -⟩ := ht.known hle (h.size ▸ hlt)
    obtain ⟨d', hd', -⟩ := h.code hle hd
    exact ⟨⟨d', hd'⟩, hids hle hlt⟩
  below {key m} hle hm := by
    rw [h.members hle] at hm
    obtain ⟨hlt, n, n', hn, hn', hencloses⟩ := ht.below hle hm
    have hle' : base ≤ m := Nat.le_trans hle (Nat.le_of_lt hlt)
    exact ⟨hlt, n, n', h.shows hle hn, h.shows hle' hn', hencloses⟩

section
variable (h : SameCode base t u) (ht : Legible base t)
include h ht

theorem tree?_eq (hle : base ≤ key) (hlt : key < t.nodes.size) : u.tree? key = t.tree? key := by
  obtain ⟨⟨d, hd⟩, -⟩ := ht.known hle hlt
  obtain ⟨d', hd', -, hcursor⟩ := h.code hle hd
  rw [NodeTable.tree?_eq hd, NodeTable.tree?_eq hd', hcursor]

theorem step_iff (hle : base ≤ key) :
    (m ∈ u.members key ∧ u.hasBody m) ↔ (m ∈ t.members key ∧ t.hasBody m) := by
  rw [h.members hle]
  refine and_congr_right fun hm => ?_
  obtain ⟨hle', ⟨d, hd⟩, -⟩ := ht.known_of_mem hle hm
  obtain ⟨d', hd', hbody, -⟩ := h.code hle' hd
  rw [hasBody_eq hd, hasBody_eq hd', hbody]

theorem reaches_iff (hle : base ≤ key) : u.Reaches key k ↔ t.Reaches key k := by
  constructor
  · intro hreach
    induction hreach using Relation.ReflTransGen.head_induction_on with
    | refl => exact .refl
    | head hstep _ ih =>
      have hstep := (h.step_iff ht hle).mp hstep
      exact (ih (ht.known_of_mem hle hstep.1).1).head hstep
  · intro hreach
    induction hreach using Relation.ReflTransGen.head_induction_on with
    | refl => exact .refl
    | head hstep _ ih =>
      exact (ih (ht.known_of_mem hle hstep.1).1).head ((h.step_iff ht hle).mpr hstep)

theorem omission?_eq (hle : base ≤ key) (hlt : key < t.nodes.size) {id : String}
    (hid : u.id key = .ok id) :
    u.omission? key = (t.omission? key).map fun o => ⟨o.body, Digest.hex id⟩ := by
  obtain ⟨⟨d, hd⟩, id', hid'⟩ := ht.known hle hlt
  obtain ⟨d', hd', hbody, -⟩ := h.code hle hd
  have hs := ht.tidy.strays_eq
  rw [NodeTable.omission?_eq hd hs hid', NodeTable.omission?_eq hd' (h.strays.trans hs) hid, hbody]
  cases d.body <;> rfl

/-- Whether there are bodies to leave out does not depend on the identifiers. -/
theorem omissions_eq_nil_iff (hu : Legible base u) (hle : base ≤ key) :
    u.omissions key = [] ↔ t.omissions key = [] := by
  rw [omissions, omissions, List.filterMap_eq_nil_iff, List.filterMap_eq_nil_iff, h.members hle]
  refine forall₂_congr fun m hm => ?_
  obtain ⟨hle', -, -⟩ := ht.known_of_mem hle hm
  have hlt := ht.tidy.inside hm
  obtain ⟨-, id, hid⟩ := hu.known hle' (h.size ▸ hlt)
  rw [h.omission?_eq ht hle' hlt hid, Option.map_eq_none_iff]

end

/-- Where identifiers are the same, the same bodies are left out for the same lines. -/
theorem omissions_eq (hu : SameCode base t u) (hv : SameCode base t v) (ht : Legible base t)
    (hlegible : Legible base u)
    (hids : ∀ {key}, base ≤ key → key < t.nodes.size → u.id key = v.id key) (hle : base ≤ key) :
    u.omissions key = v.omissions key := by
  rw [omissions, omissions, hu.members hle, hv.members hle]
  apply List.filterMap_congr
  intro m hm
  obtain ⟨hle', -, -⟩ := ht.known_of_mem hle hm
  have hlt := ht.tidy.inside hm
  obtain ⟨-, id, hid⟩ := hlegible.known hle' (hu.size ▸ hlt)
  rw [hu.omission?_eq ht hle' hlt hid, hv.omission?_eq ht hle' hlt ((hids hle' hlt).symm.trans hid)]

end SameCode

/-- The text that a node is told by, if skeletons are made from a file on and leave out bodies. -/
structure Retells (t : NodeTable) (file key : NodeKey) (bodies : List Omission) (text : String) :
    Prop where
  kept : (t.Reaches file key → t.omissions key = []) → t.text? key = some text
  told : t.Reaches file key → t.omissions key ≠ [] → ∃ n, t.tree? key = some n ∧
    text = skeletonText n (bodies.map Omission.cut)

theorem Retells.unique {bodies : List Omission} {text text' : String}
    (h : t.Retells k key bodies text) (h' : t.Retells k key bodies text') : text = text' := by
  by_cases hbodies : t.Reaches k key → t.omissions key = []
  · exact Option.some.inj ((h.kept hbodies).symm.trans (h'.kept hbodies))
  · obtain ⟨hreach, hne⟩ := Classical.not_imp.mp hbodies
    obtain ⟨n, hn, rfl⟩ := h.told hreach hne
    obtain ⟨n', hn', rfl⟩ := h'.told hreach hne
    cases hn.symm.trans hn'
    rfl

def NamedFrom (base : Nat) (t : NodeTable) : Prop :=
  ∀ {key n}, base ≤ key → t.get? key = some n → ∀ s ∈ n.trail, s.IsNamed

theorem Remarked.namedFrom (h : Remarked t u) (ht : NamedFrom base t) : NamedFrom base u := by
  intro key n' hle hn'
  obtain ⟨n, hn, -, halike⟩ := h.reshaped.get? hn'
  rw [halike.trail]
  exact ht hle hn

theorem Retold.namedFrom (h : Retold t u) (ht : NamedFrom base t) : NamedFrom base u := by
  intro key n' hle hn'
  obtain ⟨n, hn, hkin⟩ := h.get? hn'
  rw [hkin.trail]
  exact ht hle hn

theorem Remarked.legible (h : Remarked t u) (ht : Legible base t) (hnamed : NamedFrom base t) :
    Legible base u := by
  apply h.sameCode.legible ht (h.reshaped.tidy ht.tidy)
  intro key hle hlt
  obtain ⟨n, hn⟩ := get?_of_lt hlt
  exact ⟨_, id_eq hn (h.namedFrom hnamed hle hn)⟩

theorem Retold.legible (h : Retold t u) (ht : Legible base t) : Legible base u := by
  apply (h.sameCode ht.tidy.toRegular).legible ht (h.tidy ht.tidy)
  intro key hle hlt
  obtain ⟨-, id, hid⟩ := ht.known hle (h.size ▸ hlt)
  exact ⟨id, h.keeps.id hid⟩

/-- The same code from a place on, moved to an environment. Trails go with the nodes. -/
structure Moved (base : Nat) (e : Option Environment) (t u : NodeTable) : Prop extends
    SameCode base t u where
  tidy : u.Tidy
  node : ∀ {key n}, base ≤ key → t.get? key = some n → ∃ n', u.get? key = some n' ∧
    n'.trail = n.trail ∧ n'.environment = e

namespace Moved
variable {e : Option Environment}

/-- What is moved has its identifiers in the new environment. -/
theorem id_eq (h : Moved base e t u) (hnamed : NamedFrom base t) (hle : base ≤ key) {n : Node}
    (hn : t.get? key = some n) : u.id key = .ok (Environment.lead e ++ spell n.trail) := by
  obtain ⟨n', hn', htrail, he⟩ := h.node hle hn
  have hnamed' : ∀ s ∈ n'.trail, s.IsNamed := htrail ▸ hnamed hle hn
  rw [NodeTable.id_eq hn' hnamed', Node.identity, htrail, he]
  rfl

theorem legible (h : Moved base e t u) (ht : Legible base t) (hnamed : NamedFrom base t) :
    Legible base u := by
  apply h.toSameCode.legible ht h.tidy
  intro key hle hlt
  obtain ⟨n, hn⟩ := get?_of_lt (h.size ▸ hlt)
  exact ⟨_, h.id_eq hnamed hle hn⟩

/-- Two tables that are moved to the same environment leave out the same bodies. -/
theorem omissions_eq (hu : Moved base e t u) (hv : Moved base e t v) (ht : Legible base t)
    (hnamed : NamedFrom base t) (hle : base ≤ key) : u.omissions key = v.omissions key := by
  refine hu.toSameCode.omissions_eq hv.toSameCode ht (hu.legible ht hnamed) ?_ hle
  intro key hle hlt
  obtain ⟨n, hn⟩ := get?_of_lt hlt
  rw [hu.id_eq hnamed hle hn, hv.id_eq hnamed hle hn]

/-- Once skeletons were made of what is moved, a node tells its skeleton or, if none comes, what it
told at first. -/
theorem retells (h : Moved base e t u) (ht : Legible base t) (hnamed : NamedFrom base t)
    (htold : Told u (u.Reaches key) u') (hkey : base ≤ key) (hle : base ≤ k)
    (hlt : k < t.nodes.size) {source : String} (hsource : t.text? k = some source)
    (hkept : (t.Reaches key k → t.omissions k = []) → u.text? k = t.text? k) :
    ∃ text, u'.text? k = some text ∧ t.Retells key k (u'.omissions k) text := by
  have hu := h.legible ht hnamed
  by_cases hbodies : t.Reaches key k → t.omissions k = []
  · have hbodies' : u.Reaches key k → u.omissions k = [] := by
      rw [h.reaches_iff ht hkey, h.omissions_eq_nil_iff ht hu hle]
      exact hbodies
    refine ⟨source, ?_, fun _ => hsource, fun hreach hne => absurd (hbodies hreach) hne⟩
    rw [htold.kept k hbodies', hkept hbodies, hsource]
  · obtain ⟨hreach, hne⟩ := Classical.not_imp.mp hbodies
    obtain ⟨n, hn, -⟩ := ht.tree_of_omissions hle hne
    have hreach' := (h.reaches_iff ht hkey).mpr hreach
    have hn' := (h.tree?_eq ht hle hlt).trans hn
    have hne' := mt (h.omissions_eq_nil_iff ht hu hle).mp hne
    refine ⟨_, htold.told k hreach' n hn' hne', fun h => absurd h hbodies, fun _ _ => ⟨n, hn, ?_⟩⟩
    rw [hu.omissions_retold hle htold.retold]

end Moved

section Grafted
variable {uri : String} {e e' : Option Environment} {gs : List Graft}

/-- Below a node with a trail of names, grafts have trails of names. -/
theorem Grafted.namedFrom (h : Grafted uri e t gs t') (ht : NamedFrom base t)
    (hbelow : ∀ g ∈ gs, base ≤ g.parent) : NamedFrom base t' := by
  intro key n hle hn
  induction key using Nat.strongRecOn generalizing n with
  | ind key ih =>
    rcases h.lt_or_new (lt_size hn) with hold | ⟨i, g, hg, rfl⟩
    · exact ht hle ((h.old hold).symm.trans hn)
    · obtain ⟨hparent, above, n', habove, hn', hmakes⟩ := h.new hg
      cases hn.symm.trans hn'
      rw [hmakes.trail]
      intro s hs
      rcases List.mem_append.mp hs with hs | hs
      · exact ih _ hparent (hbelow g (List.mem_of_getElem? hg)) habove s hs
      · exact ⟨_, _, List.mem_singleton.mp hs, Scope.mark_ne_empty _⟩

/-- All that is grafted below a node is inside of it. -/
theorem Grafted.inside (h : Grafted uri e t gs t') (hsize : t.nodes.size = base + 1)
    (hbelow : ∀ g ∈ gs, base ≤ g.parent) (hle : base ≤ key) (hlt : key < t'.nodes.size) :
    key = base ∨ t'.Inside base key := by
  induction key using Nat.strongRecOn with
  | ind key ih =>
    rcases h.lt_or_new hlt with hold | ⟨i, g, hg, rfl⟩
    · rw [hsize] at hold
      exact .inl (Nat.le_antisymm (Nat.le_of_lt_succ hold) hle)
    · have hparent := (h.new hg).1
      have hi := (List.getElem?_eq_some_iff.mp hg).1
      have hmem : t.nodes.size + i ∈ t'.members g.parent := by
        rw [h.members, h.keysBelow_eq]
        apply List.mem_append_right
        rw [List.mem_filter, List.mem_range'_1, h.parent? hg]
        exact ⟨⟨Nat.le_add_right .., Nat.add_lt_add_left hi _⟩, beq_self_eq_true _⟩
      rcases ih _ hparent (hbelow g (List.mem_of_getElem? hg)) (Nat.lt_trans hparent hlt) with
        heq | hinside
      · exact .inr (.single (heq ▸ hmem))
      · exact .inr (hinside.tail hmem)

/-- Grafts have texts. -/
theorem Grafted.exists_text (h : Grafted uri e t gs t') (hsize : t.nodes.size = base + 1)
    {n : Node} {d : Definition} {text : String} (hn : t.get? base = some n)
    (hd : n.content = .definition d) (htext : d.text = .str text) (hle : base ≤ key)
    (hlt : key < t'.nodes.size) : ∃ text, t'.text? key = some text := by
  rcases h.lt_or_new hlt with hold | ⟨i, g, hg, rfl⟩
  · rw [hsize] at hold
    obtain rfl := Nat.le_antisymm (Nat.le_of_lt_succ hold) hle
    refine ⟨text, ?_⟩
    rw [text?_eq (definition_eq_ok.mpr ⟨n, h.get? hn, hd⟩), htext]
    rfl
  · obtain ⟨-, above, n', -, hn', hmakes⟩ := h.new hg
    obtain ⟨nameRange, range, -, -, hcontent⟩ := hmakes.content
    exact ⟨_, text?_eq (definition_eq_ok.mpr ⟨n', hn', hcontent⟩)⟩

structure Twins (base : Nat) (e : Option Environment) (t u : NodeTable) : Prop where
  size : u.nodes.size = t.nodes.size
  members : ∀ {key}, base ≤ key → u.members key = t.members key
  node : ∀ {key n}, base ≤ key → t.get? key = some n → ∃ n', u.get? key = some n' ∧
    n'.content = n.content ∧ n'.trail = n.trail ∧ n'.environment = e

theorem Twins.definition (h : Twins base e t u) (hle : base ≤ key) {d : Definition}
    (hd : t.definition key = .ok d) : u.definition key = .ok d := by
  obtain ⟨n, hn, hcontent⟩ := definition_eq_ok.mp hd
  obtain ⟨n', hn', hsame, -⟩ := h.node hle hn
  exact definition_eq_ok.mpr ⟨n', hn', hsame.trans hcontent⟩

theorem Twins.moved (h : Twins base e t u) (ht : t.Tidy) (hu : u.Tidy) : Moved base e t u where
  strays := hu.strays_eq.trans ht.strays_eq.symm
  size := h.size
  members := h.members
  code hle hd := ⟨_, h.definition hle hd, rfl, rfl⟩
  tidy := hu
  node hle hn := by
    obtain ⟨n', hn', -, hrest⟩ := h.node hle hn
    exact ⟨n', hn', hrest⟩

/-- Grafts are the same in two environments, if what they stand below is. -/
theorem Grafted.twins (h : Grafted uri e t gs t') (h' : Grafted uri e' u gs u')
    (hbelow : ∀ g ∈ gs, base ≤ g.parent) (hold : Twins base e' t u) : Twins base e' t' u' where
  size := by rw [h.size, h'.size, hold.size]
  members hle := by rw [h.members, h'.members, hold.members hle, hold.size]
  node {key n} hle hn := by
    induction key using Nat.strongRecOn generalizing n with
    | ind key ih =>
      rcases h.lt_or_new (lt_size hn) with hlt | ⟨i, g, hg, rfl⟩
      · obtain ⟨n', hn', hsame⟩ := hold.node hle ((h.old hlt).symm.trans hn)
        exact ⟨n', h'.get? hn', hsame⟩
      · obtain ⟨hparent, above, n₁, habove, hn₁, hmakes⟩ := h.new hg
        obtain ⟨-, above', n', habove', hn', hmakes'⟩ := h'.new hg
        cases hn.symm.trans hn₁
        obtain ⟨above'', habove'', -, htrail, -⟩ :=
          ih _ hparent (hbelow g (List.mem_of_getElem? hg)) habove
        cases habove'.symm.trans habove''
        refine ⟨n', hold.size ▸ hn', ?_, ?_, hmakes'.environment⟩
        · obtain ⟨nameRange, range, hname, hrange, hcontent⟩ := hmakes.content
          obtain ⟨nameRange', range', hname', hrange', hcontent'⟩ := hmakes'.content
          cases hname.symm.trans hname'
          cases hrange.symm.trans hrange'
          rw [hcontent, hcontent']
        · rw [hmakes.trail, hmakes'.trail, htrail]

end Grafted
end NodeTable

namespace Hierarchy
open NodeTable
variable {w : Workspace} {l : Option Language} {e : Option Environment} {above : Option NodeKey}
  {file : ProjectFile} {level : Int} {t t' : NodeTable} {keys : List NodeKey}

/-- The definition and the grafts that a file is planted with are the same in all environments. -/
theorem plantFile_everywhere (ht : t.Regular)
    (hplant : (plantFile w l e above file (.int level)).perform t = (.ok keys, t')) :
    ∃ d gs, (∃ text, d.text = .str text) ∧ keys = List.range' t.nodes.size (gs.length + 1) ∧
      (∀ g ∈ gs, t.nodes.size ≤ g.parent) ∧ ∀ e', ∃ t'',
        (plantFile w l e' above file (.int level)).perform t = (.ok keys, t'') ∧
        Grafted file.uri e' (t.push (t.fresh (.definition d) file.uri (.str file.name)
          (.int level) above e')) gs t'' := by
  cases hl : l.filter (isReadBy · file) with
  | none =>
    have hrun := fun e' => perform_plantFile_plain (w := w) hl e' above level t
    cases (hrun e).symm.trans hplant
    exact ⟨_, [], ⟨"", rfl⟩, rfl, by simp, fun e' => ⟨_, hrun e', .nil (ht.push rfl)⟩⟩
  | some l' =>
    have hread : isReadBy l' file = true := (Option.filter_eq_some_iff.mp hl).2
    have hself : (some l').filter (isReadBy · file) = some l' := by simp [hread]
    have hlanguage : ∀ e', plantFile w l e' above file (.int level) =
        plantFile w (some l') e' above file (.int level) := by
      intro e'
      unfold plantFile
      rw [hl, hself]
    rw [hlanguage] at hplant
    obtain ⟨hext, text, htext⟩ := readable_of_plantFile hread hplant
    obtain ⟨t₁, -, hfails, hrun⟩ := plantFile_grafted hext htext e above level ht
    have hnames : (Outline.read l' [] (w.grammar.parse l' file.extension text)).fault = none := by
      cases hfault : (Outline.read l' [] (w.grammar.parse l' file.extension text)).fault with
      | none => rfl
      | some fault => cases (hfails hfault).symm.trans hplant
    cases (hrun hnames).symm.trans hplant
    let root := w.grammar.parse l' file.extension text
    let place : Place := ⟨.ofRange root.range, Text.Percent.decode file.uri⟩
    refine ⟨⟨.file, place, place, .str text, some root, some (.root root), [], []⟩, _,
      ⟨text, rfl⟩, rfl, ?_, fun e' => ?_⟩
    · exact fun g hg => le_parent_of_mem_graftsAll _ (Nat.le_succ _) hg
    · obtain ⟨t'', hgrafted, -, hrun'⟩ := plantFile_grafted hext htext e' above level ht
      rw [hlanguage]
      exact ⟨t'', hrun' hnames, hgrafted⟩

/-- Is the node a file is put below, if any, there, with a trail of names? -/
def NamedAbove (t : NodeTable) (above : Option NodeKey) : Prop :=
  ∀ p, above = some p → ∃ n, t.get? p = some n ∧ ∀ s ∈ n.trail, s.IsNamed

theorem NamedAbove.push (h : NamedAbove t above) (d : Definition) (uri name : String)
    (level : Json) (e : Option Environment) :
    NamedFrom t.nodes.size (t.push (t.fresh (.definition d) uri (.str name) level above e)) := by
  intro key n hle hn s hs
  obtain ⟨-, rfl⟩ | hold := of_get?_push hn
  swap
  · exact absurd (lt_size hold) (Nat.not_lt_of_le hle)
  rcases List.mem_append.mp hs with hs | hs
  · cases above with
    | none => cases hs
    | some p =>
      obtain ⟨n, hn, hnamed⟩ := h p rfl
      rw [Option.bind_some, hn] at hs
      exact hnamed s hs
  · exact ⟨_, _, List.mem_singleton.mp hs, Scope.mark_ne_empty _⟩

theorem twins_push (ht : t.Regular) (d : Definition) (uri : String) (name level : Json)
    (above : Option NodeKey) (e e' : Option Environment) :
    Twins t.nodes.size e' (t.push (t.fresh (.definition d) uri name level above e))
      (t.push (t.fresh (.definition d) uri name level above e')) where
  size := by rw [size_push, size_push]
  members _ := by rw [ht.members_push rfl, ht.members_push rfl]
  node {key n} hle hn := by
    obtain ⟨rfl, rfl⟩ | hold := of_get?_push hn
    · exact ⟨_, t.get?_push_self _, rfl, rfl, rfl⟩
    · exact absurd (lt_size hold) (Nat.not_lt_of_le hle)

/-- A planted file: its nodes have the last keys, are inside of its first node, and have texts and
trails of names. -/
structure Rooted (uri : String) (file : NodeKey) (keys : List NodeKey) (t : NodeTable) : Prop where
  mem_iff : ∀ {k}, k ∈ keys ↔ file ≤ k ∧ k < t.nodes.size
  named : NamedFrom file t
  inside : ∀ {k}, k ∈ keys → k = file ∨ t.Inside file k
  text : ∀ {k}, k ∈ keys → ∃ text, t.text? k = some text
  path : ∃ n, t.get? file = some n ∧ n.path = uri

/-- A file is planted with the same nodes in all environments. -/
theorem plantFile_twins (ht : t.Regular) (habove : NamedAbove t above)
    (hplant : (plantFile w l e above file (.int level)).perform t = (.ok keys, t')) :
    Rooted file.uri t.nodes.size keys t' ∧ ∀ e', ∃ t'',
      (plantFile w l e' above file (.int level)).perform t = (.ok keys, t'') ∧
      Twins t.nodes.size e' t' t'' := by
  obtain ⟨d, gs, ⟨text, htext⟩, rfl, hbelow, hall⟩ := plantFile_everywhere ht hplant
  obtain ⟨t₁, hrun, hgrafted⟩ := hall e
  cases hrun.symm.trans hplant
  have hsize : t'.nodes.size = t.nodes.size + (gs.length + 1) := by
    rw [hgrafted.size, size_push, Nat.add_right_comm, Nat.add_assoc]
  have hmem : ∀ {k}, k ∈ List.range' t.nodes.size (gs.length + 1) ↔
      t.nodes.size ≤ k ∧ k < t'.nodes.size := by
    intro k
    rw [List.mem_range'_1, hsize]
  have hself := hgrafted.get? (t.get?_push_self _)
  refine ⟨⟨hmem, ?_, ?_, ?_, _, hself, rfl⟩, ?_⟩
  · exact hgrafted.namedFrom (habove.push d file.uri file.name (.int level) e) hbelow
  · intro k hk
    obtain ⟨hle, hlt⟩ := hmem.mp hk
    exact hgrafted.inside (size_push _) hbelow hle hlt
  · intro k hk
    obtain ⟨hle, hlt⟩ := hmem.mp hk
    exact hgrafted.exists_text (size_push _) (t.get?_push_self _) rfl htext hle hlt
  · intro e'
    obtain ⟨t'', hrun', hgrafted'⟩ := hall e'
    exact ⟨t'', hrun', hgrafted.twins hgrafted' hbelow (twins_push ht d file.uri _ _ above e e')⟩

end Hierarchy
end CodeAtlas
