import CodeAtlas.Proofs.Outline.Traversal
import CodeAtlas.Proofs.Skeleton.Moving

namespace CodeAtlas
open Source

namespace NodeTable
variable {t t' : NodeTable} {base : Nat} {key m : NodeKey}

/-- A tidy table in which all trails are made of names. The names need not be text. -/
structure Spelled (t : NodeTable) : Prop extends Tidy t t.strays where
  named : NamedFrom 0 t

theorem spelled_empty (strays : List Char) : Spelled { strays } where
  toTidy := tidy_empty strays
  named _ h := by simp [get?] at h

/-- All identifiers are known. -/
theorem Spelled.exists_id (h : t.Spelled) (hlt : key < t.nodes.size) :
    ∃ id, t.id key = .ok id := by
  obtain ⟨n, hn⟩ := get?_of_lt hlt
  exact ⟨_, id_eq hn (h.named (Nat.zero_le key) hn)⟩

theorem Retold.spelled (h : Retold t t') (ht : t.Spelled) : t'.Spelled where
  toTidy := (h.tidy ht.toTidy).self
  named := h.namedFrom ht.named

/-- A name more, below a trail of names. -/
theorem NamedFrom.push (h : NamedFrom 0 t) {n : Node} {parent : Option NodeKey}
    {mark name : String} (hmark : mark ≠ "")
    (htrail : n.trail = t.trailBelow parent (.named mark (.str name))) :
    NamedFrom 0 (t.push n) := by
  intro key n' hle hn'
  rcases of_get?_push hn' with ⟨-, rfl⟩ | hold
  · rw [htrail, trailBelow]
    intro s hs
    rcases List.mem_append.mp hs with hs | hs
    · cases habove : parent.bind t.get? with
      | none => simp [habove] at hs
      | some above =>
        obtain ⟨k, -, hk⟩ := Option.bind_eq_some_iff.mp habove
        rw [habove] at hs
        exact h (Nat.zero_le k) hk s hs
    · exact ⟨mark, name, List.mem_singleton.mp hs, hmark⟩
  · exact h hle hold

theorem NamedFrom.appendMembers (h : NamedFrom 0 t) (added : List NodeKey) :
    NamedFrom 0 (t.appendMembers key added) :=
  fun hle hn => h hle ((get?_appendMembers ..).symm.trans hn)

theorem Spelled.push_folder (h : t.Spelled) (path name : String) (level : Json)
    (parent : Option NodeKey) (e : Option Environment) :
    (t.push (t.fresh .folder path (.str name) level parent e)).Spelled where
  toTidy := h.toTidy.push rfl
  named := NamedFrom.push h.named (show "/" ≠ "" by decide) rfl

/-- A table with the node of a file, and with grafts below it. -/
structure Sprouted (e : Option Environment) (above : Option NodeKey) (file : ProjectFile)
    (t : NodeTable) (gs : List Graft) (t' : NodeTable) : Prop where
  grafted : ∃ (d : Definition) (level : Json), Grafted file.uri e
    (t.push (t.fresh (.definition d) file.uri (.str file.name) level above e)) gs t'
  below : ∀ g ∈ gs, t.nodes.size ≤ g.parent

namespace Sprouted
variable {e : Option Environment} {above : Option NodeKey} {file : ProjectFile} {gs : List Graft}

/-- Members come after the node that they belong to. -/
theorem lt_of_mem (h : Sprouted e above file t gs t') (ht : t.Regular)
    (hle : t.nodes.size ≤ key) (hm : m ∈ t'.members key) : key < m := by
  obtain ⟨d, level, hgrafted⟩ := h.grafted
  have hold : t.members key = [] := by
    rw [members, get?_eq_none.mpr hle]
  rw [hgrafted.members, ht.members_push rfl, hold, List.nil_append, keysBelow, List.mem_map] at hm
  obtain ⟨x, hx, rfl⟩ := hm
  obtain ⟨hx, hparent⟩ := List.mem_filter.mp hx
  obtain ⟨hfirst, hg⟩ := List.mk_mem_zipIdx_iff_le_and_getElem?_sub.mp hx
  have hlt := (hgrafted.new hg).1
  rw [Nat.add_sub_cancel' hfirst, beq_iff_eq.mp hparent] at hlt
  exact hlt

theorem namedFrom (h : Sprouted e above file t gs t') (ht : NamedFrom 0 t) : NamedFrom 0 t' := by
  obtain ⟨d, level, hgrafted⟩ := h.grafted
  exact hgrafted.namedFrom (ht.push d.scope.mark_ne_empty rfl) fun _ _ => Nat.zero_le _

end Sprouted

/-- From a place on, there are definitions only, and the members of each come after it. -/
structure Downward (base : Nat) (t : NodeTable) : Prop extends Spelled t where
  definition : ∀ {key}, base ≤ key → key < t.nodes.size → ∃ d, t.definition key = .ok d
  later : ∀ {key m}, base ≤ key → m ∈ t.members key → key < m

/-- The nodes of a file go down from its own node. -/
theorem Sprouted.downward {e : Option Environment} {above : Option NodeKey} {file : ProjectFile}
    {gs : List Graft} (h : Sprouted e above file t gs t') (ht : t.Spelled)
    (htidy : t'.Tidy t.strays) (hfiled : Hierarchy.Filed e above file t t') :
    Downward t.nodes.size t' where
  toTidy := htidy.self
  named := h.namedFrom ht.named
  definition {key} hle hlt := by
    obtain ⟨n, hn⟩ := get?_of_lt hlt
    obtain ⟨-, -, hkind⟩ := hfiled.new hle hn
    split at hkind
    · obtain ⟨-, ⟨d, hd⟩, -⟩ := hkind
      exact ⟨d, definition_eq_ok.mpr ⟨n, hn, hd⟩⟩
    · obtain ⟨d, hd, -⟩ := hkind
      exact ⟨d, definition_eq_ok.mpr ⟨n, hn, hd⟩⟩
  later hle hm := h.lt_of_mem ht.toRegular hle hm

/-- The members of a definition can all be cut out, also after texts have changed. -/
theorem Downward.known_retold (ht : Downward base t) (h : Retold t t') (hle : base ≤ key) :
    ∀ m ∈ t'.members key, (∃ d, t'.definition m = .ok d) ∧
      ∃ id, t.id m = .ok id ∧ t'.id m = .ok id := by
  intro m hm
  rw [h.members ht.toRegular] at hm
  have hlt := ht.inside hm
  obtain ⟨d, hd⟩ := ht.definition (Nat.le_trans hle (Nat.le_of_lt (ht.later hle hm))) hlt
  obtain ⟨d', hd', -⟩ := h.definition hd
  obtain ⟨id, hid⟩ := ht.exists_id hlt
  exact ⟨⟨d', hd'⟩, id, hid, h.keeps.id hid⟩

end NodeTable

namespace Hierarchy
open NodeTable
variable {t : NodeTable}

/-- Planting a file either comes to nothing or adds its node and grafts below it. -/
theorem plantFile_sprouted (w : Workspace) (l : Option Language) (e : Option Environment)
    (above : Option NodeKey) (file : ProjectFile) (level : Int) (ht : t.Regular) :
    (plantFile w l e above file (.int level)).Ends t
      (fun _ t' => ∃ gs, Sprouted e above file t gs t')
      (fun t' => t' = t ∨ ∃ gs, Sprouted e above file t gs t') := by
  cases hl : l.filter (isReadBy · file) with
  | none =>
    refine Action.ends_iff.mpr ⟨fun keys t' hrun => ?_, fun fault t' hrun => ?_⟩
    · rw [perform_plantFile_plain hl] at hrun
      cases hrun
      exact ⟨[], ⟨_, _, .nil (ht.push rfl)⟩, by simp⟩
    · rw [perform_plantFile_plain hl] at hrun
      cases hrun
  | some l' =>
    obtain ⟨rfl, -⟩ := Option.filter_eq_some_iff.mp hl
    cases htext : sourceText w.disk file with
    | error fault =>
      rw [plantFile, hl]
      dsimp only
      rw [Action.ends_bind, htext]
      exact Action.ends_ofExcept (fun _ h => by cases h) (.inl rfl)
    | ok text =>
      by_cases hext : l'.extensions.contains file.extension = true
      · obtain ⟨t', hgrafted, hfault, hnone⟩ := plantFile_grafted hext htext e above level ht
        have hsprouted : ∃ gs, Sprouted e above file t gs t' := by
          refine ⟨_, ⟨_, _, hgrafted⟩, fun g hg => ?_⟩
          exact le_parent_of_mem_graftsAll _ (Nat.le_succ _) hg
        cases hread : (Outline.read l' [] (w.grammar.parse l' file.extension text)).fault with
        | none =>
          refine Action.ends_iff.mpr ⟨fun keys t'' hrun => ?_, fun fault t'' hrun => ?_⟩
          · cases (hnone hread).symm.trans hrun
            exact hsprouted
          · cases (hnone hread).symm.trans hrun
        | some fault =>
          refine Action.ends_iff.mpr ⟨fun keys t'' hrun => ?_, fun fault t'' hrun => ?_⟩
          · cases (hfault hread).symm.trans hrun
          · cases (hfault hread).symm.trans hrun
            exact .inr hsprouted
      · rw [plantFile, hl]
        dsimp only
        rw [Action.ends_bind, htext, Action.ends_ofExcept_ok, Bool.eq_false_iff.mpr hext]
        exact Action.ends_bind.mpr (Action.ends_throw.mpr (.inl rfl))

/-- A file is planted with trails of names, as far as it is planted. -/
theorem plantFile_spelled (w : Workspace) (l : Option Language) (e : Option Environment)
    (above : Option NodeKey) (file : ProjectFile) (level : Int) (ht : t.Spelled) :
    (plantFile w l e above file (.int level)).Ends t (fun _ => Spelled) Spelled := by
  refine ((plantFile_filed w l e above file (.int level) ht.toTidy).and
    (plantFile_sprouted w l e above file level ht.toRegular)).mono ?_ ?_
  · rintro keys t' ⟨⟨htidy, -⟩, gs, hsprouted⟩
    exact ⟨htidy.self, hsprouted.namedFrom ht.named⟩
  · rintro t' ⟨⟨htidy, -⟩, rfl | ⟨gs, hsprouted⟩⟩
    · exact ht
    · exact ⟨htidy.self, hsprouted.namedFrom ht.named⟩

end Hierarchy
end CodeAtlas
