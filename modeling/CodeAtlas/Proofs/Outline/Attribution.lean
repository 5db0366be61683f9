import CodeAtlas.Proofs.Outline.Search

namespace CodeAtlas
open Source

/-- Is a point another one, or before it? -/
def Point.Le (p q : Point) : Prop :=
  p.line < q.line ∨ p.line = q.line ∧ p.character ≤ q.character

instance (p q : Point) : Decidable (p.Le q) :=
  inferInstanceAs (Decidable (_ ∨ _))

def Range.Holds (outer inner : Range) : Prop :=
  outer.start.Le inner.start ∧ inner.stop.Le outer.stop

instance (outer inner : Range) : Decidable (outer.Holds inner) :=
  inferInstanceAs (Decidable (_ ∧ _))

/-- Does a tree begin on the first line of a range and after the range does, or end on its last line
and before the range does? -/
def Source.SyntaxNode.Clips (n : SyntaxNode) (r : Range) : Prop :=
  (n.start.row : Int) = r.start.line ∧ r.start.character < n.start.column ∨
    (n.stop.row : Int) = r.stop.line ∧ (n.stop.column : Int) < r.stop.character

section
variable {n n' : SyntaxNode} {r : Range}

theorem Range.Holds.lines (h : n.range.Holds r) :
    (n.start.row : Int) ≤ r.start.line ∧ r.stop.line ≤ n.stop.row := by
  obtain ⟨hstart, hstop⟩ := h
  simp only [Point.Le, SyntaxNode.range, Spot.point] at hstart hstop
  omega

theorem holds_iff_of_lines (h : (n.start.row : Int) ≤ r.start.line ∧ r.stop.line ≤ n.stop.row) :
    n.range.Holds r ↔ ¬n.Clips r := by
  simp only [Range.Holds, Point.Le, SyntaxNode.range, Spot.point, SyntaxNode.Clips]
  omega

theorem Range.Holds.outer (h : n'.range.Holds r) (hstart : n.start.Reaches n'.start)
    (hstop : n'.stop.Reaches n.stop) : n.range.Holds r := by
  have hbefore := hstart.point
  have hafter := hstop.point
  simp only [Range.Holds, Point.Le, SyntaxNode.range, Spot.point] at h ⊢
  omega

end

namespace NodeTable

/-- Does a definition hold a range, from the start point of its syntax to the end point? -/
def Covers (t : NodeTable) (r : Range) (key : NodeKey) : Prop :=
  ∃ n, t.tree? key = some n ∧ n.range.Holds r

/-- The innermost definition of a file that holds a range, or the file itself if there is none. -/
def Innermost (t : NodeTable) (file : NodeKey) (keys : List NodeKey) (r : Range)
    (user : NodeKey) : Prop :=
  (user = file ∧ ∀ m ∈ keys, m ≠ file → ¬t.Covers r m) ∨
    (user ∈ keys ∧ user ≠ file ∧ t.Covers r user ∧ ∀ m, t.Inside user m → ¬t.Covers r m)

variable {t : NodeTable} {first key m : NodeKey} {r : Range} {ks : List NodeKey} {e : Extent}

theorem Covers.holdsLines (h : t.Covers r key) {n : SyntaxNode} (hn : t.Spans key n) :
    t.HoldsLines (.ofRange r) key := by
  obtain ⟨n', hn', hholds⟩ := h
  cases hn.1.symm.trans hn'
  exact (hn.holdsLines_iff rfl rfl).mpr hholds.lines

namespace Lined

/-- What holds a range of a member holds it itself. -/
theorem covers_of_mem (h : t.Lined first) (hkey : first ≤ key) (htree : t.tree? key ≠ none)
    (hm : m ∈ t.members key) (hcovers : t.Covers r m) : t.Covers r key := by
  obtain ⟨n, hn⟩ := Option.ne_none_iff_exists'.mp htree
  obtain ⟨n', hn', hholds⟩ := hcovers
  obtain ⟨hstart, hstop⟩ := h.nested hkey hm hn hn'
  exact ⟨n, hn, hholds.outer hstart hstop⟩

theorem tree?_of_mem (h : t.Lined first) (hkey : first ≤ key) (hm : m ∈ t.members key) :
    first ≤ m ∧ t.tree? m ≠ none := by
  obtain ⟨hlt, -, n, hn⟩ := h.member hkey hm
  refine ⟨Nat.le_trans hkey (Nat.le_of_lt hlt), ?_⟩
  rw [hn.1]
  exact Option.some_ne_none n

/-- Where something below a definition holds a range, a member does. -/
theorem exists_member (h : t.Lined first) (hkey : first ≤ key) (hinside : t.Inside key m)
    (hcovers : t.Covers r m) : ∃ k ∈ t.members key, t.Covers r k := by
  induction hinside using Relation.TransGen.head_induction_on with
  | single hm => exact ⟨m, hm, hcovers⟩
  | head hm _ ih =>
    obtain ⟨hle, htree⟩ := h.tree?_of_mem hkey hm
    obtain ⟨k, hk, hcovers'⟩ := ih hle
    exact ⟨_, hm, h.covers_of_mem hle htree hk hcovers'⟩

/-- What a search ends at is held by all that the search went into. -/
theorem covers_of_descends (h : t.Lined first) (hkey : first ≤ key) (htree : t.tree? key ≠ none)
    (hdescends : t.Descends e key ks) (hcovers : t.Covers r (ks.getLastD key)) :
    t.Covers r key ∧ ∀ m ∈ ks, t.Covers r m := by
  induction hdescends with
  | here => exact ⟨hcovers, by simp⟩
  | @into key m before after ks hmembers _ _ _ ih =>
    have hm : m ∈ t.members key := by simp [hmembers]
    obtain ⟨hle, htree'⟩ := h.tree?_of_mem hkey hm
    rw [List.getLastD_cons] at hcovers
    obtain ⟨hcovers', hall⟩ := ih hle htree' hcovers
    exact ⟨h.covers_of_mem hkey htree hm hcovers', List.forall_mem_cons.mpr ⟨hcovers', hall⟩⟩

/-- A search goes to later keys. -/
theorem lt_of_descends (h : t.Lined first) (hkey : first ≤ key) (hdescends : t.Descends e key ks) :
    ∀ m ∈ ks, key < m ∧ m < t.nodes.size ∧ ∃ n, t.Spans m n := by
  induction hdescends with
  | here => simp
  | @into key m before after ks hmembers _ _ _ ih =>
    have hm : m ∈ t.members key := by simp [hmembers]
    obtain ⟨hlt, hsize, hspans⟩ := h.member hkey hm
    refine List.forall_mem_cons.mpr ⟨⟨hlt, hsize, hspans⟩, ?_⟩
    intro k hk
    obtain ⟨hlt', hsize', hspans'⟩ := ih (Nat.le_trans hkey (Nat.le_of_lt hlt)) k hk
    exact ⟨Nat.lt_trans hlt hlt', hsize', hspans'⟩

end Lined
end NodeTable

/-- What a search in a file ends at is the innermost definition around the range exactly if all that
the search went into hold the range. -/
theorem Outlined.innermost_iff {l : Language} {root : SyntaxNode} {uri : String}
    {e : Option Environment} {file : NodeKey} {addresses : List (List Nat)} {t : NodeTable}
    (h : Outlined l root uri e file addresses t) (hfile : t.tree? file = some root)
    (hlined : t.Lined file) {r : Range} {ks : List NodeKey}
    (hdescends : t.Descends (.ofRange r) file ks) :
    t.Innermost file (List.range' file (addresses.length + 1)) r (ks.getLastD file) ↔
      ∀ m ∈ ks, t.Covers r m := by
  have htree : t.tree? file ≠ none := by
    rw [hfile]
    exact Option.some_ne_none root
  have hbelow : ∀ {user m}, file ≤ user → (∀ k ∈ t.members user, ¬t.HoldsLines (.ofRange r) k) →
      t.Inside user m → ¬t.Covers r m := by
    intro user m hle hnone hinside hcovers
    obtain ⟨k, hk, hcovers'⟩ := hlined.exists_member hle hinside hcovers
    obtain ⟨-, -, n, hn⟩ := hlined.member hle hk
    exact hnone k hk (hcovers'.holdsLines hn)
  constructor
  · rintro (⟨huser, -⟩ | ⟨-, -, hcovers, -⟩)
    · intro m hm
      have hne : ks ≠ [] := List.ne_nil_of_mem hm
      have hlast : ks.getLastD file ∈ ks := by
        rw [List.getLastD_eq_getLast?, List.getLast?_eq_some_getLast hne]
        exact List.getLast_mem hne
      obtain ⟨hlt, -⟩ := hlined.lt_of_descends (Nat.le_refl file) hdescends _ hlast
      rw [huser] at hlt
      exact absurd hlt (Nat.lt_irrefl file)
    · exact (hlined.covers_of_descends (Nat.le_refl file) htree hdescends hcovers).2
  · intro hall
    have hlast := hdescends.last
    cases hks : ks.getLast? with
    | none =>
      obtain rfl := List.getLast?_eq_none_iff.mp hks
      refine .inl ⟨rfl, ?_⟩
      intro m hm hne
      rw [List.mem_range'_1] at hm
      obtain ⟨i, rfl⟩ := Nat.exists_eq_add_of_le (Nat.lt_of_le_of_ne hm.1 hne.symm)
      refine hbelow (Nat.le_refl file) hlast (h.inside ?_)
      have hlt := hm.2
      rw [Nat.add_comm addresses.length 1, ← Nat.add_assoc] at hlt
      exact Nat.lt_of_add_lt_add_left hlt
    | some user =>
      have huser : ks.getLastD file = user := by
        rw [List.getLastD_eq_getLast?, hks, Option.getD_some]
      have hmem := List.mem_of_getLast? hks
      obtain ⟨hlt, hsize, -⟩ := hlined.lt_of_descends (Nat.le_refl file) hdescends _ hmem
      rw [huser] at hlast ⊢
      refine .inr ⟨?_, Nat.ne_of_gt hlt, hall user hmem,
        fun m => hbelow (Nat.le_of_lt hlt) hlast⟩
      rw [List.mem_range'_1]
      refine ⟨Nat.le_of_lt hlt, ?_⟩
      rw [Nat.add_comm addresses.length 1, ← Nat.add_assoc, ← h.size]
      exact hsize

/-- A reference is attributed to the innermost definition around it exactly if no definition on the
way of the search begins on the first line of the reference and after it, or ends on the last line
and before it. -/
theorem attributed_to_innermost_iff {w : Workspace} {l : Language}
    {file : ProjectFile} {text : String} {e : Option Environment} {above : Option NodeKey}
    {level : Int} {keys : List NodeKey} {t t' : NodeTable}
    (hext : l.extensions.contains file.extension = true)
    (htext : Hierarchy.sourceText w.disk file = .ok text) (ht : t.Regular)
    (hplant : (Hierarchy.plantFile w (some l) e above file
      (.int level)).perform t = (.ok keys, t')) {r : Range} (hr : r.start.Le r.stop) :
    ∃ entered user, t'.entered (.ofRange r) t.nodes.size = .ok entered ∧
      user = entered.getLastD t.nodes.size ∧
      t'.referenceSearch (.ofRange r) t.nodes.size = .ok user ∧
      (t'.Innermost t.nodes.size keys r user ↔
        ∀ m ∈ entered, ∀ n, t'.tree? m = some n → ¬n.Clips r) := by
  have hlines : r.start.line ≤ r.stop.line := by
    unfold Point.Le at hr
    omega
  obtain ⟨ks, hentered, hsearch, -, hdescends⟩ :=
    Hierarchy.exists_search (r := .ofRange r) hext htext ht hplant rfl rfl hlines
  have hlined := Hierarchy.lined_of_plantFile hext htext ht hplant
  obtain ⟨addresses, rfl, hfile, houtlined⟩ :=
    Hierarchy.outlined_of_plantFile w hext htext ht hplant
  refine ⟨ks, _, hentered, rfl, hsearch, ?_⟩
  rw [houtlined.innermost_iff (Hierarchy.tree?_fileNode hfile) hlined hdescends]
  apply forall₂_congr
  intro m hm
  obtain ⟨-, -, n, hn⟩ := hlined.lt_of_descends (Nat.le_refl _) hdescends m hm
  have hlines := (hn.holdsLines_iff rfl rfl).mp (hdescends.holdsLines m hm)
  constructor
  · rintro ⟨n', hn', hholds⟩ k hk
    cases hn'.symm.trans hk
    cases hn.1.symm.trans hk
    exact (holds_iff_of_lines hlines).mp hholds
  · intro hclips
    exact ⟨n, hn.1, (holds_iff_of_lines hlines).mpr (hclips n hn.1)⟩

def ClassWithMethod.use : Range :=
  ⟨⟨3, 11⟩, ⟨3, 12⟩⟩

/-- The class ends on the line of the reference, as does the method, but not before it. -/
theorem ClassWithMethod.attributed_to_method : planted = (.ok [0, 1, 2, 3], planted.2) ∧
    use.start.Le use.stop ∧ planted.2.referenceSearch (.ofRange use) 0 = .ok 2 ∧
    planted.2.Innermost 0 [0, 1, 2, 3] use 2 := by
  obtain ⟨hext, htext, hplanted⟩ := planted_facts
  have hrun : (planted.2.entered (.ofRange use) 0).toOption = some [1, 2] ∧
      ∀ m ∈ [1, 2], ∀ n ∈ planted.2.tree? m, n.range.Holds use := by
    decide +kernel
  have hle : use.start.Le use.stop := by decide
  obtain ⟨entered, user, hentered, huser, hsearch, hiff⟩ := attributed_to_innermost_iff
    hext htext NodeTable.tidy_empty.toRegular hplanted hle
  have hway : entered = [1, 2] :=
    Except.ok.inj (hentered.symm.trans (Outcome.eq_ok_of_toOption hrun.1))
  subst hway huser
  refine ⟨hplanted, hle, hsearch, hiff.mpr ?_⟩
  intro m hm n hn
  have hholds := hrun.2 m hm n hn
  exact (holds_iff_of_lines hholds.lines).mp hholds

namespace OneLine

def function (title body : String) : Piece :=
  .node "function_declaration" none true [.text "function ",
    .node "identifier" (some "name") true [.text title], .text "()",
    .node "statement_block" (some "body") true [.text body]]

def source : Piece :=
  .node "program" none true [function "a" "{}", .text " ", function "b" "{x}"]

def planted : Except Fault (List NodeKey) × NodeTable :=
  let blob : Blob := ⟨Text.Utf8.bytes source.source, 0, false⟩
  (Hierarchy.plantFile ⟨({} : Disk).addFile "/r/a.js" blob, .ofPieces [source]⟩
    (some .javascript) none none ⟨"a.js", "/r", 1⟩ (.int 1)).perform {}

def use : Range :=
  ⟨⟨0, 28⟩, ⟨0, 29⟩⟩

end OneLine

/-- What stands in the second of two functions on a line is attributed to the first one. -/
theorem OneLine.attributed_to_neighbour : planted = (.ok [0, 1, 2], planted.2) ∧
    planted.2.referenceSearch (.ofRange use) 0 = .ok 1 ∧
    planted.2.Innermost 0 [0, 1, 2] use 2 ∧ ¬planted.2.Innermost 0 [0, 1, 2] use 1 := by
  have hrun : planted.1.toOption = some [0, 1, 2] ∧
      (planted.2.referenceSearch (.ofRange use) 0).toOption = some 1 ∧
      planted.2.members 2 = [] ∧ (planted.2.tree? 2).isSome = true ∧
      (∀ n ∈ planted.2.tree? 2, n.range.Holds use) ∧
      ∀ n ∈ planted.2.tree? 1, ¬n.range.Holds use := by
    decide +kernel
  obtain ⟨hkeys, hsearch, hmembers, htree, hholds, hfails⟩ := hrun
  refine ⟨Outcome.pair_eq_of_toOption hkeys, Outcome.eq_ok_of_toOption hsearch, .inr ?_, ?_⟩
  · obtain ⟨n, hn⟩ := Option.isSome_iff_exists.mp htree
    refine ⟨by decide, by decide, ⟨n, hn, hholds n hn⟩, ?_⟩
    intro m hinside
    obtain ⟨k, hk, -⟩ := Relation.TransGen.head'_iff.mp hinside
    simp [hmembers] at hk
  · rintro (⟨hfile, -⟩ | ⟨-, -, ⟨n, hn, hcovers⟩, -⟩)
    · cases hfile
    · exact hfails n hn hcovers

end CodeAtlas
