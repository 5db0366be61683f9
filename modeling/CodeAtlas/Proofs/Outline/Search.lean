import CodeAtlas.Proofs.Json
import CodeAtlas.Proofs.Outline.Traversal
import CodeAtlas.Proofs.Skeleton.Telling

namespace CodeAtlas
open Source

namespace NodeTable

def HoldsLines (t : NodeTable) (e : Extent) (key : NodeKey) : Prop :=
  ∃ d, t.definition key = .ok d ∧ d.range.extent.holdsLines e = .ok true

/-- The search among members that goes on to the last of them. -/
def scanAmong (t : NodeTable) (e : Extent) (inside : NodeKey → Except Fault NodeKey)
    (key : NodeKey) : List NodeKey → Except Fault NodeKey
  | [] => .ok key
  | m :: ms => do
    if ← (← t.definition m).range.extent.holdsLines e then inside m
    else t.scanAmong e inside key ms

def scanFrom (t : NodeTable) (e : Extent) : Nat → NodeKey → Except Fault NodeKey
  | 0, _ => .error .endlessMembers
  | depth + 1, key => t.scanAmong e (t.scanFrom e depth) key (t.members key)

def scan (t : NodeTable) (e : Extent) (key : NodeKey) : Except Fault NodeKey := do
  let _ ← t.definition key
  t.scanFrom e t.depth key

def enteredAmong (t : NodeTable) (e : Extent) (inside : NodeKey → Except Fault (List NodeKey)) :
    List NodeKey → Except Fault (List NodeKey)
  | [] => .ok []
  | m :: ms => do
    let lines := (← t.definition m).range.extent
    if ← lines.holdsLines e then (m :: ·) <$> inside m
    else if ← e.stop.line.lt lines.start.line then pure []
    else t.enteredAmong e inside ms

def enteredFrom (t : NodeTable) (e : Extent) : Nat → NodeKey → Except Fault (List NodeKey)
  | 0, _ => .error .endlessMembers
  | depth + 1, key => t.enteredAmong e (t.enteredFrom e depth) (t.members key)

/-- The definitions that a search goes into, one after the other. -/
def entered (t : NodeTable) (e : Extent) (key : NodeKey) : Except Fault (List NodeKey) := do
  let _ ← t.definition key
  t.enteredFrom e t.depth key

variable {t : NodeTable} {e : Extent}

theorem searchAmong_eq_entered {key : NodeKey} {inside : NodeKey → Except Fault NodeKey}
    {way : NodeKey → Except Fault (List NodeKey)}
    (hinside : ∀ m, inside m = (fun ks => ks.getLastD m) <$> way m) (ms : List NodeKey) :
    t.searchAmong e inside key ms = (fun ks => ks.getLastD key) <$> t.enteredAmong e way ms := by
  induction ms with
  | nil => rfl
  | cons m ms ih =>
    unfold searchAmong enteredAmong
    rw [hinside, ih]
    rcases t.definition m with fault | d
    · rfl
    dsimp only [bind, Except.bind]
    rcases d.range.extent.holdsLines e with fault | holds
    · rfl
    cases holds with
    | true =>
      rcases way m with fault | ks
      · rfl
      · exact congrArg Except.ok List.getLastD_cons.symm
    | false =>
      rcases e.stop.line.lt d.range.extent.start.line with fault | past
      · rfl
      · cases past <;> rfl

/-- A search ends at the last definition that it went into. -/
theorem searchFrom_eq_entered (t : NodeTable) (e : Extent) (depth : Nat) (key : NodeKey) :
    t.searchFrom e depth key = (fun ks => ks.getLastD key) <$> t.enteredFrom e depth key := by
  induction depth generalizing key with
  | zero => rfl
  | succ depth ih => exact searchAmong_eq_entered ih (t.members key)

/-- The search from a definition on, with the definitions that it goes into: each time the first
member whose lines hold those of the extent, until there is none. -/
inductive Descends (t : NodeTable) (e : Extent) : NodeKey → List NodeKey → Prop where
  | here {key : NodeKey} (h : ∀ m ∈ t.members key, ¬t.HoldsLines e m) : Descends t e key []
  | into {key m : NodeKey} {before after ks : List NodeKey}
    (hmembers : t.members key = before ++ m :: after)
    (hbefore : ∀ k ∈ before, ¬t.HoldsLines e k) (hm : t.HoldsLines e m) (h : Descends t e m ks) :
    Descends t e key (m :: ks)

namespace Descends
variable {key : NodeKey} {ks : List NodeKey}

theorem holdsLines (h : t.Descends e key ks) : ∀ m ∈ ks, t.HoldsLines e m := by
  induction h with
  | here => simp
  | into _ _ hm _ ih => exact List.forall_mem_cons.mpr ⟨hm, ih⟩

theorem last (h : t.Descends e key ks) :
    ∀ m ∈ t.members (ks.getLastD key), ¬t.HoldsLines e m := by
  induction h with
  | here h => exact h
  | into _ _ _ _ ih =>
    rw [List.getLastD_cons]
    exact ih

end Descends

def Spans (t : NodeTable) (key : NodeKey) (n : SyntaxNode) : Prop :=
  t.tree? key = some n ∧ ∃ d, t.definition key = .ok d ∧ d.range.extent = .ofRange n.range

/-- The nodes from a key on are definitions in the order of their source. Members begin after the
definition that they belong to, each no later than the next one, and end before it ends. -/
structure Lined (t : NodeTable) (first : NodeKey) : Prop where
  member : ∀ {key m}, first ≤ key → m ∈ t.members key →
    key < m ∧ m < t.nodes.size ∧ ∃ n, t.Spans m n
  sorted : ∀ {key}, first ≤ key → (t.members key).Pairwise fun m m' => ∀ n n', t.Spans m n →
    t.Spans m' n' → n.start.row ≤ n'.start.row
  nested : ∀ {key m n n'}, first ≤ key → m ∈ t.members key → t.tree? key = some n →
    t.tree? m = some n' → n.start.Reaches n'.start ∧ n'.stop.Reaches n.stop

section Search
variable {a b : Int} (ha : e.start.line = .int a) (hb : e.stop.line = .int b)
include ha hb

theorem Spans.holdsLines_eq {key : NodeKey} {n : SyntaxNode} (h : t.Spans key n) :
    ∃ d, t.definition key = .ok d ∧
      d.range.extent.holdsLines e = .ok (decide ((n.start.row : Int) ≤ a ∧ b ≤ n.stop.row)) ∧
      e.stop.line.lt d.range.extent.start.line = .ok (decide (b < n.start.row)) := by
  obtain ⟨-, d, hd, hextent⟩ := h
  refine ⟨d, hd, ?_, ?_⟩
  · by_cases hstart : (n.start.row : Int) ≤ a <;>
      simp [Extent.holdsLines, hextent, Extent.ofRange, Mark.ofPoint, SyntaxNode.range, Spot.point,
        ha, hb, hstart, bind, Except.bind, pure, Except.pure]
  · simp [hextent, Extent.ofRange, Mark.ofPoint, SyntaxNode.range, Spot.point, hb]

theorem Spans.holdsLines_iff {key : NodeKey} {n : SyntaxNode} (h : t.Spans key n) :
    t.HoldsLines e key ↔ (n.start.row : Int) ≤ a ∧ b ≤ n.stop.row := by
  obtain ⟨d, hd, hholds, -⟩ := h.holdsLines_eq ha hb
  constructor
  · rintro ⟨d', hd', htrue⟩
    cases hd.symm.trans hd'
    rw [hholds, Except.ok.injEq, decide_eq_true_eq] at htrue
    exact htrue
  · intro hlines
    refine ⟨d, hd, ?_⟩
    rw [hholds, decide_eq_true hlines]

theorem Spans.scanAmong_cons {key m : NodeKey} {n : SyntaxNode} (h : t.Spans m n)
    (inside : NodeKey → Except Fault NodeKey) (ms : List NodeKey) :
    t.scanAmong e inside key (m :: ms) =
      if (n.start.row : Int) ≤ a ∧ b ≤ n.stop.row then inside m
      else t.scanAmong e inside key ms := by
  obtain ⟨d, hd, hholds, -⟩ := h.holdsLines_eq ha hb
  rw [scanAmong, hd]
  dsimp only [bind, Except.bind]
  rw [hholds]
  simp only [decide_eq_true_eq]

theorem Spans.enteredAmong_cons {m : NodeKey} {n : SyntaxNode} (h : t.Spans m n)
    (way : NodeKey → Except Fault (List NodeKey)) (ms : List NodeKey) :
    t.enteredAmong e way (m :: ms) =
      if (n.start.row : Int) ≤ a ∧ b ≤ n.stop.row then (m :: ·) <$> way m
      else if b < n.start.row then .ok [] else t.enteredAmong e way ms := by
  obtain ⟨d, hd, hholds, hpast⟩ := h.holdsLines_eq ha hb
  rw [enteredAmong, hd]
  dsimp only [bind, Except.bind]
  rw [hholds, hpast]
  simp only [decide_eq_true_eq]
  rfl

/-- Among members in the order of their lines, the first that holds an extent is found, and it does
not matter whether the search ends early. -/
theorem among_of_sorted (hab : a ≤ b) {key : NodeKey} {inside : NodeKey → Except Fault NodeKey}
    {way : NodeKey → Except Fault (List NodeKey)} {ms : List NodeKey}
    (hspans : ∀ m ∈ ms, ∃ n, t.Spans m n)
    (hsorted : ms.Pairwise fun m m' => ∀ n n', t.Spans m n → t.Spans m' n' →
      n.start.row ≤ n'.start.row) :
    (t.enteredAmong e way ms = .ok [] ∧ t.scanAmong e inside key ms = .ok key ∧
      ∀ m ∈ ms, ¬t.HoldsLines e m) ∨
    ∃ before m after, ms = before ++ m :: after ∧ (∀ k ∈ before, ¬t.HoldsLines e k) ∧
      t.HoldsLines e m ∧ t.enteredAmong e way ms = (m :: ·) <$> way m ∧
      t.scanAmong e inside key ms = inside m := by
  induction ms with
  | nil => exact .inl ⟨rfl, rfl, by simp⟩
  | cons m ms ih =>
    obtain ⟨⟨n, hn⟩, hspans⟩ := List.forall_mem_cons.mp hspans
    obtain ⟨hfirst, hsorted⟩ := List.pairwise_cons.mp hsorted
    rw [hn.enteredAmong_cons ha hb, hn.scanAmong_cons ha hb]
    by_cases hlines : (n.start.row : Int) ≤ a ∧ b ≤ n.stop.row
    · rw [if_pos hlines, if_pos hlines]
      exact .inr ⟨[], m, ms, rfl, by simp, (hn.holdsLines_iff ha hb).mpr hlines, rfl, rfl⟩
    · have hm : ¬t.HoldsLines e m := mt (hn.holdsLines_iff ha hb).mp hlines
      rw [if_neg hlines, if_neg hlines]
      rcases ih hspans hsorted with
        ⟨hentered, hscan, hnone⟩ | ⟨before, k, after, rfl, hbefore, hk, hentered, hscan⟩
      · refine .inl ⟨?_, hscan, List.forall_mem_cons.mpr ⟨hm, hnone⟩⟩
        rw [hentered, ite_self]
      · -- a member that holds the extent begins no later than it, and so do all before that one
        obtain ⟨n', hn'⟩ := hspans k (by simp)
        have hrow := hfirst k (by simp) n n' hn hn'
        have hstart := ((hn'.holdsLines_iff ha hb).mp hk).1
        rw [if_neg (by omega)]
        exact .inr ⟨m :: before, k, after, rfl, List.forall_mem_cons.mpr ⟨hm, hbefore⟩, hk,
          hentered, hscan⟩

/-- From a definition on, the search goes down to the innermost one, with or without its early
end. -/
theorem Lined.exists_entered (hab : a ≤ b) {first : NodeKey} (h : t.Lined first) (depth : Nat)
    {key : NodeKey} (hkey : first ≤ key) (hlt : key < t.nodes.size)
    (hdepth : t.nodes.size ≤ key + depth) :
    ∃ ks, t.enteredFrom e depth key = .ok ks ∧ t.scanFrom e depth key = .ok (ks.getLastD key) ∧
      t.Descends e key ks := by
  induction depth generalizing key with
  | zero => exact absurd hlt (Nat.not_lt.mpr hdepth)
  | succ depth ih =>
    rcases among_of_sorted ha hb hab (fun m hm => (h.member hkey hm).2.2) (h.sorted hkey) with
      ⟨hentered, hscan, hnone⟩ | ⟨before, m, after, hmembers, hbefore, hm, hentered, hscan⟩
    · exact ⟨[], hentered, hscan, .here hnone⟩
    · have hmem : m ∈ t.members key := by simp [hmembers]
      obtain ⟨hgt, hsize, -⟩ := h.member hkey hmem
      have hdepth' : t.nodes.size ≤ m + depth := by
        apply Nat.le_trans hdepth
        rw [Nat.add_comm depth 1, ← Nat.add_assoc]
        exact Nat.add_le_add_right hgt depth
      obtain ⟨ks, hks, hscan', hdescends⟩ :=
        ih (Nat.le_trans hkey (Nat.le_of_lt hgt)) hsize hdepth'
      refine ⟨m :: ks, ?_, ?_, .into hmembers hbefore hm hdescends⟩
      · rw [enteredFrom, hentered, hks]
        rfl
      · rw [scanFrom, hscan, hscan', List.getLastD_cons]

end Search
end NodeTable

namespace Outlined
open NodeTable
variable {l : Language} {root : SyntaxNode} {uri : String} {e : Option Environment}
  {file key m : NodeKey} {addresses : List (List Nat)} {t : NodeTable} {i : Nat} {a : List Nat}

/-- The node of a definition stands where the definition does. -/
theorem spans (h : Outlined l root uri e file addresses t) (ha : addresses[i]? = some a) :
    ∃ n, root.at? a = some n ∧ t.Spans (file + 1 + i) n := by
  obtain ⟨node, hnode, c, s, hat, hsketch, hcontent, -⟩ := h.depicts ha
  have hd := definition_eq_ok.mpr ⟨node, hnode, hcontent⟩
  refine ⟨c.node, hat, ?_, _, hd, rfl⟩
  rw [tree?_eq hd, Sketch.definition, (Outline.sketch_cursor hsketch).1]
  rfl

/-- A member is the node of a definition, and the definition around it is that of the node it
belongs to. -/
theorem exists_of_mem (h : Outlined l root uri e file addresses t) (hkey : file ≤ key)
    (hm : m ∈ t.members key) : ∃ i a around, m = file + 1 + i ∧ addresses[i]? = some a ∧
      Nearest l root around a ∧ key = keyAt file addresses around := by
  rw [h.members hkey, List.mem_filter, List.mem_range'_1, beq_iff_eq] at hm
  obtain ⟨⟨hle, hlt⟩, hparent⟩ := hm
  obtain ⟨i, rfl⟩ := Nat.exists_eq_add_of_le hle
  have ha := List.getElem?_eq_getElem (Nat.lt_of_add_lt_add_left hlt)
  obtain ⟨around, hnearest, hparent'⟩ := h.parent ha
  exact ⟨i, _, around, rfl, ha, hnearest, Option.some.inj (hparent.symm.trans hparent')⟩

/-- The tree behind the node of an address. -/
theorem tree?_keyAt (h : Outlined l root uri e file addresses t) (hfile : t.tree? file = some root)
    {around : Option (List Nat)} (haround : ∀ b ∈ around, b ∈ addresses) :
    t.tree? (keyAt file addresses around) = root.at? (around.getD []) := by
  cases around with
  | none => simpa [keyAt] using hfile
  | some b =>
    obtain ⟨n, hn, hspans⟩ := h.spans (List.getElem?_idxOf (haround b rfl))
    rw [Option.getD_some, hn]
    exact hspans.1

/-- The nodes of a file are in the order of its source. -/
theorem lined (h : Outlined l root uri e file addresses t) (hfile : t.tree? file = some root)
    {first last : Spot} (hroot : root.StandsIn first last) : t.Lined file := by
  constructor
  case member =>
    intro key m hkey hm
    obtain ⟨i, a, around, rfl, ha, hnearest, rfl⟩ := h.exists_of_mem hkey hm
    obtain ⟨n, -, hspans⟩ := h.spans ha
    have hi := (List.getElem?_eq_some_iff.mp ha).1
    refine ⟨h.keyAt_lt ha hnearest, ?_, n, hspans⟩
    rw [h.size]
    exact Nat.add_lt_add_left hi (file + 1)
  case sorted =>
    intro key hkey
    rw [h.members hkey]
    apply List.Pairwise.filter
    rw [List.pairwise_iff_getElem]
    intro i j hi hj hij n n' hn hn'
    rw [List.length_range'] at hi hj
    rw [List.getElem_range', Nat.one_mul] at hn hn'
    obtain ⟨k, hk, hspans⟩ := h.spans (List.getElem?_eq_getElem hi)
    obtain ⟨k', hk', hspans'⟩ := h.spans (List.getElem?_eq_getElem hj)
    cases hspans.1.symm.trans hn.1
    cases hspans'.1.symm.trans hn'.1
    have hbefore := List.pairwise_iff_getElem.mp h.preorder i j hi hj hij
    exact (hroot.start_reaches hbefore hk hk').row
  case nested =>
    intro key m n n' hkey hm hn hn'
    obtain ⟨i, a, around, rfl, ha, hnearest, rfl⟩ := h.exists_of_mem hkey hm
    obtain ⟨k, hk, hspans⟩ := h.spans ha
    cases hspans.1.symm.trans hn'
    have haround : ∀ b ∈ around, b ∈ addresses := fun b hb =>
      (h.complete b).mpr (hnearest.encloses b hb).1
    rw [h.tree?_keyAt hfile haround] at hn
    have hpre : around.getD [] <+: a := by
      cases around with
      | none => exact List.nil_prefix
      | some b => exact (hnearest.encloses b rfl).2.1
    obtain ⟨rest, rfl⟩ := hpre
    rw [SyntaxNode.at?_append, hn] at hk
    have hstands := SyntaxNode.standsIn_iff.mp ((hroot.at? hn).at? hk)
    exact ⟨hstands.1, hstands.2.1⟩

end Outlined

namespace Hierarchy
open NodeTable
variable {w : Workspace} {l : Language} {file : ProjectFile} {text : String}
  {e : Option Environment} {above : Option NodeKey} {level : Int} {keys : List NodeKey}
  {t t' : NodeTable}

theorem tree?_fileNode {root : SyntaxNode} {key : NodeKey}
    (h : t'.get? key = some (fileNode t root text e above file level)) :
    t'.tree? key = some root := by
  rw [tree?_eq (definition_eq_ok.mpr ⟨_, h, rfl⟩)]
  rfl

/-- The nodes of a file are in the order of its source. -/
theorem lined_of_plantFile (hext : l.extensions.contains file.extension = true)
    (htext : sourceText w.disk file = .ok text) (ht : t.Regular)
    (hplant : (plantFile w (some l) e above file (.int level)).perform t =
      (.ok keys, t')) : t'.Lined t.nodes.size := by
  obtain ⟨addresses, -, hfile, houtlined⟩ :=
    outlined_of_plantFile w hext htext ht hplant
  obtain ⟨last, hroot⟩ := w.grammar.parse_standsIn l file.extension text
  exact houtlined.lined (tree?_fileNode hfile) hroot

/-- The search for an extent with lines in a file. -/
theorem exists_search (hext : l.extensions.contains file.extension = true)
    (htext : sourceText w.disk file = .ok text) (ht : t.Regular)
    (hplant : (plantFile w (some l) e above file (.int level)).perform t =
      (.ok keys, t')) {r : Extent} {a b : Int} (ha : r.start.line = .int a)
    (hb : r.stop.line = .int b) (hab : a ≤ b) :
    ∃ ks, t'.entered r t.nodes.size = .ok ks ∧
      t'.referenceSearch r t.nodes.size = .ok (ks.getLastD t.nodes.size) ∧
      t'.scan r t.nodes.size = .ok (ks.getLastD t.nodes.size) ∧
      t'.Descends r t.nodes.size ks := by
  obtain ⟨addresses, -, hfile, -⟩ :=
    outlined_of_plantFile w hext htext ht hplant
  have hd := definition_eq_ok.mpr ⟨_, hfile, rfl⟩
  have hlined := lined_of_plantFile hext htext ht hplant
  obtain ⟨ks, hentered, hscan, hdescends⟩ := hlined.exists_entered ha hb hab t'.depth
    (Nat.le_refl _) (lt_size hfile) (Nat.le_add_left_of_le (Nat.le_succ _))
  refine ⟨ks, ?_, ?_, ?_, hdescends⟩
  · rw [entered, hd]
    exact hentered
  · rw [referenceSearch, hd]
    refine (t'.searchFrom_eq_entered r t'.depth t.nodes.size).trans ?_
    rw [hentered]
    rfl
  · rw [scan, hd]
    exact hscan

end Hierarchy

/-- The early end of a search does not change what it finds. All definitions that the search goes
into hold the lines of the reference, and no member of the one that it finds does. -/
theorem search_early_end_sound {w : Workspace} {l : Language}
    {file : ProjectFile} {text : String} {e : Option Environment} {above : Option NodeKey}
    {level : Int} {keys : List NodeKey} {t t' : NodeTable}
    (hext : l.extensions.contains file.extension = true)
    (htext : Hierarchy.sourceText w.disk file = .ok text) (ht : t.Regular)
    (hplant : (Hierarchy.plantFile w (some l) e above file
      (.int level)).perform t = (.ok keys, t'))
    {r : Extent} {a b : Int} (ha : r.start.line = .int a) (hb : r.stop.line = .int b)
    (hab : a ≤ b) :
    ∃ entered user, t'.entered r t.nodes.size = .ok entered ∧
      user = entered.getLastD t.nodes.size ∧ t'.referenceSearch r t.nodes.size = .ok user ∧
      t'.scan r t.nodes.size = .ok user ∧ (∀ m ∈ entered, t'.HoldsLines r m) ∧
      ∀ m ∈ t'.members user, ¬t'.HoldsLines r m := by
  obtain ⟨ks, hentered, hsearch, hscan, hdescends⟩ :=
    Hierarchy.exists_search hext htext ht hplant ha hb hab
  exact ⟨ks, _, hentered, rfl, hsearch, hscan, hdescends.holdsLines, hdescends.last⟩

def ClassWithMethod.decorator : Extent :=
  .ofRange ⟨⟨2, 3⟩, ⟨2, 4⟩⟩

/-- A decorator is in its class and before the method. -/
theorem ClassWithMethod.decorator_in_class :
    planted = (.ok [0, 1, 2, 3], planted.2) ∧ ∃ entered user,
      planted.2.entered decorator 0 = .ok entered ∧
      user = entered.getLastD 0 ∧ user = 1 ∧ planted.2.members user = [2] ∧
      planted.2.referenceSearch decorator 0 = .ok user ∧
      planted.2.scan decorator 0 = .ok user ∧
      (∀ m ∈ entered, planted.2.HoldsLines decorator m) ∧
      ∀ m ∈ planted.2.members user, ¬planted.2.HoldsLines decorator m := by
  obtain ⟨hext, htext, hplanted⟩ := planted_facts
  have hrun : (planted.2.entered decorator 0).toOption = some [1] ∧
      planted.2.members 1 = [2] := by
    decide +kernel
  obtain ⟨entered, user, hentered, huser, hrest⟩ := search_early_end_sound
    (r := decorator) hext htext NodeTable.tidy_empty.toRegular hplanted rfl rfl
    (Int.le_refl 2)
  have hway : entered = [1] :=
    Except.ok.inj (hentered.symm.trans (Outcome.eq_ok_of_toOption hrun.1))
  subst hway huser
  exact ⟨hplanted, [1], 1, hentered, rfl, rfl, hrun.2, hrest⟩

end CodeAtlas
