import CodeAtlas.Proofs.Outline.Grafts
import CodeAtlas.Proofs.Skeleton.Planting
import Mathlib.Logic.Relation

namespace CodeAtlas
open Source NodeTable

namespace NodeTable

def parent? (t : NodeTable) (key : NodeKey) : Option NodeKey :=
  (t.get? key).bind Node.parent

def level? (t : NodeTable) (key : NodeKey) : Option Json :=
  (t.get? key).map Node.level

/-- Does a node stand below another one, through members and theirs? -/
def Inside (t : NodeTable) : NodeKey → NodeKey → Prop :=
  Relation.TransGen fun key m => m ∈ t.members key

end NodeTable

/-- The key of the node for an address if the nodes of a file follow that of the file itself in the
order of a list of addresses. -/
def keyAt (file : NodeKey) (addresses : List (List Nat)) (address : Option (List Nat)) : NodeKey :=
  (address.map fun a => file + 1 + addresses.idxOf a).getD file

/-- A node made of the definition at an address of a syntax tree. -/
def Node.Depicts (n : Node) (l : Language) (root : SyntaxNode) (uri : String)
    (e : Option Environment) (address : List Nat) : Prop :=
  ∃ c s, root.at? address = some c.node ∧ Outline.sketch l c = .ok s ∧
    n.content = .definition (s.definition ⟨.ofRange s.nameRange, Text.Percent.decode uri⟩
      ⟨.ofRange c.node.range, Text.Percent.decode uri⟩) ∧
    n.name = .str s.name ∧ n.path = uri ∧ n.environment = e

/-- The nodes of a file, from its own node on, are its definition tree. -/
structure Outlined (l : Language) (root : SyntaxNode) (uri : String) (e : Option Environment)
    (file : NodeKey) (addresses : List (List Nat)) (t : NodeTable) : Prop where
  complete : ∀ a, a ∈ addresses ↔ DefinesAt l root a
  preorder : addresses.Pairwise Precedes
  size : t.nodes.size = file + 1 + addresses.length
  depicts : ∀ {i a}, addresses[i]? = some a →
    ∃ n, t.get? (file + 1 + i) = some n ∧ n.Depicts l root uri e a
  parent : ∀ {i a}, addresses[i]? = some a → ∃ around, Nearest l root around a ∧
    t.parent? (file + 1 + i) = some (keyAt file addresses around)
  level : ∀ {key parent}, file < key → t.parent? key = some parent →
    ∃ level, t.level? parent = some (.int level) ∧ t.level? key = some (.int (level + 1))
  members : ∀ {key}, file ≤ key → t.members key =
    (List.range' (file + 1) addresses.length).filter fun m => t.parent? m == some key

namespace Outlined
variable {l : Language} {root : SyntaxNode} {uri : String} {e : Option Environment}
  {file : NodeKey} {addresses : List (List Nat)} {t : NodeTable} {i : Nat} {a : List Nat}

/-- The definition around another one has its node before it. -/
theorem keyAt_lt (h : Outlined l root uri e file addresses t) {around : Option (List Nat)}
    (ha : addresses[i]? = some a) (hnearest : Nearest l root around a) :
    keyAt file addresses around < file + 1 + i := by
  cases around with
  | none => exact Nat.lt_add_right i (Nat.lt_succ_self file)
  | some b =>
    obtain ⟨hdef, hpre, hne⟩ := hnearest.encloses b rfl
    have hb := List.getElem?_idxOf ((h.complete b).mpr hdef)
    obtain ⟨hi, ha⟩ := List.getElem?_eq_some_iff.mp ha
    obtain ⟨hj, hb⟩ := List.getElem?_eq_some_iff.mp hb
    have hlt : addresses.idxOf b < i := by
      by_contra hge
      rcases Nat.eq_or_lt_of_le (Nat.le_of_not_lt hge) with heq | hlt
      · subst heq
        exact hne (hb.symm.trans ha)
      · have hbefore := List.pairwise_iff_getElem.mp h.preorder i (addresses.idxOf b) hi hj hlt
        rw [ha, hb] at hbefore
        exact hbefore.asymm (.of_extends hpre hne)
    exact Nat.add_lt_add_left hlt (file + 1)

/-- All definitions of a file stand below the node of the file. -/
theorem inside (h : Outlined l root uri e file addresses t) (hi : i < addresses.length) :
    t.Inside file (file + 1 + i) := by
  induction i using Nat.strongRecOn with
  | ind i ih =>
    obtain ⟨around, hnearest, hparent⟩ := h.parent (List.getElem?_eq_getElem hi)
    have hlt := h.keyAt_lt (List.getElem?_eq_getElem hi) hnearest
    have hmem : ∀ {key}, file ≤ key → t.parent? (file + 1 + i) = some key →
        file + 1 + i ∈ t.members key := by
      intro key hkey hparent
      rw [h.members hkey, List.mem_filter, List.mem_range'_1, beq_iff_eq]
      exact ⟨⟨Nat.le_add_right _ _, Nat.add_lt_add_left hi _⟩, hparent⟩
    cases around with
    | none => exact .single (hmem (Nat.le_refl _) hparent)
    | some b =>
      have hj : addresses.idxOf b < i := Nat.lt_of_add_lt_add_left hlt
      have hle : file ≤ file + 1 + addresses.idxOf b :=
        Nat.le_trans (Nat.le_succ file) (Nat.le_add_right _ _)
      exact (ih _ hj (Nat.lt_trans hj hi)).tail (hmem hle hparent)

end Outlined

section Grafted
variable {l : Language} {root : SyntaxNode} {uri : String} {e : Option Environment}
  {file key : NodeKey} {addresses : List (List Nat)} {t t' : NodeTable} {gs : List Graft} {i : Nat}

/-- In the order of their list, addresses have the keys that follow each other. -/
theorem map_keyAt (file : NodeKey) (h : addresses.Nodup) :
    addresses.map (fun a => keyAt file addresses (some a)) =
      List.range' (file + 1) addresses.length := by
  apply List.ext_getElem
  · simp
  · intro i hi hi'
    have hlt : i < addresses.length := by simpa using hi
    simp [keyAt, h.idxOf_getElem i hlt]

/-- The grafts of a tree below the node of its file are those of its definitions. -/
theorem Outline.read_rendered (file : NodeKey) (hfault : (Outline.read l [] root).fault = none) :
    List.Forall₂ (fun x g => Graft.Renders g l file
      (fun a => keyAt file ((Outline.sites l [] none [] root).map Site.address) (some a)) x)
      (Outline.sites l [] none [] root)
      (graftsAll (file + 1) file (Outline.read l [] root).members) := by
  have hpreorder : ((Outline.sites l [] none [] root).map Site.address).Pairwise Precedes := by
    rw [List.pairwise_map]
    exact Outline.sites_preorder l [] none [] root
  have hkeys := map_keyAt file (hpreorder.imp Precedes.ne)
  rw [List.length_map, List.map_map] at hkeys
  exact Outline.read_grafts file hfault hkeys

theorem exists_graft {xs : List Site} {keyOf : List Nat → NodeKey}
    (h : List.Forall₂ (fun x g => g.Renders l file keyOf x) xs gs) {x : Site}
    (hx : xs[i]? = some x) : ∃ g, gs[i]? = some g ∧ g.Renders l file keyOf x := by
  obtain ⟨hi, rfl⟩ := List.getElem?_eq_some_iff.mp hx
  have hi' : i < gs.length := h.length_eq ▸ hi
  exact ⟨gs[i], List.getElem?_eq_getElem hi', h.get hi hi'⟩

namespace NodeTable.Grafted

theorem parent? (h : Grafted uri e t gs t') {g : Graft} (hg : gs[i]? = some g) :
    t'.parent? (t.nodes.size + i) = some g.parent := by
  obtain ⟨-, above, n, -, hn, hmakes⟩ := h.new hg
  rw [NodeTable.parent?, hn, Option.bind_some, hmakes.parent]

/-- The members that come with grafts are the new nodes by their parents. -/
theorem keysBelow_eq (h : Grafted uri e t gs t') (key : NodeKey) :
    keysBelow key t.nodes.size gs =
      (List.range' t.nodes.size gs.length).filter fun m => t'.parent? m == some key := by
  rw [keysBelow, ← List.zipIdx_map_snd, List.filter_map]
  congr 1
  apply List.filter_congr
  intro x hx
  obtain ⟨hle, hg⟩ := List.mk_mem_zipIdx_iff_le_and_getElem?_sub.mp hx
  have hparent := h.parent? hg
  rw [Nat.add_sub_cancel' hle] at hparent
  simp [hparent]

/-- Nodes grafted below the last one stand one level below their parents. -/
theorem level? (h : Grafted uri e t gs t') (hsize : t.nodes.size = file + 1)
    (hfile : ∃ v, t.level? file = some (.int v)) (hbelow : ∀ g ∈ gs, file ≤ g.parent) {g : Graft}
    (hg : gs[i]? = some g) :
    ∃ v, t'.level? g.parent = some (.int v) ∧ t'.level? (file + 1 + i) = some (.int (v + 1)) := by
  induction i using Nat.strongRecOn generalizing g with
  | ind i ih =>
    obtain ⟨hlt, above, n, habove, hn, hmakes⟩ := h.new hg
    rw [hsize] at hlt hn
    have hparent : ∃ v, t'.level? g.parent = some (.int v) := by
      rcases Nat.eq_or_lt_of_le (hbelow g (List.mem_of_getElem? hg)) with heq | hnew
      · rw [← heq, NodeTable.level?, h.old (by omega)]
        exact hfile
      · obtain ⟨j, hj⟩ := Nat.exists_eq_add_of_le (Nat.succ_le_of_lt hnew)
        have hji : j < i := by
          rw [hj] at hlt
          exact Nat.lt_of_add_lt_add_left hlt
        have hi : i < gs.length := (List.getElem?_eq_some_iff.mp hg).1
        obtain ⟨v, -, hv⟩ := ih j hji (List.getElem?_eq_getElem (Nat.lt_trans hji hi))
        rw [hj]
        exact ⟨v + 1, hv⟩
    obtain ⟨v, hv⟩ := hparent
    refine ⟨v, hv, ?_⟩
    rw [NodeTable.level?, habove, Option.map_some, Option.some.injEq] at hv
    have hnext := hmakes.level
    rw [hv] at hnext
    rw [NodeTable.level?, hn, Option.map_some, ← Except.ok.inj hnext]

end NodeTable.Grafted

/-- Grafts of all definitions of a tree below the node of a file make its definition tree. -/
theorem NodeTable.Grafted.outlined (h : Grafted uri e t gs t') (huri : Path.isUri uri = true)
    (hsize : t.nodes.size = file + 1) (hmembers : ∀ {key}, file ≤ key → t.members key = [])
    (hlevel : ∃ v, t.level? file = some (.int v))
    (haddresses : (Outline.sites l [] none [] root).map Site.address = addresses)
    (hgs : List.Forall₂ (fun x g => g.Renders l file (fun a => keyAt file addresses (some a)) x)
      (Outline.sites l [] none [] root) gs) :
    Outlined l root uri e file addresses t' := by
  have hlength : gs.length = addresses.length := by
    rw [← haddresses, List.length_map, hgs.length_eq]
  have hsite : ∀ {i : Nat} {a}, addresses[i]? = some a → ∃ x ∈ Outline.sites l [] none [] root,
      x.address = a ∧ ∃ g, gs[i]? = some g ∧
        Graft.Renders g l file (fun a => keyAt file addresses (some a)) x := by
    intro i a ha
    rw [← haddresses, List.getElem?_map, Option.map_eq_some_iff] at ha
    obtain ⟨x, hx, hxa⟩ := ha
    exact ⟨x, List.mem_of_getElem? hx, hxa, exists_graft hgs hx⟩
  constructor
  case complete =>
    intro a
    rw [← haddresses, List.mem_map]
    constructor
    · rintro ⟨x, hx, rfl⟩
      obtain ⟨rest, haddress, hat, hdef⟩ := Outline.of_mem_sites hx
      rw [haddress]
      exact ⟨_, hat, hdef⟩
    · rintro ⟨n, hn, hdef⟩
      exact Outline.exists_site [] none [] hn hdef
  case preorder =>
    rw [← haddresses, List.pairwise_map]
    exact Outline.sites_preorder l [] none [] root
  case size => rw [h.size, hsize, hlength]
  case depicts =>
    intro i a ha
    obtain ⟨x, hx, rfl, g, hg, hrenders⟩ := hsite ha
    obtain ⟨-, above, n, -, hn, hmakes⟩ := h.new hg
    obtain ⟨rest, haddress, hat, -⟩ := Outline.of_mem_sites hx
    obtain ⟨nameRange, range, hname, hrange, hcontent⟩ := hmakes.content
    rw [Hierarchy.placeOf_eq huri, Except.ok.injEq] at hname hrange
    subst hname hrange
    rw [haddress, ← hsize]
    have hcursor := (Outline.sketch_cursor hrenders.sketch).1
    refine ⟨n, hn, x.cursor, g.sketch, hat, hrenders.sketch, ?_, hmakes.name, hmakes.path,
      hmakes.environment⟩
    rw [hcontent, hcursor]
  case parent =>
    intro i a ha
    obtain ⟨x, hx, rfl, g, hg, hrenders⟩ := hsite ha
    have hroot : Nearest l root none [] := by
      constructor
      · simp
      · intro a _ hpre hne
        exact absurd (List.prefix_nil.mp hpre) hne
    refine ⟨x.around, Outline.sites_nearest rfl hroot hx, ?_⟩
    rw [← hsize, h.parent? hg, hrenders.parent]
    cases x.around <;> rfl
  case level =>
    have hbelow : ∀ g ∈ gs, file ≤ g.parent := by
      intro g hg
      obtain ⟨x, -, hrenders⟩ := Outcome.exists_of_forall₂ hgs hg
      rw [hrenders.parent]
      cases x.around <;> simp [keyAt, Nat.add_assoc]
    intro key parent hkey hparent
    obtain ⟨i, rfl⟩ := Nat.exists_eq_add_of_le (Nat.succ_le_of_lt hkey)
    obtain ⟨n, hn, -⟩ := Option.bind_eq_some_iff.mp hparent
    have hi : i < gs.length := by
      have hlt := lt_size hn
      rw [h.size, hsize] at hlt
      exact Nat.lt_of_add_lt_add_left hlt
    have hg := List.getElem?_eq_getElem hi
    have heq := h.parent? hg
    rw [hsize] at heq
    rw [← Option.some.inj (heq.symm.trans hparent)]
    exact h.level? hsize hlevel hbelow hg
  case members =>
    intro key hkey
    rw [h.members, hmembers hkey, List.nil_append, h.keysBelow_eq, hsize, hlength]

end Grafted

namespace Hierarchy
variable {w : Workspace} {l : Language} {file : ProjectFile} {text : String}
  {e : Option Environment} {above : Option NodeKey} {level : Int} {t : NodeTable}

def fileNode (t : NodeTable) (root : SyntaxNode) (text : String) (e : Option Environment)
    (above : Option NodeKey) (file : ProjectFile) (level : Int) : Node :=
  let place : Place := ⟨.ofRange root.range, Text.Percent.decode file.uri⟩
  t.fresh (.definition ⟨.file, place, place, .str text, some root, some (.root root), [], []⟩)
    file.uri (.str file.name) (.int level) above e

theorem isReadBy_of_extension (h : l.extensions.contains file.extension = true) :
    isReadBy l file = true := by
  obtain ⟨start, hstart⟩ := Text.endsWith_iff.mp (Path.endsWith_extension file.name)
  obtain ⟨folder, hfolder⟩ := Text.endsWith_iff.mp (Path.endsWith_join file.folder file.name)
  rw [isReadBy, List.any_eq_true]
  refine ⟨file.extension, List.contains_iff_mem.mp h, Text.endsWith_iff.mpr ?_⟩
  refine ⟨Path.scheme ++ folder ++ start, ?_⟩
  rw [String.append_assoc, ProjectFile.extension, ← hstart, String.append_assoc, ← hfolder]
  rfl

theorem isUri_uri (file : ProjectFile) : Path.isUri file.uri = true :=
  Text.startsWith_iff.mpr ⟨file.path, rfl⟩

/-- A file that is read in no language has one node, without code. -/
theorem perform_plantFile_plain {l : Option Language} (hl : l.filter (isReadBy · file) = none)
    (e : Option Environment) (above : Option NodeKey) (level : Int) (t : NodeTable) :
    let place : Place := ⟨.ofRange .zero, Text.Percent.decode file.uri⟩
    (plantFile w l e above file (.int level)).perform t =
      (.ok [t.nodes.size], t.push (t.fresh
        (.definition ⟨.file, place, place, .str "", none, none, [], []⟩) file.uri (.str file.name)
        (.int level) above e)) := by
  intro place
  unfold plantFile plantPlainFile
  rw [hl, placeOf_eq (isUri_uri file)]
  simp only [Action.perform_bind, Action.perform_ofExcept, perform_insert, isUri_uri, if_true,
    Action.perform_pure]
  rfl

/-- A reading is planted whole before its fault is told. -/
theorem perform_plantReading {uri : String} {key : NodeKey} {reading : Outline.Reading}
    {keys : List NodeKey} {t' : NodeTable}
    (h : (plantAll uri e key reading.members).perform t = (.ok keys, t')) :
    (∀ {fault}, reading.fault = some fault →
      (plantReading uri e (some key) reading).perform t = (.error fault, t')) ∧
    (reading.fault = none →
      (plantReading uri e (some key) reading).perform t = (.ok keys, t')) := by
  rcases reading with ⟨_ | ⟨o, os⟩, fault⟩
  · rw [plantAll] at h
    constructor
    · rintro _ rfl
      exact Action.perform_bind_of_ok h
    · rintro rfl
      exact Action.perform_bind_of_ok h
  · constructor
    · rintro _ rfl
      exact Action.perform_bind_of_ok h
    · rintro rfl
      exact Action.perform_bind_of_ok h

/-- All that was read of a file is planted below its node, and then the fault of the reading, if
any, is what the planting comes to. -/
theorem plantFile_grafted (hext : l.extensions.contains file.extension = true)
    (htext : sourceText w.disk file = .ok text) (e : Option Environment) (above : Option NodeKey)
    (level : Int) (ht : t.Regular) :
    let root := w.grammar.parse l file.extension text
    let gs := graftsAll (t.nodes.size + 1) t.nodes.size (Outline.read l [] root).members
    ∃ t', Grafted file.uri e (t.push (fileNode t root text e above file level)) gs t' ∧
      (∀ {fault}, (Outline.read l [] root).fault = some fault →
        (plantFile w (some l) e above file (.int level)).perform t = (.error fault, t')) ∧
      ((Outline.read l [] root).fault = none →
        (plantFile w (some l) e above file (.int level)).perform t =
          (.ok (List.range' t.nodes.size (gs.length + 1)), t')) := by
  intro root gs
  have hlevelled : Levelled (t.push (fileNode t root text e above file level)) t.nodes.size :=
    ⟨_, level, t.get?_push_self _, rfl⟩
  obtain ⟨keys, t', hplant, hkeys, hgrafted⟩ := (plantAll_grafted (e := e) (isUri_uri file)
    (Outline.read l [] root).members (ht.push rfl) hlevelled).exists_ok
  rw [size_push] at hkeys hgrafted
  obtain ⟨hfault, hnone⟩ := perform_plantReading hplant
  have hrun : (plantFile w (some l) e above file (.int level)).perform t =
      (do let below ← plantReading file.uri e (some t.nodes.size) (Outline.read l [] root)
          pure (t.nodes.size :: below)).perform
        (t.push (fileNode t root text e above file level)) := by
    have hread : (some l).filter (isReadBy · file) = some l := by
      simp [isReadBy_of_extension hext]
    unfold plantFile
    rw [hread]
    simp only [Action.perform_bind, Action.perform_ofExcept, htext, hext, Bool.not_true,
      Bool.false_eq_true, if_false, placeOf_eq (isUri_uri file), perform_insert, isUri_uri, if_true]
    rfl
  refine ⟨t', hgrafted, ?_, ?_⟩
  · intro fault hfault'
    rw [hrun, Action.perform_bind, hfault hfault']
  · intro hnone'
    rw [hrun, Action.perform_bind_of_ok (hnone hnone'), Action.perform_pure, hkeys,
      List.range'_succ]

/-- A file that is read in a language has a text and an extension of the language. -/
theorem readable_of_plantFile {keys : List NodeKey} {t' : NodeTable}
    (hread : isReadBy l file = true)
    (hplant : (plantFile w (some l) e above file (.int level)).perform t = (.ok keys, t')) :
    l.extensions.contains file.extension = true ∧ ∃ text, sourceText w.disk file = .ok text := by
  have hfilter : (some l).filter (isReadBy · file) = some l := by simp [hread]
  unfold plantFile at hplant
  rw [hfilter] at hplant
  dsimp only at hplant
  cases htext : sourceText w.disk file with
  | error fault =>
    rw [htext, Action.perform_bind] at hplant
    cases hplant
  | ok text =>
    refine ⟨?_, text, rfl⟩
    by_contra hext
    rw [htext, Bool.eq_false_iff.mpr hext, Action.perform_bind] at hplant
    cases hplant

/-- A definition without a name is what the planting of its file comes to. -/
theorem plantFile_nameless (hext : l.extensions.contains file.extension = true)
    (htext : sourceText w.disk file = .ok text) (e : Option Environment) (above : Option NodeKey)
    (level : Int) (ht : t.Regular)
    (hnameless : ∃ a, NamelessAt l (w.grammar.parse l file.extension text) a) :
    ∃ kind start stop, ((plantFile w (some l) e above file (.int level)).perform t).1 =
      .error (.nameNodeNotFound kind start stop) := by
  cases hfault : (Outline.read l [] (w.grammar.parse l file.extension text)).fault with
  | none => exact absurd hnameless (Outline.read_fault_eq_none_iff.mp hfault)
  | some fault =>
    obtain ⟨a, n, -, -, -, rfl⟩ := Outline.exists_of_read_fault hfault
    obtain ⟨t', -, hrun, -⟩ := plantFile_grafted hext htext e above level ht
    rw [hrun hfault]
    exact ⟨n.kind, n.start, n.stop, rfl⟩

/-- A file all of whose definitions have names is planted as its definition tree. -/
theorem plantFile_outlined (hext : l.extensions.contains file.extension = true)
    (htext : sourceText w.disk file = .ok text) (e : Option Environment) (above : Option NodeKey)
    (level : Int) (ht : t.Regular)
    (hnames : ¬∃ a, NamelessAt l (w.grammar.parse l file.extension text) a) :
    let root := w.grammar.parse l file.extension text
    ∃ addresses t', (plantFile w (some l) e above file (.int level)).perform t =
        (.ok (List.range' t.nodes.size (addresses.length + 1)), t') ∧
      t'.get? t.nodes.size = some (fileNode t root text e above file level) ∧
      (∀ {key}, key < t.nodes.size → t'.get? key = t.get? key) ∧
      Outlined l root file.uri e t.nodes.size addresses t' := by
  intro root
  obtain ⟨t', hgrafted, -, hrun⟩ := plantFile_grafted hext htext e above level ht
  have hfault := Outline.read_fault_eq_none_iff.mpr hnames
  have hgs := Outline.read_rendered t.nodes.size hfault
  refine ⟨(Outline.sites l [] none [] root).map Site.address, t', ?_, ?_, ?_, ?_⟩
  · rw [hrun hfault, ← hgs.length_eq, List.length_map]
  · exact hgrafted.get? (t.get?_push_self _)
  · intro key hkey
    rw [hgrafted.old (by rw [size_push]; omega), get?_push, if_neg (Nat.ne_of_lt hkey)]
  · refine hgrafted.outlined (isUri_uri file) (size_push _) ?_ ⟨level, ?_⟩ rfl hgs
    · intro key hkey
      rw [ht.members_push rfl, members, get?_eq_none.mpr hkey]
    · rw [level?, get?_push_self]
      rfl

/-- Where planting a file succeeds, the file is planted as its definition tree. -/
theorem outlined_of_plantFile (w : Workspace)
    (hext : l.extensions.contains file.extension = true)
    (htext : sourceText w.disk file = .ok text) (ht : t.Regular) {keys : List NodeKey}
    {t' : NodeTable}
    (hplant : (plantFile w (some l) e above file (.int level)).perform t = (.ok keys, t')) :
    let root := w.grammar.parse l file.extension text
    ∃ addresses, keys = List.range' t.nodes.size (addresses.length + 1) ∧
      t'.get? t.nodes.size = some (fileNode t root text e above file level) ∧
      Outlined l root file.uri e t.nodes.size addresses t' := by
  intro root
  have hnames : ¬∃ a, NamelessAt l root a := by
    intro hnameless
    obtain ⟨kind, start, stop, herror⟩ :=
      plantFile_nameless hext htext e above level ht hnameless
    rw [hplant] at herror
    cases herror
  obtain ⟨addresses, t'', hrun, hfile, -, houtlined⟩ :=
    plantFile_outlined hext htext e above level ht hnames
  cases hrun.symm.trans hplant
  exact ⟨addresses, rfl, hfile, houtlined⟩

end Hierarchy

/-- Planting a file comes to a fault exactly if a definition of its tree has no name, and then to
that one. Otherwise it gives the node of the file and, in the order of the text, one node for each
definition, below the node of the nearest definition around it. -/
theorem file_planted_as_definition_tree (w : Workspace) {l : Language} {file : ProjectFile}
    {text : String} (hext : l.extensions.contains file.extension = true)
    (htext : Hierarchy.sourceText w.disk file = .ok text) (e : Option Environment)
    (above : Option NodeKey) (level : Int) {t : NodeTable} (ht : t.Regular) :
    let root := w.grammar.parse l file.extension text
    let outcome := (Hierarchy.plantFile w (some l) e above file (.int level)).perform t
    ((∃ kind start stop, outcome.1 = .error (.nameNodeNotFound kind start stop)) ↔
      ∃ a, NamelessAt l root a) ∧
    ((¬∃ a, NamelessAt l root a) → ∃ addresses,
      outcome.1 = .ok (List.range' t.nodes.size (addresses.length + 1)) ∧
      outcome.2.get? t.nodes.size =
        some (Hierarchy.fileNode t root text e above file level) ∧
      Outlined l root file.uri e t.nodes.size addresses outcome.2) := by
  intro root outcome
  have hdone : (¬∃ a, NamelessAt l root a) → ∃ addresses,
      outcome.1 = .ok (List.range' t.nodes.size (addresses.length + 1)) ∧
      outcome.2.get? t.nodes.size =
        some (Hierarchy.fileNode t root text e above file level) ∧
      Outlined l root file.uri e t.nodes.size addresses outcome.2 := by
    intro hnames
    obtain ⟨addresses, t', hrun, hfile, -, houtlined⟩ :=
      Hierarchy.plantFile_outlined hext htext e above level ht hnames
    have houtcome : outcome = (.ok (List.range' t.nodes.size (addresses.length + 1)), t') := hrun
    rw [houtcome]
    exact ⟨addresses, rfl, hfile, houtlined⟩
  refine ⟨⟨?_, Hierarchy.plantFile_nameless hext htext e above level ht⟩, hdone⟩
  rintro ⟨kind, start, stop, herror⟩
  by_contra hnames
  obtain ⟨addresses, hok, -⟩ := hdone hnames
  cases hok.symm.trans herror

namespace ClassWithMethod

def name (text : String) : Piece :=
  .node "identifier" (some "name") true [.text text]

def function (title body : String) : Piece :=
  .node "function_definition" none true [.text "def ", name title, .text "(): ",
    .node "block" (some "body") true [.text body]]

/-- A class with a decorated method, and a function after it. -/
def source : Piece :=
  .node "module" none true [
    .node "class_definition" none true [.text "class ", name "A", .text ":\n  ",
      .node "block" (some "body") true [
        .node "decorated_definition" none true [.text "@d\n  ", function "m" "x"]]],
    .text "\n", function "f" "y"]

/-- The file begins with an empty line, which is before the tree. -/
def sheet : Sheet where
  language := .python
  extension := ".py"
  before := "\n"
  tree := source

def workspace : Workspace :=
  ⟨({} : Disk).addFile "/r/a.py" ⟨Text.Utf8.bytes sheet.source, 0, false⟩, [sheet]⟩

def file : ProjectFile :=
  ⟨"a.py", "/r", 1⟩

def planted : Except Fault (List NodeKey) × NodeTable :=
  (Hierarchy.plantFile workspace (some .python) none none file (.int 1)).perform {}

theorem planted_facts : Language.python.extensions.contains file.extension = true ∧
    Hierarchy.sourceText workspace.disk file = .ok sheet.source ∧
    planted = (.ok [0, 1, 2, 3], planted.2) := by
  have hrun : Language.python.extensions.contains file.extension = true ∧
      (Hierarchy.sourceText workspace.disk file).toOption = some sheet.source ∧
      planted.1.toOption = some [0, 1, 2, 3] := by
    decide +kernel
  exact ⟨hrun.1, Outcome.eq_ok_of_toOption hrun.2.1, Outcome.pair_eq_of_toOption hrun.2.2⟩

end ClassWithMethod

theorem ClassWithMethod.planted_as_tree :
    Language.python.extensions.contains file.extension = true ∧
    Hierarchy.sourceText workspace.disk file = .ok sheet.source ∧ ({} : NodeTable).Regular ∧
    ∃ addresses, planted.1 = .ok (List.range' 0 (addresses.length + 1)) ∧ addresses.length = 3 ∧
      Outlined .python (workspace.grammar.parse .python ".py" sheet.source) file.uri
        none 0 addresses planted.2 := by
  obtain ⟨hext, htext, hplanted⟩ := planted_facts
  have hkeys : planted.1 = .ok [0, 1, 2, 3] := congrArg Prod.fst hplanted
  have hregular := NodeTable.tidy_empty.toRegular
  obtain ⟨hfails, hdone⟩ :=
    file_planted_as_definition_tree workspace hext htext none none 1 hregular
  have hnames : ¬∃ a, NamelessAt .python
      (workspace.grammar.parse .python ".py" sheet.source) a := by
    intro hnameless
    obtain ⟨kind, start, stop, herror⟩ := hfails.mpr hnameless
    cases hkeys.symm.trans herror
  obtain ⟨addresses, hok, -, houtlined⟩ := hdone hnames
  refine ⟨hext, htext, hregular, addresses, hok, ?_, houtlined⟩
  have hlength := congrArg List.length (Except.ok.inj (hok.symm.trans hkeys))
  simpa using hlength

end CodeAtlas
