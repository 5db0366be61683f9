import CodeAtlas.Build.Review
import CodeAtlas.Proofs.Build.Chart
import CodeAtlas.Proofs.Path.Plain

namespace CodeAtlas
open CodeAtlas.Path

namespace NodeTable
variable {t : NodeTable} {key : NodeKey} {n : Node}

theorem join_map_slash {names : List String} (h : names ≠ []) :
    String.join (names.map ("/" ++ ·)) = "/" ++ "/".intercalate names := by
  induction names with
  | nil => exact absurd rfl h
  | cons name names ih =>
    by_cases hne : names = []
    · simp [hne]
    · rw [List.map_cons, String.join_cons, ih hne, String.intercalate_cons_of_ne_nil hne]
      simp [String.append_assoc]

/-- The identifier of a folder or file is the way to it. -/
theorem identifier_trailOf {names : List String} (hne : names ≠ []) (hn : t.get? key = some n)
    (htrail : n.trail = trailOf names) :
    t.identifier key = .ok ("/" ++ "/".intercalate names) := by
  simp only [identifier, Outcome.bind_eq_ok, Outcome.pure_eq_ok, node_eq_ok, Outcome.mapM_eq_ok]
  refine ⟨n, hn, names.map ("/" ++ ·), ?_, join_map_slash hne⟩
  rw [htrail, trailOf, List.forall₂_map_left_iff, List.forall₂_map_right_iff]
  exact List.forall₂_same.mpr fun name _ => rfl

/-- The identifier of a deleted file is the path of the file below the root. -/
theorem identifier_removed {e : Environment} {below : String} (hn : t.get? key = some n)
    (htrail : n.trail = [.removed key]) (he : n.environment = some e)
    (hb : e.belowRoot (.str n.purePath) = .ok below) : t.identifier key = .ok below := by
  have hsegment : t.segmentText (.removed key) = .ok below := by
    simp [segmentText, node_eq_ok.mpr hn, he, hb]
  simp only [identifier, Outcome.bind_eq_ok, Outcome.pure_eq_ok, node_eq_ok, Outcome.mapM_eq_ok]
  exact ⟨n, hn, [below], by simpa [htrail] using hsegment, by simp⟩

theorem id_of_identifier {e : Environment} {own : String} (hn : t.get? key = some n)
    (he : n.environment = some e) (hown : t.identifier key = .ok own) :
    t.id key = .ok (e.spelling ++ own) := by
  simp [id, node_eq_ok.mpr hn, hown, he]

end NodeTable

namespace Environment

theorem fileId_slash (stage change : Json) (path : String) : fileId stage change ("/" ++ path) =
    "/" ++ stage.spelling ++ "/" ++ change.spelling ++ ("/" ++ path) := by
  have htoList : ("/" ++ path).toList = '/' :: path.toList := by simp
  rw [fileId, htoList]
  simp [String.append_assoc]

/-- What stands below a plain root is found under the name of the root. -/
theorem belowRoot_below {e : Environment} {root : String} (he : e.root = .str root)
    (h : Plain root) {way : List String} (hway : ∀ n ∈ way, IsName n) (hne : way ≠ []) :
    e.belowRoot (.str (below root way)) =
      .ok ("/" ++ (WalkRules.nameOf root ++ "/" ++ "/".intercalate way)) := by
  have hempty : (Json.str (below root way)).isVoid = false := by
    simpa [Json.isVoid] using below_ne_empty h.ne_empty
  simp [belowRoot, he, Json.toText, hempty, h.belowHome?_below hway hne]

end Environment

namespace Surroundings
variable {c : Surroundings} {files : List ProjectFile} {n : Node}

theorem Placed.file (h : c.Placed files n) (hl : n.label = .file) :
    ∃ way, way ≠ [] ∧ (∀ name ∈ way, IsName name) ∧ n.path = toUri (below c.root way) ∧
      n.trail = trailOf (c.top ++ way) := by
  obtain ⟨-, ⟨hfolder, -⟩ | ⟨file, -, hpath, d, hd, hown⟩⟩ := h
  · simp [Node.label, hfolder] at hl
  · have hscope : d.scope = .file := by
      simp only [Node.label, hd] at hl
      cases hs : d.scope <;> simp [hs, Scope.label] at hl ⊢
    obtain ⟨way, hnames, hway, htrail⟩ := hown hscope
    refine ⟨way ++ [file.name], by simp, hnames, ?_, by rw [htrail, List.append_assoc]⟩
    rw [hpath, ProjectFile.uri, hway]

end Surroundings

/-- A file has one identity. In the graph of a project whose root is not passed over, the node of a
file has the identifier that the path of the file gives, and a deleted file of the same path has it
too. -/
theorem file_has_one_identity {p : Project} {e : Environment} {root : String} {b : Builder}
    {t : NodeTable} {key : NodeKey} {n : Node} (hd : p.workspace.disk.Proper)
    (hr : p.rules.root = .str root) (hroot : Plain root)
    (hskip : ∀ entry, p.workspace.disk.lookUp root = some entry →
      p.rules.skips root entry ≠ .ok true)
    (he : p.environment = some e) (heroot : e.root = .str root) (hb : b.atlas = {})
    (ht : ((Builder.addProject p).perform b).2.atlas.table = t) (hn : t.get? key = some n)
    (hfile : n.label = .file) :
    (∃ below, belowHome? n.purePath root = some below ∧
      t.id key = .ok (Environment.fileId e.stage e.change below)) ∧
    t.hashedId key = Environment.idOfFile p.environment (.str (ofUri n.path)) ∧
    ∀ (label : Label) (name level : Json) (parent : Option NodeKey) (t' : NodeTable),
      ∃ key' t'', (NodeTable.insert (.deleted label) n.path name level parent (some e)).perform t' =
          (.ok key', t'') ∧ t''.id key' = t.id key := by
  obtain ⟨top, hchart, htop⟩ := Builder.addProject_chart hd hr hroot.ne_empty hb
  have htop : top = [WalkRules.nameOf root] := by
    refine htop.resolve_right ?_
    rintro ⟨entry, hl, hs⟩
    exact hskip entry hl hs
  obtain ⟨a, ha⟩ : ∃ a, ((Builder.addProject p).perform b).2.atlas = a := ⟨_, rfl⟩
  rw [ha] at hchart ht
  subst ht htop
  obtain ⟨way, hne, hway, hpath, htrail⟩ := (hchart.placed hn).file hfile
  have henv : n.environment = some e := (hchart.placed hn).1.trans he
  have hpure : ofUri n.path = below root way := by
    rw [hpath, hroot.ofUri_toUri_below hway hne]
  have hbelow := Environment.belowRoot_below heroot hroot hway hne
  have hid : a.table.id key = .ok (Environment.fileId e.stage e.change
      ("/" ++ (WalkRules.nameOf root ++ "/" ++ "/".intercalate way))) := by
    have hown := NodeTable.identifier_trailOf (by simp) hn htrail
    rw [List.singleton_append, String.intercalate_cons_of_ne_nil hne] at hown
    rw [NodeTable.id_of_identifier hn henv hown, Environment.fileId_slash, Environment.spelling]
  refine ⟨⟨_, ?_, hid⟩, ?_, fun label name level parent t' => ?_⟩
  · rw [Node.purePath, hpure, hroot.belowHome?_below hway hne]
  · rw [NodeTable.hashedId_of_id hchart.tidy.strays_eq hid, he, hpure]
    simp only [Environment.idOfFile, hbelow, Digest.check_nil]
    rfl
  · have huri : isUri n.path = true := by
      rw [hpath]
      exact Text.startsWith_iff.mpr ⟨_, rfl⟩
    rw [NodeTable.perform_insert, if_pos huri]
    refine ⟨_, _, rfl, ?_⟩
    have hnew := t'.get?_push_self (t'.fresh (.deleted label) n.path name level parent (some e))
    have hown := NodeTable.identifier_removed hnew rfl rfl (hpure ▸ hbelow)
    rw [NodeTable.id_of_identifier hnew rfl hown, hid, Environment.fileId_slash,
      Environment.spelling]

/-- A project with one file in a subfolder. The root is written with a slash at its end. -/
def oneFile : Project where
  workspace := { disk := ({} : Disk).addFile "/home/lib/one.txt" ⟨[], 0, false⟩ }
  rules := { root := .str "/home/" }
  environment := some ⟨.str "dev", .str "main", .str "/home/"⟩

theorem oneFile_has_one_identity :
    ∃ n, ((Builder.addProject oneFile).perform { servers := ⟨[], []⟩ }).2.atlas.table.get? 2 =
        some n ∧ n.label = .file ∧
      ((Builder.addProject oneFile).perform { servers := ⟨[], []⟩ }).2.atlas.table.hashedId 2 =
        Environment.idOfFile oneFile.environment (.str (ofUri n.path)) := by
  have hlabel : (((Builder.addProject oneFile).perform { servers := ⟨[], []⟩ }).2.atlas.table.get?
      2).map Node.label = some .file := by
    decide +kernel
  obtain ⟨n, hn, hl⟩ := Option.map_eq_some_iff.mp hlabel
  have hdisk : oneFile.workspace.disk.Proper := Disk.proper_empty.addFile _ _
  have hplain : Plain "/home/" := by decide +kernel
  have hkept : (oneFile.workspace.disk.lookUp "/home/").map
      (fun entry => Outcome.isYes (oneFile.rules.skips "/home/" entry)) = some false := by
    decide +kernel
  have hskip : ∀ entry, oneFile.workspace.disk.lookUp "/home/" = some entry →
      oneFile.rules.skips "/home/" entry ≠ .ok true := by
    intro entry hentry hs
    rw [hentry, Option.map_some, hs] at hkept
    cases hkept
  exact ⟨n, hn, hl, (file_has_one_identity hdisk rfl hplain hskip rfl rfl rfl rfl hn hl).2.1⟩

end CodeAtlas
