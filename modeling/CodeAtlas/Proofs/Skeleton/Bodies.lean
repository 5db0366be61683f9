import CodeAtlas.Proofs.Skeleton.Telling

namespace CodeAtlas
open Source Text

namespace NodeTable.Legible
variable {t : NodeTable} {base : Nat} {key : NodeKey} (ht : Legible base t) (hle : base ≤ key)
include ht hle

theorem le_of_reaches {k : NodeKey} (h : t.Reaches key k) : base ≤ k := by
  induction h with
  | refl => exact hle
  | tail _ hm ih => exact (ht.known_of_mem ih hm.1).1

/-- The bodies of the members of a node stand in its syntax tree. -/
theorem encloses_omission {o : Omission} (ho : o ∈ t.omissions key) :
    ∃ n, t.tree? key = some n ∧ n.Fits ∧ n.Encloses o.body := by
  obtain ⟨m, hm, homission⟩ := List.mem_filterMap.mp ho
  obtain ⟨_, n, n', hn, ⟨d, hd, hn'⟩, henc⟩ := ht.below hle hm
  obtain ⟨_, _, id, hid⟩ := ht.known_of_mem hle hm
  rw [omission?_eq hd ht.tidy.strays_eq hid, Option.map_eq_some_iff] at homission
  obtain ⟨body, hbody, rfl⟩ := homission
  refine ⟨n, hn.tree?, ?_, henc.trans (hn'.body body hbody)⟩
  obtain ⟨_, _, hstands⟩ := hn
  exact hstands.fits

/-- A node with something to leave out has a syntax tree around it. -/
theorem tree_of_omissions (hne : t.omissions key ≠ []) :
    ∃ n, t.tree? key = some n ∧ n.stop.byte = n.start.byte + (Utf8.bytes n.text).length ∧
      ∀ o ∈ t.omissions key, o.body.start.byte ≤ o.body.stop.byte ∧
        o.body.stop.byte ≤ n.stop.byte := by
  obtain ⟨o, ho⟩ := List.exists_mem_of_ne_nil _ hne
  obtain ⟨n, hn, hfits, _⟩ := ht.encloses_omission hle ho
  refine ⟨n, hn, (hfits n .refl).length, fun o ho => ?_⟩
  obtain ⟨n', hn', _, henc⟩ := ht.encloses_omission hle ho
  cases hn.symm.trans hn'
  exact (hfits.bounds henc).2

end NodeTable.Legible

section
variable {w : Workspace} {l : Option Language} {e : Option Environment}
  {above : Option NodeKey} {file : ProjectFile} {level : Json} {t t' : NodeTable}
  {keys : List NodeKey}

/-- Each node of a file can be made a skeleton. The text of a node with something to leave out is
cut as its syntax tree says. -/
theorem exists_skeletons (ht : t.Tidy) (habove : ∀ p, above = some p → ∃ id, t.id p = .ok id)
    (hplant : (Hierarchy.plantFile w l e above file level).perform t =
      (.ok keys, t')) {key : NodeKey} (hkey : key ∈ keys) :
    ∃ t'', (NodeTable.skeletonize key).perform t' = (.ok (), t'') ∧
      ∀ k, t'.Reaches key k → t'.omissions k ≠ [] → ∃ n, t'.tree? k = some n ∧
        n.stop.byte = n.start.byte + (Utf8.bytes n.text).length ∧
        (∀ o ∈ t'.omissions k, o.body.start.byte ≤ o.body.stop.byte ∧
          o.body.stop.byte ≤ n.stop.byte) ∧
        t''.text? k = some (skeletonText n ((t'.omissions k).map Omission.cut)) := by
  have hlegible := (Hierarchy.plantFile_legible w l e file level ht habove).of_ok hplant
  obtain ⟨_, _, below, rfl, hlt, hbelow⟩ :=
    (Hierarchy.plantFile_filed _ l e above file level ht).of_ok hplant
  have hrange : t.nodes.size ≤ key ∧ key < t'.nodes.size := by
    rcases List.mem_cons.mp hkey with rfl | hkey
    · exact ⟨Nat.le_refl _, hlt⟩
    · obtain ⟨hafter, hbefore⟩ := (hbelow key).mp hkey
      exact ⟨Nat.le_of_lt hafter, hbefore⟩
  obtain ⟨_, t'', hrun, htold⟩ :=
    (NodeTable.ends_skeletonize_told hlegible hrange.1 hrange.2).exists_ok
  refine ⟨t'', hrun, fun k hk hne => ?_⟩
  obtain ⟨n, hn, hlength, hbounds⟩ :=
    hlegible.tree_of_omissions (hlegible.le_of_reaches hrange.1 hk) hne
  exact ⟨n, hn, hlength, hbounds, htold.told k hk n hn hne⟩

/-- The text of a skeleton is what is left of the source, with lines for the bodies. It is made as
intended exactly if no body but the last has a newline right after it. -/
theorem skeleton_intended_iff_newline_last (ht : t.Tidy)
    (habove : ∀ p, above = some p → ∃ id, t.id p = .ok id)
    (hplant : (Hierarchy.plantFile w l e above file level).perform t =
      (.ok keys, t')) {key : NodeKey} (hkey : key ∈ keys) :
    ∃ t'', (NodeTable.skeletonize key).perform t' = (.ok (), t'') ∧
      ∀ k, t'.Reaches key k → t'.omissions k ≠ [] → ∃ n, t'.tree? k = some n ∧
        (Apart 3 n.start.byte (t'.omissions k) →
          t''.text? k = some (String.ofList
            (Utf8.decodeKnown (skeletonBytes n (t'.omissions k)))) ∧
          (skeletonBytes n (t'.omissions k) = intendedBytes n (t'.omissions k) ↔
            ∀ o ∈ (t'.omissions k).dropLast,
              newlineAt (Utf8.bytes n.text) (o.stop n.start.byte 0) = 0)) := by
  obtain ⟨t'', hrun, hall⟩ := exists_skeletons ht habove hplant hkey
  refine ⟨t'', hrun, fun k hk hne => ?_⟩
  obtain ⟨n, hn, hlength, hbounds, htext⟩ := hall k hk hne
  refine ⟨n, hn, fun hapart => ⟨?_, ?_⟩⟩
  · rw [htext, skeletonText_eq (fun o ho => (hbounds o ho).1) (hapart.mono (by decide))]
  · apply patched_drifted_eq_iff (fun o ho => (hbounds o ho).1) hapart
    intro o ho
    have hinside := hbounds o ho
    omega

end

namespace TwoFunctions

def function (name body : String) : Piece :=
  .node "function_definition" none true [.text "def ",
    .node "identifier" (some "name") true [.text name], .text "():\n  ",
    .node "block" (some "body") true [.text body]]

def source (between : String) : Piece :=
  .node "module" none true [function "a" "x", .text between, function "b" "y", .text "\n"]

def planted (between : String) : Except Fault (List NodeKey) × NodeTable :=
  let blob : Blob := ⟨Utf8.bytes (source between).source, 0, false⟩
  (Hierarchy.plantFile ⟨({} : Disk).addFile "/r/a.py" blob, .ofPieces [source between]⟩
    (some .python) (some ⟨.str "dev", .str "main", .str "/r"⟩) none ⟨"a.py", "/r", 1⟩
    (.int 1)).perform {}

theorem planted_remark : planted " # first\n" = (.ok [0, 1, 2], (planted " # first\n").2) ∧
    ((planted " # first\n").2.omissions 0).length = 2 := by
  have hrun : (planted " # first\n").1.toOption = some [0, 1, 2] ∧
      ((planted " # first\n").2.omissions 0).length = 2 := by
    decide +kernel
  exact ⟨Outcome.pair_eq_of_toOption hrun.1, hrun.2⟩

/-- The skeleton of the file, with some text before the second line. -/
def told (before : String) : String :=
  "def a():\n" ++ skeletonLine "f6d7a522333cefeb3cc424f23b0524ce" ++
    "def b():\n" ++ before ++ skeletonLine "da5dca674f8c8649a15fb40c54384f2f"

end TwoFunctions

/-- A remark stands between the first body and the newline. Both lines are in their places. -/
theorem TwoFunctions.remark_kept : ∃ t' t'' n, planted " # first\n" = (.ok [0, 1, 2], t') ∧
    (NodeTable.skeletonize 0).perform t' = (.ok (), t'') ∧ t'.tree? 0 = some n ∧
    (t'.omissions 0).length = 2 ∧
    t''.text? 0 = some (String.ofList (Utf8.decodeKnown (intendedBytes n (t'.omissions 0)))) := by
  obtain ⟨hplant, hlength⟩ := planted_remark
  have hfacts : ∀ n ∈ (planted " # first\n").2.tree? 0,
      Apart 3 n.start.byte ((planted " # first\n").2.omissions 0) ∧
      ∀ o ∈ ((planted " # first\n").2.omissions 0).dropLast,
        newlineAt (Utf8.bytes n.text) (o.stop n.start.byte 0) = 0 := by
    decide +kernel
  have hne := List.ne_nil_of_length_eq_add_one hlength
  obtain ⟨t'', hskeleton, hall⟩ := skeleton_intended_iff_newline_last NodeTable.tidy_empty
    (fun p hp => by cases hp) hplant (show 0 ∈ [0, 1, 2] by decide)
  obtain ⟨n, hn, hn'⟩ := hall 0 .refl hne
  obtain ⟨hapart, hnewline⟩ := hfacts n hn
  obtain ⟨htext, hiff⟩ := hn' hapart
  rw [hiff.mpr hnewline] at htext
  exact ⟨_, t'', n, hplant, hskeleton, hn, hlength, htext⟩

/-- A newline stands right after the first body. The line for the second one comes a byte late,
after a blank that it should have taken. -/
theorem TwoFunctions.second_line_late : ∃ t' t'' n, planted "\n" = (.ok [0, 1, 2], t') ∧
    (NodeTable.skeletonize 0).perform t' = (.ok (), t'') ∧ t'.tree? 0 = some n ∧
    Apart 3 n.start.byte (t'.omissions 0) ∧
    String.ofList (Utf8.decodeKnown (intendedBytes n (t'.omissions 0))) = told "" ∧
    t''.text? 0 = some (told " ") ∧ told " " ≠ told "" := by
  have hrun : (planted "\n").1.toOption = some [0, 1, 2] ∧
      ((planted "\n").2.tree? 0).isSome = true ∧
      ((NodeTable.skeletonize 0).perform (planted "\n").2).1.isOk = true ∧
      ((NodeTable.skeletonize 0).perform (planted "\n").2).2.text? 0 = some (told " ") := by
    decide +kernel
  have hfacts : ∀ n ∈ (planted "\n").2.tree? 0,
      Apart 3 n.start.byte ((planted "\n").2.omissions 0) ∧
      String.ofList (Utf8.decodeKnown (intendedBytes n ((planted "\n").2.omissions 0))) =
        told "" := by
    decide +kernel
  obtain ⟨hplant, htree, hskeleton, htext⟩ := hrun
  obtain ⟨n, hn⟩ := Option.isSome_iff_exists.mp htree
  obtain ⟨hapart, hintended⟩ := hfacts n hn
  obtain ⟨t'', ht''⟩ := Action.exists_of_isOk hskeleton
  rw [ht''] at htext
  exact ⟨_, t'', n, Outcome.pair_eq_of_toOption hplant, ht'', hn, hapart, hintended, htext,
    by decide +kernel⟩

end CodeAtlas
