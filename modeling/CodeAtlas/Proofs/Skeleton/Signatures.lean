import CodeAtlas.Proofs.Skeleton.Bodies
import CodeAtlas.Proofs.Text.Utf8
import CodeAtlas.Text.Blank

namespace CodeAtlas
open Source Text

/-- A text with lines in it: the text alone, the lines in order, and both together. -/
inductive Woven : List (List Char) → List Char → List Char → Prop where
  | text (plain : List Char) : Woven [] plain plain
  | line (before : List Char) {line : List Char} {lines : List (List Char)}
      {plain whole : List Char} (rest : Woven lines plain whole) :
      Woven (line :: lines) (before ++ plain) (before ++ line ++ whole)

/-- However the lines are woven in, as many characters of a kind are left for the text alone. -/
theorem Woven.countP {lines : List (List Char)} {plain whole : List Char}
    (h : Woven lines plain whole) (p : Char → Bool) :
    whole.countP p = plain.countP p + lines.flatten.countP p := by
  induction h with
  | text plain => simp
  | line before rest ih =>
    simp only [List.countP_append, List.flatten_cons, ih]
    omega

/-- Is a character not touched when a stretch is replaced? -/
def Patch.Spares (p : Patch) (x : Nat × Char) : Prop :=
  x.1 + x.2.utf8Size ≤ p.first ∨ p.last ≤ x.1

instance (p : Patch) (x : Nat × Char) : Decidable (p.Spares x) :=
  inferInstanceAs (Decidable (_ ∨ _))

def Ascending : Nat → List Patch → Prop
  | _, [] => True
  | place, p :: ps => place ≤ p.first ∧ p.first ≤ p.last ∧ Ascending p.last ps

theorem Ascending.le {place : Nat} {ps : List Patch} (h : Ascending place ps) :
    ∀ p ∈ ps, place ≤ p.first := by
  induction ps generalizing place with
  | nil => simp
  | cons p ps ih =>
    obtain ⟨hfirst, hlast, hrest⟩ := h
    intro q hq
    rcases List.mem_cons.mp hq with rfl | hq
    · exact hfirst
    · exact Nat.le_trans (Nat.le_trans hfirst hlast) (ih hrest q hq)

theorem drifted_ascending (text : List UInt8) {origin : Nat} {os : List Omission}
    (horder : ∀ o ∈ os, o.body.start.byte ≤ o.body.stop.byte) (hapart : Apart 2 origin os)
    (pos drift : Nat) (hnext : ∀ o ∈ os.head?, pos + origin + 2 ≤ o.body.start.byte + drift) :
    Ascending pos (drifted text origin drift os) := by
  induction os generalizing pos drift with
  | nil => trivial
  | cons o os ih =>
    have hstart := hapart.start o List.mem_cons_self
    have hstop := horder o List.mem_cons_self
    have hpos := hnext o rfl
    obtain ⟨hgap, hchain⟩ := List.isChain_cons.mp hapart.next
    refine ⟨?_, ?_, ?_⟩
    · dsimp only [Omission.patch]
      omega
    · dsimp only [Omission.patch, Omission.stop]
      omega
    · apply ih (fun o' ho' => horder o' (List.mem_cons_of_mem _ ho'))
        ⟨fun o' ho' => hapart.start o' (List.mem_cons_of_mem _ ho'), hchain⟩ _ _
      intro o' ho'
      have := hgap o' ho'
      dsimp only [Omission.patch, Omission.stop]
      omega

/-- In a list that ascends, what stands below a place comes before what does not. -/
theorem filter_or_eq_append {l : List (Nat × Char)} (hl : l.Pairwise fun x y => x.1 < y.1)
    {P Q R : Nat × Char → Bool} (place : Nat) (hR : ∀ x, R x = (P x || Q x))
    (hP : ∀ x, P x = true → x.1 < place) (hQ : ∀ x, Q x = true → place ≤ x.1) :
    l.filter R = l.filter P ++ l.filter Q := by
  induction l with
  | nil => rfl
  | cons x l ih =>
    obtain ⟨hx, hl⟩ := List.pairwise_cons.mp hl
    by_cases hqx : Q x = true
    · -- from here on nothing stands below the place
      have hnone : ∀ y ∈ x :: l, P y = false := by
        intro y hy
        rw [Bool.eq_false_iff]
        intro hpy
        have hbelow := hP y hpy
        have habove := hQ x hqx
        rcases List.mem_cons.mp hy with rfl | hy
        · omega
        · have := hx y hy
          omega
      have hnil : (x :: l).filter P = [] := by
        rw [List.filter_eq_nil_iff]
        intro y hy
        simp [hnone y hy]
      rw [hnil, List.nil_append]
      apply List.filter_congr
      intro y hy
      rw [hR, hnone y hy, Bool.false_or]
    · rw [List.filter_cons, List.filter_cons, List.filter_cons, ih hl, hR,
        Bool.eq_false_iff.mpr hqx, Bool.or_false]
      by_cases hpx : P x = true <;> simp [hpx]

theorem breaks_skeletonLine (hash : String) (rest : List UInt8) :
    Utf8.Breaks (Utf8.bytes (skeletonLine hash) ++ rest) := by
  obtain ⟨more, hline⟩ := bytes_skeletonLine hash
  rw [hline]
  intro r hr
  cases hr
  decide

/-- What the first of some stretches spares stands before it, or after it and is spared by the
others. -/
theorem spares_cons_iff {place : Nat} {p : Patch} {ps : List Patch} (hfirst : place ≤ p.first)
    (hlast : p.first ≤ p.last) (hrest : Ascending p.last ps) (x : Nat × Char) :
    (place ≤ x.1 ∧ ∀ q ∈ p :: ps, q.Spares x) ↔
      Utf8.Within place p.first x ∨ p.last ≤ x.1 ∧ ∀ q ∈ ps, q.Spares x := by
  rw [List.forall_mem_cons]
  constructor
  · intro h
    obtain ⟨hplace, hp | hp, hps⟩ := h
    · exact .inl ⟨hplace, hp⟩
    · exact .inr ⟨hp, hps⟩
  · intro h
    rcases h with ⟨hplace, hp⟩ | ⟨hp, hps⟩
    · refine ⟨hplace, .inl hp, fun q hq => .inl ?_⟩
      have := hrest.le q hq
      omega
    · exact ⟨by omega, .inr hp, hps⟩

/-- A text with stretches replaced is decoded to the characters that are not touched, with the lines
woven in. The induction is on the stretches, from the end of the one before on. -/
theorem woven_patched (cs : List Char) {place : Nat} {ps : List Patch} (hps : Ascending place ps)
    (hlines : ∀ p ∈ ps, ∀ rest, Utf8.Breaks (Utf8.bytes p.line ++ rest)) :
    Woven (ps.map fun p => p.line.toList)
      (((Utf8.placed 0 cs).filter fun x => place ≤ x.1 ∧ ∀ p ∈ ps, p.Spares x).map Prod.snd)
      (Utf8.decodeKnown (patched (Utf8.encode cs) place ps)) := by
  induction ps generalizing place with
  | nil =>
    rw [patched, Utf8.decodeKnown_drop]
    simpa using Woven.text _
  | cons p ps ih =>
    obtain ⟨hfirst, hlast, hrest⟩ := hps
    obtain ⟨hline, hlines⟩ := List.forall_mem_cons.mp hlines
    have hslice := Utf8.decodeKnown_slice cs place p.first 0
      (hline (patched (Utf8.encode cs) p.last ps))
    rw [Nat.sub_zero, Nat.sub_zero, Utf8.bytes, Utf8.decodeKnown_encode] at hslice
    have hsplit := filter_or_eq_append (Utf8.placed_pairwise 0 cs)
      (P := fun x => Utf8.Within place p.first x)
      (Q := fun x => p.last ≤ x.1 ∧ ∀ p ∈ ps, p.Spares x)
      (R := fun x => place ≤ x.1 ∧ ∀ q ∈ p :: ps, q.Spares x) p.last ?_ ?_ ?_
    · rw [patched, List.append_assoc, Utf8.bytes, hslice, hsplit, List.map_append, List.map_cons,
        ← List.append_assoc]
      exact .line _ (ih hrest hlines)
    · intro x
      rw [← Bool.decide_or, decide_eq_decide]
      exact spares_cons_iff hfirst hlast hrest x
    · intro x hx
      have hbefore := (of_decide_eq_true hx).2
      have hpos := x.2.utf8Size_pos
      omega
    · intro x hx
      exact (of_decide_eq_true hx).1

section
variable (n : SyntaxNode) (os : List Omission)

/-- Does a character of the text of a node stand outside all bodies? -/
def Outside (x : Nat × Char) : Prop :=
  ∀ o ∈ os, n.start.byte + x.1 < o.body.start.byte ∨ o.body.stop.byte ≤ n.start.byte + x.1

/-- Does no cut touch a character of the text of a node? -/
def Survives (x : Nat × Char) : Prop :=
  ∀ p ∈ drifted (Utf8.bytes n.text) n.start.byte 0 os, p.Spares x

instance : DecidablePred (Outside n os) :=
  fun _ => inferInstanceAs (Decidable (∀ o ∈ os, _ ∨ _))

instance : DecidablePred (Survives n os) :=
  fun _ => inferInstanceAs (Decidable (∀ p ∈ _, _))

/-- A skeleton that has, up to white space, the text outside the bodies and the lines. -/
def KeepsSignatures (skeleton : String) : Prop :=
  ∃ plain, Woven (os.map fun o => (skeletonLine o.hash).toList) plain skeleton.toList ∧
    plain.filter (!isBlank ·) =
      (((Utf8.placed 0 n.text.toList).filter (Outside n os ·)).map Prod.snd).filter (!isBlank ·)

end

section
variable {n : SyntaxNode} {os : List Omission}

theorem map_line_drifted (text : List UInt8) (origin drift : Nat) (os : List Omission) :
    (drifted text origin drift os).map Patch.line = os.map fun o => skeletonLine o.hash := by
  induction os generalizing drift with
  | nil => rfl
  | cons o os ih => rw [drifted, List.map_cons, List.map_cons, ih, Omission.patch]

/-- A skeleton is what survives the cuts, with the lines woven in. -/
theorem woven_skeleton (horder : ∀ o ∈ os, o.body.start.byte ≤ o.body.stop.byte)
    (hapart : Apart 2 n.start.byte os) :
    Woven (os.map fun o => (skeletonLine o.hash).toList)
      (((Utf8.placed 0 n.text.toList).filter (Survives n os ·)).map Prod.snd)
      (Utf8.decodeKnown (skeletonBytes n os)) := by
  have hps : Ascending 0 (drifted (Utf8.bytes n.text) n.start.byte 0 os) := by
    apply drifted_ascending _ horder hapart
    intro o ho
    have := hapart.start o (List.mem_of_mem_head? ho)
    omega
  have hlines : ∀ p ∈ drifted (Utf8.bytes n.text) n.start.byte 0 os, ∀ rest,
      Utf8.Breaks (Utf8.bytes p.line ++ rest) := by
    intro p hp rest
    have hline := List.mem_map_of_mem (f := Patch.line) hp
    rw [map_line_drifted, List.mem_map] at hline
    obtain ⟨o, _, ho⟩ := hline
    rw [← ho]
    exact breaks_skeletonLine o.hash rest
  have hwoven := woven_patched n.text.toList hps hlines
  have hmap : (drifted (Utf8.bytes n.text) n.start.byte 0 os).map (fun p => p.line.toList) =
      os.map fun o => (skeletonLine o.hash).toList := by
    have hline := congrArg (List.map String.toList)
      (map_line_drifted (Utf8.bytes n.text) n.start.byte 0 os)
    rwa [List.map_map, List.map_map] at hline
  have hkept : (Utf8.placed 0 n.text.toList).filter (fun x => 0 ≤ x.1 ∧
      ∀ p ∈ drifted (Utf8.bytes n.text) n.start.byte 0 os, p.Spares x) =
      (Utf8.placed 0 n.text.toList).filter (Survives n os ·) := by
    apply List.filter_congr
    intro x _
    rw [decide_eq_decide]
    simp [Survives]
  rwa [hmap, hkept] at hwoven

/-- If what has one property has another, and as many have each, then those that have the other have
the one. -/
theorem forall_of_countP_eq {α : Type} {l : List α} {P Q : α → Bool}
    (h : ∀ x ∈ l, P x = true → Q x = true) (hcount : l.countP P = l.countP Q) :
    ∀ x ∈ l, Q x = true → P x = true := by
  induction l with
  | nil => simp
  | cons x l ih =>
    obtain ⟨hx, hl⟩ := List.forall_mem_cons.mp h
    have hle := List.countP_mono_left hl
    rw [List.countP_cons, List.countP_cons] at hcount
    rw [List.forall_mem_cons]
    by_cases hp : P x = true
    · rw [if_pos hp, if_pos (hx hp), Nat.add_right_cancel_iff] at hcount
      exact ⟨fun _ => hp, ih hl hcount⟩
    · by_cases hq : Q x = true
      · rw [if_neg hp, if_pos hq] at hcount
        omega
      · rw [if_neg hp, if_neg hq] at hcount
        exact ⟨fun h => absurd h hq, ih hl hcount⟩

/-- The first three cuts take their bodies whole: they are moved on by two bytes at most. -/
theorem outside_of_spares {text : List UInt8} {origin drift : Nat} {x : Nat × Char}
    (hstart : ∀ o ∈ os, origin + 2 ≤ o.body.start.byte) (hfew : drift + os.length ≤ 3)
    (h : ∀ p ∈ drifted text origin drift os, p.Spares x) :
    ∀ o ∈ os, origin + x.1 < o.body.start.byte ∨ o.body.stop.byte ≤ origin + x.1 := by
  induction os generalizing drift with
  | nil => simp
  | cons o os ih =>
    have hpos := x.2.utf8Size_pos
    obtain ⟨ho, hos⟩ := List.forall_mem_cons.mp hstart
    obtain ⟨hp, hps⟩ := List.forall_mem_cons.mp h
    have hline : newlineAt text (o.stop origin drift) ≤ 1 := by
      unfold newlineAt
      split <;> decide
    rw [List.length_cons] at hfew
    rw [List.forall_mem_cons]
    refine ⟨?_, ih hos (by omega) hps⟩
    unfold Patch.Spares Omission.patch Omission.stop at hp
    dsimp only at hp
    omega

theorem and_visible_imp_iff {c : Char} {P Q : Prop} [Decidable P] [Decidable Q] :
    ((!isBlank c && decide P) = true → (!isBlank c && decide Q) = true) ↔
      (isBlank c = false → P → Q) := by
  cases isBlank c <;> simp

/-- If nothing of the bodies is left, or nothing of the signatures is lost, the signatures are kept
exactly if both are so. White space does not count. -/
theorem keepsSignatures_iff {skeleton : String}
    (hwoven : Woven (os.map fun o => (skeletonLine o.hash).toList)
      (((Utf8.placed 0 n.text.toList).filter (Survives n os ·)).map Prod.snd) skeleton.toList)
    (heither : (∀ x ∈ Utf8.placed 0 n.text.toList, isBlank x.2 = false →
        Survives n os x → Outside n os x) ∨
      ∀ x ∈ Utf8.placed 0 n.text.toList, isBlank x.2 = false → Outside n os x → Survives n os x) :
    KeepsSignatures n os skeleton ↔ ∀ x ∈ Utf8.placed 0 n.text.toList, isBlank x.2 = false →
      (Survives n os x ↔ Outside n os x) := by
  have hink : ∀ S : Nat × Char → Bool,
      (((Utf8.placed 0 n.text.toList).filter S).map Prod.snd).filter (!isBlank ·) =
        ((Utf8.placed 0 n.text.toList).filter fun x => !isBlank x.2 && S x).map Prod.snd := by
    intro S
    rw [List.filter_map, List.filter_filter]
    rfl
  constructor
  · intro hkeeps
    obtain ⟨plain, hplain, heq⟩ := hkeeps
    have hcount : (Utf8.placed 0 n.text.toList).countP (fun x => !isBlank x.2 && Survives n os x) =
        (Utf8.placed 0 n.text.toList).countP (fun x => !isBlank x.2 && Outside n os x) := by
      have hkept := hwoven.countP (!isBlank ·)
      rw [hplain.countP, Nat.add_right_cancel_iff, List.countP_eq_length_filter, heq,
        List.countP_eq_length_filter, hink, hink, List.length_map, List.length_map] at hkept
      rw [List.countP_eq_length_filter, List.countP_eq_length_filter]
      exact hkept.symm
    rcases heither with hbodies | hsignatures
    · have hall := forall_of_countP_eq
        (fun x hx => and_visible_imp_iff.mpr (hbodies x hx)) hcount
      intro x hx hblank
      exact ⟨hbodies x hx hblank, and_visible_imp_iff.mp (hall x hx) hblank⟩
    · have hall := forall_of_countP_eq
        (fun x hx => and_visible_imp_iff.mpr (hsignatures x hx)) hcount.symm
      intro x hx hblank
      exact ⟨and_visible_imp_iff.mp (hall x hx) hblank, hsignatures x hx hblank⟩
  · intro hall
    refine ⟨_, hwoven, ?_⟩
    rw [hink, hink]
    congr 1
    apply List.filter_congr
    intro x hx
    cases hblank : isBlank x.2 with
    | true => rfl
    | false =>
      simp only [Bool.not_false, Bool.true_and, decide_eq_decide]
      exact hall x hx hblank

end

/-- A skeleton is made of the characters that no cut touches and of a line for each body. Where
there are three bodies at most, nothing is left of them. If nothing is left of the bodies, or
nothing is lost of the signatures, then the signatures are kept exactly if what no cut touches is
what stands outside the bodies, up to white space. -/
theorem signatures_kept_iff_untouched {w : Workspace} {l : Option Language}
    {e : Option Environment} {above : Option NodeKey} {file : ProjectFile} {level : Json}
    {t t' : NodeTable} {keys : List NodeKey} (ht : t.Tidy)
    (habove : ∀ p, above = some p → ∃ id, t.id p = .ok id)
    (hplant : (Hierarchy.plantFile w l e above file level).perform t =
      (.ok keys, t')) {key : NodeKey} (hkey : key ∈ keys) :
    ∃ t'', (NodeTable.skeletonize key).perform t' = (.ok (), t'') ∧
      ∀ k, t'.Reaches key k → t'.omissions k ≠ [] → ∃ n skeleton, t'.tree? k = some n ∧
        t''.text? k = some skeleton ∧ (Apart 2 n.start.byte (t'.omissions k) →
          Woven ((t'.omissions k).map fun o => (skeletonLine o.hash).toList)
            (((Utf8.placed 0 n.text.toList).filter (Survives n (t'.omissions k) ·)).map Prod.snd)
            skeleton.toList ∧
          ((t'.omissions k).length ≤ 3 → ∀ x ∈ Utf8.placed 0 n.text.toList,
            Survives n (t'.omissions k) x → Outside n (t'.omissions k) x) ∧
          ((∀ x ∈ Utf8.placed 0 n.text.toList, isBlank x.2 = false →
              Survives n (t'.omissions k) x → Outside n (t'.omissions k) x) ∨
            (∀ x ∈ Utf8.placed 0 n.text.toList, isBlank x.2 = false →
              Outside n (t'.omissions k) x → Survives n (t'.omissions k) x) →
            (KeepsSignatures n (t'.omissions k) skeleton ↔
              ∀ x ∈ Utf8.placed 0 n.text.toList, isBlank x.2 = false →
                (Survives n (t'.omissions k) x ↔ Outside n (t'.omissions k) x)))) := by
  obtain ⟨t'', hrun, hall⟩ := exists_skeletons ht habove hplant hkey
  refine ⟨t'', hrun, fun k hk hne => ?_⟩
  obtain ⟨n, hn, _, hbounds, htext⟩ := hall k hk hne
  refine ⟨n, _, hn, htext, fun hapart => ?_⟩
  have horder := fun o ho => (hbounds o ho).1
  have hwoven := woven_skeleton horder hapart
  rw [skeletonText_eq horder hapart]
  rw [← String.toList_ofList (l := Utf8.decodeKnown _)] at hwoven
  refine ⟨hwoven, fun hfew x _ hsurvives => ?_, keepsSignatures_iff hwoven⟩
  exact outside_of_spares hapart.start (by omega) hsurvives

/-- The blanks before the bodies are all that is lost with them. -/
theorem TwoFunctions.signatures_kept : ∃ t' t'' n skeleton,
    planted " # first\n" = (.ok [0, 1, 2], t') ∧
    (NodeTable.skeletonize 0).perform t' = (.ok (), t'') ∧ t'.tree? 0 = some n ∧
    t''.text? 0 = some skeleton ∧ (t'.omissions 0).length = 2 ∧
    KeepsSignatures n (t'.omissions 0) skeleton := by
  obtain ⟨hplant, hlength⟩ := planted_remark
  have hfacts : ∀ n ∈ (planted " # first\n").2.tree? 0,
      Apart 2 n.start.byte ((planted " # first\n").2.omissions 0) ∧
      ∀ x ∈ Utf8.placed 0 n.text.toList, isBlank x.2 = false →
        Outside n ((planted " # first\n").2.omissions 0) x →
        Survives n ((planted " # first\n").2.omissions 0) x := by
    decide +kernel
  have hne := List.ne_nil_of_length_eq_add_one hlength
  obtain ⟨t'', hskeleton, hall⟩ := signatures_kept_iff_untouched NodeTable.tidy_empty
    (fun p hp => by cases hp) hplant (show 0 ∈ [0, 1, 2] by decide)
  obtain ⟨n, skeleton, hn, htext, hn'⟩ := hall 0 .refl hne
  obtain ⟨hapart, huntouched⟩ := hfacts n hn
  obtain ⟨_, hfew, hiff⟩ := hn' hapart
  refine ⟨_, t'', n, skeleton, hplant, hskeleton, hn, htext, hlength, ?_⟩
  have hbodies := hfew (by omega)
  refine (hiff (.inl fun x hx _ => hbodies x hx)).mpr fun x hx hblank => ?_
  exact ⟨hbodies x hx, huntouched x hx hblank⟩

namespace Parenthesis

/-- A function whose parameters stand right before its body. -/
def source : Piece :=
  .node "program" none true [.node "function_declaration" none true [.text "function ",
    .node "identifier" (some "name") true [.text "a"], .text "() ",
    .node "statement_block" (some "body") true [.text "\x7b\x7d"]]]

def planted : Except Fault (List NodeKey) × NodeTable :=
  let blob : Blob := ⟨Utf8.bytes source.source, 0, false⟩
  (Hierarchy.plantFile ⟨({} : Disk).addFile "/r/a.js" blob, .ofPieces [source]⟩
    (some .javascript) (some ⟨.str "dev", .str "main", .str "/r"⟩) none ⟨"a.js", "/r", 1⟩
    (.int 1)).perform {}

end Parenthesis

/-- The cut for the body takes the parenthesis before it, which is then missing. -/
theorem Parenthesis.closing_lost : ∃ t' t'' n, planted = (.ok [0, 1], t') ∧
    (NodeTable.skeletonize 0).perform t' = (.ok (), t'') ∧ t'.tree? 0 = some n ∧
    t''.text? 0 = some ("function a(" ++ skeletonLine "4f75fcc00cdf30af76ff47b4a0cdb711") ∧
    ¬KeepsSignatures n (t'.omissions 0)
      ("function a(" ++ skeletonLine "4f75fcc00cdf30af76ff47b4a0cdb711") := by
  have hrun : planted.1.toOption = some [0, 1] ∧ (planted.2.tree? 0).isSome = true ∧
      ((NodeTable.skeletonize 0).perform planted.2).1.isOk = true ∧
      ((NodeTable.skeletonize 0).perform planted.2).2.text? 0 =
        some ("function a(" ++ skeletonLine "4f75fcc00cdf30af76ff47b4a0cdb711") := by
    decide +kernel
  have hout : ∀ n ∈ planted.2.tree? 0,
      (11, ')') ∈ Utf8.placed 0 n.text.toList ∧ Outside n (planted.2.omissions 0) (11, ')') := by
    decide +kernel
  have hnone : ("function a(" ++ skeletonLine "4f75fcc00cdf30af76ff47b4a0cdb711").toList.countP
      (· == ')') = 0 := by
    decide +kernel
  obtain ⟨hplant, htree, hskeleton, htext⟩ := hrun
  obtain ⟨n, hn⟩ := Option.isSome_iff_exists.mp htree
  obtain ⟨t'', ht''⟩ := Action.exists_of_isOk hskeleton
  rw [ht''] at htext
  refine ⟨_, t'', n, Outcome.pair_eq_of_toOption hplant, ht'', hn, htext, ?_⟩
  intro hkeeps
  obtain ⟨plain, hwoven, heq⟩ := hkeeps
  rw [hwoven.countP] at hnone
  have hplain : ')' ∈ plain := by
    apply List.mem_of_mem_filter (p := (!isBlank ·))
    rw [heq, List.mem_filter, List.mem_map]
    refine ⟨⟨(11, ')'), ?_, rfl⟩, by decide⟩
    rw [List.mem_filter, decide_eq_true_eq]
    exact hout n hn
  have hpos : 0 < plain.countP (· == ')') :=
    List.countP_pos_iff.mpr ⟨')', hplain, beq_self_eq_true ')'⟩
  omega

end CodeAtlas
