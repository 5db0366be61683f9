import CodeAtlas.Graph.Skeleton
import CodeAtlas.Proofs.Source.Layout
import Mathlib.Data.List.Chain

namespace CodeAtlas
open Source Text

/-- A body that a skeleton leaves out, and the hash of the node that has it. -/
structure Omission where
  body : SyntaxNode
  hash : String

def Omission.cut (o : Omission) : Cut :=
  ⟨o.body.start.byte, o.body.stop.byte, Utf8.bytes (skeletonLine o.hash)⟩

/-- A stretch of a text, and the line that takes its place. -/
structure Patch where
  first : Nat
  last : Nat
  line : String

def patched (text : List UInt8) : Nat → List Patch → List UInt8
  | place, [] => text.drop place
  | place, p :: ps => (text.take p.first).drop place ++ Utf8.bytes p.line ++ patched text p.last ps

def newlineAt (text : List UInt8) (place : Nat) : Nat :=
  if text[place]? = some 10 then 1 else 0

/-- Where the body ends in the text of the node that begins at the origin, if all is moved on by
some bytes. -/
def Omission.stop (o : Omission) (origin drift : Nat) : Nat :=
  o.body.stop.byte - origin + drift

/-- The stretch from two bytes before a body up to the newline after it, if all is moved on by some
bytes. -/
def Omission.patch (text : List UInt8) (origin drift : Nat) (o : Omission) : Patch where
  first := o.body.start.byte - origin - 2 + drift
  last := o.stop origin drift + newlineAt text (o.stop origin drift)
  line := skeletonLine o.hash

/-- The stretches that are replaced: the newlines that were taken move the later ones on. -/
def drifted (text : List UInt8) (origin : Nat) : Nat → List Omission → List Patch
  | _, [] => []
  | drift, o :: os =>
    o.patch text origin drift ::
      drifted text origin (drift + newlineAt text (o.stop origin drift)) os

/-- The bytes of a syntax node with a line for each body, for two bytes before it and for a newline
after it. -/
def intendedBytes (n : SyntaxNode) (os : List Omission) : List UInt8 :=
  patched (Utf8.bytes n.text) 0 (os.map (Omission.patch (Utf8.bytes n.text) n.start.byte 0))

def skeletonBytes (n : SyntaxNode) (os : List Omission) : List UInt8 :=
  patched (Utf8.bytes n.text) 0 (drifted (Utf8.bytes n.text) n.start.byte 0 os)

/-- Bodies that begin two bytes after the origin or later, and with a gap between one and the
next. -/
structure Apart (gap origin : Nat) (os : List Omission) : Prop where
  start : ∀ o ∈ os, origin + 2 ≤ o.body.start.byte
  next : os.IsChain fun o o' => o.body.stop.byte + gap ≤ o'.body.start.byte

instance (gap origin : Nat) (os : List Omission) : Decidable (Apart gap origin os) :=
  decidable_of_iff
    ((∀ o ∈ os, origin + 2 ≤ o.body.start.byte) ∧
      os.IsChain fun o o' => o.body.stop.byte + gap ≤ o'.body.start.byte)
    ⟨fun h => ⟨h.1, h.2⟩, fun h => ⟨h.start, h.next⟩⟩

theorem Apart.mono {gap gap' origin : Nat} {os : List Omission} (h : Apart gap origin os)
    (hle : gap' ≤ gap) : Apart gap' origin os :=
  ⟨h.start, h.next.imp fun _ _ hgap => Nat.le_trans (Nat.add_le_add_left hle _) hgap⟩

theorem dropNewline_drop (text : List UInt8) (place : Nat) :
    dropNewline (text.drop place) = text.drop (place + newlineAt text place) := by
  unfold newlineAt
  cases h : text.drop place with
  | nil =>
    have hle := List.drop_eq_nil_iff.mp h
    rw [List.drop_of_length_le (by omega)]
    rfl
  | cons b rest =>
    have hb : text[place]? = some b := by
      rw [← Nat.add_zero place, ← List.getElem?_drop, h]
      rfl
    have hrest : text.drop (place + 1) = rest := by
      rw [← List.drop_drop, h]
      rfl
    by_cases hten : b = 10
    · subst hten
      rw [if_pos hb, hrest]
      rfl
    · rw [if_neg (by simpa [hb] using hten), Nat.add_zero, h, dropNewline]
      intro rest' heq
      exact hten (List.cons.inj heq).1

section
variable {text : List UInt8} {head : List UInt8} {pos n : Nat} {i : Int}

/-- An offset into what is left of a text after its head was replaced: it leads to the place that is
meant, or else beyond the end. -/
structure Leads (text head : List UInt8) (pos : Nat) (i : Int) (n : Nat) : Prop where
  after : pos ≤ n
  least : (head.length : Int) + n ≤ i + pos
  exact : pos ≤ text.length → (head.length : Int) + n = i + pos

theorem Leads.place_eq (h : Leads text head pos i n) (length : Nat) : place length i = i.toNat := by
  have hafter := h.after
  have hleast := h.least
  rw [place, if_neg (by omega)]

theorem Leads.takeTo (h : Leads text head pos i n) :
    takeTo i (head ++ text.drop pos) = head ++ (text.take n).drop pos := by
  have hafter := h.after
  have hleast := h.least
  rw [Text.takeTo, h.place_eq, List.drop_take]
  by_cases hpos : pos ≤ text.length
  · have hexact := h.exact hpos
    rw [show i.toNat = head.length + (n - pos) by omega, List.take_length_add_append]
  · rw [List.drop_of_length_le (by omega), List.take_nil, List.append_nil,
      List.take_of_length_le (by omega)]

theorem Leads.dropTo (h : Leads text head pos i n) :
    dropTo i (head ++ text.drop pos) = text.drop n := by
  have hafter := h.after
  have hleast := h.least
  rw [Text.dropTo, h.place_eq]
  by_cases hpos : pos ≤ text.length
  · have hexact := h.exact hpos
    rw [show i.toNat = head.length + (n - pos) by omega, List.drop_length_add_append,
      List.drop_drop, Nat.add_sub_cancel' hafter]
  · rw [List.drop_of_length_le (by omega : text.length ≤ pos), List.append_nil,
      List.drop_of_length_le (by omega), List.drop_of_length_le (by omega)]

end

/-- The cuts replace stretches of the text, each moved on by the newlines that were taken before.
The induction is on the bodies that are left, after a head that is not changed any more. -/
theorem cutOut_eq_patched (text : List UInt8) {origin : Nat} {os : List Omission}
    (horder : ∀ o ∈ os, o.body.start.byte ≤ o.body.stop.byte) (hapart : Apart 2 origin os)
    (head : List UInt8) (pos drift : Nat) (offset : Int)
    (hnext : ∀ o ∈ os.head?, pos + origin + 2 ≤ o.body.start.byte + drift)
    (hleast : (head.length : Int) + drift ≤ offset + origin + 1 + pos)
    (hexact : pos ≤ text.length → (head.length : Int) + drift = offset + origin + 1 + pos) :
    cutOut (head ++ text.drop pos) offset (os.map Omission.cut) =
      head ++ patched text pos (drifted text origin drift os) := by
  induction os generalizing head pos drift offset with
  | nil => rfl
  | cons o os ih =>
    have hstart := hapart.start o List.mem_cons_self
    have hstop := horder o List.mem_cons_self
    have hpos := hnext o rfl
    obtain ⟨hgap, hchain⟩ := List.isChain_cons.mp hapart.next
    have hfirst : Leads text head pos (o.body.start.byte + offset - 1)
        (o.body.start.byte - origin - 2 + drift) :=
      ⟨by omega, by omega, fun h => by have := hexact h; omega⟩
    have hlast : Leads text head pos (o.body.stop.byte + offset + 1) (o.stop origin drift) := by
      unfold Omission.stop
      exact ⟨by omega, by omega, fun h => by have := hexact h; omega⟩
    rw [List.map_cons, cutOut, drifted, patched]
    dsimp only [Omission.cut, Omission.patch]
    rw [hfirst.takeTo, hlast.dropTo, dropNewline_drop,
      ih (fun o' ho' => horder o' (List.mem_cons_of_mem _ ho'))
        ⟨fun o' ho' => hapart.start o' (List.mem_cons_of_mem _ ho'), hchain⟩ _ _
        (drift + newlineAt text (o.stop origin drift))]
    · simp only [List.append_assoc]
    · intro o' ho'
      have := hgap o' ho'
      unfold Omission.stop
      omega
    · simp only [List.length_append, List.length_drop, List.length_take]
      unfold Omission.stop
      omega
    · intro hle
      have hle' : o.stop origin drift ≤ text.length := Nat.le_trans (Nat.le_add_right _ _) hle
      unfold Omission.stop at hle' ⊢
      have := hexact (by omega)
      simp only [List.length_append, List.length_drop, List.length_take]
      omega

/-- The text that the cuts leave of a syntax node. -/
theorem skeletonText_eq {n : SyntaxNode} {os : List Omission}
    (horder : ∀ o ∈ os, o.body.start.byte ≤ o.body.stop.byte) (hapart : Apart 2 n.start.byte os) :
    skeletonText n (os.map Omission.cut) =
      String.ofList (Utf8.decodeKnown (skeletonBytes n os)) := by
  have hcut := cutOut_eq_patched (Utf8.bytes n.text) horder hapart [] 0 0 (-n.start.byte - 1)
    ?_ ?_ ?_
  · rw [List.nil_append, List.nil_append, List.drop_zero] at hcut
    rw [skeletonText, hcut, skeletonBytes]
  · intro o ho
    have := hapart.start o (List.mem_of_mem_head? ho)
    omega
  · rw [List.length_nil]
    omega
  · rw [List.length_nil]
    omega

theorem bytes_skeletonLine (hash : String) :
    ∃ rest, Utf8.bytes (skeletonLine hash) = 35 :: 32 :: rest := by
  have hmark : "# Code replaced for brevity, see node: " =
      "# " ++ "Code replaced for brevity, see node: " := by decide +kernel
  have hline : skeletonLine hash =
      "# " ++ ("Code replaced for brevity, see node: " ++ hash ++ "\n") := by
    unfold skeletonLine
    rw [← String.append_assoc, ← String.append_assoc]
    exact congrArg (fun mark => mark ++ hash ++ "\n") hmark
  have hbytes : "# ".toList.flatMap String.utf8EncodeChar = [35, 32] := by decide +kernel
  rw [hline, Utf8.bytes, String.toList_append, Utf8.encode, List.flatMap_append, hbytes]
  exact ⟨_, rfl⟩

/-- A line does not give the same text one byte further on. -/
theorem shifted_ne {text : List UInt8} {pos first : Nat} (hpos : pos ≤ first)
    (hfirst : first < text.length) (hash : String) (after after' : List UInt8) :
    (text.take (first + 1)).drop pos ++ Utf8.bytes (skeletonLine hash) ++ after ≠
      (text.take first).drop pos ++ Utf8.bytes (skeletonLine hash) ++ after' := by
  obtain ⟨rest, hline⟩ := bytes_skeletonLine hash
  have hlength : (text.take first).length = first := List.length_take_of_le (Nat.le_of_lt hfirst)
  rw [List.take_succ_eq_append_getElem hfirst, List.drop_append_of_le_length (by omega), hline]
  intro heq
  simp only [List.append_assoc, List.cons_append, List.nil_append, List.append_cancel_left_eq,
    List.cons.injEq] at heq
  exact absurd heq.2.1 (by decide)

/-- What is replaced is what was meant to be exactly if no body but the last has a newline after
it. -/
theorem patched_drifted_eq_iff {text : List UInt8} {origin : Nat} {os : List Omission}
    (horder : ∀ o ∈ os, o.body.start.byte ≤ o.body.stop.byte)
    (hapart : Apart 3 origin os) (hinside : ∀ o ∈ os, o.body.start.byte ≤ origin + text.length)
    (pos : Nat) :
    patched text pos (drifted text origin 0 os) =
        patched text pos (os.map (Omission.patch text origin 0)) ↔
      ∀ o ∈ os.dropLast, newlineAt text (o.stop origin 0) = 0 := by
  induction os generalizing pos with
  | nil => simp [drifted]
  | cons o os ih =>
    cases os with
    | nil => simp [drifted]
    | cons o' os =>
      obtain ⟨hgap, hchain⟩ := List.isChain_cons_cons.mp hapart.next
      have hstart := hapart.start o List.mem_cons_self
      have hstart' := hapart.start o' (by simp)
      have hstop := horder o List.mem_cons_self
      have hbound := hinside o' (by simp)
      have ih := ih (fun p hp => horder p (List.mem_cons_of_mem _ hp))
        ⟨fun p hp => hapart.start p (List.mem_cons_of_mem _ hp), hchain⟩
        (fun p hp => hinside p (List.mem_cons_of_mem _ hp)) (o.patch text origin 0).last
      rw [drifted, List.map_cons, patched, patched, List.append_cancel_left_eq,
        List.dropLast_cons_cons, List.forall_mem_cons, Nat.zero_add]
      by_cases hline : newlineAt text (o.stop origin 0) = 0
      · rw [hline, ih]
        simp
      · have hone : newlineAt text (o.stop origin 0) = 1 := by
          unfold newlineAt at hline ⊢
          split at hline <;> simp_all
        refine iff_of_false ?_ fun h => hline h.1
        rw [hone, drifted, List.map_cons, patched, patched]
        refine shifted_ne ?_ (by omega) _ _ _
        simp only [Omission.patch, hone]
        unfold Omission.stop
        omega

end CodeAtlas
