import CodeAtlas.Proofs.Marking.Names
import CodeAtlas.Proofs.Marking.Nodes

namespace CodeAtlas.Marking
open Text Text.Expression

theorem spans_cons_ne_nil (p : Pattern) (c : Char) (rest : List Char) :
    p.spans (c :: rest) ≠ [] := by
  rw [Pattern.spans, Pattern.spansFrom]
  split
  · exact List.cons_ne_nil _ _
  · split <;> exact List.cons_ne_nil _ _

/-- What stands for a fit begins with a bracket, whatever the name is. -/
theorem exists_mark {e : Expression} {name : String} {mark : Replacement}
    (h : Replacement.ofText e (markOf name) = .ok mark) : ∃ parts, mark = .char '<' :: parts := by
  have hlist : (markOf name).toList = '<' :: '<' :: '<' :: (name.toList ++ ">>>".toList) := by
    rw [toList_markOf]
    rfl
  rw [Replacement.ofText, ← String.length_toList, hlist, List.length_cons, Replacement.read,
    if_neg (by decide), Outcome.bind_eq_ok] at h
  · obtain ⟨parts, -, hparts⟩ := h
    exact ⟨parts, (Except.ok.inj hparts).symm⟩
  · simp

theorem fill_ne_nil {groups : Nat} {parts : Replacement} {span : Pattern.Span} {piece : List Char}
    (h : Replacement.fill groups (.char '<' :: parts) span = .ok piece) : piece ≠ [] := by
  cases span with
  | kept c =>
    rw [← Except.ok.inj h]
    exact List.cons_ne_nil _ _
  | found start stop =>
    rw [Replacement.fill] at h
    split at h
    · cases h
    · rw [← Except.ok.inj h, List.flatMap_cons]
      exact List.cons_ne_nil _ _

/-- Marking does not empty a text. -/
theorem markName_ne_empty {name text result : String} (h : markName name (.str text) = .ok result)
    (htext : text ≠ "") : result ≠ "" := by
  obtain ⟨e, -, h⟩ := Outcome.bind_eq_ok.mp h
  obtain ⟨mark, hmark, h⟩ := Outcome.bind_eq_ok.mp h
  obtain ⟨parts, rfl⟩ := exists_mark hmark
  obtain ⟨pieces, hpieces, h⟩ := Outcome.bind_eq_ok.mp h
  obtain ⟨span, hspan⟩ : ∃ span, span ∈ e.pattern.spans text.toList := by
    have hne : text.toList ≠ [] := by simpa using htext
    obtain ⟨c, rest, hcs⟩ := List.exists_cons_of_ne_nil hne
    rw [hcs]
    exact List.exists_mem_of_ne_nil _ (spans_cons_ne_nil _ c rest)
  obtain ⟨piece, hpiece⟩ := Outcome.exists_of_mapM_eq_ok hpieces hspan
  have hmem : piece ∈ pieces := (Outcome.mem_iff_of_mapM_eq_ok hpieces).mpr ⟨span, hspan, hpiece⟩
  rintro rfl
  have hflat : pieces.flatten = [] := by simpa using Except.ok.inj h
  exact fill_ne_nil hpiece (List.flatten_eq_nil_iff.mp hflat piece hmem)

/-- A node with a text that is not empty. -/
def HasText (node : Json) : Prop :=
  ∃ text, text? node = some text ∧ text.isVoid = false

/-- A node that has a text still has one after a name is marked in it. -/
theorem hasText_of_markNode {name : String} {text node node' : Json}
    (htext : text? node = some text) (hvoid : text.isVoid = false)
    (h : markNode name text node = .ok node') : HasText node' := by
  obtain ⟨result, hmark, -⟩ := Outcome.bind_eq_ok.mp h
  cases text with
  | str text =>
    rw [markNode_ok htext hmark] at h
    rw [← Except.ok.inj h]
    refine ⟨.str result, text?_setText htext result, ?_⟩
    have hne := markName_ne_empty hmark (by simpa [Json.isVoid] using hvoid)
    simpa [Json.isVoid] using hne
  | _ =>
    obtain ⟨_, -, hmark⟩ := Outcome.bind_eq_ok.mp hmark
    obtain ⟨_, -, hmark⟩ := Outcome.bind_eq_ok.mp hmark
    cases hmark

section Unmarkable
variable {name : String} (hname : ∀ text result, markName name text ≠ .ok result)

include hname in
/-- The names before it leave the node a text, so the name comes to it. -/
theorem markNames_fault {names : List String} (hmem : name ∈ names) {node : Json}
    (hnode : HasText node) (missing : Nat) : (markNames node missing names).2.2 ≠ none := by
  induction names generalizing node missing with
  | nil => simp at hmem
  | cons first names ih =>
    obtain ⟨text, htext, hvoid⟩ := hnode
    rw [markNames, ← text?, htext]
    dsimp only
    rw [if_neg (by simp [hvoid])]
    cases hmark : markNode first text node with
    | error fault => simp
    | ok node' =>
      rcases List.mem_cons.mp hmem with rfl | hmem
      · obtain ⟨result, hresult, -⟩ := Outcome.bind_eq_ok.mp hmark
        exact absurd hresult (hname text result)
      · exact ih hmem (hasText_of_markNode htext hvoid hmark) missing

include hname in
theorem markNodes_fault {names : List String} (hmem : name ∈ names) {nodes : List Json}
    {node : Json} (hnodes : node ∈ nodes) (hnode : HasText node) (missing : Nat) :
    (markNodes names nodes missing).2.2 ≠ none := by
  induction nodes generalizing missing with
  | nil => simp at hnodes
  | cons first nodes ih =>
    rw [markNodes]
    split
    · simp
    · rename_i first' missing' hmarked
      rcases List.mem_cons.mp hnodes with rfl | hnodes
      · exact absurd (by rw [hmarked]) (markNames_fault hname hmem hnode missing)
      · exact ih hnodes missing'

include hname in
/-- If one name cannot be marked in any text, marking fails as soon as any node has a text. -/
theorem markAll_fault {nodes : List Json} (hmem : name ∈ namesOf nodes) {node : Json}
    (hnodes : node ∈ nodes) (hnode : HasText node) : (markAll nodes).fault ≠ none := by
  rw [markAll]
  split
  · simp
  · rename_i names hmap
    rw [namesOf_of_mapM hmap] at hmem
    exact markNodes_fault hname hmem hnodes hnode 0

end Unmarkable

theorem markName_of_unreadable {name : String} (h : Unreadable name.toList) (text : Json) :
    markName name text = .error .patternMalformed := by
  rw [markName, ofText_of_unreadable h]
  rfl

end CodeAtlas.Marking
