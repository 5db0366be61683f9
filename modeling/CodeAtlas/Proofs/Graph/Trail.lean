import CodeAtlas.Proofs.Graph.Growth

namespace CodeAtlas

def Segment.spelling : Segment → String
  | .named mark (.str name) => mark ++ name
  | _ => ""

def Segment.IsNamed (s : Segment) : Prop :=
  ∃ mark name, s = .named mark (.str name) ∧ mark ≠ ""

def spell (trail : List Segment) : String :=
  String.join (trail.map Segment.spelling)

@[simp] theorem spell_nil : spell [] = "" := rfl

@[simp] theorem spell_cons (s : Segment) (trail : List Segment) :
    spell (s :: trail) = s.spelling ++ spell trail := by
  simp [spell]

@[simp] theorem spell_append (trail trail' : List Segment) :
    spell (trail ++ trail') = spell trail ++ spell trail' := by
  simp [spell]

def Node.identity (n : Node) : String :=
  (n.environment.map Environment.spelling).getD "" ++ spell n.trail

theorem Node.Kin.identity {n n' : Node} (h : n.Kin n') : n'.identity = n.identity := by
  rw [Node.identity, h.environment, h.trail, Node.identity]

theorem Scope.mark_ne_empty (s : Scope) : s.mark ≠ "" := by
  cases s <;> decide

namespace NodeTable
variable {t : NodeTable} {key : NodeKey} {n : Node}

theorem identifier_eq (hn : t.get? key = some n) (hs : ∀ s ∈ n.trail, s.IsNamed) :
    t.identifier key = .ok (spell n.trail) := by
  simp only [identifier, Outcome.bind_eq_ok, Outcome.pure_eq_ok, node_eq_ok, Outcome.mapM_eq_ok]
  refine ⟨n, hn, n.trail.map Segment.spelling, ?_, rfl⟩
  rw [List.forall₂_map_right_iff, List.forall₂_same]
  intro s hmem
  obtain ⟨mark, name, rfl, -⟩ := hs s hmem
  rfl

theorem id_eq (hn : t.get? key = some n) (hs : ∀ s ∈ n.trail, s.IsNamed) :
    t.id key = .ok n.identity := by
  simp [id, node_eq_ok.mpr hn, identifier_eq hn hs, Node.identity]

theorem hashedId_eq (hstrays : t.strays = []) (hn : t.get? key = some n)
    (hs : ∀ s ∈ n.trail, s.IsNamed) : t.hashedId key = .ok (Digest.hex n.identity) :=
  hashedId_of_id hstrays (id_eq hn hs)

/-- A trail goes on from that of the parent by one named segment. -/
theorem Lineage.trail_eq (h : t.Lineage key n) {text : String} (hname : n.name = .str text) :
    ∃ mark, mark ≠ "" ∧ (n.trail = [.named mark (.str text)] ∧ n.parent = none ∨
      ∃ k m, k < key ∧ t.get? k = some m ∧ n.parent = some k ∧
        n.trail = m.trail ++ [.named mark (.str text)]) := by
  cases h with
  | top content parent trail =>
    rw [hname] at trail
    exact ⟨"/", by decide, Or.inl ⟨trail, parent⟩⟩
  | entry above before folder content parent trail =>
    rw [hname] at trail
    exact ⟨"/", by decide, Or.inr ⟨_, _, before, above, parent, trail⟩⟩
  | @inner k m d d' above before around path content scope parent trail =>
    rw [hname] at trail
    exact ⟨_, d.scope.mark_ne_empty, Or.inr ⟨_, _, before, above, parent, trail⟩⟩

end NodeTable

namespace Growth.Sound
open NodeTable
variable {e : Option Environment} {s : Growth} {key : NodeKey} {n : Node}

theorem named_trail (h : Sound e s) (hn : s.table.get? key = some n) :
    ∀ segment ∈ n.trail, segment.IsNamed := by
  induction key using Nat.strongRecOn generalizing n with
  | ind key ih =>
    obtain ⟨text, hname⟩ := h.named hn
    obtain ⟨mark, hmark, ⟨htrail, -⟩ | ⟨k, m, hlt, hm, -, htrail⟩⟩ := (h.lineage hn).trail_eq hname
    · rw [htrail]
      intro segment hmem
      exact ⟨mark, text, List.mem_singleton.mp hmem, hmark⟩
    · rw [htrail]
      intro segment hmem
      rcases List.mem_append.mp hmem with hmem | hmem
      · exact ih k hlt hm segment hmem
      · exact ⟨mark, text, List.mem_singleton.mp hmem, hmark⟩

theorem id_eq (h : Sound e s) (hn : s.table.get? key = some n) :
    s.table.id key = .ok n.identity :=
  NodeTable.id_eq hn (h.named_trail hn)

/-- What stands below a node has a longer identifier. -/
theorem identity_lt (h : Sound e s) (hn : s.table.get? key = some n) {k : NodeKey}
    (hp : n.parent = some k) :
    ∃ m, s.table.get? k = some m ∧ k < key ∧ m.identity.length < n.identity.length := by
  obtain ⟨text, hname⟩ := h.named hn
  obtain ⟨mark, hmark, ⟨-, hnone⟩ | ⟨k', m, hlt, hm, hp', htrail⟩⟩ :=
    (h.lineage hn).trail_eq hname
  · rw [hp] at hnone
    cases hnone
  · cases hp.symm.trans hp'
    have hpos : 0 < mark.length := by
      rw [Nat.pos_iff_ne_zero, Ne, String.length_eq_zero_iff]
      exact hmark
    refine ⟨m, hm, hlt, ?_⟩
    simp only [Node.identity, h.environment hn, h.environment hm, htrail, spell_append, spell_cons,
      Segment.spelling, String.length_append]
    omega

/-- Every node stands at the top, or has a node at the top above it, with a shorter identifier. -/
theorem exists_top (h : Sound e s) (hn : s.table.get? key = some n) :
    ∃ key₀ n₀, s.table.get? key₀ = some n₀ ∧ n₀.parent = none ∧
      (key₀ = key ∨ n₀.identity.length < n.identity.length) := by
  induction key using Nat.strongRecOn generalizing n with
  | ind key ih =>
    cases hp : n.parent with
    | none => exact ⟨key, n, hn, hp, Or.inl rfl⟩
    | some k =>
      obtain ⟨m, hm, hlt, hlength⟩ := h.identity_lt hn hp
      obtain ⟨key₀, n₀, hn₀, hp₀, hcase⟩ := ih k hlt hm
      refine ⟨key₀, n₀, hn₀, hp₀, Or.inr ?_⟩
      rcases hcase with rfl | hshorter
      · cases hm.symm.trans hn₀
        exact hlength
      · exact Nat.lt_trans hshorter hlength

end Growth.Sound
end CodeAtlas
