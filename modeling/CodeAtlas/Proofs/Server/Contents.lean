import CodeAtlas.Proofs.Server.Mentions

namespace CodeAtlas.Server
open Session

def textOf (m : Json) : Option String :=
  match ((m.member? "params").bind fun params => params.member? "textDocument").bind
    fun document => document.member? "text" with
  | some (.str text) => some text
  | _ => none

def pointOf (m : Json) : Option Point := do
  let position ← (m.member? "params").bind fun params => params.member? "position"
  match position.member? "line", position.member? "character" with
  | some (.int line), some (.int character) => some ⟨line, character⟩
  | _, _ => none

/-- A message that tells of a file, with the text that the file has on the disk. -/
def Tells (d : Disk) (file : ProjectFile) (m : Json) : Prop :=
  ∃ text language, Servers.documentText d file.path = .ok text ∧
    m = opening (.str file.uri) (.str text) language

structure Asks (n : Node) (p : Point) (m : Json) : Prop where
  method : methodOf m = some "textDocument/references"
  subject : subjectOf m = some n.path
  point : pointOf m = some p

namespace Servers
variable {servers : Servers} {name : ServerName}

theorem ends_within_sending {α : Type} {act : Action Session α} {Q : Json → Prop}
    (hact : ∀ s, act.Ends s (fun _ => Says Q s) (Says Q s)) :
    (within name act).Ends servers
      (fun _ servers' => ∀ x ∈ servers'.sent, x ∈ servers.sent ∨ Q x.2)
      (fun servers' => ∀ x ∈ servers'.sent, x ∈ servers.sent ∨ Q x.2) := by
  have hsays : ∀ servers' : Servers, (∃ more : List Traffic,
      (∀ m ∈ more.filterMap Traffic.message?, Q m) ∧ servers'.sent = servers.sent ++
        (more.filterMap Traffic.message?).map fun m => (name, m)) →
      ∀ x ∈ servers'.sent, x ∈ servers.sent ∨ Q x.2 := by
    rintro servers' ⟨more, hmore, heq⟩ x hx
    rw [heq, List.mem_append] at hx
    refine hx.imp_right fun hx => ?_
    obtain ⟨m, hm, rfl⟩ := List.mem_map.mp hx
    exact hmore m hm
  exact (ends_within_sent (R := fun _ more => ∀ m ∈ more.filterMap Traffic.message?, Q m)
    (F := fun more => ∀ m ∈ more.filterMap Traffic.message?, Q m) (by simp) hact).mono
    (fun _ => hsays) hsays

theorem sent_announce (d : Disk) (file : ProjectFile) (servers : Servers) :
    ∀ x ∈ ((announce d file).perform servers).2.sent, x ∈ servers.sent ∨ Tells d file x.2 := by
  refine Action.Ends.snd
    (P := fun servers' : Servers => ∀ x ∈ servers'.sent, x ∈ servers.sent ∨ Tells d file x.2) ?_
  have hold : ∀ x ∈ servers.sent, x ∈ servers.sent ∨ Tells d file x.2 := fun _ => .inl
  rw [announce, Action.ends_bind]
  refine Action.ends_ofExcept (fun name _ => ?_) hold
  rw [Action.ends_bind]
  refine Action.ends_ofExcept (fun text htext => ?_) hold
  refine ends_within_sending fun s => (ends_didOpen _ _ _).mono ?_ ?_
  · rintro - s' ⟨language, rfl⟩
    exact .of_sending ⟨text, language, htext, rfl⟩
  · rintro s' rfl
    exact .of_traffic rfl

theorem sent_referencesTo (n : Node) {nameRange : Place} {p : Point}
    (hp : nameRange.extent.start = .ofPoint p) (servers : Servers) :
    ∀ x ∈ ((referencesTo n nameRange).perform servers).2.sent,
      x ∈ servers.sent ∨ Asks n p x.2 := by
  refine Action.Ends.snd
    (P := fun servers' : Servers => ∀ x ∈ servers'.sent, x ∈ servers.sent ∨ Asks n p x.2) ?_
  rw [referencesTo, Action.ends_bind]
  refine Action.ends_ofExcept (fun name _ => ?_) fun _ => .inl
  rw [Action.ends_bind, hp]
  refine (ends_within_sending (Q := Asks n p) fun s => says_ask _ _ fun id => ⟨rfl, rfl, rfl⟩).mono
    (fun found servers' h => ?_) fun _ h => h
  split
  · exact Action.ends_pure.mpr h
  · exact Action.ends_ofExcept (fun _ _ => h) h

end Servers
end CodeAtlas.Server
