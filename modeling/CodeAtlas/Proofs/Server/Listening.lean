import CodeAtlas.Proofs.Assoc
import CodeAtlas.Proofs.Json.Sameness
import CodeAtlas.Proofs.Server.Exchange

namespace CodeAtlas.Server
open Session

namespace Event

def value? : Event → Option Json
  | message value => some value
  | text raw => (Json.parse raw).toOption
  | _ => none

def isClosure : Event → Bool
  | closed => true
  | _ => false

def answers (id : MessageId) (e : Event) : Bool :=
  e.value?.any fun m => (numberOf m).value.agrees id.value

/-- The connection is closed, or an object arrives whose number can be a key. -/
def Regular (e : Event) : Prop :=
  e = closed ∨ ∃ members, e.value? = some (.obj members) ∧ (numberOf (.obj members)).isValid = true

theorem Regular.message {e : Event} (h : e.Regular) (hc : e.isClosure = false) :
    ∃ m members, e.value? = some m ∧ m = .obj members ∧ (numberOf m).isValid = true := by
  rcases h with rfl | ⟨members, hm, hvalid⟩
  · cases hc
  · exact ⟨_, members, hm, rfl, hvalid⟩

theorem Regular.valid {e : Event} {m : Json} (h : e.Regular) (hm : e.value? = some m) :
    (numberOf m).isValid = true := by
  rcases h with rfl | ⟨members, hobj, hvalid⟩
  · cases hm
  · cases hm.symm.trans hobj
    exact hvalid

theorem exists_of_answers {id : MessageId} {e : Event} (h : e.answers id = true) :
    ∃ m, e.value? = some m ∧ (numberOf m).value.agrees id.value = true := by
  rw [answers] at h
  cases hm : e.value? with
  | none => simp [hm] at h
  | some m => exact ⟨m, rfl, by simpa [hm] using h⟩

end Event

namespace Session

theorem MessageId.beq_congr {a b : MessageId} (hb : b.isValid = true) (h : (a == b) = true)
    (c : MessageId) : (a == c) = (b == c) :=
  Json.same_congr hb h c.value

theorem MessageId.beq_comm {a b : MessageId} (ha : a.isValid = true) (hb : b.isValid = true) :
    (a == b) = (b == a) :=
  Json.same_comm ha hb

/-- What is put by once messages have arrived that answer nothing. -/
def putBy (unmatched : Assoc MessageId Json) (ms : List Json) : Assoc MessageId Json :=
  ms.foldl (fun put m => Assoc.insert put (numberOf m) m) unmatched

/-- Under each number the last message is kept, and what stood under others stays. -/
theorem get?_putBy {ms : List Json} (hms : ∀ m ∈ ms, (numberOf m).isValid = true)
    (unmatched : Assoc MessageId Json) {key : MessageId} (hkey : key.isValid = true) :
    Assoc.get? (putBy unmatched ms) key =
      ((ms.filter fun m => numberOf m == key).getLast?).or (Assoc.get? unmatched key) := by
  refine Assoc.get?_foldl_insert numberOf ms (fun m hm k hk => ?_) (fun m hm k hk => ?_) unmatched
  · exact MessageId.beq_congr (hms m hm) hk key
  · rw [MessageId.beq_congr hkey hk, MessageId.beq_comm hkey (hms m hm)]

theorem receive_value {id : MessageId} {e : Event} {m : Json} (he : e.value? = some m)
    (rest : List Event) (s : Session) :
    receive id (e :: rest) s = match sort id m (s.taken rest) with
      | (some received, s) => (received, s)
      | (none, s) => receive id rest s := by
  cases e with
  | message value =>
    cases he
    rfl
  | text raw =>
    cases hparse : Json.parse raw with
    | ok value =>
      rw [Event.value?, hparse] at he
      cases he
      rw [receive]
      simp only [hparse]
      rfl
    | error fault =>
      rw [Event.value?, hparse] at he
      cases he
  | closed => cases he
  | failure fault => cases he

/-- Messages that answer nothing are put by, one after the other. -/
theorem receive_strays {id : MessageId} {strays : List Event} (hreg : ∀ e ∈ strays, e.Regular)
    (hopen : ∀ e ∈ strays, e.isClosure = false) (hother : ∀ e ∈ strays, e.answers id = false)
    (rest : List Event) (s : Session) :
    ∃ s', receive id (strays ++ rest) s = receive id rest s' ∧ Carried s s' ∧
      s'.unmatched = putBy s.unmatched (strays.filterMap Event.value?) := by
  induction strays generalizing s with
  | nil => exact ⟨s, rfl, ⟨⟨rfl, rfl, rfl, rfl, rfl⟩, rfl⟩, rfl⟩
  | cons e strays ih =>
    obtain ⟨hreg, hregs⟩ := List.forall_mem_cons.mp hreg
    obtain ⟨hopen, hopens⟩ := List.forall_mem_cons.mp hopen
    obtain ⟨hother, hothers⟩ := List.forall_mem_cons.mp hother
    obtain ⟨m, members, hm, hobj, hvalid⟩ := hreg.message hopen
    have hid : (numberOf m).value.agrees id.value = false := by
      simpa [Event.answers, hm] using hother
    obtain ⟨s₁, hsort, hc₁, hu₁, -⟩ := sort_stray id hobj hvalid hid (s.taken (strays ++ rest))
    obtain ⟨s', hrun, hc, hu⟩ := ih hregs hopens hothers s₁
    refine ⟨s', ?_, ((s.carried_taken _).trans hc₁).trans hc, ?_⟩
    · rw [List.cons_append, receive_value hm, hsort]
      exact hrun
    · rw [hu, hu₁, List.filterMap_cons_some hm]
      rfl

theorem receive_match {id : MessageId} {e : Event} {m : Json} (hreg : e.Regular)
    (hm : e.value? = some m) (hid : e.answers id = true) (rest : List Event) (s : Session) :
    ∃ s', receive id (e :: rest) s = (.answer m, s') ∧ Carried s s' ∧
      s'.unmatched = s.unmatched ∧ s'.peer.incoming = rest := by
  have hopen : e.isClosure = false := by
    cases e with
    | closed => cases hm
    | _ => rfl
  obtain ⟨m', members, hm', hobj, hvalid⟩ := hreg.message hopen
  cases hm.symm.trans hm'
  have hown : (numberOf m).value.agrees id.value = true := by
    simpa [Event.answers, hm] using hid
  obtain ⟨s', hsort, hc, hu, hp⟩ := sort_answer id hobj hvalid hown (s.taken rest)
  refine ⟨s', ?_, (s.carried_taken rest).trans hc, hu, by rw [hp]; rfl⟩
  rw [receive_value hm, hsort]

/-- Listening comes to the first message under the number. -/
theorem receive_first {id : MessageId} {s : Session} {strays : List Event} {e : Event} {m : Json}
    {after : List Event} (hreg : ∀ e ∈ s.peer.incoming, e.Regular)
    (hin : s.peer.incoming = strays ++ e :: after)
    (hopen : ∀ e ∈ strays, e.isClosure = false) (hother : ∀ e ∈ strays, e.answers id = false)
    (hm : e.value? = some m) (hid : e.answers id = true) :
    ∃ s', receive id s.peer.incoming s = (.answer m, s') ∧ Carried s s' ∧
      s'.unmatched = putBy s.unmatched (strays.filterMap Event.value?) ∧
      s'.peer.incoming = after := by
  rw [hin] at hreg ⊢
  obtain ⟨s₁, h₁, hc₁, hu₁⟩ := receive_strays (fun e he => hreg e (by simp [he])) hopen hother
    (e :: after) s
  obtain ⟨s', h', hc', hu', hi'⟩ := receive_match (hreg e (by simp)) hm hid after s₁
  exact ⟨s', h₁.trans h', hc₁.trans hc', hu'.trans hu₁, hi'⟩

/-- Whatever arrives, listening sends nothing, and only a closure ends the connection. -/
theorem receive_heard (id : MessageId) (events : List Event) (s : Session) :
    Heard s (receive id events s).2 ∧
      ((receive id events s).1 = .closed → (receive id events s).2.socket = .closed) := by
  induction events generalizing s with
  | nil => exact ⟨(s.carried_taken []).toHeard, fun h => by cases h⟩
  | cons e rest ih =>
    have hvalue : ∀ m, e.value? = some m → Heard s (receive id (e :: rest) s).2 ∧
        ((receive id (e :: rest) s).1 = .closed →
          (receive id (e :: rest) s).2.socket = .closed) := by
      intro m hm
      obtain ⟨received, s', hsort, hc, -, hcase⟩ := sort_cases id m (s.taken rest)
      have hs' : Heard s s' := (s.carried_taken rest).toHeard.trans hc.toHeard
      rw [receive_value hm, hsort]
      rcases hcase with ⟨rfl, -⟩ | ⟨rfl, -⟩ | ⟨⟨fault, rfl⟩, -⟩
      · exact ⟨hs', fun h => by cases h⟩
      · exact ⟨hs'.trans (ih s').1, (ih s').2⟩
      · exact ⟨hs', fun h => by cases h⟩
    cases e with
    | closed => exact ⟨⟨rfl, rfl, rfl, rfl, rfl⟩, fun _ => rfl⟩
    | failure fault => exact ⟨(s.carried_taken rest).toHeard, fun h => by cases h⟩
    | message value => exact hvalue value rfl
    | text raw =>
      cases hparse : Json.parse raw with
      | ok value => exact hvalue value (by simp [Event.value?, hparse, Except.toOption])
      | error fault =>
        rw [receive]
        simp only [hparse]
        exact ⟨(s.carried_taken rest).toHeard, fun h => by cases h⟩

end Session
end CodeAtlas.Server
