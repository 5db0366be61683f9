import CodeAtlas.Proofs.Server.Listening

namespace CodeAtlas.Server
open Session

namespace Session

/-- What attempts to connect leave as it is. -/
structure Redialled (s s' : Session) : Prop where
  limit : s'.retryLimit = s.retryLimit
  lastId : s'.lastId = s.lastId
  unmatched : s'.unmatched = s.unmatched
  incoming : s'.peer.incoming = s.peer.incoming
  reply : s'.peer.reply = s.peer.reply

theorem Redialled.trans {s s' s'' : Session} (h : Redialled s s') (h' : Redialled s' s'') :
    Redialled s s'' :=
  ⟨h'.limit.trans h.limit, h'.lastId.trans h.lastId, h'.unmatched.trans h.unmatched,
    h'.incoming.trans h.incoming, h'.reply.trans h.reply⟩

end Session

namespace Traffic

def message? : Traffic → Option Json
  | send message => some message
  | _ => none

def IsRefusal (t : Traffic) : Prop :=
  ∃ address, t = connect address false

theorem filterMap_refusals {refusals : List Traffic} (h : ∀ t ∈ refusals, t.IsRefusal) :
    refusals.filterMap message? = [] := by
  apply List.filterMap_eq_nil_iff.mpr
  intro t hmem
  obtain ⟨address, rfl⟩ := h t hmem
  rfl

end Traffic

namespace Session

theorem sent_eq (s : Session) : s.sent = s.traffic.filterMap Traffic.message? := rfl

/-- The attempts so far were refused, and the socket is the old one. -/
def GaveUp (s s' : Session) : Prop :=
  Redialled s s' ∧ s'.socket = s.socket ∧
    ∃ refusals, (∀ t ∈ refusals, Traffic.IsRefusal t) ∧ s'.traffic = s.traffic ++ refusals

/-- After some refusals an attempt was accepted. -/
def Connected (s s' : Session) : Prop :=
  Redialled s s' ∧ s'.socket = .live ∧
    ∃ refusals address, (∀ t ∈ refusals, Traffic.IsRefusal t) ∧
      s'.traffic = s.traffic ++ refusals ++ [.connect address true]

theorem GaveUp.trans {s s' s'' : Session} (h : GaveUp s s') (h' : GaveUp s' s'') :
    GaveUp s s'' := by
  obtain ⟨hr, hsock, refusals, href, ht⟩ := h
  obtain ⟨hr', hsock', refusals', href', ht'⟩ := h'
  refine ⟨hr.trans hr', hsock'.trans hsock, refusals ++ refusals', ?_, ?_⟩
  · intro t hmem
    rcases List.mem_append.mp hmem with hmem | hmem
    · exact href t hmem
    · exact href' t hmem
  · rw [ht', ht, List.append_assoc]

theorem GaveUp.connected {s s' s'' : Session} (h : GaveUp s s') (h' : Connected s' s'') :
    Connected s s'' := by
  obtain ⟨hr, -, refusals, href, ht⟩ := h
  obtain ⟨hr', hsock', refusals', address, href', ht'⟩ := h'
  refine ⟨hr.trans hr', hsock', refusals ++ refusals', address, ?_, ?_⟩
  · intro t hmem
    rcases List.mem_append.mp hmem with hmem | hmem
    · exact href t hmem
    · exact href' t hmem
  · rw [ht', ht, List.append_assoc s.traffic]

theorem gaveUp_of_traffic {s s' : Session} (hr : Redialled s s') (hs : s'.socket = s.socket)
    (ht : s'.traffic = s.traffic) : GaveUp s s' :=
  ⟨hr, hs, [], by simp, by simp [ht]⟩

theorem ends_refused (tries : Json) (s : Session) :
    (refused tries).Ends s (fun _ => GaveUp s) (GaveUp s) := by
  have h : ∀ s' : Session, Redialled s s' → s'.socket = s.socket →
      s'.traffic = s.traffic ++ [.connect s.address false] → GaveUp s s' := by
    intro s' hr hs ht
    exact ⟨hr, hs, [.connect s.address false], by simp [Traffic.IsRefusal], ht⟩
  rw [refused, Action.ends_bind, Action.ends_modify, Action.ends_bind]
  refine Action.ends_ofExcept (fun spelled _ => ?_) (h _ ⟨rfl, rfl, rfl, rfl, rfl⟩ rfl rfl)
  exact Action.ends_modify.mpr (h _ ⟨rfl, rfl, rfl, rfl, rfl⟩ rfl rfl)

/-- Dialling ends on a new connection, or on the old socket. -/
theorem ends_dial (tries : Json) (accepts : List Bool) (s : Session) :
    (dial tries accepts).Ends s (fun _ s' => Connected s s' ∨ GaveUp s s') (GaveUp s) := by
  induction accepts generalizing tries s with
  | nil =>
    rw [dial, Action.ends_modify]
    exact Or.inl ⟨⟨rfl, rfl, rfl, rfl, rfl⟩, rfl, [], s.address, by simp, by simp [record]⟩
  | cons accepted rest ih =>
    cases accepted with
    | true =>
      rw [dial, Action.ends_modify]
      exact Or.inl ⟨⟨rfl, rfl, rfl, rfl, rfl⟩, rfl, [], s.address, by simp, by simp [record]⟩
    | false =>
      have hstart : GaveUp s { s with peer := { s.peer with accepts := rest } } :=
        gaveUp_of_traffic ⟨rfl, rfl, rfl, rfl, rfl⟩ rfl rfl
      rw [dial, Action.ends_bind, Action.ends_modify, Action.ends_bind]
      refine (ends_refused tries _).mono (fun _ s₁ h₁ => ?_) fun s₁ h₁ => hstart.trans h₁
      replace h₁ := hstart.trans h₁
      rw [Action.ends_bind, Action.ends_get, Action.ends_bind]
      refine Action.ends_ofExcept (fun again _ => ?_) h₁
      split
      · have hpause : GaveUp s { s₁ with pauses := s₁.pauses ++ [1] } :=
          h₁.trans (gaveUp_of_traffic ⟨rfl, rfl, rfl, rfl, rfl⟩ rfl rfl)
        rw [Action.ends_bind, Action.ends_modify, Action.ends_bind]
        refine Action.ends_ofExcept (fun next _ => ?_) hpause
        refine (ih next _).mono (fun _ s₂ h₂ => ?_) fun s₂ h₂ => hpause.trans h₂
        exact h₂.imp hpause.connected hpause.trans
      · exact Action.ends_pure.mpr (Or.inr h₁)

theorem ends_connect (s : Session) :
    connect.Ends s (fun _ s' => Connected s s' ∨ GaveUp s s') (GaveUp s) := by
  rw [connect, connectFrom, Action.ends_bind, Action.ends_get]
  exact ends_dial _ _ s

/-- Sending goes over a live connection only. -/
theorem ends_send (message : Json) (s : Session) :
    (send message).Ends s (fun _ s' => s.socket = .live ∧ s' = s.sending message)
      (fun s' => s.socket ≠ .live ∧ s' = s) := by
  rw [send, Action.ends_bind, Action.ends_get]
  cases hs : s.socket with
  | absent => exact Action.ends_throw.mpr ⟨by simp, rfl⟩
  | closed => exact Action.ends_throw.mpr ⟨by simp, rfl⟩
  | live => exact Action.ends_set.mpr ⟨rfl, rfl⟩

def Resent (request : Json) (s s' : Session) : Prop :=
  ∃ s₁, Connected s s₁ ∧ s' = s₁.sending request

/-- Once a connection is lost, its request is sent again on a new one or there is a fault. -/
theorem ends_resend (request : Json) {s : Session} (hs : s.socket = .closed) :
    (do connect; send request : Action Session Unit).Ends s (fun _ => Resent request s)
      (GaveUp s) := by
  rw [Action.ends_bind]
  refine (ends_connect s).mono (fun _ s₁ h₁ => ?_) fun _ h₁ => h₁
  refine (ends_send request s₁).mono (fun _ s₂ h₂ => ?_) fun s₂ h₂ => ?_
  · obtain ⟨hlive, rfl⟩ := h₂
    rcases h₁ with h₁ | h₁
    · exact ⟨s₁, h₁, rfl⟩
    · rw [h₁.2.1, hs] at hlive
      cases hlive
  · obtain ⟨hlive, rfl⟩ := h₂
    rcases h₁ with h₁ | h₁
    · exact absurd h₁.2.1 hlive
    · exact h₁

/-- What is left of a pattern of attempts after the first accepted one, of as many as are made from
the attempt `tries` on. -/
def acceptedFrom (limit : Nat) : Nat → List Bool → Option (List Bool)
  | _, [] => some []
  | _, true :: rest => some rest
  | tries, false :: rest => if tries < limit then acceptedFrom limit (tries + 1) rest else none

/-- A connection can be opened again a number of times, as the attempts are answered. -/
def Reopens (limit : Nat) : Nat → List Bool → Prop
  | 0, _ => True
  | times + 1, accepts =>
    ∃ rest, acceptedFrom limit 0 accepts = some rest ∧ Reopens limit times rest

theorem ends_refused_spelled {tries : Json} {text : String} (h : tries.spelled = .ok text)
    (s : Session) : (refused tries).Ends s
      (fun _ s' => s'.retryLimit = s.retryLimit ∧ s'.peer = s.peer) fun _ => False := by
  rw [refused, Action.ends_bind, Action.ends_modify, Action.ends_bind, h, Action.ends_ofExcept_ok,
    Action.ends_modify]
  exact ⟨rfl, rfl⟩

theorem ends_dial_accepted {limit tries : Nat} (hl : limit < Nat.pow 10 Json.mostSpelledDigits)
    (htries : tries ≤ limit) {accepts rest : List Bool}
    (h : acceptedFrom limit tries accepts = some rest) {s : Session}
    (hlimit : s.retryLimit = .int limit) (ha : s.peer.accepts = accepts) :
    (dial (.int tries) accepts).Ends s
      (fun _ s' => s'.socket = .live ∧ s'.peer.accepts = rest) fun _ => False := by
  induction accepts generalizing tries s with
  | nil =>
    cases h
    exact Action.ends_modify.mpr ⟨rfl, ha⟩
  | cons accepted accepts ih =>
    cases accepted with
    | true =>
      cases h
      exact Action.ends_modify.mpr ⟨rfl, rfl⟩
    | false =>
      have hspelled : (Json.int tries).spelled = .ok (Json.int tries).spelling := by
        rw [Json.spelled]
        exact if_pos (Nat.lt_of_le_of_lt htries hl)
      rw [acceptedFrom] at h
      split at h
      · rename_i hmore
        rw [dial, Action.ends_bind, Action.ends_modify, Action.ends_bind]
        refine (ends_refused_spelled hspelled _).mono ?_ fun _ h => h
        rintro - s₁ ⟨hlimit₁, hpeer₁⟩
        have hagain : (Json.int tries).lt s₁.retryLimit = .ok true := by
          rw [hlimit₁, hlimit, Json.lt_int, decide_eq_true (by omega)]
        have hnext : (Json.int tries).successor = .ok (.int (tries + 1 : Nat)) := rfl
        rw [Action.ends_bind, Action.ends_get, Action.ends_bind, hagain, Action.ends_ofExcept_ok,
          if_pos rfl, Action.ends_bind, Action.ends_modify, Action.ends_bind, hnext,
          Action.ends_ofExcept_ok]
        exact ih hmore h (hlimit₁.trans hlimit) (congrArg Peer.accepts hpeer₁)
      · cases h

theorem ends_connect_accepted {limit : Nat} (hl : limit < Nat.pow 10 Json.mostSpelledDigits)
    {s : Session} (hlimit : s.retryLimit = .int limit) {rest : List Bool}
    (h : acceptedFrom limit 0 s.peer.accepts = some rest) :
    connect.Ends s (fun _ s' => s'.socket = .live ∧ s'.peer.accepts = rest) fun _ => False := by
  rw [connect, connectFrom, Action.ends_bind, Action.ends_get]
  exact ends_dial_accepted hl (Nat.zero_le _) h hlimit rfl

theorem ends_resend_accepted {limit : Nat} (hl : limit < Nat.pow 10 Json.mostSpelledDigits)
    {s : Session} (hlimit : s.retryLimit = .int limit) {rest : List Bool}
    (h : acceptedFrom limit 0 s.peer.accepts = some rest) (request : Json) :
    (do connect; send request : Action Session Unit).Ends s
      (fun _ s' => s'.peer.accepts = rest) fun _ => False := by
  rw [Action.ends_bind]
  refine (ends_connect_accepted hl hlimit h).mono ?_ fun _ h => h
  rintro - s₁ ⟨hlive, hrest⟩
  refine (ends_send request s₁).mono ?_ fun s' h' => h'.1 hlive
  rintro - s' ⟨-, rfl⟩
  exact hrest

def lossNote (lost : Nat) (s : Session) : String :=
  "Connection lost. Retrying (" ++ toString (lost + 1) ++ "/" ++ s.retryLimit.spelling ++ ")..."

/-- One round of waiting: an answer ends it, and so does a fault; after a closure the request is
sent again, and another round follows unless that was the last. -/
theorem ends_await {id : MessageId} {request : Json} {lost losses : Nat} {s : Session}
    {done : Option Json → Session → Prop} {failed : Session → Prop} (hs : s.socket ≠ .absent) :
    (await id request lost (losses + 1)).Ends s done failed ↔
      match receive id s.peer.incoming s with
      | (.answer m, s') => done (some m) s'
      | (.failed _, s') => failed s'
      | (.closed, s') =>
        (do connect; send request : Action Session Unit).Ends (s'.note (lossNote lost s'))
          (fun _ s'' => if losses = 0 then failed s'' else
            (await id request (lost + 1) losses).Ends s'' done failed) failed := by
  rw [await, Action.ends_bind, Action.ends_get, if_neg hs, Action.ends_bind, Action.ends_set]
  rcases receive id s.peer.incoming s with ⟨received, s'⟩
  cases received with
  | answer m => exact Action.ends_pure
  | failed fault => exact Action.ends_throw
  | closed =>
    dsimp only
    rw [Action.ends_bind, Action.ends_set, Action.ends_bind, Action.ends_bind]
    by_cases hl : losses = 0
    · simp only [hl, if_true, Action.ends_bind, Action.ends_throw]
      rfl
    · simp only [hl, if_false, Action.ends_bind]
      rfl

end Session
end CodeAtlas.Server
