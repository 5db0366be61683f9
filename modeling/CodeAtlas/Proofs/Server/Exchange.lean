import CodeAtlas.Proofs.Action
import CodeAtlas.Proofs.Json
import CodeAtlas.Server.Session

namespace CodeAtlas.Server.Session

/-- The session once a message has been sent and the other side has reacted to it. -/
def sending (s : Session) (message : Json) : Session :=
  { s.record (.send message) with
    peer := { s.peer with incoming := s.peer.incoming ++ s.peer.reply message } }

@[simp] theorem sent_sending (s : Session) (message : Json) :
    (s.sending message).sent = s.sent ++ [message] := by
  simp [sent, sending, record]

theorem perform_send {s : Session} (hl : s.socket = .live) (message : Json) :
    (send message).perform s = (.ok (), s.sending message) := by
  simp only [send, Action.perform_bind, Action.perform_get, hl]
  rfl

def numbered (s : Session) : Session :=
  { s with lastId := s.lastId + 1 }

def nextRequest (s : Session) (method : String) (params : Json) : Json :=
  request (s.lastId + 1) method params

@[simp] theorem member?_id_request (id : Int) (method : String) (params : Json) :
    (request id method params).member? "id" = some (.int id) := rfl

@[simp] theorem member?_method_request (id : Int) (method : String) (params : Json) :
    (request id method params).member? "method" = some (.str method) := rfl

@[simp] theorem member?_params_request (id : Int) (method : String) (params : Json) :
    (request id method params).member? "params" = some params := rfl

theorem perform_sendRequest {s : Session} (hl : s.socket = .live) (id : Int) (method : String)
    (params : Json) :
    (sendRequest (request id method params)).perform s =
      (respond ⟨.int id⟩ (request id method params)).perform
        (s.sending (request id method params)) := by
  have hf : (request id method params).field "id" = .ok (.int id) := rfl
  simp only [sendRequest, Action.perform_bind, Action.perform_ofExcept, hf, perform_send hl]

theorem perform_call {s : Session} (hl : s.socket = .live) (method : String) (params : Json) :
    (call method params).perform s =
      (respond ⟨.int (s.lastId + 1)⟩ (s.nextRequest method params)).perform
        (s.numbered.sending (s.nextRequest method params)) := by
  simp only [call, nextId, Action.perform_bind, Action.perform_modifyGet]
  exact perform_sendRequest (s := s.numbered) hl _ method params

/-- Whatever is made of the answer to a request, the session is as the request left it. -/
theorem perform_ask_snd (method : String) (params : Json) (s : Session) :
    ((ask method params).perform s).2 = ((call method params).perform s).2 := by
  rw [ask, Action.perform_bind]
  rcases (call method params).perform s with ⟨_ | _ | _, _⟩ <;> rfl

/-- What listening leaves as it is: what went over the connection, the numbering, and what the other
side will do. -/
structure Heard (s s' : Session) : Prop where
  limit : s'.retryLimit = s.retryLimit
  lastId : s'.lastId = s.lastId
  traffic : s'.traffic = s.traffic
  reply : s'.peer.reply = s.peer.reply
  accepts : s'.peer.accepts = s.peer.accepts

/-- And as long as the connection is not lost, it stays too. -/
structure Carried (s s' : Session) : Prop extends Heard s s' where
  socket : s'.socket = s.socket

theorem Heard.trans {s s' s'' : Session} (h : Heard s s') (h' : Heard s' s'') : Heard s s'' :=
  ⟨h'.limit.trans h.limit, h'.lastId.trans h.lastId, h'.traffic.trans h.traffic,
    h'.reply.trans h.reply, h'.accepts.trans h.accepts⟩

theorem Carried.trans {s s' s'' : Session} (h : Carried s s') (h' : Carried s' s'') :
    Carried s s'' :=
  ⟨h.toHeard.trans h'.toHeard, h'.socket.trans h.socket⟩

theorem Heard.sent {s s' : Session} (h : Heard s s') : s'.sent = s.sent := by
  rw [Session.sent, h.traffic, Session.sent]

/-- An answer that was put by is taken without a look at the connection. -/
theorem perform_respond_put {s : Session} {id : Int} {request message : Json}
    (hm : Assoc.get? s.unmatched ⟨.int id⟩ = some message) :
    ∃ s', (respond ⟨.int id⟩ request).perform s = (.ok (some message), s') ∧ Carried s s' ∧
      s'.unmatched = Assoc.erase s.unmatched ⟨.int id⟩ ∧ s'.peer = s.peer := by
  refine ⟨{ s with unmatched := Assoc.erase s.unmatched ⟨.int id⟩ }, ?_,
    ⟨⟨rfl, rfl, rfl, rfl, rfl⟩, rfl⟩, rfl, rfl⟩
  simp [respond, Action.perform_bind, Action.perform_map, MessageId.isValid, Json.isKey, hm,
    Except.map]

/-- Otherwise the connection is listened to, as often as the limit of retries has it. -/
theorem perform_respond_listen {s : Session} {id : MessageId} {request : Json} {retries : Nat}
    (hid : id.isValid = true) (hm : Assoc.get? s.unmatched id = none)
    (hr : s.retryLimit = .int retries) :
    (respond id request).perform s = (await id request 0 (retries + 1)).perform s := by
  have hn : lossesUnder s.retryLimit s.peer.incoming.length = .ok (retries + 1) := by
    simp [hr, lossesUnder, Json.toInt, bind, Except.bind, pure, Except.pure]
  simp [respond, Action.perform_bind, hid, hm, hn]

theorem perform_respond_await {s : Session} {id : Int} {request : Json} {retries : Nat}
    (hm : Assoc.get? s.unmatched ⟨.int id⟩ = none) (hr : s.retryLimit = .int retries) :
    (respond ⟨.int id⟩ request).perform s =
      (await ⟨.int id⟩ request 0 (retries + 1)).perform s :=
  perform_respond_listen rfl hm hr

theorem perform_await_answer {s s' : Session} {id : MessageId} {request message : Json}
    {lost losses : Nat} (hl : s.socket = .live)
    (hw : receive id s.peer.incoming s = (.answer message, s')) :
    (await id request lost (losses + 1)).perform s = (.ok (some message), s') := by
  simp [await, Action.perform_bind, Action.perform_map, hl, hw, Except.map]

theorem perform_await_failed {s s' : Session} {id : MessageId} {request : Json} {fault : Fault}
    {lost losses : Nat} (hl : s.socket = .live)
    (hw : receive id s.peer.incoming s = (.failed fault, s')) :
    (await id request lost (losses + 1)).perform s = (.error fault, s') := by
  simp [await, Action.perform_bind, hl, hw]

/-- The number of a message, under which it is matched or put by. -/
def numberOf (m : Json) : MessageId :=
  ⟨(m.member? "id").getD .null⟩

/-- Log messages of the server are shown, whatever else becomes of them. -/
def noticed (m : Json) (s : Session) : Session :=
  match m.member? "method" with
  | some (.str "window/logMessage") => s.display m
  | _ => s

theorem carried_noticed (m : Json) (s : Session) : Carried s (s.noticed m) := by
  unfold noticed
  split <;> exact ⟨⟨rfl, rfl, rfl, rfl, rfl⟩, rfl⟩

@[simp] theorem unmatched_noticed (m : Json) (s : Session) :
    (s.noticed m).unmatched = s.unmatched := by
  unfold noticed
  split <;> rfl

@[simp] theorem peer_noticed (m : Json) (s : Session) : (s.noticed m).peer = s.peer := by
  unfold noticed
  split <;> rfl

theorem sort_obj (id : MessageId) (members : Json.Members) (s : Session) :
    sort id (.obj members) s =
      if (numberOf (.obj members)).value.agrees id.value then
        (some (.answer (.obj members)), s.noticed (.obj members))
      else if (numberOf (.obj members)).isValid then
        (none, { s.noticed (.obj members) with
          unmatched := Assoc.insert (s.noticed (.obj members)).unmatched
            (numberOf (.obj members)) (.obj members) })
      else (some (.failed .wrongType), s.noticed (.obj members)) := rfl

/-- A message answers the request, is put by, or ends the listening by its form. -/
theorem sort_cases (id : MessageId) (m : Json) (s : Session) :
    ∃ received s', sort id m s = (received, s') ∧ Carried s s' ∧ s'.peer = s.peer ∧
      (received = some (.answer m) ∧ (numberOf m).value.agrees id.value = true ∧
          s'.unmatched = s.unmatched ∨
        received = none ∧ (numberOf m).value.agrees id.value = false ∧
          s'.unmatched = Assoc.insert s.unmatched (numberOf m) m ∨
        (∃ fault, received = some (.failed fault)) ∧
          ∀ members, m = .obj members → (numberOf m).isValid = false) := by
  cases m with
  | obj members =>
    have hc := s.carried_noticed (.obj members)
    rw [sort_obj]
    split
    · rename_i hown
      exact ⟨_, _, rfl, hc, by simp, Or.inl ⟨rfl, hown, by simp⟩⟩
    · rename_i hown
      split
      · exact ⟨_, _, rfl, hc.trans ⟨⟨rfl, rfl, rfl, rfl, rfl⟩, rfl⟩, by simp,
          Or.inr (Or.inl ⟨rfl, by simpa using hown, by simp⟩)⟩
      · rename_i hvalid
        exact ⟨_, _, rfl, hc, by simp, Or.inr (Or.inr ⟨⟨_, rfl⟩, fun _ _ => by simpa using hvalid⟩)⟩
  | _ =>
    refine ⟨_, s, rfl, ⟨⟨rfl, rfl, rfl, rfl, rfl⟩, rfl⟩, rfl, Or.inr (Or.inr ⟨⟨_, rfl⟩, ?_⟩)⟩
    intro members hm
    cases hm

/-- An object under the number that is waited for is the answer. -/
theorem sort_answer (id : MessageId) {m : Json} {members : Json.Members} (hm : m = .obj members)
    (hvalid : (numberOf m).isValid = true) (hid : (numberOf m).value.agrees id.value = true)
    (s : Session) : ∃ s', sort id m s = (some (.answer m), s') ∧ Carried s s' ∧
      s'.unmatched = s.unmatched ∧ s'.peer = s.peer := by
  obtain ⟨received, s', h, hc, hp, ⟨rfl, -, hu⟩ | ⟨-, hother, -⟩ | ⟨-, hodd⟩⟩ := sort_cases id m s
  · exact ⟨s', h, hc, hu, hp⟩
  · rw [hid] at hother
    cases hother
  · rw [hvalid] at hodd
    cases hodd members hm

/-- An object under another number is put by. -/
theorem sort_stray (id : MessageId) {m : Json} {members : Json.Members} (hm : m = .obj members)
    (hvalid : (numberOf m).isValid = true) (hid : (numberOf m).value.agrees id.value = false)
    (s : Session) : ∃ s', sort id m s = (none, s') ∧ Carried s s' ∧
      s'.unmatched = Assoc.insert s.unmatched (numberOf m) m ∧ s'.peer = s.peer := by
  obtain ⟨received, s', h, hc, hp, ⟨-, hown, -⟩ | ⟨rfl, -, hu⟩ | ⟨-, hodd⟩⟩ := sort_cases id m s
  · rw [hid] at hown
    cases hown
  · exact ⟨s', h, hc, hu, hp⟩
  · rw [hvalid] at hodd
    cases hodd members hm

theorem numberOf_of_member? {m : Json} {id : Json} (hm : m.member? "id" = some id) :
    numberOf m = ⟨id⟩ ∧ ∃ members, m = .obj members := by
  cases m with
  | obj members => exact ⟨by rw [numberOf, hm]; rfl, members, rfl⟩
  | _ => simp [Json.member?] at hm

/-- The session after an event has been taken from what waits. -/
def taken (s : Session) (rest : List Event) : Session :=
  { s with peer := { s.peer with incoming := rest } }

theorem carried_taken (s : Session) (rest : List Event) : Carried s (s.taken rest) :=
  ⟨⟨rfl, rfl, rfl, rfl, rfl⟩, rfl⟩

theorem receive_message (id : MessageId) (m : Json) (rest : List Event) (s : Session) :
    receive id (.message m :: rest) s = match sort id m (s.taken rest) with
      | (some received, s) => (received, s)
      | (none, s) => receive id rest s := rfl

theorem receive_own {own : Json} {id : Int} (ho : own.member? "id" = some (.int id))
    (rest : List Event) (s : Session) :
    ∃ s', receive ⟨.int id⟩ (.message own :: rest) s = (.answer own, s') ∧ Carried s s' ∧
      s'.unmatched = s.unmatched ∧ s'.peer.incoming = rest := by
  obtain ⟨hn, members, hobj⟩ := numberOf_of_member? ho
  obtain ⟨s', h, hc, hu, hp⟩ := sort_answer ⟨.int id⟩ hobj (by rw [hn]; rfl)
    (by simp [hn]) (s.taken rest)
  refine ⟨s', ?_, (s.carried_taken rest).trans hc, hu, by rw [hp]; rfl⟩
  rw [receive_message, h]

theorem receive_other {m : Json} {id other : Int} (hm : m.member? "id" = some (.int other))
    (hne : other ≠ id) (rest : List Event) (s : Session) :
    ∃ s', receive ⟨.int id⟩ (.message m :: rest) s = receive ⟨.int id⟩ rest s' ∧ Carried s s' ∧
      s'.unmatched = Assoc.insert s.unmatched ⟨.int other⟩ m := by
  obtain ⟨hn, members, hobj⟩ := numberOf_of_member? hm
  obtain ⟨s', h, hc, hu, -⟩ := sort_stray ⟨.int id⟩ hobj (by rw [hn]; rfl)
    (by simp [hn, hne]) (s.taken rest)
  refine ⟨s', ?_, (s.carried_taken rest).trans hc, by rw [hu, hn]; rfl⟩
  rw [receive_message, h]

/-- Messages under another number are put by, one after the other, until the answer arrives. -/
theorem receive_answer {id stray : Int} (hne : stray ≠ id) {own : Json}
    (ho : own.member? "id" = some (.int id)) (rest : List Event) (strays : List Json)
    (hs : ∀ m ∈ strays, m.member? "id" = some (.int stray)) (s : Session) :
    ∃ s', receive ⟨.int id⟩ (strays.map .message ++ .message own :: rest) s = (.answer own, s') ∧
      Carried s s' ∧ s'.peer.incoming = rest ∧
      s'.unmatched = strays.foldl (fun put m => Assoc.insert put ⟨.int stray⟩ m) s.unmatched := by
  induction strays generalizing s with
  | nil =>
    obtain ⟨s', h, hc, hu, hp⟩ := receive_own ho rest s
    exact ⟨s', h, hc, hp, hu⟩
  | cons m strays ih =>
    obtain ⟨s₁, h₁, hc₁, hu₁⟩ := receive_other (hs m (by simp)) hne
      (strays.map .message ++ .message own :: rest) s
    obtain ⟨s', h, hc, hp, hu⟩ := ih (fun m hm => hs m (by simp [hm])) s₁
    exact ⟨s', h₁.trans h, hc₁.trans hc, hp, by rw [hu, hu₁]; rfl⟩

end CodeAtlas.Server.Session
