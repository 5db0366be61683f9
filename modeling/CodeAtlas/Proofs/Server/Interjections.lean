import CodeAtlas.Proofs.Server.Conversation
import CodeAtlas.Proofs.Server.Listening

namespace CodeAtlas.Server
open Session

def isUnder (number : Int) (m : Json) : Bool :=
  numberOf m == ⟨.int number⟩

theorem isUnder_eq_agrees (number : Int) (m : Json) :
    isUnder number m = (numberOf m).value.agrees (.int number) := by
  change (numberOf m).value.same (.int number) = _
  simp [Json.same, Json.isUndefined]

theorem isUnder_of_isUnder {a b : Int} {m : Json} (h : isUnder a m = true) :
    isUnder b m = decide (a = b) := by
  rw [isUnder, MessageId.beq_congr (b := ⟨.int a⟩) rfl h]
  exact Json.same_int a b

theorem isUnder_of_member? {m : Json} {number : Int} (h : m.member? "id" = some (.int number)) :
    isUnder number m = true := by
  rw [isUnder_eq_agrees, (numberOf_of_member? h).1]
  simp

@[simp] theorem Event.answers_message (number : Int) (m : Json) :
    (Event.message m).answers ⟨.int number⟩ = isUnder number m := by
  simp [Event.answers, Event.value?, isUnder_eq_agrees]

section PutBy
variable {ms : List Json} (hms : ∀ m ∈ ms, (numberOf m).isValid = true)
  (unmatched : Assoc MessageId Json) (number : Int)
include hms

theorem under_of_get?_putBy {m : Json}
    (h : Assoc.get? (putBy unmatched ms) ⟨.int number⟩ = some m) :
    Assoc.get? unmatched ⟨.int number⟩ = some m ∨ m ∈ ms ∧ isUnder number m = true := by
  rw [get?_putBy hms unmatched rfl] at h
  rcases Option.or_eq_some_iff.mp h with hlast | ⟨-, hput⟩
  · exact Or.inr (List.mem_filter.mp (List.mem_of_getLast? hlast))
  · exact Or.inl hput

theorem isSome_get?_putBy : (Assoc.get? (putBy unmatched ms) ⟨.int number⟩).isSome =
    (ms.any (isUnder number) || (Assoc.get? unmatched ⟨.int number⟩).isSome) := by
  rw [get?_putBy hms unmatched rfl, Option.isSome_or, Bool.eq_iff_iff]
  simp [isUnder]

end PutBy

/-- What a server says of its own accord: a message with a method, under any number or none. -/
structure Interjection where
  message : Json
  hasMethod : (message.member? "method").isSome = true
  hasKey : (numberOf message).isValid = true

/-- A server that answers every request by one message with its number, and speaks of its own accord
before the first request, and before and after each answer. It may go by all that it received
before. -/
structure Speaker where
  greeting : List Interjection
  before : List Json → Json → List Interjection
  answer : List Json → Json → Json
  after : List Json → Json → List Interjection
  numbered : ∀ received message id, message.member? "id" = some id →
    (answer received message).member? "id" = some id
  plain : ∀ received message, (answer received message).member? "method" = none

namespace Speaker
variable (v : Speaker)

def said (received : List Json) (message : Json) : List Json :=
  (v.before received message).map (·.message) ++
    v.answer received message :: (v.after received message).map (·.message)

/-- The session whose next message reaches the server after all those that were sent. -/
def facing (s : Session) : Session :=
  { s with peer := { s.peer with reply := fun message => (v.said s.sent message).map .message } }

/-- A new session that has connected, under a limit of retries, and is greeted. -/
def opened (rootUri host portNumber name : Json) (retries : Nat) : Session :=
  (Session.opened rootUri host portNumber name retries).taken
    (v.greeting.map fun i => .message i.message)

/-- The session after requests, each of a method and with parameters. -/
def converse : List (String × Json) → Session → Session
  | [], s => s
  | (method, params) :: asked, s =>
    converse asked ((call method params).perform (v.facing s)).2

/-- The session once the next request of a method is sent. -/
def asking (s : Session) (method : String) (params : Json) : Session :=
  (v.facing s).numbered.sending (s.nextRequest method params)

/-- What the server answers to the next request of a method. -/
def own (s : Session) (method : String) (params : Json) : Json :=
  v.answer s.sent (s.nextRequest method params)

/-- What the server has said of its own accord once it has received messages. -/
def Interjects (received : List Json) (i : Interjection) : Prop :=
  i ∈ v.greeting ∨ ∃ earlier message, earlier ++ [message] <+: received ∧
    (i ∈ v.before earlier message ∨ i ∈ v.after earlier message)

/-- What the server says of its own accord before it answers the next request of a method. -/
def Precedes (s : Session) (method : String) (params : Json) (i : Interjection) : Prop :=
  v.Interjects s.sent i ∨ i ∈ v.before s.sent (s.nextRequest method params)

theorem interjects_concat {received : List Json} {message : Json} {i : Interjection} :
    v.Interjects (received ++ [message]) i ↔ v.Interjects received i ∨
      i ∈ v.before received message ∨ i ∈ v.after received message := by
  constructor
  · rintro (h | ⟨earlier, m, hp, h⟩)
    · exact Or.inl (Or.inl h)
    · rcases List.prefix_concat_iff.mp hp with heq | hp
      · obtain ⟨rfl, hm⟩ := List.append_inj' heq rfl
        cases hm
        exact Or.inr h
      · exact Or.inl (Or.inr ⟨earlier, m, hp, h⟩)
  · rintro ((h | ⟨earlier, m, hp, h⟩) | h)
    · exact Or.inl h
    · exact Or.inr ⟨earlier, m, hp.trans (List.prefix_append _ _), h⟩
    · exact Or.inr ⟨received, message, List.prefix_rfl, h⟩

end Speaker

theorem Interjection.regular (i : Interjection) : (Event.message i.message).Regular := by
  cases hm : i.message with
  | obj members => exact Or.inr ⟨members, rfl, hm ▸ i.hasKey⟩
  | _ => simpa [hm, Json.member?] using i.hasMethod

/-- What a session keeps between two requests: messages under numbers that are still to come are the
server's own, and of its own messages under such numbers none is lost. -/
structure Attended (v : Speaker) (requests : Nat) (waiting : List Json) (s : Session) : Prop where
  live : s.socket = .live
  limit : ∃ retries : Nat, s.retryLimit = .int retries
  counted : s.lastId = requests
  incoming : s.peer.incoming = waiting.map .message
  regular : ∀ m ∈ waiting, (Event.message m).Regular
  waitingOwn : ∀ m ∈ waiting, ∀ number : Int, requests < number → isUnder number m = true →
    ∃ i, v.Interjects s.sent i ∧ i.message = m
  putByOwn : ∀ m, ∀ number : Int, requests < number →
    Assoc.get? s.unmatched ⟨.int number⟩ = some m →
    isUnder number m = true ∧ ∃ i, v.Interjects s.sent i ∧ i.message = m
  complete : ∀ i, v.Interjects s.sent i → ∀ number : Int, requests < number →
    isUnder number i.message = true →
    i.message ∈ waiting ∨ (Assoc.get? s.unmatched ⟨.int number⟩).isSome = true

namespace Attended
variable {v : Speaker} {requests : Nat} {waiting : List Json} {s : Session}

/-- All that is still to be received once the next request is sent. -/
def arriving (v : Speaker) (waiting : List Json) (s : Session) (method : String) (params : Json) :
    List Json :=
  waiting ++ v.said s.sent (s.nextRequest method params)

theorem incoming_asking (h : Attended v requests waiting s) (method : String) (params : Json) :
    (v.asking s method params).peer.incoming =
      (arriving v waiting s method params).map .message := by
  simp [Speaker.asking, sending, Session.numbered, Speaker.facing, h.incoming, arriving, sent]

theorem perform_call_facing (h : Attended v requests waiting s) (method : String) (params : Json) :
    (call method params).perform (v.facing s) =
      (respond ⟨.int (requests + 1)⟩ (s.nextRequest method params)).perform
        (v.asking s method params) := by
  rw [← h.counted]
  exact perform_call (s := v.facing s) h.live method params

theorem isUnder_own (h : Attended v requests waiting s) (method : String) (params : Json) :
    isUnder (requests + 1) (v.own s method params) = true := by
  rw [← h.counted]
  exact isUnder_of_member? (v.numbered _ _ _ (member?_id_request ..))

theorem regular_arriving (h : Attended v requests waiting s) (method : String) (params : Json) :
    ∀ m ∈ arriving v waiting s method params, (Event.message m).Regular := by
  intro m hm
  simp only [arriving, Speaker.said, List.mem_append, List.mem_cons, List.mem_map] at hm
  rcases hm with hm | ⟨i, -, rfl⟩ | rfl | ⟨i, -, rfl⟩
  · exact h.regular m hm
  · exact i.regular
  · obtain ⟨hn, members, hobj⟩ := numberOf_of_member?
      (v.numbered s.sent (s.nextRequest method params) _ (member?_id_request ..))
    exact Or.inr ⟨members, congrArg some hobj, by rw [← hobj, hn]; rfl⟩
  · exact i.regular

/-- The session after a request, from what then waits and is put by. -/
theorem after_request (h : Attended v requests waiting s) {method : String} {params : Json}
    {s' : Session} {waiting' : List Json} (hc : Carried (v.asking s method params) s')
    (hin : s'.peer.incoming = waiting'.map .message)
    (hsub : waiting' ⊆ arriving v waiting s method params)
    (hput : ∀ m, ∀ number : Int, requests + 1 < number →
      Assoc.get? s'.unmatched ⟨.int number⟩ = some m →
      Assoc.get? s.unmatched ⟨.int number⟩ = some m ∨
        m ∈ arriving v waiting s method params ∧ isUnder number m = true)
    (hkept : ∀ m ∈ arriving v waiting s method params, ∀ number : Int, requests + 1 < number →
      isUnder number m = true →
      m ∈ waiting' ∨ (Assoc.get? s'.unmatched ⟨.int number⟩).isSome = true)
    (hold : ∀ number : Int, requests + 1 < number →
      (Assoc.get? s.unmatched ⟨.int number⟩).isSome = true →
      (Assoc.get? s'.unmatched ⟨.int number⟩).isSome = true) :
    Attended v (requests + 1) waiting' s' := by
  have hsent : s'.sent = s.sent ++ [s.nextRequest method params] := by
    rw [hc.sent, Speaker.asking, sent_sending]
    rfl
  have hown : ∀ m ∈ arriving v waiting s method params, ∀ number : Int, requests + 1 < number →
      isUnder number m = true → ∃ i, v.Interjects s'.sent i ∧ i.message = m := by
    intro m hm number hnumber hunder
    simp only [hsent, v.interjects_concat]
    simp only [arriving, Speaker.said, List.mem_append, List.mem_cons, List.mem_map] at hm
    rcases hm with hm | ⟨i, hi, rfl⟩ | rfl | ⟨i, hi, rfl⟩
    · obtain ⟨i, hi, him⟩ := h.waitingOwn m hm number (by omega) hunder
      exact ⟨i, Or.inl hi, him⟩
    · exact ⟨i, Or.inr (Or.inl hi), rfl⟩
    · -- the answer to this request has the number of this request
      have hnot := isUnder_of_isUnder (b := number) (h.isUnder_own method params)
      rw [Speaker.own, hunder] at hnot
      have := of_decide_eq_true hnot.symm
      omega
    · exact ⟨i, Or.inr (Or.inr hi), rfl⟩
  refine ⟨hc.socket.trans h.live, ?_, ?_, hin,
    fun m hm => h.regular_arriving method params m (hsub hm),
    fun m hm number hnumber => hown m (hsub hm) number (by simpa using hnumber), ?_, ?_⟩
  · obtain ⟨retries, hr⟩ := h.limit
    exact ⟨retries, hc.limit.trans hr⟩
  · have hid : (v.asking s method params).lastId = s.lastId + 1 := rfl
    rw [hc.lastId, hid, h.counted]
    rfl
  · intro m number hnumber hm
    have hnumber : (requests : Int) + 1 < number := by simpa using hnumber
    rcases hput m number hnumber hm with hm | ⟨hm, hunder⟩
    · obtain ⟨hunder, i, hi, him⟩ := h.putByOwn m number (by omega) hm
      rw [hsent]
      exact ⟨hunder, i, v.interjects_concat.mpr (Or.inl hi), him⟩
    · exact ⟨hunder, hown m hm number hnumber hunder⟩
  · intro i hi number hnumber hunder
    have hnumber : (requests : Int) + 1 < number := by simpa using hnumber
    rw [hsent, v.interjects_concat] at hi
    have harriving : i.message ∈ arriving v waiting s method params →
        i.message ∈ waiting' ∨ (Assoc.get? s'.unmatched ⟨.int number⟩).isSome = true :=
      fun hmem => hkept _ hmem number hnumber hunder
    rcases hi with hi | hi | hi
    · rcases h.complete i hi number (by omega) hunder with hmem | hput
      · exact harriving (List.mem_append_left _ hmem)
      · exact Or.inr (hold number hnumber hput)
    · exact harriving (by simpa [arriving, Speaker.said] using Or.inr (Or.inl ⟨i, hi, rfl⟩))
    · exact harriving
        (by simpa [arriving, Speaker.said] using Or.inr (Or.inr (Or.inr ⟨i, hi, rfl⟩)))

/-- What a request returns: the server's answer to it, which arrives after all else that was waited
for, or one of the server's own messages under the number of the request. -/
def Returns (v : Speaker) (requests : Nat) (s : Session) (method : String) (params m : Json)
    (s' : Session) : Prop :=
  (m = v.own s method params ∧
    (∀ i, v.Precedes s method params i → isUnder (requests + 1) i.message = false) ∧
    ∃ skipped, (v.asking s method params).peer.incoming =
      skipped ++ .message m :: s'.peer.incoming) ∨
  ∃ i, v.Precedes s method params i ∧ isUnder (requests + 1) i.message = true ∧ m = i.message

/-- A message that was put by under the number of the request is returned. -/
theorem request_put (h : Attended v requests waiting s) (method : String) (params : Json) {m : Json}
    (hm : Assoc.get? s.unmatched ⟨.int (requests + 1)⟩ = some m) :
    ∃ s' waiting', (call method params).perform (v.facing s) = (.ok (some m), s') ∧
      Attended v (requests + 1) waiting' s' ∧ Returns v requests s method params m s' := by
  obtain ⟨s', hs', hc, hu, hp⟩ := @perform_respond_put (v.asking s method params) (requests + 1)
    (s.nextRequest method params) m hm
  have hget : ∀ number : Int, requests + 1 < number →
      Assoc.get? s'.unmatched ⟨.int number⟩ = Assoc.get? s.unmatched ⟨.int number⟩ := by
    intro number hnumber
    rw [hu]
    refine Assoc.get?_erase_of_congr _ fun k hk => ?_
    rw [MessageId.beq_congr rfl hk]
    exact (Json.same_int ..).trans (decide_eq_false (by omega))
  refine ⟨s', arriving v waiting s method params,
    (h.perform_call_facing method params).trans hs', ?_, Or.inr ?_⟩
  · refine h.after_request hc (by rw [hp, h.incoming_asking]) (fun _ hm => hm) ?_
      (fun m hm _ _ _ => Or.inl hm) ?_
    · intro m number hnumber hm
      exact Or.inl (hget number hnumber ▸ hm)
    · intro number hnumber hm
      rwa [hget number hnumber]
  · obtain ⟨hunder, i, hi, rfl⟩ := h.putByOwn m (requests + 1) (by omega) hm
    exact ⟨i, Or.inl hi, hunder, rfl⟩

/-- The first message under the number of the request, among all that is to be received. -/
theorem exists_first_under (h : Attended v requests waiting s) (method : String) (params : Json) :
    ∃ strays m rest, arriving v waiting s method params = strays ++ m :: rest ∧
      (∀ m ∈ strays, isUnder (requests + 1) m = false) ∧ isUnder (requests + 1) m = true ∧
      (m = v.own s method params ∧ (∀ m ∈ waiting, isUnder (requests + 1) m = false) ∧
          (∀ i ∈ v.before s.sent (s.nextRequest method params),
            isUnder (requests + 1) i.message = false) ∨
        m ∈ waiting ∨ ∃ i ∈ v.before s.sent (s.nextRequest method params), i.message = m) := by
  let earlier := waiting ++ (v.before s.sent (s.nextRequest method params)).map (·.message)
  let later := (v.after s.sent (s.nextRequest method params)).map (·.message)
  have harriving : arriving v waiting s method params =
      earlier ++ v.own s method params :: later := by
    simp [arriving, Speaker.said, Speaker.own, earlier, later]
  cases hfind : earlier.find? (isUnder (requests + 1)) with
  | none =>
    have hnone : ∀ m ∈ earlier, isUnder (requests + 1) m = false := by
      simpa using List.find?_eq_none.mp hfind
    refine ⟨earlier, _, later, harriving, hnone, h.isUnder_own method params,
      Or.inl ⟨rfl, fun m hm => hnone m (by simp [earlier, hm]), fun i hi => ?_⟩⟩
    exact hnone _ (List.mem_append_right _ (List.mem_map_of_mem hi))
  | some m =>
    obtain ⟨hunder, strays, rest, hsplit, hstrays⟩ := List.find?_eq_some_iff_append.mp hfind
    refine ⟨strays, m, rest ++ v.own s method params :: later, ?_, by simpa using hstrays, hunder,
      Or.inr ?_⟩
    · rw [harriving, hsplit, List.append_assoc, List.cons_append]
    · simpa [earlier] using List.mem_of_find?_eq_some hfind

/-- What the server said of its own under the number of the request would wait or be put by. -/
theorem unspoken (h : Attended v requests waiting s)
    (hnone : Assoc.get? s.unmatched ⟨.int (requests + 1)⟩ = none)
    (hwaiting : ∀ m ∈ waiting, isUnder (requests + 1) m = false) {i : Interjection}
    (hi : v.Interjects s.sent i) : isUnder (requests + 1) i.message = false := by
  by_contra hother
  rcases h.complete i hi (requests + 1) (by omega) (by simpa using hother) with hmem | hput
  · exact hother (hwaiting _ hmem)
  · simp [hnone] at hput

/-- Otherwise the first message under the number of the request that arrives is returned. -/
theorem request_listen (h : Attended v requests waiting s) (method : String) (params : Json)
    (hnone : Assoc.get? s.unmatched ⟨.int (requests + 1)⟩ = none) :
    ∃ m s' waiting', (call method params).perform (v.facing s) = (.ok (some m), s') ∧
      Attended v (requests + 1) waiting' s' ∧ Returns v requests s method params m s' := by
  obtain ⟨retries, hr⟩ := h.limit
  obtain ⟨strays, m, rest, hsplit, hstrays, hunder, hwhich⟩ := h.exists_first_under method params
  have hregular := h.regular_arriving method params
  have hin : (v.asking s method params).peer.incoming =
      strays.map .message ++ .message m :: rest.map .message := by
    rw [h.incoming_asking, hsplit]
    simp
  obtain ⟨s', hreceive, hc, hu, hi⟩ := @receive_first ⟨.int (requests + 1)⟩ _ _ _ m _
    (by simpa [h.incoming_asking] using hregular) hin (by simp [Event.isClosure])
    (by simpa using hstrays) rfl (by simpa using hunder)
  have hstray : (strays.map Event.message).filterMap Event.value? = strays := by
    simp [List.filterMap_map, Function.comp_def, Event.value?]
  have hvalid : ∀ m ∈ strays, (numberOf m).isValid = true := fun m hm =>
    (hregular m (by simp [hsplit, hm])).valid rfl
  replace hu : s'.unmatched = putBy s.unmatched strays := by
    rw [hu, hstray]
    rfl
  refine ⟨m, s', rest, ?_, ?_, ?_⟩
  · rw [h.perform_call_facing, perform_respond_await (s := v.asking s method params) hnone hr]
    exact perform_await_answer h.live hreceive
  · refine h.after_request hc hi (by simp [hsplit]) ?_ ?_ ?_
    · intro m' number _ hm'
      exact (under_of_get?_putBy hvalid s.unmatched number (hu ▸ hm')).imp_right fun hstray =>
        ⟨by simp [hsplit, hstray.1], hstray.2⟩
    · intro m' hm' number hnumber hunder'
      rw [hsplit] at hm'
      rcases List.mem_append.mp hm' with hm' | hm'
      · refine Or.inr ?_
        rw [hu, isSome_get?_putBy hvalid, List.any_eq_true.mpr ⟨m', hm', hunder'⟩, Bool.true_or]
      · rcases List.mem_cons.mp hm' with rfl | hm'
        · -- the message that is returned has the number of this request
          rw [isUnder_of_isUnder hunder] at hunder'
          have := of_decide_eq_true hunder'
          omega
        · exact Or.inl hm'
    · intro number _ hput
      rw [hu, isSome_get?_putBy hvalid, hput, Bool.or_true]
  · rcases hwhich with ⟨rfl, hwaiting, hbefore⟩ | hwaiting | ⟨i, hi, rfl⟩
    · refine Or.inl ⟨rfl, ?_, strays.map .message, by rw [hin, hi]⟩
      rintro i (hi | hi)
      · exact h.unspoken hnone hwaiting hi
      · exact hbefore i hi
    · obtain ⟨i, hi, rfl⟩ := h.waitingOwn m hwaiting (requests + 1) (by omega) hunder
      exact Or.inr ⟨i, Or.inl hi, hunder, rfl⟩
    · exact Or.inr ⟨i, Or.inr hi, hunder, rfl⟩

theorem request (h : Attended v requests waiting s) (method : String) (params : Json) :
    ∃ m s' waiting', (call method params).perform (v.facing s) = (.ok (some m), s') ∧
      Attended v (requests + 1) waiting' s' ∧ Returns v requests s method params m s' := by
  cases hput : Assoc.get? s.unmatched ⟨.int (requests + 1)⟩ with
  | none => exact h.request_listen method params hput
  | some m => exact ⟨m, h.request_put method params hput⟩

theorem converse (asked : List (String × Json)) (h : Attended v requests waiting s) :
    ∃ waiting', Attended v (requests + asked.length) waiting' (v.converse asked s) := by
  induction asked generalizing requests waiting s with
  | nil => exact ⟨waiting, h⟩
  | cons request asked ih =>
    obtain ⟨m, s', waiting', hrun, h', -⟩ := h.request request.1 request.2
    obtain ⟨waiting'', h''⟩ := ih h'
    refine ⟨waiting'', ?_⟩
    rw [Speaker.converse, hrun, List.length_cons, Nat.add_comm asked.length, ← Nat.add_assoc]
    exact h''

theorem opened (v : Speaker) (rootUri host portNumber name : Json) (retries : Nat) :
    Attended v 0 (v.greeting.map (·.message))
      (v.opened rootUri host portNumber name retries) where
  live := rfl
  limit := ⟨retries, rfl⟩
  counted := rfl
  incoming := by simp [Speaker.opened, taken]
  regular := by
    intro m hm
    obtain ⟨i, -, rfl⟩ := List.mem_map.mp hm
    exact i.regular
  waitingOwn := by
    intro m hm _ _ _
    obtain ⟨i, hi, rfl⟩ := List.mem_map.mp hm
    exact ⟨i, Or.inl hi, rfl⟩
  putByOwn := by
    intro m number _ hm
    cases hm
  complete := by
    rintro i (hi | ⟨earlier, m, hp, -⟩) _ _ _
    · exact Or.inl (List.mem_map_of_mem hi)
    · exact absurd (List.prefix_nil.mp hp) (by simp)

end Attended

/-- Each request returns a message. It is the answer to the request, with no method and received
after the request was sent, exactly if the server has said nothing of its own under the number of
the request before it answers; otherwise it is such a message of the server's own. -/
theorem returns_answer_iff_number_unspoken (v : Speaker) (rootUri host portNumber name : Json)
    (retries : Nat) (asked : List (String × Json)) (method : String) (params : Json) :
    let s := v.converse asked (v.opened rootUri host portNumber name retries)
    ∃ m s', (call method params).perform (v.facing s) = (.ok (some m), s') ∧
      (m.member? "method" = none ∧ (∃ skipped, (v.asking s method params).peer.incoming =
          skipped ++ .message m :: s'.peer.incoming) ↔
        ∀ i, v.Precedes s method params i → isUnder (asked.length + 1) i.message = false) ∧
      (m = v.own s method params ∨ ∃ i, v.Precedes s method params i ∧
        isUnder (asked.length + 1) i.message = true ∧ m = i.message) := by
  intro s
  obtain ⟨waiting, h⟩ :=
    (Attended.opened v rootUri host portNumber name retries).converse asked
  rw [Nat.zero_add] at h
  obtain ⟨m, s', -, hrun, -, hreturns⟩ := h.request method params
  refine ⟨m, s', hrun, ?_⟩
  rcases hreturns with ⟨rfl, hunspoken, harrived⟩ | ⟨i, hi, hunder, rfl⟩
  · exact ⟨iff_of_true ⟨v.plain _ _, harrived⟩ hunspoken, Or.inl rfl⟩
  · refine ⟨iff_of_false (fun hplain => ?_) (fun hunspoken => ?_), Or.inr ⟨i, hi, hunder, rfl⟩⟩
    · have hmethod := i.hasMethod
      rw [hplain.1] at hmethod
      cases hmethod
    · rw [hunspoken i hi] at hunder
      cases hunder

/-- What a server asks the client under its own first number. -/
def configurationRequest : Interjection where
  message := request 1 "workspace/configuration" .null
  hasMethod := rfl
  hasKey := rfl

/-- A server that asks for a configuration before each answer. -/
def configured : Speaker where
  greeting := []
  before _ _ := [configurationRequest]
  answer _ message := .obj [("id", (message.member? "id").getD .null), ("result", .arr [])]
  after _ _ := []
  numbered _ message id h := by
    rw [h]
    rfl
  plain _ _ := rfl

theorem precedes_configured {s : Session} {method : String} {params : Json} {i : Interjection}
    (h : configured.Precedes s method params i) : i = configurationRequest := by
  rcases h with (h | ⟨_, _, _, h | h⟩) | h
  · cases h
  · exact List.mem_singleton.mp h
  · cases h
  · exact List.mem_singleton.mp h

/-- The second request of a client gets its answer. -/
theorem configured_answers_second :
    let s := configured.converse [("initialize", .null)]
      (configured.opened (.str "/") (.str "localhost") (.int 5000) (.str "") 3)
    ∃ s', (call "textDocument/references" .null).perform (configured.facing s) =
      (.ok (some (configured.own s "textDocument/references" .null)), s') := by
  intro s
  obtain ⟨m, s', hrun, -, rfl | ⟨i, hi, hunder, -⟩⟩ := returns_answer_iff_number_unspoken configured
    (.str "/") (.str "localhost") (.int 5000) (.str "") 3 [("initialize", .null)]
    "textDocument/references" .null
  · exact ⟨s', hrun⟩
  · rw [precedes_configured hi] at hunder
    exact absurd hunder (by decide)

/-- The first gets what the server asks for. -/
theorem configuration_request_taken_for_answer :
    let s := configured.opened (.str "/") (.str "localhost") (.int 5000) (.str "") 3
    ∃ m s', (call "textDocument/references" .null).perform (configured.facing s) =
        (.ok (some m), s') ∧ m.member? "method" = some (.str "workspace/configuration") := by
  intro s
  obtain ⟨m, s', -, hrun, -, ⟨-, hunspoken, -⟩ | ⟨i, hi, -, rfl⟩⟩ :=
    (Attended.opened configured (.str "/") (.str "localhost") (.int 5000) (.str "") 3).request
      "textDocument/references" .null
  · exact absurd (hunspoken configurationRequest (Or.inr List.mem_cons_self)) (by decide)
  · rw [precedes_configured hi] at hrun
    exact ⟨_, s', hrun, rfl⟩

end CodeAtlas.Server
