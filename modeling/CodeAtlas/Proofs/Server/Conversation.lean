import CodeAtlas.Proofs.Assoc
import CodeAtlas.Proofs.Server.Exchange

namespace CodeAtlas.Server
open Session

/-- A server that answers every message that carries a number by one message with that number. It
may go by all that it received before. -/
structure Responder where
  answer : List Json → Json → Json
  numbered : ∀ received message id, message.member? "id" = some id →
    (answer received message).member? "id" = some id

inductive Operation where
  | startUp
  | documentSymbols (uri : Json)
  | documentLinks (uri : Json)
  | selectionRange (uri position : Json)
  | references (uri position : Json)
  | definition (uri position : Json)
  | declaration (uri position : Json)
  | shutdown
  | didOpen (uri text : Json) (extension : String)

namespace Operation

def act : Operation → Action Session Unit
  | startUp => Session.startUp
  | documentSymbols uri => do let _ ← Session.documentSymbols uri
  | documentLinks uri => do let _ ← Session.documentLinks uri
  | selectionRange uri position => do let _ ← Session.selectionRange uri position
  | references uri position => do let _ ← Session.references uri position
  | definition uri position => do let _ ← Session.definition uri position
  | declaration uri position => do let _ ← Session.declaration uri position
  | shutdown => Session.shutdown
  | didOpen uri text extension => Session.didOpen uri text (.str extension)

/-- Only the opening of a document asks for nothing. -/
def opens : Operation → Bool
  | didOpen .. => true
  | _ => false

end Operation

def requestCount (ops : List Operation) : Nat :=
  ops.countP (fun op => !op.opens)

namespace Responder

def reply (r : Responder) (received : List Json) (message : Json) : List Event :=
  if (message.member? "id").isSome then [.message (r.answer received message)] else []

/-- The session whose next message reaches the server after all those that were sent. -/
def facing (r : Responder) (s : Session) : Session :=
  { s with peer := { s.peer with reply := r.reply s.sent } }

/-- The session after operations, of which one that fails does not keep the next from being done. -/
def converse (r : Responder) : List Operation → Session → Session
  | [], s => s
  | op :: ops, s => r.converse ops (op.act.perform (r.facing s)).2

def returned (r : Responder) (s : Session) (method : String) (params : Json) :
    Except Fault (Option Json) :=
  ((call method params).perform (r.facing s)).1

/-- What the server answers to the next request of a method. -/
def own (r : Responder) (s : Session) (method : String) (params : Json) : Json :=
  r.answer s.sent (s.nextRequest method params)

/-- The session once the next request of a method is sent. -/
def asking (r : Responder) (s : Session) (method : String) (params : Json) : Session :=
  (r.facing s).numbered.sending (s.nextRequest method params)

section
variable (r : Responder) (s : Session) (method : String) (params : Json)

@[simp] theorem socket_asking : (r.asking s method params).socket = s.socket := by
  simp only [asking, sending, record, Session.numbered, facing]

@[simp] theorem retryLimit_asking : (r.asking s method params).retryLimit = s.retryLimit := by
  simp only [asking, sending, record, Session.numbered, facing]

@[simp] theorem lastId_asking : (r.asking s method params).lastId = s.lastId + 1 := by
  simp only [asking, sending, record, Session.numbered, facing]

@[simp] theorem unmatched_asking : (r.asking s method params).unmatched = s.unmatched := by
  simp only [asking, sending, record, Session.numbered, facing]

@[simp] theorem sent_asking :
    (r.asking s method params).sent = s.sent ++ [s.nextRequest method params] := by
  rw [asking, sent_sending]
  simp only [sent, Session.numbered, facing]

end

def AnswersOpening (r : Responder) (sent : List Json) (m : Json) : Prop :=
  ∃ earlier uri text languageId, earlier ++ [opening uri text languageId] <+: sent ∧
    m = r.answer earlier (opening uri text languageId)

theorem AnswersOpening.append {r : Responder} {sent : List Json} {m : Json}
    (h : r.AnswersOpening sent m) (more : List Json) : r.AnswersOpening (sent ++ more) m := by
  obtain ⟨earlier, uri, text, languageId, hp, hm⟩ := h
  exact ⟨earlier, uri, text, languageId, hp.trans (List.prefix_append _ _), hm⟩

end Responder

/-- A new session that has connected, under a limit of retries. -/
def Session.opened (rootUri host portNumber name : Json) (retries : Nat) : Session :=
  (connect.perform { rootUri, host, portNumber, name, retryLimit := .int retries }).2

/-- What a session keeps between two operations, after a number of requests: what waits or was put
by is numbered as openings are, and until a request takes that number it answers an opening. -/
structure Between (r : Responder) (requests : Nat) (opened : Bool) (s : Session) : Prop where
  live : s.socket = .live
  limit : ∃ retries : Nat, s.retryLimit = .int retries
  counted : s.lastId = requests
  waiting : ∃ ms : List Json, s.peer.incoming = ms.map .message ∧
    ∀ m ∈ ms, m.member? "id" = some (.int openingId) ∧
      (s.lastId < openingId → r.AnswersOpening s.sent m)
  putBy : ∀ e ∈ s.unmatched, e.1 = ⟨.int openingId⟩ ∧
    (s.lastId < openingId → r.AnswersOpening s.sent e.2)
  silent : opened = false → s.peer.incoming = [] ∧ s.unmatched = []
  unclaimed : opened = true → s.lastId < openingId → s.peer.incoming ≠ [] ∨ s.unmatched ≠ []

namespace Between
variable {r : Responder} {requests : Nat} {opened : Bool} {s : Session}

theorem get?_other (h : Between r requests opened s) {id : Int} (hid : id ≠ openingId) :
    Assoc.get? s.unmatched ⟨.int id⟩ = none := by
  apply Assoc.get?_eq_none_iff.mpr
  intro e he
  rw [(h.putBy e he).1]
  change ¬((Json.int openingId).same (.int id)) = true
  simp [Ne.symm hid]

/-- Opening a document adds the answer to what waits. -/
theorem open_document (h : Between r requests opened s) (uri text : Json) (extension : String) :
    Between r requests true
      ((Session.didOpen uri text (.str extension)).perform (r.facing s)).2 := by
  obtain ⟨languageId, hlang⟩ : ∃ l, Session.languageId (.str extension) = .ok l := by
    unfold Session.languageId
    split <;> simp [Json.isKey]
  have hid : (opening uri text languageId).member? "id" = some (.int openingId) := rfl
  have hs : ((Session.didOpen uri text (.str extension)).perform (r.facing s)).2 =
      (r.facing s).sending (opening uri text languageId) := by
    have hl : (r.facing s).socket = .live := h.live
    simp only [didOpen, Action.perform_bind, Action.perform_ofExcept, hlang, perform_send hl]
  have hi : ((r.facing s).sending (opening uri text languageId)).peer.incoming =
      s.peer.incoming ++ [.message (r.answer s.sent (opening uri text languageId))] := by
    simp [sending, Responder.facing, Responder.reply, hid]
  rw [hs]
  obtain ⟨ms, hms, hmem⟩ := h.waiting
  refine ⟨h.live, h.limit, h.counted, ⟨ms ++ [r.answer s.sent (opening uri text languageId)],
    by rw [hi, hms]; simp, ?_⟩, ?_, by simp, ?_⟩
  · intro m hm
    rw [sent_sending]
    rcases List.mem_append.mp hm with hold | hnew
    · exact ⟨(hmem m hold).1, fun hlt => ((hmem m hold).2 hlt).append _⟩
    · rw [List.mem_singleton.mp hnew]
      exact ⟨r.numbered _ _ _ hid, fun _ => ⟨s.sent, uri, text, languageId, List.prefix_rfl, rfl⟩⟩
  · intro e he
    rw [sent_sending]
    exact ⟨(h.putBy e he).1, fun hlt => ((h.putBy e he).2 hlt).append _⟩
  · intro _ _
    rw [hi]
    exact Or.inl (by simp)

/-- What a request finds once it is sent: all that waited, and then its own answer. -/
theorem incoming_asking (h : Between r requests opened s) (method : String) (params : Json) :
    ∃ ms : List Json, (r.asking s method params).peer.incoming =
        ms.map .message ++ [.message (r.own s method params)] ∧
      s.peer.incoming = ms.map .message ∧
      ∀ m ∈ ms, m.member? "id" = some (.int openingId) ∧
        (s.lastId < openingId → r.AnswersOpening s.sent m) := by
  obtain ⟨ms, hms, hmem⟩ := h.waiting
  refine ⟨ms, ?_, hms, hmem⟩
  simp [Responder.asking, sending, numbered, Responder.facing, Responder.reply, nextRequest, hms,
    Responder.own]

/-- The session after a request, from what then waits and is put by. -/
theorem after_request (h : Between r requests opened s) {s' : Session} {method : String}
    {params : Json} (hc : Carried (r.asking s method params) s') {ms : List Json}
    (hin : s'.peer.incoming = ms.map .message)
    (hms : ∀ m ∈ ms, m.member? "id" = some (.int openingId) ∧
      (s.lastId + 1 < openingId → r.AnswersOpening s.sent m))
    (hput : ∀ e ∈ s'.unmatched, e.1 = ⟨.int openingId⟩ ∧
      (s.lastId + 1 < openingId → r.AnswersOpening s.sent e.2))
    (hsilent : opened = false → s'.peer.incoming = [] ∧ s'.unmatched = [])
    (hunclaimed : opened = true → s.lastId + 1 < openingId →
      s'.peer.incoming ≠ [] ∨ s'.unmatched ≠ []) :
    Between r (requests + 1) opened s' := by
  have hid : s'.lastId = s.lastId + 1 := by rw [hc.lastId, Responder.lastId_asking]
  have hsent : s'.sent = s.sent ++ [s.nextRequest method params] := by
    rw [hc.sent, Responder.sent_asking]
  refine ⟨?_, ?_, ?_, ⟨ms, hin, ?_⟩, ?_, hsilent, ?_⟩
  · rw [hc.socket, Responder.socket_asking, h.live]
  · obtain ⟨retries, hl⟩ := h.limit
    exact ⟨retries, by rw [hc.limit, Responder.retryLimit_asking, hl]⟩
  · rw [hid, h.counted]
    rfl
  · intro m hm
    rw [hsent, hid]
    exact ⟨(hms m hm).1, fun hlt => ((hms m hm).2 hlt).append _⟩
  · intro e he
    rw [hsent, hid]
    exact ⟨(hput e he).1, fun hlt => ((hput e he).2 hlt).append _⟩
  · rw [hid]
    exact hunclaimed

theorem perform_call_facing (h : Between r requests opened s) (method : String) (params : Json) :
    (call method params).perform (r.facing s) =
      (respond ⟨.int (s.lastId + 1)⟩ (s.nextRequest method params)).perform
        (r.asking s method params) := by
  have hl : (r.facing s).socket = .live := h.live
  exact perform_call hl method params

/-- A request under a number of its own, or before any document is opened, gets its own answer. -/
theorem request_own (h : Between r requests opened s)
    (hc : s.lastId + 1 ≠ openingId ∨ opened = false) (method : String) (params : Json) :
    ∃ s', (call method params).perform (r.facing s) =
        (.ok (some (r.own s method params)), s') ∧ Between r (requests + 1) opened s' := by
  obtain ⟨retries, hlimit⟩ := h.limit
  obtain ⟨ms, hin, hms, hmem⟩ := h.incoming_asking method params
  have hlive : (r.asking s method params).socket = .live := by
    rw [Responder.socket_asking, h.live]
  have hlimit' : (r.asking s method params).retryLimit = .int retries := by
    rw [Responder.retryLimit_asking, hlimit]
  have hown : (r.own s method params).member? "id" = some (.int (s.lastId + 1)) :=
    r.numbered _ _ _ rfl
  have hquiet : opened = false → ms = [] := fun ho => by simpa [hms] using (h.silent ho).1
  -- The strays carry one number that is not that of the request, if there are any.
  obtain ⟨stray, hne, hstray⟩ : ∃ stray : Int, stray ≠ s.lastId + 1 ∧
      ∀ m ∈ ms, m.member? "id" = some (.int stray) ∧ stray = openingId := by
    rcases hc with hne | ho
    · exact ⟨openingId, Ne.symm hne, fun m hm => ⟨(hmem m hm).1, rfl⟩⟩
    · exact ⟨s.lastId, by omega, by simp [hquiet ho]⟩
  have hnone : Assoc.get? (r.asking s method params).unmatched ⟨.int (s.lastId + 1)⟩ = none := by
    rw [Responder.unmatched_asking]
    rcases hc with hne | ho
    · exact h.get?_other hne
    · simp [(h.silent ho).2, Assoc.get?]
  obtain ⟨s', hrec, hkept, hp, hu⟩ := receive_answer hne hown [] ms
    (fun m hm => (hstray m hm).1) (r.asking s method params)
  refine ⟨s', ?_, h.after_request hkept (hp.trans List.map_nil.symm) (by simp) ?_ ?_ ?_⟩
  · rw [h.perform_call_facing, perform_respond_await hnone hlimit']
    exact perform_await_answer hlive (by rw [hin]; exact hrec)
  · rw [hu, Responder.unmatched_asking]
    cases ms with
    | nil => exact fun e he => ⟨(h.putBy e he).1, fun hlt => (h.putBy e he).2 (by omega)⟩
    | cons m ms =>
      rw [(hstray m (by simp)).2]
      exact Assoc.forall_mem_foldl_insert
        (fun e he => ⟨(h.putBy e he).1, fun hlt => (h.putBy e he).2 (by omega)⟩)
        (fun m hm hlt => (hmem m hm).2 (by omega))
  · intro ho
    rw [hp, hu, hquiet ho, Responder.unmatched_asking]
    exact ⟨rfl, (h.silent ho).2⟩
  · intro ho hlt
    right
    rw [hu, Responder.unmatched_asking]
    apply Assoc.foldl_insert_ne_nil
    rcases h.unclaimed ho (by omega) with hw | hw
    · exact Or.inl (by simpa [hms] using hw)
    · exact Or.inr hw

/-- The request that comes to the number of openings after a document was opened takes the answer
to an opening for its own. -/
theorem request_clash (h : Between r requests true s) (hid : s.lastId + 1 = openingId)
    (method : String) (params : Json) :
    ∃ m s', (call method params).perform (r.facing s) = (.ok (some m), s') ∧
      r.AnswersOpening s.sent m ∧ Between r (requests + 1) true s' := by
  obtain ⟨retries, hlimit⟩ := h.limit
  obtain ⟨ms, hin, hms, hmem⟩ := h.incoming_asking method params
  have hlive : (r.asking s method params).socket = .live := by
    rw [Responder.socket_asking, h.live]
  have hlimit' : (r.asking s method params).retryLimit = .int retries := by
    rw [Responder.retryLimit_asking, hlimit]
  have hlt : s.lastId < openingId := by omega
  have hpast : ¬ s.lastId + 1 < openingId := by omega
  have hown : (r.own s method params).member? "id" = some (.int openingId) := by
    rw [← hid]
    exact r.numbered _ _ _ rfl
  have hwait : ∀ m ∈ ms ++ [r.own s method params], m.member? "id" = some (.int openingId) := by
    intro m hm
    rcases List.mem_append.mp hm with hold | hnew
    · exact (hmem m hold).1
    · rw [List.mem_singleton.mp hnew, hown]
  cases hu : s.unmatched with
  | cons e put =>
    -- An answer was put by: it is taken at once, and what waits goes on waiting.
    have hput := h.putBy e (by simp [hu])
    have hkey : (e.1 == (⟨.int (s.lastId + 1)⟩ : MessageId)) = true := by
      rw [hput.1, hid]
      change (Json.int openingId).same (.int openingId) = true
      simp
    have hget : Assoc.get? (r.asking s method params).unmatched ⟨.int (s.lastId + 1)⟩ =
        some e.2 := by
      simp [Assoc.get?, hu, hkey]
    obtain ⟨s', hrun, hkept, hleft, hp⟩ := perform_respond_put hget
    have hin' : s'.peer.incoming = (ms ++ [r.own s method params]).map .message := by
      rw [hp, hin, List.map_append, List.map_singleton]
    refine ⟨e.2, s', ?_, hput.2 hlt, h.after_request hkept hin' ?_ ?_ (by simp)
      (fun _ hl => absurd hl hpast)⟩
    · rw [h.perform_call_facing, hrun]
    · exact fun m hm => ⟨hwait m hm, (absurd · hpast)⟩
    · intro e' he'
      rw [hleft] at he'
      exact ⟨(h.putBy e' (List.mem_filter.mp he').1).1, (absurd · hpast)⟩
  | nil =>
    -- Nothing was put by: the first that waits is the answer to an opening.
    have hne : ms ≠ [] := by
      rcases h.unclaimed rfl hlt with hw | hw
      · simpa [hms] using hw
      · exact absurd hu hw
    obtain ⟨m, rest, rfl⟩ := List.exists_cons_of_ne_nil hne
    have hnone : Assoc.get? (r.asking s method params).unmatched ⟨.int (s.lastId + 1)⟩ = none := by
      simp [hu, Assoc.get?]
    have hm : m.member? "id" = some (.int (s.lastId + 1)) := by
      rw [hid]
      exact hwait m (by simp)
    obtain ⟨s', hrec, hkept, hu', hp⟩ := receive_own hm
      ((rest ++ [r.own s method params]).map .message) (r.asking s method params)
    refine ⟨m, s', ?_, (hmem m (by simp)).2 hlt, h.after_request hkept hp ?_ ?_ (by simp)
      (fun _ hl => absurd hl hpast)⟩
    · rw [h.perform_call_facing, perform_respond_await hnone hlimit']
      exact perform_await_answer hlive (by rw [hin]; simpa using hrec)
    · exact fun m' hm' => ⟨hwait m' (List.mem_cons_of_mem _ hm'), (absurd · hpast)⟩
    · intro e he
      simp [hu', hu] at he

theorem request (h : Between r requests opened s) (method : String) (params : Json) :
    Between r (requests + 1) opened ((call method params).perform (r.facing s)).2 := by
  by_cases hid : s.lastId + 1 = openingId
  · cases opened with
    | true =>
      obtain ⟨m, s', hrun, -, h'⟩ := h.request_clash hid method params
      rw [hrun]
      exact h'
    | false =>
      obtain ⟨s', hrun, h'⟩ := h.request_own (Or.inr rfl) method params
      rw [hrun]
      exact h'
  · obtain ⟨s', hrun, h'⟩ := h.request_own (Or.inl hid) method params
    rw [hrun]
    exact h'

end Between

/-- Every operation that asks is one request, whatever is made of the answer. -/
theorem Operation.act_request {op : Operation} (h : op.opens = false) (s : Session) :
    ∃ method params, (op.act.perform s).2 = ((call method params).perform s).2 := by
  have hask (method : String) (params : Json) :
      ((do let _ ← ask method params : Action Session Unit).perform s).2 =
        ((call method params).perform s).2 := by
    rw [Action.perform_bind_pure_snd, perform_ask_snd]
  have hfirst (method : String) (params : Json) :
      ((do let _ ← (do Action.ofExcept (first (← ask method params)))
        : Action Session Unit).perform s).2 = ((call method params).perform s).2 := by
    rw [Action.perform_bind_pure_snd, Action.perform_bind_ofExcept_snd, perform_ask_snd]
  cases op with
  | didOpen => cases h
  | startUp =>
    rw [act, Session.startUp, Action.perform_bind, Action.perform_get]
    exact ⟨_, _, Action.perform_bind_pure_snd _ _ s⟩
  | shutdown => exact ⟨"shutdown", .null, Action.perform_bind_pure_snd _ _ s⟩
  | documentSymbols uri => exact ⟨_, _, hask _ _⟩
  | documentLinks uri => exact ⟨_, _, hask _ _⟩
  | selectionRange uri position => exact ⟨_, _, hask _ _⟩
  | references uri position => exact ⟨_, _, hask _ _⟩
  | definition uri position => exact ⟨_, _, hfirst _ _⟩
  | declaration uri position => exact ⟨_, _, hfirst _ _⟩

namespace Responder

theorem between_opened (r : Responder) (rootUri host portNumber name : Json) (retries : Nat) :
    Between r 0 false (Session.opened rootUri host portNumber name retries) :=
  { live := rfl
    limit := ⟨retries, rfl⟩
    counted := rfl
    waiting := ⟨[], rfl, by simp⟩
    putBy := fun _ he => absurd he List.not_mem_nil
    silent := fun _ => ⟨rfl, rfl⟩
    unclaimed := fun ho => absurd ho Bool.false_ne_true }

/-- Every conversation leads from one pause between operations to another. -/
theorem between_converse (r : Responder) (ops : List Operation) {requests : Nat} {opened : Bool}
    {s : Session} (h : Between r requests opened s) :
    Between r (requests + requestCount ops) (opened || ops.any Operation.opens)
      (r.converse ops s) := by
  induction ops generalizing requests opened s with
  | nil => simpa [requestCount, converse] using h
  | cons op ops ih =>
    cases ho : op.opens with
    | true =>
      cases op with
      | didOpen uri text extension =>
        have hnext := ih (h.open_document uri text extension)
        have hcount : requestCount (.didOpen uri text extension :: ops) = requestCount ops := by
          simp [requestCount, ho]
        rw [hcount, List.any_cons, ho, Bool.true_or, Bool.or_true]
        exact hnext
      | _ => cases ho
    | false =>
      obtain ⟨method, params, hact⟩ := op.act_request ho (r.facing s)
      have hnext := h.request method params
      rw [← hact] at hnext
      have hcount : requests + 1 + requestCount ops = requests + requestCount (op :: ops) := by
        simp [requestCount, ho]
        omega
      rw [← hcount, List.any_cons, ho, Bool.false_or]
      exact ih hnext

end Responder

namespace Between
variable {r : Responder} {requests : Nat} {opened : Bool} {s : Session}

theorem returned_own (h : Between r requests opened s)
    (hc : ¬ (requests + 1 = openingId ∧ opened = true)) (method : String) (params : Json) :
    r.returned s method params = .ok (some (r.own s method params)) := by
  have hid : s.lastId + 1 ≠ openingId ∨ opened = false := by
    rw [h.counted]
    by_cases hn : (requests : Int) + 1 = openingId
    · exact Or.inr (by simpa [hn] using hc)
    · exact Or.inl hn
  obtain ⟨s', hrun, -⟩ := h.request_own hid method params
  rw [Responder.returned, hrun]

theorem returned_clash (h : Between r requests true s) (hid : requests + 1 = openingId)
    (method : String) (params : Json) :
    ∃ m, r.returned s method params = .ok (some m) ∧ r.AnswersOpening s.sent m := by
  obtain ⟨m, s', hrun, hm, -⟩ := h.request_clash (by rw [h.counted, hid]) method params
  exact ⟨m, by rw [Responder.returned, hrun], hm⟩

end Between

/-- On a connection that stays open a request returns the server's answer to it, whatever was done
before, unless it is the request with the number of openings and a document was opened before. Then
it returns the answer to an opening. -/
theorem returns_own_answer_unless_opening_number (r : Responder)
    (rootUri host portNumber name : Json) (retries : Nat) (before : List Operation)
    (method : String) (params : Json) :
    let s := r.converse before (Session.opened rootUri host portNumber name retries)
    (¬ (requestCount before + 1 = openingId ∧ before.any Operation.opens = true) →
      r.returned s method params = .ok (some (r.own s method params))) ∧
    (requestCount before + 1 = openingId ∧ before.any Operation.opens = true →
      ∃ m, r.returned s method params = .ok (some m) ∧ r.AnswersOpening s.sent m) := by
  intro s
  have h : Between r (requestCount before) (before.any Operation.opens) s := by
    simpa using r.between_converse before (r.between_opened rootUri host portNumber name retries)
  refine ⟨fun hc => h.returned_own hc method params, ?_⟩
  rintro ⟨hid, ho⟩
  rw [ho] at h
  exact h.returned_clash hid method params

/-- A server that answers every message with the name of its method. -/
def echo : Responder where
  answer _ message := .obj [("id", (message.member? "id").getD .null),
    ("result", (message.member? "method").getD .null)]
  numbered _ message id h := by
    rw [h]
    rfl

def untilOpeningNumber : List Operation :=
  .didOpen (.str "file:///a.js") (.str "") ".js" ::
    List.replicate 399 (.documentLinks (.str "file:///a.js"))

theorem requestCount_untilOpeningNumber : requestCount untilOpeningNumber = 399 := by
  rw [untilOpeningNumber, requestCount, List.countP_cons, List.countP_replicate]
  rfl

/-- The first request of a session gets its own answer, the one under the number of openings that
to an opening. -/
theorem echo_returns_own_first_opening_later :
    let start := Session.opened (.str "/") (.str "localhost") (.int 5000) (.str "") 3
    let later := echo.converse untilOpeningNumber start
    echo.returned start "shutdown" .null = .ok (some (echo.own start "shutdown" .null)) ∧
      ∃ m, echo.returned later "shutdown" .null = .ok (some m) ∧
        echo.AnswersOpening later.sent m := by
  intro start later
  have hnumber : requestCount untilOpeningNumber + 1 = openingId := by
    rw [requestCount_untilOpeningNumber]
    rfl
  exact ⟨
    (returns_own_answer_unless_opening_number echo _ _ _ _ 3 [] "shutdown" .null).1 (by decide),
    (returns_own_answer_unless_opening_number echo _ _ _ _ 3 untilOpeningNumber "shutdown" .null).2
      ⟨hnumber, rfl⟩⟩

/-- After that many requests the next gets what the server said on the opened document. -/
theorem opening_answer_returned_for_request :
    let s := echo.converse untilOpeningNumber
      (Session.opened (.str "/") (.str "localhost") (.int 5000) (.str "") 3)
    echo.returned s "textDocument/documentLink" .null ≠
      .ok (some (echo.own s "textDocument/documentLink" .null)) := by
  intro s
  have h : Between echo (0 + requestCount untilOpeningNumber) true s :=
    echo.between_converse untilOpeningNumber (echo.between_opened _ _ _ _ _)
  rw [requestCount_untilOpeningNumber] at h
  obtain ⟨m, hm, earlier, uri, text, languageId, -, he⟩ :=
    h.returned_clash rfl "textDocument/documentLink" .null
  rw [hm, he]
  intro hsame
  have hresult := congrArg (fun x : Except Fault (Option Json) =>
    (x.toOption.bind id).bind (Json.member? "result")) hsame
  change some (Json.str "textDocument/didOpen") = some (.str "textDocument/documentLink") at hresult
  simp at hresult

end CodeAtlas.Server
