import CodeAtlas.Proofs.Server.Dialling

namespace CodeAtlas.Server
open Session

namespace Session

def closures (events : List Event) : Nat :=
  events.countP Event.isClosure

theorem closures_eq_zero {events : List Event} :
    closures events = 0 ↔ ∀ e ∈ events, e.isClosure = false := by
  simp [closures]

theorem closures_closed (strays rest : List Event) (h : ∀ e ∈ strays, e.isClosure = false) :
    closures (strays ++ .closed :: rest) = closures rest + 1 := by
  rw [closures, List.countP_append, List.countP_cons, ← closures, ← closures,
    closures_eq_zero.mpr h]
  simp [Event.isClosure]

/-- Until a closure or an answer, if there is one, all messages are strays. -/
theorem exists_first_end (id : MessageId) (events : List Event) :
    ∃ strays rest, events = strays ++ rest ∧ (∀ e ∈ strays, e.isClosure = false) ∧
      (∀ e ∈ strays, e.answers id = false) ∧
      (rest = [] ∨ (∃ after, rest = .closed :: after) ∨
        ∃ e after, rest = e :: after ∧ e.answers id = true) := by
  induction events with
  | nil => exact ⟨[], [], rfl, by simp, by simp, Or.inl rfl⟩
  | cons e events ih =>
    cases hc : e.isClosure with
    | true =>
      cases e with
      | closed => exact ⟨[], _, rfl, by simp, by simp, Or.inr (Or.inl ⟨events, rfl⟩)⟩
      | _ => cases hc
    | false =>
      cases ha : e.answers id with
      | true => exact ⟨[], _, rfl, by simp, by simp, Or.inr (Or.inr ⟨e, events, rfl, ha⟩)⟩
      | false =>
        obtain ⟨strays, rest, rfl, hopen, hother, hend⟩ := ih
        exact ⟨e :: strays, rest, rfl, by simpa [hc] using hopen, by simpa [ha] using hother, hend⟩

/-- A session on an open connection on which all that arrives is known beforehand. -/
structure Scripted (s : Session) : Prop where
  live : s.socket = .live
  silent : ∀ m, s.peer.reply m = []
  regular : ∀ e ∈ s.peer.incoming, e.Regular

section
variable {id : MessageId} {request : Json} {s : Session}

theorem receive_closure {strays after : List Event} (hs : s.Scripted)
    (hin : s.peer.incoming = strays ++ .closed :: after)
    (hopen : ∀ e ∈ strays, e.isClosure = false) (hother : ∀ e ∈ strays, e.answers id = false) :
    ∃ s', receive id s.peer.incoming s = (.closed, s') ∧ Heard s s' ∧ s'.socket = .closed ∧
      s'.unmatched = putBy s.unmatched (strays.filterMap Event.value?) ∧
      s'.peer.incoming = after := by
  have hreg := hs.regular
  rw [hin] at hreg ⊢
  obtain ⟨s₁, h₁, hc₁, hu₁⟩ := receive_strays (fun e he => hreg e (by simp [he])) hopen hother
    (.closed :: after) s
  exact ⟨_, h₁, hc₁.toHeard.trans ⟨rfl, rfl, rfl, rfl, rfl⟩, rfl, hu₁, rfl⟩

theorem receive_nothing (hs : s.Scripted) (hopen : ∀ e ∈ s.peer.incoming, e.isClosure = false)
    (hother : ∀ e ∈ s.peer.incoming, e.answers id = false) :
    ∃ fault s', receive id s.peer.incoming s = (.failed fault, s') := by
  obtain ⟨s₁, h₁, -⟩ := receive_strays hs.regular hopen hother [] s
  rw [List.append_nil] at h₁
  exact ⟨_, _, h₁⟩

/-- On the new connection the script goes on where it was. -/
structure Resumed (request : Json) (s s' : Session) : Prop where
  live : s'.socket = .live
  limit : s'.retryLimit = s.retryLimit
  unmatched : s'.unmatched = s.unmatched
  reply : s'.peer.reply = s.peer.reply
  incoming : s'.peer.incoming = s.peer.incoming
  sent : s'.sent = s.sent ++ [request]

theorem Resent.resumed {s₁ s' : Session} (h : Resent request s₁ s') (hs : s.Scripted)
    (hh : Heard s s₁) : Resumed request s₁ s' := by
  obtain ⟨s₂, ⟨hr, hlive, refusals, address, href, ht⟩, rfl⟩ := h
  have hsent : s₂.sent = s₁.sent := by
    rw [sent_eq, ht, List.filterMap_append, List.filterMap_append,
      Traffic.filterMap_refusals href, sent_eq]
    simp [Traffic.message?]
  refine ⟨hlive, hr.limit, hr.unmatched, hr.reply, ?_, ?_⟩
  · simp [sending, hr.incoming, hr.reply, hh.reply, hs.silent]
  · rw [sent_sending, hsent]

/-- What waiting comes to with an answer: the first message under the number of the request, while
all before it was put by, and after each closure the request was sent again. -/
structure Answered (id : MessageId) (request : Json) (s : Session) (m : Json)
    (before after : List Event) (s' : Session) : Prop where
  arrived : ∃ e, s.peer.incoming = before ++ e :: after ∧ e.value? = some m ∧ e.answers id = true
  strays : ∀ e ∈ before, e.answers id = false
  sent : s'.sent = s.sent ++ List.replicate (closures before) request
  unmatched : s'.unmatched = putBy s.unmatched (before.filterMap Event.value?)

theorem takeWhile_eq_of_answers {incoming before after : List Event} {e : Event}
    (hin : incoming = before ++ e :: after) (hother : ∀ e ∈ before, e.answers id = false)
    (hid : e.answers id = true) : (incoming.takeWhile fun e => !e.answers id) = before := by
  rw [hin, List.takeWhile_append_of_pos (by simpa using hother),
    List.takeWhile_cons_of_neg (by simp [hid]), List.append_nil]

theorem Answered.find?_eq {s' : Session} {m : Json} {before after : List Event}
    (h : Answered id request s m before after s') :
    ∃ e, s.peer.incoming.find? (Event.answers id) = some e ∧ e.value? = some m := by
  obtain ⟨e, hin, hm, hid⟩ := h.arrived
  refine ⟨e, List.find?_eq_some_iff_append.mpr ⟨hid, before, after, hin, ?_⟩, hm⟩
  simpa using h.strays

/-- An answer on a later connection, after what was heard on the one that was lost. -/
theorem Answered.resumed {s₁ s₂ s' : Session} {strays rest before after : List Event} {m : Json}
    (h : Answered id request s₂ m before after s') (hh : Heard s s₁)
    (hu : s₁.unmatched = putBy s.unmatched (strays.filterMap Event.value?))
    (hi : s₁.peer.incoming = rest) (hr : Resumed request s₁ s₂)
    (hin : s.peer.incoming = strays ++ .closed :: rest)
    (hopen : ∀ e ∈ strays, e.isClosure = false) (hother : ∀ e ∈ strays, e.answers id = false) :
    Answered id request s m (strays ++ .closed :: before) after s' where
  arrived := by
    obtain ⟨e, hrest, hm, hid⟩ := h.arrived
    rw [hr.incoming, hi] at hrest
    exact ⟨e, by rw [hin, hrest]; simp, hm, hid⟩
  strays := by
    intro e he
    rcases List.mem_append.mp he with he | he
    · exact hother e he
    · rcases List.mem_cons.mp he with rfl | he
      · rfl
      · exact h.strays e he
  sent := by
    rw [h.sent, hr.sent, hh.sent, closures_closed strays before hopen, List.replicate_succ]
    simp
  unmatched := by
    rw [h.unmatched, hr.unmatched, hu, List.filterMap_append, List.filterMap_cons_none rfl, putBy,
      putBy, putBy, List.foldl_append]

/-- The script goes on after a closure. -/
theorem Resumed.scripted {s₁ s₂ : Session} {strays : List Event} (h : Resumed request s₁ s₂)
    (hs : s.Scripted) (hh : Heard s s₁)
    (hin : s.peer.incoming = strays ++ .closed :: s₁.peer.incoming) : s₂.Scripted where
  live := h.live
  silent m := by rw [h.reply, hh.reply, hs.silent]
  regular e he := by
    rw [h.incoming] at he
    exact hs.regular e (by simp [hin, he])

/-- A round that a closure ends, if it is known what comes of sending the request again. -/
theorem ends_await_closure {lost losses : Nat} {strays rest : List Event}
    {done : Option Json → Session → Prop} {failed : Session → Prop} (hs : s.Scripted)
    (hin : s.peer.incoming = strays ++ .closed :: rest)
    (hopen : ∀ e ∈ strays, e.isClosure = false) (hother : ∀ e ∈ strays, e.answers id = false)
    (hagain : ∀ s₁ : Session, s₁.socket = .closed → Heard s s₁ →
      s₁.unmatched = putBy s.unmatched (strays.filterMap Event.value?) →
      s₁.peer.incoming = rest →
      (do connect; send request : Action Session Unit).Ends s₁
        (fun _ s₂ => if losses = 0 then failed s₂ else
          (await id request (lost + 1) losses).Ends s₂ done failed) failed) :
    (await id request lost (losses + 1)).Ends s done failed := by
  obtain ⟨s₁, hr, hh, hclosed, hu, hi⟩ := receive_closure hs hin hopen hother
  rw [ends_await (by simp [hs.live]), hr]
  exact hagain (s₁.note _) hclosed (hh.trans ⟨rfl, rfl, rfl, rfl, rfl⟩) hu hi

/-- One round on a script, if it is known what a further one comes to. -/
theorem ends_round (hs : s.Scripted) {lost losses : Nat}
    (hnext : ∀ s₂ : Session, s₂.Scripted → losses ≠ 0 →
      (await id request (lost + 1) losses).Ends s₂
        (fun result s' => ∃ m before after, result = some m ∧ closures before < losses ∧
          Answered id request s₂ m before after s') fun _ => True) :
    (await id request lost (losses + 1)).Ends s
      (fun result s' => ∃ m before after, result = some m ∧ closures before ≤ losses ∧
        Answered id request s m before after s') fun _ => True := by
  obtain ⟨strays, rest, hin, hopen, hother, hend⟩ := exists_first_end id s.peer.incoming
  rcases hend with rfl | ⟨after, rfl⟩ | ⟨e, after, rfl, hid⟩
  · rw [List.append_nil] at hin
    rw [← hin] at hopen hother
    obtain ⟨fault, s₁, hr⟩ := receive_nothing hs hopen hother
    rw [ends_await (by simp [hs.live]), hr]
    trivial
  · refine ends_await_closure hs hin hopen hother ?_
    rintro s₁ hclosed hh hu rfl
    refine (ends_resend request hclosed).mono (fun _ s₂ h₂ => ?_) fun _ _ => trivial
    have hresumed := h₂.resumed hs hh
    split
    · trivial
    · rename_i hlosses
      refine (hnext s₂ (hresumed.scripted hs hh hin) hlosses).mono ?_ fun _ h => h
      rintro result s' ⟨m, before, after, rfl, hlt, h⟩
      refine ⟨m, strays ++ .closed :: before, after, rfl, ?_,
        h.resumed hh hu rfl hresumed hin hopen hother⟩
      rw [closures_closed strays before hopen]
      exact hlt
  · obtain ⟨m, hm, -⟩ := Event.exists_of_answers hid
    obtain ⟨s', hr, hc, hu, -⟩ := receive_first hs.regular hin hopen hother hm hid
    rw [ends_await (by simp [hs.live]), hr]
    refine ⟨m, strays, after, rfl, ?_, ⟨e, hin, hm, hid⟩, hother, ?_, hu⟩
    · simp [closures_eq_zero.mpr hopen]
    · simp [closures_eq_zero.mpr hopen, hc.sent]

/-- Waiting that ends without a fault ends with the first message under the number, and the
connection was not lost too often before. -/
theorem ends_await_answered (hs : s.Scripted) (lost losses : Nat) :
    (await id request lost (losses + 1)).Ends s
      (fun result s' => ∃ m before after, result = some m ∧ closures before ≤ losses ∧
        Answered id request s m before after s') fun _ => True := by
  induction losses generalizing s lost with
  | zero => exact ends_round hs fun _ _ h => absurd rfl h
  | succ losses ih =>
    refine ends_round hs fun s₂ hs₂ _ => (ih hs₂ (lost + 1)).mono ?_ fun _ h => h
    rintro result s' ⟨m, before, after, hm, hle, h⟩
    exact ⟨m, before, after, hm, Nat.lt_succ_of_le hle, h⟩

end

/-- Waiting does come to the first message under the number, if the connection is not lost too often
before it and can be opened again each time. -/
theorem ends_await_returns {id : MessageId} {request : Json} {limit : Nat}
    (hl : limit < Nat.pow 10 Json.mostSpelledDigits) (lost losses : Nat) {s : Session}
    (hs : s.Scripted) (hlimit : s.retryLimit = .int limit) {before : List Event} {e : Event}
    {after : List Event} {m : Json} (hin : s.peer.incoming = before ++ e :: after)
    (hother : ∀ e ∈ before, e.answers id = false) (hm : e.value? = some m)
    (hid : e.answers id = true) (hle : closures before ≤ losses)
    (hreopens : Reopens limit (closures before) s.peer.accepts) :
    (await id request lost (losses + 1)).Ends s (fun result _ => result = some m)
      fun _ => False := by
  -- by the number of closures before the message, each of which takes one round
  induction hn : closures before generalizing s lost losses before with
  | zero =>
    obtain ⟨s', hr, -⟩ := receive_first hs.regular hin (closures_eq_zero.mp hn) hother hm hid
    rw [ends_await (by simp [hs.live]), hr]
  | succ n ih =>
    obtain ⟨strays, rest, rfl, hopen, hstrays, hend⟩ := exists_first_end id before
    rcases hend with rfl | ⟨later, rfl⟩ | ⟨e', later, rfl, hid'⟩
    · rw [List.append_nil, closures_eq_zero.mpr hopen] at hn
      cases hn
    · rw [closures_closed strays later hopen] at hn hle hreopens
      obtain ⟨left, hleft, hreopens⟩ := hreopens
      rw [List.append_assoc, List.cons_append] at hin
      obtain ⟨losses, rfl⟩ := Nat.exists_eq_add_one.mpr (Nat.lt_of_lt_of_le (Nat.succ_pos _) hle)
      refine ends_await_closure hs hin hopen hstrays ?_
      rintro s₁ hclosed hh - hi
      rw [← hh.accepts] at hleft
      refine ((ends_resend request hclosed).and (ends_resend_accepted hl (hh.limit.trans hlimit)
        hleft request)).mono ?_ fun _ h => h.2
      rintro - s₂ ⟨hresent, haccepts⟩
      have hresumed := hresent.resumed hs hh
      have hs₂ := hresumed.scripted hs hh (by rw [hin, hi])
      have hin₂ : s₂.peer.incoming = later ++ e :: after := hresumed.incoming.trans hi
      rw [if_neg (Nat.succ_ne_zero losses)]
      refine ih (lost + 1) losses hs₂ ?_ hin₂ ?_ (Nat.le_of_succ_le_succ hle) ?_ (Nat.succ.inj hn)
      · rw [hresumed.limit, hh.limit, hlimit]
      · exact fun e he => hother e (by simp [he])
      · rw [haccepts]
        exact hreopens
    · have := hother e' (by simp)
      rw [hid'] at this
      cases this

end Session

/-- The first message of the script under the number of a request is what the request returns, if it
returns: the connection was lost at most as often as the limit has it, the request was sent again
after each loss, and of the messages that were passed over the last under each number is put by.
After more losses there is a fault, and never a result without a message. A connection that can be
opened again does not keep the message from being returned. -/
theorem respond_returns_first_of_number {s : Session} {id : MessageId} {request : Json}
    {limit : Nat} (hs : s.Scripted) (hlimit : s.retryLimit = .int limit) (hid : id.isValid = true)
    (hnew : Assoc.get? s.unmatched id = none) :
    let first := (s.peer.incoming.find? (Event.answers id)).bind Event.value?
    let before := s.peer.incoming.takeWhile fun e => !e.answers id
    let outcome := ((respond id request).perform s).1
    let after := ((respond id request).perform s).2
    (∀ m, outcome = .ok (some m) →
      first = some m ∧ (numberOf m).value.agrees id.value = true ∧ closures before ≤ limit ∧
      after.sent = s.sent ++ List.replicate (closures before) request ∧
      ∀ key : MessageId, key.isValid = true → Assoc.get? after.unmatched key =
        (((before.filterMap Event.value?).filter fun m => numberOf m == key).getLast?).or
          (Assoc.get? s.unmatched key)) ∧
    outcome ≠ .ok none ∧
    (limit < closures before → ∃ fault, outcome = .error fault) ∧
    (limit < Nat.pow 10 Json.mostSpelledDigits → closures before ≤ limit →
      Reopens limit (closures before) s.peer.accepts →
      ∀ m, first = some m → outcome = .ok (some m)) := by
  intro first before outcome after
  have hrun : (respond id request).perform s = (await id request 0 (limit + 1)).perform s :=
    perform_respond_listen hid hnew hlimit
  -- every result comes with the message and all that was done before it
  have hresult : ∀ result, outcome = .ok result → ∃ m rest, result = some m ∧
      closures before ≤ limit ∧ Answered id request s m before rest after := by
    intro result hresult
    have hperform : (await id request 0 (limit + 1)).perform s = (.ok result, after) :=
      hrun.symm.trans (Prod.ext hresult rfl)
    obtain ⟨m, heard, rest, hm, hle, h⟩ := (ends_await_answered hs 0 limit).of_ok hperform
    obtain ⟨e, hin, -, hanswers⟩ := h.arrived
    obtain rfl : before = heard := takeWhile_eq_of_answers hin h.strays hanswers
    exact ⟨m, rest, hm, hle, h⟩
  refine ⟨fun m hm => ?_, fun hnone => ?_, fun hlt => ?_, fun hl hle hreopens m hfirst => ?_⟩
  · obtain ⟨m', rest, hm', hle, h⟩ := hresult _ hm
    cases hm'
    obtain ⟨e, hfind, hvalue⟩ := h.find?_eq
    have hvalid : ∀ m ∈ before.filterMap Event.value?, (numberOf m).isValid = true := by
      intro m hm
      obtain ⟨e, he, hm⟩ := List.mem_filterMap.mp hm
      exact (hs.regular e ((List.takeWhile_prefix _).subset he)).valid hm
    refine ⟨by simp [first, hfind, hvalue], ?_, hle, h.sent, fun key hkey => ?_⟩
    · obtain ⟨m', hm', hown⟩ := Event.exists_of_answers (List.find?_some hfind)
      cases hvalue.symm.trans hm'
      exact hown
    · rw [h.unmatched, get?_putBy hvalid s.unmatched hkey]
  · obtain ⟨m, -, hm, -⟩ := hresult _ hnone
    cases hm
  · cases hout : outcome with
    | error fault => exact ⟨fault, rfl⟩
    | ok result =>
      obtain ⟨-, -, -, hle, -⟩ := hresult _ hout
      exact absurd hlt (Nat.not_lt.mpr hle)
  · obtain ⟨e, hfind, hvalue⟩ := Option.bind_eq_some_iff.mp hfirst
    obtain ⟨hanswers, heard, rest, hin, hother⟩ := List.find?_eq_some_iff_append.mp hfind
    have hother : ∀ e ∈ heard, e.answers id = false := by simpa using hother
    rw [show before = heard from takeWhile_eq_of_answers hin hother hanswers] at hle hreopens
    have hreturns : (await id request 0 (limit + 1)).Ends s (fun result _ => result = some m)
        fun _ => False :=
      ends_await_returns hl 0 limit hs hlimit hin hother hvalue hanswers hle hreopens
    obtain ⟨result, s', hperform, rfl⟩ := hreturns.exists_ok
    exact congrArg Prod.fst (hrun.trans hperform)

def wordUnder (id : Json) (word : String) : Json :=
  .obj [("id", id), ("result", .str word)]

/-- A connection that is lost once, and that the other side refuses once before it is open again. -/
def lostOnce : Session where
  rootUri := .str "/"
  retryLimit := .int 1
  socket := .live
  unmatched := [(⟨.str "x"⟩, wordUnder (.str "x") "first"), (⟨.int 7⟩, wordUnder (.int 7) "kept")]
  peer :=
    { accepts := [false, true]
      incoming := [.message (wordUnder (.str "x") "second"), .closed,
        .message (wordUnder (.str "x") "third"), .message (wordUnder (.int 1) "own"),
        .message (wordUnder (.int 1) "late")] }

theorem scripted_lostOnce : lostOnce.Scripted where
  live := rfl
  silent _ := rfl
  regular := by
    simp only [lostOnce, List.forall_mem_cons, List.not_mem_nil, false_implies, implies_true,
      and_true]
    exact ⟨Or.inr ⟨_, rfl, rfl⟩, Or.inl rfl, Or.inr ⟨_, rfl, rfl⟩, Or.inr ⟨_, rfl, rfl⟩,
      Or.inr ⟨_, rfl, rfl⟩⟩

/-- The request is sent once more and gets its own answer, and under each other number the last
message is kept. -/
theorem lostOnce_returns_own :
    ∃ after, (respond ⟨.int 1⟩ (request 1 "shutdown" .null)).perform lostOnce =
        (.ok (some (wordUnder (.int 1) "own")), after) ∧
      after.sent = [request 1 "shutdown" .null] ∧
      Assoc.get? after.unmatched ⟨.str "x"⟩ = some (wordUnder (.str "x") "third") ∧
      Assoc.get? after.unmatched ⟨.int 7⟩ = some (wordUnder (.int 7) "kept") := by
  have hpow : ∀ n, n ≠ 0 → 1 < Nat.pow 10 n := fun n hn => Nat.one_lt_pow hn (by decide)
  have h := @respond_returns_first_of_number lostOnce ⟨.int 1⟩ (request 1 "shutdown" .null) 1
    scripted_lostOnce rfl rfl rfl
  rcases hperform : (respond ⟨.int 1⟩ (request 1 "shutdown" .null)).perform lostOnce with
    ⟨outcome, after⟩
  simp only [hperform] at h
  obtain ⟨hresult, -, -, hreturns⟩ := h
  obtain rfl := hreturns (hpow _ (by decide)) (by decide) ⟨_, rfl, trivial⟩ _ rfl
  obtain ⟨-, -, -, hsent, hput⟩ := hresult _ rfl
  exact ⟨after, rfl, hsent, hput ⟨.str "x"⟩ rfl, hput ⟨.int 7⟩ rfl⟩

end CodeAtlas.Server
