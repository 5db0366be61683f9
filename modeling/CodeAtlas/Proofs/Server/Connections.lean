import CodeAtlas.Proofs.Server.Dialling
import CodeAtlas.Proofs.Server.Tables

namespace CodeAtlas.Server
open Session

namespace Traffic

/-- The first message before the next connection. -/
def firstSent : List Traffic → Option Json
  | [] => none
  | send message :: _ => some message
  | connect _ true :: _ => none
  | _ :: rest => firstSent rest

def lastSent (traffic : List Traffic) : Option Json :=
  (traffic.filterMap message?).getLast?

theorem firstSent_append {traffic : List Traffic} {m : Json} (h : firstSent traffic = some m)
    (more : List Traffic) : firstSent (traffic ++ more) = some m := by
  fun_induction firstSent traffic with
  | case1 => cases h
  | case2 message rest => exact h
  | case3 address rest => cases h
  | case4 t rest hsend hconnect ih =>
    rw [List.cons_append, firstSent]
    · exact ih h
    · exact hsend
    · exact hconnect

theorem lastSent_append_send (traffic : List Traffic) (m : Json) :
    lastSent (traffic ++ [send m]) = some m := by
  simp [lastSent, message?]

theorem lastSent_append_refusals (traffic : List Traffic) {refusals : List Traffic}
    (h : ∀ t ∈ refusals, t.IsRefusal) : lastSent (traffic ++ refusals) = lastSent traffic := by
  rw [lastSent, List.filterMap_append, filterMap_refusals h, List.append_nil, lastSent]

def Introduces (m : Json) : Prop :=
  ∃ id params, m = request id "initialize" params

/-- What a connection may begin with: the message sent last before, or an introduction if nothing
was sent. -/
def MayBegin (before : List Traffic) (m : Json) : Prop :=
  lastSent before = some m ∨ lastSent before = none ∧ Introduces m

/-- Each connection begins with a message that it may begin with. -/
def Begun (traffic : List Traffic) : Prop :=
  ∀ before address after, traffic = before ++ connect address true :: after →
    ∃ m, firstSent after = some m ∧ MayBegin before m

theorem begun_nil : Begun [] := by
  intro before address after h
  simp at h

/-- More traffic is looked at alone, for a connection that has begun stays so. -/
theorem Begun.append {traffic more : List Traffic} (h : Begun traffic)
    (hmore : ∀ before address after, more = before ++ connect address true :: after →
      ∃ m, firstSent after = some m ∧ MayBegin (traffic ++ before) m) :
    Begun (traffic ++ more) := by
  intro before address after heq
  rcases List.append_eq_append_iff.mp heq with ⟨skipped, rfl, hskipped⟩ | ⟨kept, rfl, hkept⟩
  · exact hmore skipped address after hskipped
  · cases kept with
    | nil => simpa using hmore [] address after (by simpa using hkept.symm)
    | cons t kept =>
      obtain ⟨rfl, rfl⟩ := List.cons.inj hkept
      obtain ⟨m, hm, hbegin⟩ := h before address kept rfl
      exact ⟨m, firstSent_append hm more, hbegin⟩

theorem Begun.append_send {traffic : List Traffic} (h : Begun traffic) (m : Json) :
    Begun (traffic ++ [send m]) := by
  refine h.append fun before address after heq => ?_
  rcases List.singleton_eq_append_iff.mp heq with ⟨-, heq⟩ | ⟨-, heq⟩
  · simp at heq
  · simp at heq

theorem Begun.append_refusals {traffic refusals : List Traffic} (h : Begun traffic)
    (hr : ∀ t ∈ refusals, t.IsRefusal) : Begun (traffic ++ refusals) := by
  refine h.append fun before address after heq => ?_
  obtain ⟨other, hother⟩ := hr (connect address true) (by simp [heq])
  cases hother

theorem Begun.append_connect {traffic refusals : List Traffic} (h : Begun traffic)
    (hr : ∀ t ∈ refusals, t.IsRefusal) {m : Json} (hm : MayBegin traffic m) (address : String) :
    Begun (traffic ++ refusals ++ [connect address true] ++ [send m]) := by
  rw [List.append_assoc _ _ [send m]]
  refine (h.append_refusals hr).append fun before other after heq => ?_
  cases before with
  | nil =>
    obtain ⟨-, rfl⟩ := List.cons.inj heq
    refine ⟨m, rfl, ?_⟩
    rwa [List.append_nil, MayBegin, lastSent_append_refusals _ hr]
  | cons t before =>
    have hrest : [send m] = before ++ connect other true :: after := (List.cons.inj heq).2
    have hin : connect other true ∈ [send m] := by simp [hrest]
    simp at hin

end Traffic
open Traffic

namespace Session

/-- The message that waits for its answer is the one sent last, so it may be sent again. -/
theorem ends_await_begun {id : MessageId} {request : Json} {lost losses : Nat} {s : Session}
    (hs : s.socket ≠ .absent) (hb : Begun s.traffic) (hl : lastSent s.traffic = some request) :
    (await id request lost losses).Ends s (fun _ s' => Begun s'.traffic)
      (fun s' => Begun s'.traffic) := by
  induction losses generalizing lost s with
  | zero => exact Action.ends_pure.mpr hb
  | succ losses ih =>
    obtain ⟨hheard, hclosed⟩ := receive_heard id s.peer.incoming s
    rw [ends_await hs]
    rcases hrec : receive id s.peer.incoming s with ⟨received, s'⟩
    rw [hrec] at hheard hclosed
    have hb' : Begun s'.traffic := by rwa [hheard.traffic]
    have hl' : lastSent s'.traffic = some request := by rwa [hheard.traffic]
    cases received with
    | answer m => exact hb'
    | failed fault => exact hb'
    | closed =>
      refine (ends_resend request (s := s'.note (lossNote lost s')) (hclosed rfl)).mono ?_ ?_
      · rintro - s'' ⟨s₁, ⟨-, hlive, refusals, address, hr, ht⟩, rfl⟩
        have ht'' : (s₁.sending request).traffic =
            s'.traffic ++ refusals ++ [.connect address true] ++ [.send request] :=
          congrArg (· ++ [Traffic.send request]) ht
        have hb'' : Begun (s₁.sending request).traffic := by
          rw [ht'']
          exact hb'.append_connect hr (Or.inl hl') address
        split
        · exact hb''
        · refine ih (by simp [sending, record, hlive]) hb'' ?_
          rw [ht'', lastSent_append_send]
      · rintro s'' ⟨-, -, refusals, hr, ht⟩
        rw [ht]
        exact hb'.append_refusals hr

theorem ends_respond_begun {id : MessageId} {request : Json} {s : Session}
    (hs : s.socket ≠ .absent) (hb : Begun s.traffic) (hl : lastSent s.traffic = some request) :
    (respond id request).Ends s (fun _ s' => Begun s'.traffic) (fun s' => Begun s'.traffic) := by
  rw [respond, Action.ends_bind, Action.ends_get]
  dsimp only
  split
  · exact Action.ends_bind.mpr (Action.ends_throw.mpr hb)
  · split
    · exact Action.ends_bind.mpr (Action.ends_set.mpr (Action.ends_pure.mpr hb))
    · rw [Action.ends_bind]
      exact Action.ends_ofExcept (fun losses _ => ends_await_begun hs hb hl) hb

/-- A request may be sent where it begins the connection well. -/
theorem ends_call_begun {s : Session} (method : String) (params : Json)
    (hlive : s.socket = .live → Begun (s.traffic ++ [.send (s.nextRequest method params)]))
    (hother : s.socket ≠ .live → Begun s.traffic) :
    (call method params).Ends s (fun _ s' => Begun s'.traffic) (fun s' => Begun s'.traffic) := by
  have hid : (s.nextRequest method params).field "id" = .ok (.int (s.lastId + 1)) := rfl
  rw [call, nextId, Action.ends_bind, Action.ends_modifyGet]
  change (sendRequest (s.nextRequest method params)).Ends s.numbered _ _
  rw [sendRequest, Action.ends_bind, hid, Action.ends_ofExcept_ok, Action.ends_bind]
  refine (ends_send _ s.numbered).mono ?_ ?_
  · rintro - s' ⟨hs, rfl⟩
    have hsocket : (s.numbered.sending (s.nextRequest method params)).socket = .live := hs
    exact ends_respond_begun (by simp [hsocket]) (hlive hs) (lastSent_append_send ..)
  · rintro s' ⟨hs, rfl⟩
    exact hother hs

theorem ends_ask_begun {s : Session} (hb : Begun s.traffic) (method : String) (params : Json) :
    (ask method params).Ends s (fun _ s' => Begun s'.traffic) (fun s' => Begun s'.traffic) := by
  rw [ask, Action.ends_bind]
  refine (ends_call_begun method params (fun _ => hb.append_send _) (fun _ => hb)).mono ?_
    fun _ h => h
  intro answer s' hs'
  cases answer with
  | some m => exact Action.ends_pure.mpr hs'
  | none => exact Action.ends_throw.mpr hs'

theorem ends_didOpen_begun {s : Session} (hb : Begun s.traffic) (uri text extension : Json) :
    (didOpen uri text extension).Ends s (fun _ s' => Begun s'.traffic)
      (fun s' => Begun s'.traffic) := by
  rw [didOpen, Action.ends_bind]
  refine Action.ends_ofExcept (fun language _ => ?_) hb
  refine (ends_send _ s).mono ?_ ?_
  · rintro - s' ⟨-, rfl⟩
    exact hb.append_send _
  · rintro s' ⟨-, rfl⟩
    exact hb

/-- The client is introduced on a connection before anything else is sent. -/
theorem ends_introduce {s : Session} (ht : s.traffic = []) :
    (do connect; startUp : Action Session Unit).Ends s (fun _ s' => Begun s'.traffic)
      (fun s' => Begun s'.traffic) := by
  have hgaveUp : ∀ s', GaveUp s s' → Begun s'.traffic := by
    rintro s' ⟨-, -, refusals, hr, ht'⟩
    rw [ht', ht]
    exact begun_nil.append_refusals hr
  rw [Action.ends_bind]
  refine (ends_connect s).mono (fun _ s₁ h₁ => ?_) hgaveUp
  rw [startUp, Action.ends_bind, Action.ends_get, Action.ends_bind]
  refine (ends_call_begun _ _ (fun hlive => ?_) (fun hother => ?_)).mono ?_ fun _ h => h
  · rcases h₁ with ⟨-, -, refusals, address, hr, ht'⟩ | h₁
    · rw [ht', ht]
      exact begun_nil.append_connect hr (Or.inr ⟨rfl, _, _, rfl⟩) address
    · exact (hgaveUp s₁ h₁).append_send _
  · rcases h₁ with ⟨-, hlive, -⟩ | h₁
    · exact absurd hlive hother
    · exact hgaveUp s₁ h₁
  · intro answer s' hs'
    exact Action.ends_pure.mpr hs'

end Session

inductive Errand where
  | announce (d : Disk) (file : ProjectFile)
  | references (n : Node) (nameRange : Place)
  | definition (place : Place)

def Errand.act : Errand → Action Servers Unit
  | announce d file => Servers.announce d file
  | references n nameRange => do let _ ← Servers.referencesTo n nameRange
  | definition place => do let _ ← Servers.definitionPath place

namespace Servers

/-- Sessions that are not yet connected, each with a server of its own. -/
def facing (rootUri host portNumber : Json) (peers : ServerName → Peer) : Servers :=
  { sessions := ServerName.all.map fun name =>
      (name, { rootUri, host, portNumber, name := .str name.text, peer := peers name }) }

/-- The servers after a start and errands, of which one that fails does not keep the next from being
done. -/
def started (servers : Servers) (errands : List Errand) : Servers :=
  errands.foldl (fun servers errand => (errand.act.perform servers).2) (start.perform servers).2

/-- Sessions are as new, up to some that have been started. -/
def Untouched (started : List ServerName) (servers : Servers) : Prop :=
  ∀ name ∉ started, ∃ s, Assoc.get? servers.sessions name = some s ∧ s.traffic = []

theorem untouched_facing (rootUri host portNumber : Json) (peers : ServerName → Peer) :
    (facing rootUri host portNumber peers).Untouched [] := by
  intro name _
  cases name <;> exact ⟨_, rfl, rfl⟩

theorem Untouched.begun {servers : Servers} (h : servers.Untouched []) :
    servers.Each fun s => Begun s.traffic := by
  intro name
  obtain ⟨s, hs, ht⟩ := h name List.not_mem_nil
  exact ⟨s, hs, by simpa only [ht] using begun_nil⟩

theorem Untouched.insert {started : List ServerName} {servers : Servers}
    (h : servers.Untouched started) (name : ServerName) (s : Session)
    (journal : List (ServerName × Traffic)) :
    Untouched (started ++ [name]) ⟨Assoc.insert servers.sessions name s, journal⟩ := by
  intro other hother
  have hne : other ≠ name := fun heq => hother (by simp [heq])
  rw [Assoc.get?_insert_of_ne _ _ hne]
  exact h other fun hmem => hother (by simp [hmem])

theorem begun_start {servers : Servers} (h : servers.Untouched []) :
    (start.perform servers).2.Each fun s => Begun s.traffic := by
  have hends : start.Ends servers
      (fun _ servers' => servers'.Each (fun s => Begun s.traffic) ∧
        servers'.Untouched ServerName.all)
      (Each fun s => Begun s.traffic) := by
    refine Action.ends_forM (I := fun started (servers' : Servers) =>
      servers'.Each (fun s => Begun s.traffic) ∧ servers'.Untouched started) ⟨h.begun, h⟩ ?_
    rintro before name after hall servers ⟨hbegun, hnew⟩
    have hnodup : (before ++ name :: after).Nodup := hall ▸ by decide
    have hname : name ∉ before := fun hmem =>
      (List.nodup_append.mp hnodup).2.2 name hmem name List.mem_cons_self rfl
    obtain ⟨s, hs, ht⟩ := hnew name hname
    refine ends_within hs ((ends_introduce ht).mono ?_ ?_)
    · exact fun _ s' hs' journal => ⟨hbegun.insert name hs' journal, hnew.insert name s' journal⟩
    · exact fun s' hs' journal => hbegun.insert name hs' journal
  exact (hends.mono (fun _ _ h => h.1) fun _ h => h).snd

theorem Each.ends_within {P : Session → Prop} {servers : Servers} (h : servers.Each P)
    (name : ServerName) {α : Type} {act : Action Session α}
    (hact : ∀ s, P s → act.Ends s (fun _ => P) P) :
    (within name act).Ends servers (fun _ => Each P) (Each P) := by
  obtain ⟨s, hs, hP⟩ := h name
  exact Servers.ends_within hs ((hact s hP).mono
    (fun _ s' hs' journal => h.insert name hs' journal)
    fun s' hs' journal => h.insert name hs' journal)

theorem begun_errand {servers : Servers} (h : servers.Each fun s => Begun s.traffic)
    (errand : Errand) : (errand.act.perform servers).2.Each fun s => Begun s.traffic := by
  refine Action.Ends.snd ?_
  cases errand with
  | announce d file =>
    rw [Errand.act, announce, Action.ends_bind]
    refine Action.ends_ofExcept (fun name _ => ?_) h
    rw [Action.ends_bind]
    refine Action.ends_ofExcept (fun text _ => ?_) h
    exact h.ends_within name fun s hs => ends_didOpen_begun hs _ _ _
  | references n nameRange =>
    rw [Errand.act, referencesTo, Action.ends_bind, Action.ends_bind]
    refine Action.ends_ofExcept (fun name _ => ?_) h
    rw [Action.ends_bind]
    refine (h.ends_within name fun s hs => ends_ask_begun hs _ _).mono (fun found _ h => ?_)
      fun _ h => h
    split
    · exact Action.ends_pure.mpr (Action.ends_pure.mpr h)
    · exact Action.ends_ofExcept (fun _ _ => Action.ends_pure.mpr h) h
  | definition place =>
    rw [Errand.act, definitionPath, Action.ends_bind, Action.ends_bind]
    refine Action.ends_ofExcept (fun name _ => ?_) h
    rw [Action.ends_bind]
    refine (h.ends_within name fun s hs => ?_).mono (fun found _ h => ?_) fun _ h => h
    · rw [Session.definition, Action.ends_bind]
      exact (ends_ask_begun hs _ _).mono (fun _ _ h => Action.ends_ofExcept (fun _ _ => h) h)
        fun _ h => h
    · split
      · exact Action.ends_pure.mpr (Action.ends_pure.mpr h)
      · exact Action.ends_ofExcept (fun _ _ => Action.ends_pure.mpr h) h

theorem begun_started {servers : Servers} (h : servers.Untouched []) (errands : List Errand) :
    (servers.started errands).Each fun s => Begun s.traffic := by
  suffices hrun : ∀ servers : Servers, servers.Each (fun s => Begun s.traffic) →
      (errands.foldl (fun servers errand => (errand.act.perform servers).2) servers).Each
        fun s => Begun s.traffic from hrun _ (begun_start h)
  induction errands with
  | nil => exact fun _ h => h
  | cons errand errands ih => exact fun servers hs => ih _ (begun_errand hs errand)

/-- Whatever the servers do, each connection begins with the message sent last before it was opened,
and one before which nothing was sent with an introduction. So it begins with an introduction
exactly if nothing else was sent last before. -/
theorem connection_begins_with_last_sent (rootUri host portNumber : Json)
    (peers : ServerName → Peer) (errands : List Errand) (name : ServerName) :
    ∃ s, Assoc.get? ((facing rootUri host portNumber peers).started errands).sessions name =
        some s ∧
      ∀ before address after, s.traffic = before ++ .connect address true :: after →
        ∃ m, firstSent after = some m ∧
          (∀ last ∈ lastSent before, m = last) ∧
          (Introduces m ↔ ∀ last ∈ lastSent before, Introduces last) := by
  obtain ⟨s, hs, hb⟩ :=
    begun_started (untouched_facing rootUri host portNumber peers) errands name
  refine ⟨s, hs, fun before address after ht => ?_⟩
  obtain ⟨m, hm, hlast | ⟨hnone, hintro⟩⟩ := hb before address after ht
  · exact ⟨m, hm, by simp [hlast], by simp [hlast]⟩
  · exact ⟨m, hm, by simp [hnone], by simp [hnone, hintro]⟩

end Servers

/-- What follows a connection that is opened at a place in the traffic. -/
def Traffic.openedAt (traffic : List Traffic) (place : Nat) : Option (List Traffic) :=
  match traffic.drop place with
  | connect _ true :: after => some after
  | _ => none

theorem Traffic.eq_of_openedAt {traffic after : List Traffic} {place : Nat}
    (h : openedAt traffic place = some after) :
    ∃ address, traffic = traffic.take place ++ connect address true :: after := by
  unfold openedAt at h
  split at h
  · rename_i address rest hdrop
    cases h
    exact ⟨address, by rw [← hdrop, List.take_append_drop]⟩
  · cases h

def methodOf (m : Json) : Option String :=
  match m.member? "method" with
  | some (.str method) => some method
  | _ => none

theorem Traffic.Introduces.methodOf_eq {m : Json} (h : Introduces m) :
    methodOf m = some "initialize" := by
  obtain ⟨id, params, rfl⟩ := h
  rfl

/-- One server closes the connection before it answers the second request, the others answer an
introduction only. -/
def hangUp : ServerName → Peer
  | .jedi => { incoming := [.message (answerMessage 1 .null), .closed,
      .message (answerMessage 2 .null)] }
  | _ => { incoming := [.message (answerMessage 1 .null)] }

/-- The session with the server that hangs up, once a definition was asked for. -/
def afterHangUp : Option Session :=
  Assoc.get? ((Servers.facing (.str "/") (.str "localhost") (.int 5000) hangUp).started
    [.definition ⟨.zero, "file:///a.py"⟩]).sessions .jedi

/-- The connection is opened again, and a definition is asked for on it before anything else. -/
theorem afterHangUp_opened : ∃ s before address after last m, afterHangUp = some s ∧
    s.traffic = before ++ .connect address true :: after ∧
    lastSent before = some last ∧ firstSent after = some m ∧
    methodOf m = some "textDocument/definition" := by
  have hrun : (afterHangUp.bind fun s => (openedAt s.traffic 3).bind fun after =>
      (lastSent (s.traffic.take 3)).bind fun _ => (firstSent after).bind methodOf) =
        some "textDocument/definition" := by
    decide +kernel
  obtain ⟨s, hs, hrun⟩ := Option.bind_eq_some_iff.mp hrun
  obtain ⟨after, hafter, hrun⟩ := Option.bind_eq_some_iff.mp hrun
  obtain ⟨last, hlast, hrun⟩ := Option.bind_eq_some_iff.mp hrun
  obtain ⟨m, hm, hmethod⟩ := Option.bind_eq_some_iff.mp hrun
  obtain ⟨address, ht⟩ := eq_of_openedAt hafter
  exact ⟨s, _, address, after, last, m, hs, ht, hlast, hm, hmethod⟩

/-- The server that hangs up is asked again for what it was asked last. -/
theorem asked_again_after_hangUp : ∃ s before address after last, afterHangUp = some s ∧
    s.traffic = before ++ .connect address true :: after ∧ lastSent before = some last ∧
    firstSent after = some last := by
  obtain ⟨s, before, address, after, last, m, hs, ht, hlast, hm, -⟩ := afterHangUp_opened
  obtain ⟨s', hs', hbegins⟩ := Servers.connection_begins_with_last_sent (.str "/")
    (.str "localhost") (.int 5000) hangUp [.definition ⟨.zero, "file:///a.py"⟩] .jedi
  cases hs.symm.trans hs'
  obtain ⟨m', hm', heq, -⟩ := hbegins before address after ht
  exact ⟨s, before, address, after, last, hs, ht, hlast, heq last hlast ▸ hm'⟩

/-- A connection need not begin with an introduction. -/
theorem not_introduced_after_hangUp : ∃ s before address after m, afterHangUp = some s ∧
    s.traffic = before ++ .connect address true :: after ∧ firstSent after = some m ∧
    ¬ Introduces m := by
  obtain ⟨s, before, address, after, -, m, hs, ht, -, hm, hmethod⟩ := afterHangUp_opened
  refine ⟨s, before, address, after, m, hs, ht, hm, fun hintro => ?_⟩
  rw [hintro.methodOf_eq] at hmethod
  exact absurd (Option.some.inj hmethod) (by decide)

end CodeAtlas.Server
