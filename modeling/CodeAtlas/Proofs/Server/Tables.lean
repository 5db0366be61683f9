import CodeAtlas.Proofs.Assoc
import CodeAtlas.Proofs.Outcome
import CodeAtlas.Proofs.Server.Exchange
import CodeAtlas.Server.Answers
import CodeAtlas.Server.Servers

namespace CodeAtlas.Server

namespace Answers

/-- What the rows of a table say of a place. A list or an object is at no place. -/
def resultFor (rows : List AnswerRow) (uri : String) (mark : Mark) : Except Fault Json :=
  if mark.line.isKey && mark.character.isKey then .ok (lookUp rows (.str uri) mark)
  else .error .wrongType

def placesOf (a : Answers) (n : Node) (nameRange : Place) : Except Fault (List Place) := do
  let _ ← ServerName.ofExtension n.extension
  let found ← resultFor a.references n.path nameRange.extent.start
  if found.isVoid then pure [] else (← found.items).mapM Place.ofJson

/-- The file in which that which stands at a place is defined by the tables. -/
def definitionOf (a : Answers) (place : Place) : Except Fault Json := do
  let found ← Session.first (← resultFor a.definitions place.uri place.extent.start)
  if found.isVoid then pure (.str "") else found.field "uri"

/-- What a request about a place asks a table for. -/
theorem resultAt_placeParams (rows : List AnswerRow) (uri : String) (mark : Mark)
    (more : Json.Members) :
    resultAt rows (.obj (Session.placeParams (.str uri) mark.toJson ++ more)) =
      resultFor rows uri mark := by
  have hdocument : (Json.obj (Session.placeParams (.str uri) mark.toJson ++ more)).field
      "textDocument" = .ok (.obj [("uri", .str uri)]) := rfl
  have hposition : (Json.obj (Session.placeParams (.str uri) mark.toJson ++ more)).field
      "position" = .ok mark.toJson := rfl
  have huri : (Json.obj [("uri", .str uri)]).field "uri" = .ok (.str uri) := rfl
  have hline : mark.toJson.field "line" = .ok mark.line := rfl
  have hcharacter : mark.toJson.field "character" = .ok mark.character := rfl
  rw [resultAt, hdocument, hposition]
  change (do
    let uri ← (Json.obj [("uri", .str uri)]).field "uri"
    let line ← mark.toJson.field "line"
    let character ← mark.toJson.field "character"
    if uri.isKey && line.isKey && character.isKey then pure (lookUp rows uri ⟨line, character⟩)
    else .error .wrongType : Except Fault Json) = _
  rw [huri, hline, hcharacter]
  rfl

end Answers

/-- A session with a server of tables in which nothing is waited for. -/
structure Session.Ready (a : Answers) (s : Session) : Prop where
  live : s.socket = .live
  limit : ∃ retries : Nat, s.retryLimit = .int retries
  silent : s.peer.incoming = []
  clear : s.unmatched = []
  reply : s.peer.reply = a.reply

namespace Session
variable {a : Answers} {s : Session}

theorem Ready.send (h : s.Ready a) {message : Json} (hm : a.reply message = []) :
    ∃ s', (send message).perform s = (.ok (), s') ∧ s'.Ready a := by
  refine ⟨_, perform_send h.live message, ?_, ?_, ?_, ?_, ?_⟩
  · simp only [sending, record, h.live]
  · simpa only [sending, record] using h.limit
  · simp only [sending, record, h.silent, h.reply, hm, List.append_nil]
  · simp only [sending, record, h.clear]
  · simp only [sending, record, h.reply]

def answerMessage (id : Int) (result : Json) : Json :=
  .obj [("id", .int id), ("result", result)]

def answerOf (id : Int) : Except Fault Json → List Event
  | .ok result => [.message (answerMessage id result)]
  | .error fault => [.failure fault]

/-- A request comes to the message that answers it, and nothing is left over. -/
theorem Ready.call (h : s.Ready a) {method : String} {params : Json} {result : Except Fault Json}
    (hr : a.reply (s.nextRequest method params) = answerOf (s.lastId + 1) result) :
    ∃ s', (call method params).perform s =
      (result.map fun r => some (answerMessage (s.lastId + 1) r), s') ∧ s'.Ready a := by
  obtain ⟨retries, hlimit⟩ := h.limit
  obtain ⟨s₁, hs₁⟩ : ∃ s₁, s.numbered.sending (s.nextRequest method params) = s₁ := ⟨_, rfl⟩
  have hlive : s₁.socket = .live := by
    simp only [← hs₁, sending, record, numbered, h.live]
  have hlimit₁ : s₁.retryLimit = .int retries := by
    simp only [← hs₁, sending, record, numbered, hlimit]
  have hclear : s₁.unmatched = [] := by
    simp only [← hs₁, sending, record, numbered, h.clear]
  have hreply : s₁.peer.reply = a.reply := by
    simp only [← hs₁, sending, record, numbered, h.reply]
  have hincoming : s₁.peer.incoming = answerOf (s.lastId + 1) result := by
    simp only [← hs₁, sending, record, numbered, h.silent, h.reply, hr, List.nil_append]
  have hready : ∀ s', Carried s₁ s' → s'.unmatched = [] → s'.peer.incoming = [] → s'.Ready a :=
    fun s' hc hu hi => ⟨hc.socket.trans hlive, ⟨retries, hc.limit.trans hlimit₁⟩, hi, hu,
      hc.reply.trans hreply⟩
  have hnone : Assoc.get? s₁.unmatched ⟨.int (s.lastId + 1)⟩ = none := by
    rw [hclear]
    rfl
  -- nothing was put by, so the connection is listened to, and the first event is the answer
  rw [perform_call h.live, hs₁, perform_respond_await hnone hlimit₁]
  cases result with
  | ok result =>
    have hid : (answerMessage (s.lastId + 1) result).member? "id" =
        some (.int (s.lastId + 1)) := rfl
    obtain ⟨s', hreceive, hc, hu, hi⟩ := receive_own hid [] s₁
    rw [answerOf] at hincoming
    rw [← hincoming] at hreceive
    rw [perform_await_answer hlive hreceive]
    exact ⟨s', rfl, hready s' hc (hu.trans hclear) hi⟩
  | error fault =>
    have hfailed : receive ⟨.int (s.lastId + 1)⟩ s₁.peer.incoming s₁ =
        (.failed fault, s₁.taken []) := by
      rw [hincoming]
      rfl
    rw [perform_await_failed hlive hfailed]
    exact ⟨_, rfl, hready _ (carried_taken s₁ []) hclear rfl⟩

theorem Ready.ask (h : s.Ready a) {method : String} {params : Json} {result : Except Fault Json}
    (hr : a.reply (s.nextRequest method params) = answerOf (s.lastId + 1) result) :
    ∃ s', (ask method params).perform s = (result, s') ∧ s'.Ready a := by
  obtain ⟨s', hs', hready⟩ := h.call hr
  refine ⟨s', ?_, hready⟩
  rw [Session.ask, Action.perform_bind, hs']
  cases result <;> rfl

theorem reply_references (id : Int) (params : Json) :
    a.reply (request id "textDocument/references" params) =
      answerOf id (Answers.resultAt a.references params) := by
  cases h : Answers.resultAt a.references params <;>
    simp [Answers.reply, h, answerOf, answerMessage]

theorem reply_definition (id : Int) (params : Json) :
    a.reply (request id "textDocument/definition" params) =
      answerOf id (Answers.resultAt a.definitions params) := by
  cases h : Answers.resultAt a.definitions params <;>
    simp [Answers.reply, h, answerOf, answerMessage]

theorem reply_opening (uri text : Json) (languageId : String) :
    a.reply (opening uri text languageId) = [] := by
  simp [Answers.reply, opening]

theorem reply_startUp (id : Int) (params : Json) :
    a.reply (request id "initialize" params) = answerOf id (.ok (.obj [])) := by
  simp [Answers.reply, answerOf, answerMessage]

theorem Ready.references (h : s.Ready a) (uri : String) (mark : Mark) :
    ∃ s', (references (.str uri) mark.toJson).perform s =
      (Answers.resultFor a.references uri mark, s') ∧ s'.Ready a := by
  refine h.ask ?_
  rw [nextRequest, reply_references, Answers.resultAt_placeParams]

theorem Ready.definition (h : s.Ready a) (uri : String) (mark : Mark) :
    ∃ s', (definition (.str uri) mark.toJson).perform s =
      (Answers.resultFor a.definitions uri mark >>= first, s') ∧ s'.Ready a := by
  have hparams := Answers.resultAt_placeParams a.definitions uri mark []
  rw [List.append_nil] at hparams
  have hreply : a.reply (s.nextRequest "textDocument/definition" (.obj (placeParams (.str uri)
      mark.toJson))) = answerOf (s.lastId + 1) (Answers.resultFor a.definitions uri mark) := by
    rw [nextRequest, reply_definition, hparams]
  obtain ⟨s', hs', hready⟩ := h.ask hreply
  refine ⟨s', ?_, hready⟩
  rw [Session.definition, Action.perform_bind, hs']
  cases Answers.resultFor a.definitions uri mark with
  | ok result => exact Action.perform_ofExcept _ s'
  | error fault => rfl

/-- A document of any extension can be told. -/
theorem Ready.didOpen (h : s.Ready a) (uri text : Json) (extension : String) :
    ∃ s', (didOpen uri text (.str extension)).perform s = (.ok (), s') ∧ s'.Ready a := by
  obtain ⟨language, hlanguage⟩ : ∃ language, languageId (.str extension) = .ok language := by
    unfold languageId
    split <;> exact ⟨_, rfl⟩
  obtain ⟨s', hs', hready⟩ := h.send (reply_opening uri text language)
  refine ⟨s', ?_, hready⟩
  rw [Session.didOpen, Action.perform_bind, Action.perform_ofExcept, hlanguage]
  exact hs'

/-- A session with a server of tables that accepts it, before anything was said. -/
structure Fresh (a : Answers) (s : Session) : Prop where
  accepts : s.peer.accepts = []
  limit : ∃ retries : Nat, s.retryLimit = .int retries
  silent : s.peer.incoming = []
  clear : s.unmatched = []
  reply : s.peer.reply = a.reply

/-- A new session is ready once it has connected and introduced itself. -/
theorem Fresh.connect_startUp (h : s.Fresh a) :
    ∃ s', (do connect; startUp : Action Session Unit).perform s = (.ok (), s') ∧ s'.Ready a := by
  obtain ⟨s₁, hs₁⟩ : ∃ s₁, { s.record (.connect s.address true) with socket := .live } = s₁ :=
    ⟨_, rfl⟩
  have hconnect : connect.perform s = (.ok (), s₁) := by
    simp only [connect, connectFrom, Action.perform_bind, Action.perform_get, h.accepts, dial,
      Action.perform_modify, hs₁]
  have hready : s₁.Ready a := by
    refine ⟨?_, ?_, ?_, ?_, ?_⟩
    · simp only [← hs₁]
    · simpa only [← hs₁, record] using h.limit
    · simpa only [← hs₁, record] using h.silent
    · simpa only [← hs₁, record] using h.clear
    · simpa only [← hs₁, record] using h.reply
  obtain ⟨s', hs', hready'⟩ := hready.call (reply_startUp (s₁.lastId + 1) _)
  refine ⟨s', ?_, hready'⟩
  rw [Action.perform_bind, hconnect]
  dsimp only
  rw [startUp, Action.perform_bind, Action.perform_get]
  dsimp only
  rw [Action.perform_bind, hs']
  rfl

end Session

namespace Servers
variable {a : Answers} {servers : Servers}

/-- All servers answer from the tables, and nothing is waited for. -/
def Ready (a : Answers) (servers : Servers) : Prop :=
  ∀ name, ∃ s, Assoc.get? servers.sessions name = some s ∧ s.Ready a

theorem perform_within {name : ServerName} {s : Session}
    (hs : Assoc.get? servers.sessions name = some s) {α : Type} (act : Action Session α) :
    ∃ journal, (within name act).perform servers =
      ((act.perform s).1, ⟨Assoc.insert servers.sessions name (act.perform s).2, journal⟩) := by
  rw [within, Action.perform_bind, Action.perform_get]
  dsimp only
  rw [Action.perform_bind, hs]
  simp only [Action.ofOption, Action.perform_pure]
  rcases act.perform s with ⟨result, after⟩
  rw [Action.perform_bind, Action.perform_set]
  exact ⟨_, Action.perform_ofExcept ..⟩

/-- An action within one session, from what it does there. -/
theorem ends_within {name : ServerName} {s : Session}
    (hs : Assoc.get? servers.sessions name = some s) {α : Type} {act : Action Session α}
    {done : α → Servers → Prop} {failed : Servers → Prop}
    (h : act.Ends s (fun a s' => ∀ journal, done a ⟨Assoc.insert servers.sessions name s', journal⟩)
      (fun s' => ∀ journal, failed ⟨Assoc.insert servers.sessions name s', journal⟩)) :
    (within name act).Ends servers done failed := by
  obtain ⟨journal, hj⟩ := perform_within hs act
  obtain ⟨hdone, hfailed⟩ := Action.ends_iff.mp h
  refine Action.ends_iff.mpr ⟨fun a after hr => ?_, fun fault after hr => ?_⟩
  · obtain ⟨ha, rfl⟩ := Prod.mk.inj (hj.symm.trans hr)
    exact hdone a _ (Prod.ext ha rfl) journal
  · obtain ⟨hfault, rfl⟩ := Prod.mk.inj (hj.symm.trans hr)
    exact hfailed fault _ (Prod.ext hfault rfl) journal

def Each (P : Session → Prop) (servers : Servers) : Prop :=
  ∀ name, ∃ s, Assoc.get? servers.sessions name = some s ∧ P s

theorem Each.insert {P : Session → Prop} (h : servers.Each P) (name : ServerName) {s : Session}
    (hs : P s) (journal : List (ServerName × Traffic)) :
    Each P ⟨Assoc.insert servers.sessions name s, journal⟩ := by
  intro other
  by_cases ho : other = name
  · subst ho
    exact ⟨s, Assoc.get?_insert_self .., hs⟩
  · rw [Assoc.get?_insert_of_ne _ _ ho]
    exact h other

theorem Ready.insert (h : servers.Ready a) (name : ServerName) {s : Session} (hs : s.Ready a)
    (journal : List (ServerName × Traffic)) :
    Ready a ⟨Assoc.insert servers.sessions name s, journal⟩ :=
  Each.insert h name hs journal

theorem Ready.within (h : servers.Ready a) (name : ServerName) {α : Type}
    {act : Action Session α} {result : Except Fault α}
    (hact : ∀ s : Session, s.Ready a → ∃ s', act.perform s = (result, s') ∧ s'.Ready a) :
    ∃ servers', (within name act).perform servers = (result, servers') ∧ servers'.Ready a := by
  obtain ⟨s, hs, hready⟩ := h name
  obtain ⟨s', hs', hready'⟩ := hact s hready
  obtain ⟨journal, hj⟩ := perform_within hs act
  rw [hs'] at hj
  exact ⟨_, hj, h.insert name hready' journal⟩

theorem Ready.referencesTo (h : servers.Ready a) (n : Node) (nameRange : Place) :
    ∃ servers', (referencesTo n nameRange).perform servers =
      (a.placesOf n nameRange, servers') ∧ servers'.Ready a := by
  rw [Servers.referencesTo, Answers.placesOf, Action.perform_bind, Action.perform_ofExcept]
  cases ServerName.ofExtension n.extension with
  | error fault => exact ⟨servers, rfl, h⟩
  | ok name =>
    obtain ⟨servers', hs', hready⟩ := h.within name fun s hs =>
      hs.references n.path nameRange.extent.start
    refine ⟨servers', ?_, hready⟩
    dsimp only
    rw [Action.perform_bind, hs']
    cases Answers.resultFor a.references n.path nameRange.extent.start with
    | error fault => rfl
    | ok found =>
      change (if found.isVoid then pure [] else _ : Action Servers (List Place)).perform servers' =
        (if found.isVoid then pure [] else _, servers')
      split
      · rfl
      · exact Action.perform_ofExcept ..

theorem Ready.definitionPath (h : servers.Ready a) (place : Place) :
    ∃ servers', (definitionPath place).perform servers =
      (a.definitionOf place, servers') ∧ servers'.Ready a := by
  have hname : ServerName.ofExtension ".py" = .ok .jedi := by decide
  obtain ⟨servers', hs', hready⟩ := h.within .jedi fun s hs =>
    hs.definition place.uri place.extent.start
  refine ⟨servers', ?_, hready⟩
  rw [Servers.definitionPath, Action.perform_bind, Action.perform_ofExcept, hname]
  dsimp only
  rw [Action.perform_bind, hs', Answers.definitionOf]
  cases Answers.resultFor a.definitions place.uri place.extent.start with
  | error fault => rfl
  | ok result =>
    have hfirst : (Except.ok result >>= Session.first) = Session.first result := rfl
    rw [hfirst]
    change _ = (Session.first result >>= _, servers')
    cases Session.first result with
    | error fault => rfl
    | ok found =>
      change (if found.isVoid then pure (.str "") else _ : Action Servers Json).perform servers' =
        (if found.isVoid then pure (.str "") else _, servers')
      split
      · rfl
      · exact Action.perform_ofExcept ..

/-- Can a file be told? There must be a server for it, and it must be readable. -/
def tellable (d : Disk) (file : ProjectFile) : Except Fault Unit := do
  let _ ← ServerName.ofExtension file.extension
  let _ ← documentText d file.path
  pure ()

theorem Ready.announce (h : servers.Ready a) (d : Disk) (file : ProjectFile) :
    ∃ servers', (announce d file).perform servers = (tellable d file, servers') ∧
      servers'.Ready a := by
  rw [Servers.announce, tellable, Action.perform_bind, Action.perform_ofExcept]
  cases ServerName.ofExtension file.extension with
  | error fault => exact ⟨servers, rfl, h⟩
  | ok name =>
    dsimp only
    rw [Action.perform_bind, Action.perform_ofExcept]
    cases documentText d file.path with
    | error fault => exact ⟨servers, rfl, h⟩
    | ok text => exact h.within name fun s hs => hs.didOpen _ _ _

/-- New sessions become ready one after the other. -/
theorem ready_startAll {names : List ServerName} (hn : names.Nodup)
    (hfresh : ∀ name ∈ names, ∃ s, Assoc.get? servers.sessions name = some s ∧ s.Fresh a)
    (hready : ∀ name ∉ names, ∃ s, Assoc.get? servers.sessions name = some s ∧ s.Ready a) :
    ∃ servers', (names.forM fun name => within name do Session.connect; Session.startUp).perform
      servers = (.ok (), servers') ∧ servers'.Ready a := by
  -- those that are still to be started are new, all others ready
  induction names generalizing servers with
  | nil => exact ⟨servers, rfl, fun name => hready name List.not_mem_nil⟩
  | cons name names ih =>
    obtain ⟨hname, hn⟩ := List.nodup_cons.mp hn
    obtain ⟨s, hs, hf⟩ := hfresh name List.mem_cons_self
    obtain ⟨s', hs', hr⟩ := hf.connect_startUp
    obtain ⟨journal, hj⟩ := perform_within hs (do Session.connect; Session.startUp)
    rw [hs'] at hj
    obtain ⟨after, hafter⟩ : ∃ after : Servers,
      after = ⟨Assoc.insert servers.sessions name s', journal⟩ := ⟨_, rfl⟩
    have hother : ∀ other, other ≠ name →
        Assoc.get? after.sessions other = Assoc.get? servers.sessions other := by
      intro other ho
      rw [hafter]
      exact Assoc.get?_insert_of_ne _ _ ho
    have hfresh' : ∀ other ∈ names,
        ∃ s, Assoc.get? after.sessions other = some s ∧ s.Fresh a := by
      intro other ho
      rw [hother other (fun heq => hname (heq ▸ ho))]
      exact hfresh other (List.mem_cons_of_mem _ ho)
    have hready' : ∀ other ∉ names,
        ∃ s, Assoc.get? after.sessions other = some s ∧ s.Ready a := by
      intro other ho
      by_cases heq : other = name
      · rw [heq, hafter]
        exact ⟨s', Assoc.get?_insert_self .., hr⟩
      · rw [hother other heq]
        exact hready other (fun hmem => (List.mem_cons.mp hmem).elim heq ho)
    obtain ⟨servers', hstart, hall⟩ := ih hn hfresh' hready'
    refine ⟨servers', ?_, hall⟩
    change (_ >>= fun _ => names.forM _ : Action Servers PUnit).perform servers = _
    rw [Action.perform_bind_of_ok hj, ← hafter, hstart]

/-- The start succeeds, and after it all servers are ready. -/
theorem ready_start (rootUri host portNumber : Json) (a : Answers) :
    ∃ servers, start.perform (make rootUri host portNumber a.reply) = (.ok (), servers) ∧
      servers.Ready a := by
  have hall : ∀ name, name ∈ ServerName.all := fun name => by cases name <;> decide
  refine ready_startAll (by decide) (fun name _ => ?_) (fun name h => absurd (hall name) h)
  cases name <;> exact ⟨_, rfl, rfl, ⟨3, rfl⟩, rfl, rfl, rfl⟩

end Servers
end CodeAtlas.Server
