import CodeAtlas.Proofs.Server.Connections

namespace CodeAtlas.Server
open Session

def subjectOf (m : Json) : Option String :=
  match ((m.member? "params").bind fun params => params.member? "textDocument").bind
    fun document => document.member? "uri" with
  | some (.str uri) => some uri
  | _ => none

structure Mention where
  server : ServerName
  method : String
  uri : String
  deriving DecidableEq, Repr

def Mention.of? (name : ServerName) (m : Json) : Option Mention :=
  match methodOf m, subjectOf m with
  | some method, some uri => some ⟨name, method, uri⟩
  | _, _ => none

theorem Mention.of?_eq_some {name : ServerName} {m : Json} {x : Mention} :
    of? name m = some x ↔
      name = x.server ∧ methodOf m = some x.method ∧ subjectOf m = some x.uri := by
  obtain ⟨server, method, uri⟩ := x
  unfold of?
  split
  · rename_i hmethod hsubject
    simp [hmethod, hsubject]
  · rename_i hnone
    simp only [reduceCtorEq, false_iff]
    exact fun h => hnone _ _ h.2.1 h.2.2

def Servers.mentions (s : Servers) : List Mention :=
  s.sent.filterMap fun e => Mention.of? e.1 e.2

def Mention.opening (name : ServerName) (uri : String) : Mention :=
  ⟨name, "textDocument/didOpen", uri⟩

namespace Session

/-- A session in which nothing was sent but messages of a kind. -/
def Says (Q : Json → Prop) (s s' : Session) : Prop :=
  ∃ more, s'.traffic = s.traffic ++ more ∧ ∀ m ∈ more.filterMap Traffic.message?, Q m

namespace Says
variable {Q : Json → Prop} {s s' s'' : Session}

theorem of_traffic (h : s'.traffic = s.traffic) : Says Q s s' :=
  ⟨[], by simp [h], by simp⟩

theorem trans (h : Says Q s s') (h' : Says Q s' s'') : Says Q s s'' := by
  obtain ⟨more, ht, hm⟩ := h
  obtain ⟨more', ht', hm'⟩ := h'
  refine ⟨more ++ more', by rw [ht', ht, List.append_assoc], fun m hmem => ?_⟩
  rw [List.filterMap_append, List.mem_append] at hmem
  exact hmem.elim (hm m) (hm' m)

theorem of_gaveUp (h : GaveUp s s') : Says Q s s' := by
  obtain ⟨-, -, refusals, hr, ht⟩ := h
  exact ⟨refusals, ht, by simp [Traffic.filterMap_refusals hr]⟩

theorem of_sending {m : Json} (hm : Q m) : Says Q s (s.sending m) := by
  refine ⟨[.send m], rfl, fun m' hm' => ?_⟩
  obtain rfl : m' = m := by simpa [Traffic.message?] using hm'
  exact hm

theorem of_resent {request : Json} (hm : Q request) (h : Resent request s s') : Says Q s s' := by
  obtain ⟨s₁, ⟨-, -, refusals, address, hr, ht⟩, rfl⟩ := h
  have hconnected : Says Q s s₁ := by
    refine ⟨refusals ++ [.connect address true], by simp [ht], ?_⟩
    simp [List.filterMap_append, Traffic.filterMap_refusals hr, Traffic.message?]
  exact hconnected.trans (of_sending hm)

end Says

variable {Q : Json → Prop} {s : Session}

theorem says_await {id : MessageId} {request : Json} (hq : Q request) (lost losses : Nat)
    (hs : s.socket ≠ .absent) :
    (await id request lost losses).Ends s (fun _ => Says Q s) (Says Q s) := by
  induction losses generalizing lost s with
  | zero => exact Action.ends_pure.mpr (.of_traffic rfl)
  | succ losses ih =>
    obtain ⟨hheard, hclosed⟩ := receive_heard id s.peer.incoming s
    rw [ends_await hs]
    rcases hrec : receive id s.peer.incoming s with ⟨received, s'⟩
    rw [hrec] at hheard hclosed
    have hs' : Says Q s s' := .of_traffic hheard.traffic
    cases received with
    | answer m => exact hs'
    | failed fault => exact hs'
    | closed =>
      have hnoted : Says Q s (s'.note (lossNote lost s')) := hs'.trans (.of_traffic rfl)
      refine (ends_resend request (s := s'.note (lossNote lost s')) (hclosed rfl)).mono ?_ ?_
      · intro _ s'' hresent
        have hs'' := hnoted.trans (.of_resent hq hresent)
        split
        · exact hs''
        · obtain ⟨s₁, hconnected, rfl⟩ := hresent
          have hlive : (s₁.sending request).socket = .live := hconnected.2.1
          exact (ih (lost + 1) (by simp [hlive])).mono (fun _ _ h => hs''.trans h)
            fun _ h => hs''.trans h
      · exact fun s'' hgave => hnoted.trans (.of_gaveUp hgave)

theorem says_respond {id : MessageId} {request : Json} (hq : Q request)
    (hs : s.socket ≠ .absent) :
    (respond id request).Ends s (fun _ => Says Q s) (Says Q s) := by
  have hsame : Says Q s s := .of_traffic rfl
  rw [respond, Action.ends_bind, Action.ends_get]
  dsimp only
  split
  · exact Action.ends_bind.mpr (Action.ends_throw.mpr hsame)
  · split
    · exact Action.ends_bind.mpr (Action.ends_set.mpr (Action.ends_pure.mpr (.of_traffic rfl)))
    · rw [Action.ends_bind]
      exact Action.ends_ofExcept (fun losses _ => says_await hq 0 losses hs) hsame

/-- Whatever becomes of a request, no other message is sent for it. -/
theorem says_ask (method : String) (params : Json)
    (hq : ∀ id, Q (request id method params)) :
    (ask method params).Ends s (fun _ => Says Q s) (Says Q s) := by
  have hid : (s.nextRequest method params).field "id" = .ok (.int (s.lastId + 1)) := rfl
  have hnumbered : Says Q s s.numbered := .of_traffic rfl
  rw [ask, Action.ends_bind, call, nextId, Action.ends_bind, Action.ends_modifyGet]
  change (sendRequest (s.nextRequest method params)).Ends s.numbered _ _
  rw [sendRequest, Action.ends_bind, hid, Action.ends_ofExcept_ok, Action.ends_bind]
  refine (ends_send _ s.numbered).mono ?_ ?_
  · rintro - s' ⟨hs, rfl⟩
    have hlive : (s.numbered.sending (s.nextRequest method params)).socket = .live := hs
    have hsent := hnumbered.trans (.of_sending (hq (s.lastId + 1)))
    refine (says_respond (hq (s.lastId + 1)) (by simp [hlive])).mono ?_
      fun _ h => hsent.trans h
    intro answer s'' h
    cases answer with
    | some m => exact Action.ends_pure.mpr (hsent.trans h)
    | none => exact Action.ends_throw.mpr (hsent.trans h)
  · rintro s' ⟨-, rfl⟩
    exact hnumbered

theorem ends_didOpen (uri text extension : Json) :
    (didOpen uri text extension).Ends s
      (fun _ s' => ∃ language, s' = s.sending (opening uri text language)) (fun s' => s' = s) := by
  rw [didOpen, Action.ends_bind]
  refine Action.ends_ofExcept (fun language _ => ?_) rfl
  exact (ends_send _ s).mono (fun _ _ h => ⟨language, h.2⟩) fun _ h => h.2

end Session

namespace Servers
variable {P : Mention → Prop} {servers servers' servers'' : Servers} {name : ServerName}

theorem sent_eq (servers : Servers) : servers.sent =
    servers.journal.filterMap fun e => e.2.message?.map fun m => (e.1, m) := by
  refine List.filterMap_congr fun e _ => ?_
  obtain ⟨name, traffic⟩ := e
  cases traffic <;> rfl

def Adds (P : Mention → Prop) (servers servers' : Servers) : Prop :=
  ∃ new, servers'.mentions = servers.mentions ++ new ∧ ∀ x ∈ new, P x

namespace Adds

theorem refl (servers : Servers) : Adds P servers servers :=
  ⟨[], by simp, by simp⟩

theorem trans (h : Adds P servers servers') (h' : Adds P servers' servers'') :
    Adds P servers servers'' := by
  obtain ⟨new, heq, hnew⟩ := h
  obtain ⟨new', heq', hnew'⟩ := h'
  refine ⟨new ++ new', by rw [heq', heq, List.append_assoc], fun x hx => ?_⟩
  exact (List.mem_append.mp hx).elim (hnew x) (hnew' x)

theorem mono {Q : Mention → Prop} (h : Adds P servers servers') (hPQ : ∀ x, P x → Q x) :
    Adds Q servers servers' := by
  obtain ⟨new, heq, hnew⟩ := h
  exact ⟨new, heq, fun x hx => hPQ x (hnew x hx)⟩

theorem mem (h : Adds P servers servers') {x : Mention} (hx : x ∈ servers.mentions) :
    x ∈ servers'.mentions := by
  obtain ⟨new, heq, -⟩ := h
  rw [heq]
  exact List.mem_append_left _ hx

theorem of_mem (h : Adds P servers servers') {x : Mention} (hx : x ∈ servers'.mentions) :
    x ∈ servers.mentions ∨ P x := by
  obtain ⟨new, heq, hnew⟩ := h
  rw [heq, List.mem_append] at hx
  exact hx.imp_right (hnew x)

end Adds

/-- What passes over a connection is written down under the name of the server. -/
theorem ends_within_sent {α : Type} {act : Action Session α} {R : α → List Traffic → Prop}
    {F : List Traffic → Prop} (hnone : F [])
    (hact : ∀ s, act.Ends s (fun a s' => ∃ more, s'.traffic = s.traffic ++ more ∧ R a more)
      (fun s' => ∃ more, s'.traffic = s.traffic ++ more ∧ F more)) :
    (within name act).Ends servers
      (fun a servers' => ∃ more, R a more ∧
        servers'.sent = servers.sent ++ (more.filterMap Traffic.message?).map fun m => (name, m))
      (fun servers' => ∃ more, F more ∧
        servers'.sent = servers.sent ++
          (more.filterMap Traffic.message?).map fun m => (name, m)) := by
  have hjournal : ∀ sessions (more : List Traffic), (⟨sessions, servers.journal ++
      more.map fun traffic => (name, traffic)⟩ : Servers).sent = servers.sent ++
        (more.filterMap Traffic.message?).map fun m => (name, m) := by
    intro sessions more
    rw [sent_eq, sent_eq, List.filterMap_append, List.filterMap_map, List.map_filterMap]
    rfl
  rw [within, Action.ends_bind, Action.ends_get]
  dsimp only
  rw [Action.ends_bind]
  cases hs : Assoc.get? servers.sessions name with
  | none => exact Action.ends_throw.mpr ⟨[], hnone, by simp⟩
  | some s =>
    obtain ⟨hdone, hfailed⟩ := Action.ends_iff.mp (hact s)
    rw [Action.ofOption, Action.ends_pure]
    rcases hr : act.perform s with ⟨fault | a, s'⟩
    · obtain ⟨more, ht, hf⟩ := hfailed fault s' hr
      rw [Action.ends_bind, Action.ends_set, ht, List.drop_left]
      exact Action.ends_throw.mpr ⟨more, hf, hjournal _ more⟩
    · obtain ⟨more, ht, hd⟩ := hdone a s' hr
      rw [Action.ends_bind, Action.ends_set, ht, List.drop_left]
      exact Action.ends_pure.mpr ⟨more, hd, hjournal _ more⟩

theorem ends_within_journal {α : Type} {act : Action Session α} {R : α → List Traffic → Prop}
    {F : List Traffic → Prop} (hnone : F [])
    (hact : ∀ s, act.Ends s (fun a s' => ∃ more, s'.traffic = s.traffic ++ more ∧ R a more)
      (fun s' => ∃ more, s'.traffic = s.traffic ++ more ∧ F more)) :
    (within name act).Ends servers
      (fun a servers' => ∃ more, R a more ∧
        servers'.mentions = servers.mentions ++
          (more.filterMap Traffic.message?).filterMap (Mention.of? name))
      (fun servers' => ∃ more, F more ∧
        servers'.mentions = servers.mentions ++
          (more.filterMap Traffic.message?).filterMap (Mention.of? name)) := by
  have hmentions : ∀ (servers' : Servers) (messages : List Json),
      servers'.sent = servers.sent ++ messages.map (fun m => (name, m)) →
      servers'.mentions = servers.mentions ++ messages.filterMap (Mention.of? name) := by
    intro servers' messages hsent
    rw [mentions, hsent, List.filterMap_append, List.filterMap_map]
    rfl
  refine (ends_within_sent hnone hact).mono ?_ ?_
  · rintro a servers' ⟨more, hd, hsent⟩
    exact ⟨more, hd, hmentions servers' _ hsent⟩
  · rintro servers' ⟨more, hf, hsent⟩
    exact ⟨more, hf, hmentions servers' _ hsent⟩

theorem ends_within_adds {α : Type} {act : Action Session α} {Q : Json → Prop}
    (hact : ∀ s, act.Ends s (fun _ => Says Q s) (Says Q s))
    (hQ : ∀ m x, Q m → Mention.of? name m = some x → P x) :
    (within name act).Ends servers (fun _ => Adds P servers) (Adds P servers) := by
  have hadds : ∀ servers' : Servers, (∃ more : List Traffic,
      (∀ m ∈ more.filterMap Traffic.message?, Q m) ∧ servers'.mentions = servers.mentions ++
        (more.filterMap Traffic.message?).filterMap (Mention.of? name)) →
      Adds P servers servers' := by
    rintro servers' ⟨more, hmore, heq⟩
    refine ⟨_, heq, fun x hx => ?_⟩
    obtain ⟨m, hm, hx⟩ := List.mem_filterMap.mp hx
    exact hQ m x (hmore m hm) hx
  exact (ends_within_journal (R := fun _ more => ∀ m ∈ more.filterMap Traffic.message?, Q m)
    (F := fun more => ∀ m ∈ more.filterMap Traffic.message?, Q m) (by simp) hact).mono
    (fun _ => hadds) hadds

/-- A server is told of a document once, or there is a fault. -/
theorem ends_announce (d : Disk) (file : ProjectFile) (servers : Servers) :
    (announce d file).Ends servers
      (fun _ servers' => ∃ name, ServerName.ofExtension file.extension = .ok name ∧
        servers'.mentions = servers.mentions ++ [.opening name file.uri])
      (fun servers' => servers'.mentions = servers.mentions) := by
  rw [announce, Action.ends_bind]
  refine Action.ends_ofExcept (fun name hname => ?_) rfl
  rw [Action.ends_bind]
  refine Action.ends_ofExcept (fun text _ => ?_) rfl
  refine (ends_within_journal (R := fun _ more => ∃ language,
    more = [.send (opening (.str file.uri) (.str text) language)]) (F := (· = [])) rfl
    fun s => ?_).mono ?_ ?_
  · refine (ends_didOpen _ _ _).mono ?_ ?_
    · rintro - s' ⟨language, rfl⟩
      exact ⟨_, rfl, language, rfl⟩
    · rintro s' rfl
      exact ⟨[], by simp, rfl⟩
  · rintro - servers' ⟨more, ⟨language, rfl⟩, heq⟩
    exact ⟨name, hname, heq⟩
  · rintro servers' ⟨more, rfl, heq⟩
    simpa using heq

/-- References are asked for at the server of the extension of a node. -/
theorem ends_referencesTo (n : Node) (nameRange : Place) (servers : Servers) :
    (referencesTo n nameRange).Ends servers
      (fun _ => Adds (fun x => ServerName.ofExtension n.extension = .ok x.server ∧
        x.method = "textDocument/references" ∧ x.uri = n.path) servers)
      (Adds (fun x => ServerName.ofExtension n.extension = .ok x.server ∧
        x.method = "textDocument/references" ∧ x.uri = n.path) servers) := by
  rw [referencesTo, Action.ends_bind]
  refine Action.ends_ofExcept (fun name hname => ?_) (.refl servers)
  rw [Action.ends_bind]
  refine (ends_within_adds (Q := fun m => Mention.of? name m =
    some ⟨name, "textDocument/references", n.path⟩) (fun s => says_ask _ _ fun id => rfl)
    ?_).mono (fun found servers' h => ?_) fun _ h => h
  · intro m x hm hx
    cases hm.symm.trans hx
    exact ⟨hname, rfl, rfl⟩
  · split
    · exact Action.ends_pure.mpr h
    · exact Action.ends_ofExcept (fun _ _ => h) h

/-- Definitions are asked for at one server, whatever the document is. -/
theorem ends_definitionPath (place : Place) (servers : Servers) :
    (definitionPath place).Ends servers
      (fun _ => Adds (· = ⟨.jedi, "textDocument/definition", place.uri⟩) servers)
      (Adds (· = ⟨.jedi, "textDocument/definition", place.uri⟩) servers) := by
  have hname : ServerName.ofExtension ".py" = .ok .jedi := by decide
  rw [definitionPath, hname, Action.ends_bind, Action.ends_ofExcept_ok, Action.ends_bind]
  refine (ends_within_adds (Q := fun m => Mention.of? .jedi m =
    some ⟨.jedi, "textDocument/definition", place.uri⟩) (fun s => ?_) ?_).mono
    (fun found servers' h => ?_) fun _ h => h
  · rw [Session.definition, Action.ends_bind]
    exact (says_ask _ _ fun id => rfl).mono
      (fun _ _ h => Action.ends_ofExcept (fun _ _ => h) h) fun _ h => h
  · intro m x hm hx
    exact (Option.some.inj (hm.symm.trans hx)).symm
  · split
    · exact Action.ends_pure.mpr h
    · exact Action.ends_ofExcept (fun _ _ => h) h

end Servers
end CodeAtlas.Server
