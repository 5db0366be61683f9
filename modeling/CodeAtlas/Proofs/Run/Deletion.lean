import CodeAtlas.Proofs.Action
import CodeAtlas.Run
import CodeAtlas.Server.Answers

namespace CodeAtlas
open CodeAtlas.Action Server

namespace DatabaseCall

def deletion (path : Json) : DatabaseCall :=
  .run (.str Database.Query.deleteAt) [("path", path)]

def attempt (c : Credentials) : DatabaseCall :=
  .connect c.address c.user c.password (.int 50)

instance decidableEqWrite (call : DatabaseCall) : Decidable (call = .write) :=
  match call with
  | .write => isTrue rfl
  | .connect .. => isFalse (by simp)
  | .run .. => isFalse (by simp)
  | .close => isFalse (by simp)

end DatabaseCall

namespace Database

/-- How many attempts are made, of one and some more. It is tried again only while the database is
unavailable. -/
def attempts (refusals : List Fault) (more : Nat) : Nat :=
  min (refusals.takeWhile (· = .serviceUnavailable)).length more + 1

theorem attempts_zero (refusals : List Fault) : attempts refusals 0 = 1 := by
  rw [attempts, Nat.min_zero]

theorem attempts_unavailable (refusals : List Fault) (more : Nat) :
    attempts (.serviceUnavailable :: refusals) (more + 1) = attempts refusals more + 1 := by
  simp [attempts, Nat.succ_min_succ]

theorem attempts_other {fault : Fault} (h : fault ≠ .serviceUnavailable) (refusals : List Fault)
    (more : Nat) : attempts (fault :: refusals) more = 1 := by
  simp [attempts, h]

def tried (c : Credentials) (d : Database) : Database :=
  { d with calls := d.calls ++ [.attempt c], refusals := d.refusals.tail }

theorem perform_attempt (c : Credentials) (d : Database) :
    (attempt c (.int 50)).perform d = (d.refusals.head?.elim (.ok ()) .error, d.tried c) := by
  rw [attempt, record, perform_bind, perform_modify]
  dsimp only
  rw [perform_bind, perform_get]
  cases hrefusals : d.refusals with
  | nil => simp [tried, DatabaseCall.attempt, hrefusals]
  | cons fault refusals => simp [tried, DatabaseCall.attempt, hrefusals, perform_bind]

/-- The attempts go on until one is accepted or there is no sense in another. -/
theorem ends_connectAfter (c : Credentials) (pauses : List Nat) (d : Database) :
    (connectAfter c (.int 50) pauses).Ends d
      (fun _ d' => d.refusals.length < attempts d.refusals pauses.length ∧
        d'.calls = d.calls ++ .replicate (attempts d.refusals pauses.length) (.attempt c) ∧
        d'.results = d.results)
      (fun d' => ¬d.refusals.length < attempts d.refusals pauses.length ∧
        d'.calls = d.calls ++ .replicate (attempts d.refusals pauses.length) (.attempt c)) := by
  induction pauses generalizing d with
  | nil =>
    rw [connectAfter, ends_iff, perform_attempt, List.length_nil, attempts_zero]
    cases d.refusals <;> simp [tried]
  | cons seconds later ih =>
    rw [connectAfter, ends_bind, ends_outcome, perform_attempt]
    cases hrefusals : d.refusals with
    | nil => simp [tried, attempts]
    | cons fault refusals =>
      by_cases hfault : fault = .serviceUnavailable
      · subst hfault
        have hleft : (d.tried c).refusals = refusals := by simp [tried, hrefusals]
        have hlater := ih { d.tried c with pauses := (d.tried c).pauses ++ [seconds] }
        rw [hleft] at hlater
        simp only [List.head?_cons, Option.elim_some, if_true, pause, ends_bind, ends_modify,
          List.length_cons, attempts_unavailable]
        refine hlater.mono ?_ ?_
        · rintro _ d' ⟨hfew, hcalls, hresults⟩
          refine ⟨by omega, ?_, hresults⟩
          rw [hcalls, List.replicate_succ]
          simp [tried]
        · rintro d' ⟨hmany, hcalls⟩
          refine ⟨by omega, ?_⟩
          rw [hcalls, List.replicate_succ]
          simp [tried]
      · simp [hfault, attempts_other hfault, tried]

/-- The paths of which the deletion is asked for if the queries end so: all of them, or those up to
the first for which it fails. -/
def asked (results : List (Except Fault Json)) (paths : List Json) : List Json :=
  match results.findIdx? fun result => !result.isOk with
  | some i => paths.take (i + 1)
  | none => paths

theorem asked_nil (results : List (Except Fault Json)) : asked results [] = [] := by
  unfold asked
  split <;> simp

theorem asked_of_ok {results : List (Except Fault Json)} {result : Json}
    (h : results.head?.getD (.ok (.arr [])) = .ok result) (path : Json) (paths : List Json) :
    asked results (path :: paths) = path :: asked results.tail paths := by
  cases results with
  | nil => rfl
  | cons first later =>
    obtain rfl : first = .ok result := h
    rw [asked, asked, List.findIdx?_cons, List.tail_cons]
    cases later.findIdx? fun result => !result.isOk <;> rfl

theorem asked_of_error {results : List (Except Fault Json)} {fault : Fault}
    (h : results.head?.getD (.ok (.arr [])) = .error fault) (path : Json) (paths : List Json) :
    asked results (path :: paths) = [path] := by
  cases results with
  | nil => cases h
  | cons first later =>
    obtain rfl : first = .error fault := h
    rfl

/-- A query is recorded, and ends as it is bound to. -/
theorem perform_run (query : Json) (parameters : Json.Members) (d : Database) :
    (run query parameters).perform d = (d.results.head?.getD (.ok (.arr [])),
      { d with calls := d.calls ++ [.run query parameters], results := d.results.tail }) := by
  rw [run, record, perform_bind, perform_modify]
  dsimp only
  rw [perform_bind, perform_get]
  cases hresults : d.results with
  | nil => simp
  | cons result results => cases result <;> simp [perform_bind]

/-- Calls are only ever added. -/
theorem preserves_record (calls : List DatabaseCall) (call : DatabaseCall) :
    Preserves (fun d => calls <+: d.calls) (record call) :=
  fun _ h => h.trans (List.prefix_append _ _)

theorem preserves_run (calls : List DatabaseCall) (query : Json) (parameters : Json.Members) :
    Preserves (fun d => calls <+: d.calls) (run query parameters) := by
  intro d hd
  rw [perform_run]
  exact hd.trans (List.prefix_append _ _)

theorem preserves_noteCreated (calls : List DatabaseCall) (what : String) (result : Json) :
    Preserves (fun d => calls <+: d.calls) (noteCreated what result) := by
  refine preserves_bind (preserves_ofExcept _) fun rows => preserves_forM fun row _ => ?_
  exact preserves_bind (preserves_ofExcept _) fun _ _ hd => hd

theorem preserves_createEdges (calls : List DatabaseCall) (o : Owner) (edges : Json) :
    Preserves (fun d => calls <+: d.calls) (createEdges o edges) :=
  preserves_bind (preserves_record calls _) fun _ =>
    preserves_bind (preserves_run calls _ _) fun _ => preserves_noteCreated calls _ _

/-- A transaction is begun before anything else is asked for, however the storing ends. -/
theorem save_begins (o : Owner) (nodes edges : Json) (d : Database) :
    d.calls ++ [.write] <+:
      ((do save o nodes edges; close : Action Database Unit).perform d).2.calls := by
  have hrest : Preserves (fun d' => d.calls ++ [.write] <+: d'.calls) (do
      noteCreated "nodes" (← run (.str Query.createNodes) [("nodeList", nodes),
        ("batchSize", .int 10), ("repoId", o.repository), ("entityId", o.entity)])
      createEdges o edges
      close) :=
    preserves_bind (preserves_run _ _ _) fun _ =>
      preserves_bind (preserves_noteCreated _ _ _) fun _ =>
        preserves_bind (preserves_createEdges _ o edges) fun _ => preserves_record _ _
  simp only [save, createNodes, bind_assoc]
  rw [record, perform_bind, perform_modify]
  exact hrest _ (List.prefix_refl _)

end Database

namespace Run

variable {j : Job} {paths : List Json} {r : Run}

/-- What is done to the builder leaves the database as it is. -/
theorem ends_onBuilder (act : Action Builder α) (r : Run) :
    (onBuilder act).Ends r (fun _ r' => r'.database = r.database)
      (fun r' => r'.database = r.database) := by
  rw [onBuilder, ends_zoom, ends_iff]
  exact ⟨fun _ _ _ => rfl, fun _ _ _ => rfl⟩

theorem ends_setUp (j : Job) (r : Run) :
    (setUp j).Ends r (fun _ r' => r'.database = r.database)
      (fun r' => r'.database = r.database) := by
  rw [setUp, ends_bind]
  refine (ends_onBuilder _ r).mono (fun _ r' hr' => ?_) fun _ h => h
  exact ends_ofExcept (fun _ _ => hr') hr'

theorem ends_connect (j : Job) (r : Run) :
    (connect j).Ends r
      (fun _ r' => r.database.refusals.length < Database.attempts r.database.refusals 2 ∧
        r'.database.calls = r.database.calls ++
          .replicate (Database.attempts r.database.refusals 2) (.attempt j.credentials) ∧
        r'.database.results = r.database.results)
      (fun r' => ¬r.database.refusals.length < Database.attempts r.database.refusals 2 ∧
        r'.database.calls = r.database.calls ++
          .replicate (Database.attempts r.database.refusals 2) (.attempt j.credentials)) := by
  have hlast : (do if false then Database.createIndexes : Action Database Unit) = pure () := rfl
  rw [connect, onDatabase, ends_zoom, Database.start, hlast, bind_pure_unit]
  exact Database.ends_connectAfter j.credentials [1, 2] r.database

/-- The deletions are asked for one after the other, until one of them fails. -/
theorem ends_deletions (paths : List Json) (r : Run) :
    (paths.forM fun path => do let _ ← onDatabase (Database.deleteAt path)).Ends r
      (fun _ r' => r'.database.calls = r.database.calls ++
        (Database.asked r.database.results paths).map DatabaseCall.deletion)
      (fun r' => r'.database.calls = r.database.calls ++
        (Database.asked r.database.results paths).map DatabaseCall.deletion) := by
  induction paths generalizing r with
  | nil => simp [Database.asked_nil]
  | cons path paths ih =>
    rw [List.forM, ends_bind, ends_bind, onDatabase, ends_zoom, Database.deleteAt, ends_iff,
      Database.perform_run]
    constructor
    · intro result d' hrun
      obtain ⟨hresult, rfl⟩ := Prod.mk.inj hrun
      rw [ends_pure, Database.asked_of_ok hresult, List.map_cons]
      refine (ih _).mono (fun _ r' h => h.trans ?_) fun r' h => h.trans ?_ <;>
        exact List.append_assoc _ _ _
    · intro fault d' hrun
      obtain ⟨hfault, rfl⟩ := Prod.mk.inj hrun
      rw [Database.asked_of_error hfault]
      rfl

/-- Nothing more is asked of the database unless it is to store the graph. -/
theorem ends_finish (r : Run) :
    finish.Ends r (fun _ _ => True)
      (fun r' => r'.database.calls = r.database.calls ∨
        r.database.calls ++ [.write] <+: r'.database.calls) := by
  rw [finish, ends_bind, ends_get, ends_bind]
  refine ends_ofExcept (fun records _ => ?_) (Or.inl rfl)
  rw [ends_bind]
  refine (ends_onBuilder _ r).mono (fun _ r' hr' => ?_) fun r' hr' => Or.inl (by rw [hr'])
  have hbegun := Database.save_begins owner (.arr (records.1.map NodeRecord.toJson))
    (.arr (records.2.map EdgeRecord.toJson)) r'.database
  rw [hr'] at hbegun
  rw [ends_bind, onDatabase, ends_zoom]
  refine (ends_snd _ _).mono ?_ ?_
  · rintro _ _ rfl
    refine (ends_onBuilder _ _).mono (fun _ _ _ => trivial) fun r'' hr'' => Or.inr ?_
    rw [hr'', hr']
    exact hbegun
  · rintro _ rfl
    rw [hr']
    exact Or.inr hbegun

/-- What an update asks of the database before the graph is stored: nothing unless the servers are
started and the rules read, then up to three attempts to connect, and as soon as one of them is
accepted one deletion after the other, for all paths or up to the first that fails. -/
def callsBeforeStoring (j : Job) (paths : List Json) (r : Run) : List DatabaseCall :=
  if ((setUp j).perform r).1.isOk then
    .replicate (Database.attempts r.database.refusals 2) (.attempt j.credentials) ++
      if r.database.refusals.length < Database.attempts r.database.refusals 2 then
        (Database.asked r.database.results paths).map .deletion
      else []
  else []

/-- Where an update fails, it has asked for this much, and for more only if it came to store. -/
theorem ends_update (j : Job) (paths : List Json) (r : Run) :
    (update j paths).Ends r (fun _ _ => True)
      (fun r' => r'.database.calls = r.database.calls ++ callsBeforeStoring j paths r ∨
        r.database.calls ++ callsBeforeStoring j paths r ++ [.write] <+: r'.database.calls) := by
  rw [update, ends_bind]
  refine ((ends_isOk _ r).and (ends_setUp j r)).mono ?_ ?_
  · intro rules r₁ h₁
    rw [ends_bind]
    refine (ends_connect j r₁).mono ?_ ?_
    · intro _ r₂ h₂
      rw [ends_bind]
      have hcalls : r₂.database.calls ++
          (Database.asked r₂.database.results paths).map DatabaseCall.deletion =
            r.database.calls ++ callsBeforeStoring j paths r := by
        rw [h₁.2] at h₂
        rw [h₂.2.1, h₂.2.2, callsBeforeStoring, if_pos h₁.1, if_pos h₂.1, List.append_assoc]
      rw [← hcalls]
      refine (ends_deletions paths r₂).mono (fun _ r₃ h₃ => ?_) fun r₃ h₃ => Or.inl h₃
      rw [ends_bind, ← h₃]
      refine (ends_onBuilder _ r₃).mono (fun _ r₄ h₄ => ?_) fun r₄ h₄ => Or.inl (by rw [h₄])
      rw [← h₄]
      exact ends_finish r₄
    · intro r₂ h₂
      rw [h₁.2] at h₂
      refine Or.inl ?_
      rw [h₂.2, callsBeforeStoring, if_pos h₁.1, if_neg h₂.1, List.append_nil]
  · intro r₁ h₁
    refine Or.inl ?_
    rw [h₁.2, callsBeforeStoring, if_neg (by simp [h₁.1]), List.append_nil]

/-- An update that fails before the graph is stored has asked the database for nothing if the
servers could not be started or the rules not be read, and for nothing but connections if it
could not be reached; else it has asked, in order, to delete what is stored of every updated file,
or of those up to the first for which that failed. -/
theorem failed_update_has_deleted {fault : Fault} {r' : Run}
    (hrun : (update j paths).perform r = (.error fault, r'))
    (hunsaved : ∀ call ∈ r'.database.calls.drop r.database.calls.length, call ≠ .write) :
    r'.database.calls = r.database.calls ++ callsBeforeStoring j paths r := by
  rcases (ends_iff.mp (ends_update j paths r)).2 fault r' hrun with h | ⟨rest, hrest⟩
  · exact h
  · refine absurd rfl (hunsaved .write ?_)
    rw [← hrest, List.append_assoc, List.append_assoc, List.drop_left]
    simp

namespace BrokenLink

def job : Job :=
  ⟨⟨({} : Disk).addFile "/r/a.js" ⟨[], 0, true⟩, .ofPieces []⟩, .str "/r", .null, {}⟩

def servers : Servers :=
  .make (.str "/r") (.str "localhost") (.int 5000) ({} : Answers).reply

/-- The run against a database whose first queries end so. -/
def start (results : List (Except Fault Json)) : Run :=
  { builder := { servers }, database := { results } }

def outcome (paths : List Json) (results : List (Except Fault Json)) : Except Fault Unit × Run :=
  (update job paths).perform (start results)

/-- Does a run end in a fault before anything is stored? -/
def FailsUnsaved (end_ : Except Fault Unit × Run) : Prop :=
  end_.1.isOk = false ∧ ∀ call ∈ end_.2.database.calls, call ≠ .write

instance (end_ : Except Fault Unit × Run) : Decidable (FailsUnsaved end_) :=
  inferInstanceAs (Decidable (_ ∧ _))

theorem exists_fault {end_ : Except Fault Unit × Run} (h : FailsUnsaved end_) :
    ∃ fault, end_ = (.error fault, end_.2) := by
  rcases end_ with ⟨fault | _, r'⟩
  · exact ⟨fault, rfl⟩
  · cases h.1

theorem callsBeforeStoring_eq (paths : List Json) {results : List (Except Fault Json)}
    (hstarts : ((setUp job).perform (start results)).1.isOk = true) :
    callsBeforeStoring job paths (start results) =
      .attempt {} :: (Database.asked results paths).map .deletion := by
  rw [callsBeforeStoring, if_pos hstarts]
  rfl

/-- The file that cannot be read is deleted; and where the first deletion fails it is the last. -/
theorem link_has_deleted :
    (FailsUnsaved (outcome [.str "file:///r/a.js"] []) ∧
      (outcome [.str "file:///r/a.js"] []).2.database.calls =
        [.attempt {}, .deletion (.str "file:///r/a.js")]) ∧
    FailsUnsaved (outcome [.str "file:///r/a.js", .str "file:///r/b.js"]
        [.error (.databaseFault "AuthError")]) ∧
      (outcome [.str "file:///r/a.js", .str "file:///r/b.js"]
        [.error (.databaseFault "AuthError")]).2.database.calls =
          [.attempt {}, .deletion (.str "file:///r/a.js")] := by
  have hfails : FailsUnsaved (outcome [.str "file:///r/a.js"] []) := by decide +kernel
  have hrefused : FailsUnsaved (outcome [.str "file:///r/a.js", .str "file:///r/b.js"]
      [.error (.databaseFault "AuthError")]) := by decide +kernel
  obtain ⟨fault, houtcome⟩ := exists_fault hfails
  obtain ⟨fault', houtcome'⟩ := exists_fault hrefused
  have hcalls := failed_update_has_deleted houtcome hfails.2
  have hcalls' := failed_update_has_deleted houtcome' hrefused.2
  rw [callsBeforeStoring_eq _ (by decide +kernel)] at hcalls hcalls'
  exact ⟨⟨hfails, hcalls⟩, hrefused, hcalls'⟩

/-- What is stored of a file is lost, though the update fails before anything new is stored. -/
theorem lost_in_failed_update : FailsUnsaved (outcome [.str "file:///r/a.js"] []) ∧
    .deletion (.str "file:///r/a.js") ∈
      (outcome [.str "file:///r/a.js"] []).2.database.calls := by
  have hfails : FailsUnsaved (outcome [.str "file:///r/a.js"] []) := by decide +kernel
  obtain ⟨fault, houtcome⟩ := exists_fault hfails
  have hcalls : [] ++ callsBeforeStoring job [.str "file:///r/a.js"] (start []) <+:
      (outcome [.str "file:///r/a.js"] []).2.database.calls := by
    rcases (ends_iff.mp (ends_update _ _ _)).2 fault _ houtcome with h | h
    · exact ⟨[], (List.append_nil _).trans h.symm⟩
    · exact (List.prefix_append _ _).trans h
  rw [callsBeforeStoring_eq _ (by decide +kernel)] at hcalls
  exact ⟨hfails, hcalls.subset (by simp [Database.asked])⟩

end BrokenLink
end Run
end CodeAtlas
