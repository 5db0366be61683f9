import CodeAtlas.Server.Session

namespace CodeAtlas.Server

structure AnswerRow where
  uri : Json
  mark : Mark
  result : Json

structure Answers where
  references : List AnswerRow := []
  definitions : List AnswerRow := []

namespace Answers

/-- The result for a place, null if there is none. Of several rows the last counts. -/
def lookUp (rows : List AnswerRow) (uri : Json) (mark : Mark) : Json :=
  match rows.reverse.find? (fun r => r.uri.same uri && r.mark.same mark) with
  | some row => row.result
  | none => .null

/-- The result for the place that a request asks about. A list or an object is at no place. -/
def resultAt (rows : List AnswerRow) (params : Json) : Except Fault Json := do
  let uri ← (← params.field "textDocument").field "uri"
  let position ← params.field "position"
  let line ← position.field "line"
  let character ← position.field "character"
  if uri.isKey && line.isKey && character.isKey then pure (lookUp rows uri ⟨line, character⟩)
  else .error .wrongType

/-- The answers to a message. What opens a document or ends the session is not answered. -/
def reply (a : Answers) (message : Json) : List Event :=
  let params := (message.member? "params").getD .null
  let answer : Except Fault Json → List Event
    | .ok result =>
      [.message (.obj [("id", (message.member? "id").getD .null), ("result", result)])]
    | .error fault => [.failure fault]
  match message.member? "method" with
  | some (.str "textDocument/didOpen") => []
  | some (.str "exit") => []
  | some (.str "textDocument/references") => answer (resultAt a.references params)
  | some (.str "textDocument/definition") => answer (resultAt a.definitions params)
  | _ => answer (.ok (.obj []))

end Answers
end CodeAtlas.Server
