import CodeAtlas.Description
import CodeAtlas.Json.Parser
import CodeAtlas.Run

open CodeAtlas

def setting (arguments : List String) (place : Nat) (name : String) : IO (Option String) :=
  match arguments[place]? with
  | some argument => pure (some argument)
  | none => IO.getEnv name

def readJob (arguments : List String) (description : Json) : IO Job := do
  let root ← setting arguments 0 "ROOT_PATH"
  let ignoreFile ← setting arguments 1 "IGNORE_PATH"
  let credentials : Credentials :=
    ⟨← IO.getEnv "NEO4J_URI", ← IO.getEnv "NEO4J_USERNAME", ← IO.getEnv "NEO4J_PASSWORD"⟩
  let value (setting : Option String) : Json := (setting.map Json.str).getD .null
  pure ⟨Description.workspace description, value root, value ignoreFile, credentials⟩

def main (arguments : List String) : IO UInt32 := do
  let input ← (← IO.getStdin).readToEnd
  match Json.parse input with
  | .error _ =>
    IO.eprintln "The description is not JSON."
    return 1
  | .ok description =>
    let job ← readJob arguments description
    match Description.answers (Description.value description "lsp") with
    | .error _ =>
      IO.eprintln "The answers of the servers are malformed."
      return 1
    | .ok answers =>
      let servers := Server.Servers.make job.root (.str "localhost") (.int 5000) answers.reply
      let (result, run) := (Run.program job).perform { builder := { servers } }
      run.builder.printed.forM fun line => IO.println line
      match result with
      | .ok _ => return 0
      | .error fault =>
        IO.eprintln (fault.message?.getD "The run failed.")
        return 1
