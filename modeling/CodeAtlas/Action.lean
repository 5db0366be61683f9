import CodeAtlas.Fault

namespace CodeAtlas

abbrev Action (σ α : Type) := ExceptT Fault (StateM σ) α

namespace Action
variable {σ τ α : Type}

def ofExcept : Except Fault α → Action σ α
  | .ok a => pure a
  | .error fault => throw fault

/-- The value, or a fault if there is none. -/
def ofOption (fault : Fault) : Option α → Action σ α
  | some a => pure a
  | none => throw fault

def zoom (get : σ → τ) (set : σ → τ → σ) (act : Action τ α) : Action σ α :=
  ExceptT.mk fun s =>
    let (result, part) := act.run.run (get s)
    (result, set s part)

def perform (act : Action σ α) (s : σ) : Except Fault α × σ :=
  act.run.run s

/-- Goes on after a fault, which becomes the result. -/
def outcome (act : Action σ α) : Action σ (Except Fault α) :=
  ExceptT.mk fun s =>
    let (result, s) := act.run.run s
    (.ok result, s)

end Action
end CodeAtlas
