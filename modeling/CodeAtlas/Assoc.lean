namespace CodeAtlas

abbrev Assoc (α β : Type) := List (α × β)

namespace Assoc
variable {α β : Type} [BEq α]

def get? (m : Assoc α β) (key : α) : Option β :=
  (m.find? (fun e => e.1 == key)).map Prod.snd

def contains (m : Assoc α β) (key : α) : Bool :=
  m.any (fun e => e.1 == key)

def insert (m : Assoc α β) (key : α) (value : β) : Assoc α β :=
  match m with
  | [] => [(key, value)]
  | e :: rest => if e.1 == key then (e.1, value) :: rest else e :: insert rest key value

def erase (m : Assoc α β) (key : α) : Assoc α β :=
  m.filter (fun e => !(e.1 == key))

def keys (m : Assoc α β) : List α := m.map Prod.fst

def values (m : Assoc α β) : List β := m.map Prod.snd

end Assoc

end CodeAtlas
