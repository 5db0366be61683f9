import CodeAtlas.Text.Search

namespace CodeAtlas.Text

/-- Every carriage return, with the line feed after it if there is one, becomes a line feed. -/
def foldNewlines : List Char → List Char
  | [] => []
  | '\r' :: '\n' :: r => '\n' :: foldNewlines r
  | c :: r => (if c = '\r' then '\n' else c) :: foldNewlines r

/-- The lines of a text, each with its line feed. Only the last may lack one, and is not empty. -/
def linesOf : List Char → List (List Char)
  | [] => []
  | c :: r =>
    if c = '\n' then ['\n'] :: linesOf r
    else match linesOf r with
      | [] => [[c]]
      | l :: ls => (c :: l) :: ls

def lines (s : String) : List String :=
  (linesOf s.toList).map String.ofList

end CodeAtlas.Text
