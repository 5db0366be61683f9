import CodeAtlas.Text.Search

namespace CodeAtlas.Database

/-- The texts that a search gives a meaning, in the order in which they are escaped. -/
def special : List String :=
  ["+", "-", "&&", "||", "!", "(", ")", "\x7b", "\x7d", "[", "]", "^", "\"", "~", "*", "?", ":",
   "\\", "/"]

/-- Puts a backslash before every occurrence of a text. -/
def escapeOne (text found : String) : String :=
  Text.substitute found ("\\" ++ found) text

def escape (text : String) : String :=
  special.foldl escapeOne text

end CodeAtlas.Database
