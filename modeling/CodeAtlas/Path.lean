import CodeAtlas.Text.Search

namespace CodeAtlas.Path
open Text

/-- The part after the last slash. -/
def baseName (path : String) : String :=
  (split '/' path).getLast?.getD ""

/-- The path without its last component. -/
def parent (path : String) : String :=
  "/".intercalate (split '/' path).dropLast

/-- Appends a path. An absolute second path stands alone. -/
def join (base path : String) : String :=
  if startsWith path "/" then path
  else if base.isEmpty || endsWith base "/" then base ++ path
  else base ++ "/" ++ path

def dropSlash (path : String) : String :=
  if endsWith path "/" then String.ofList path.toList.dropLast else path

/-- Exactly two leading slashes are kept apart from one; any other number counts as one. -/
def leadingSlashes (path : String) : Nat :=
  match path.toList.takeWhile (· = '/') with
  | [] => 0
  | ['/', '/'] => 2
  | _ => 1

/-- Adds a component to those gathered so far, which stand in reverse. A component `..` removes
the one before it; where there is none it stays, unless the path is absolute. -/
def climb (absolute : Bool) (gathered : List String) (component : String) : List String :=
  if component = "" || component = "." then gathered
  else if component ≠ ".." then component :: gathered
  else match gathered with
    | [] => if absolute then [] else [".."]
    | last :: rest => if last = ".." then ".." :: last :: rest else rest

def normalComponents (path : String) : List String :=
  ((split '/' path).foldl (climb (startsWith path "/")) []).reverse

/-- The shortest path with the same meaning. The empty path means the current directory. -/
def normal (path : String) : String :=
  let text := String.ofList (List.replicate (leadingSlashes path) '/') ++
    "/".intercalate (normalComponents path)
  if text.isEmpty then "." else text

def absoluteComponents (path : String) : List String :=
  normalComponents (join "/" path)

/-- What is left of two lists after their common beginning. -/
def dropCommon : List String → List String → List String × List String
  | x :: xs, y :: ys => if x = y then dropCommon xs ys else (x :: xs, y :: ys)
  | xs, ys => (xs, ys)

/-- The way from the directory `start` to `path`. The empty path leads nowhere. -/
def relative? (path start : String) : Option String :=
  if path.isEmpty then none
  else
    let (down, up) := dropCommon (absoluteComponents path) (absoluteComponents start)
    let way := up.map (fun _ => "..") ++ down
    some (if way.isEmpty then "." else "/".intercalate way)

/-- The last dot of the base name and what follows it. Leading dots belong to the name. -/
def extension (path : String) : String :=
  let stem := (baseName path).toList.dropWhile (· = '.')
  if stem.contains '.' then
    String.ofList ('.' :: (stem.reverse.takeWhile (· ≠ '.')).reverse)
  else ""

def scheme : String := "file://"

def toUri (path : String) : String :=
  scheme ++ path

def isUri (text : String) : Bool :=
  startsWith text scheme

/-- Removes the scheme wherever it stands. -/
def ofUri (uri : String) : String :=
  substitute scheme "" uri

def homeName (path : String) : String :=
  "/" ++ baseName (normal path) ++ "/"

/-- The way from `home` to `path`, with the name of `home` in front. -/
def belowHome? (path home : String) : Option String :=
  (relative? path home).map (homeName home ++ ·)

end CodeAtlas.Path
