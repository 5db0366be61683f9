import CodeAtlas.Label
import CodeAtlas.Source.Spot

namespace CodeAtlas

inductive TemplateFlaw where
  /-- A place has no end. -/
  | unfinished
  /-- A key has no end. -/
  | keyUnfinished
  /-- A letter that stands for no kind of value. -/
  | letter (c : Char) (index : Nat)
  /-- A width, or a precision, is out of reach. -/
  | widthTooBig
  | precisionTooBig
  /-- What is no number cannot be cut to a whole one. -/
  | noNumber
  deriving DecidableEq, Repr

inductive Fault where
  /-- The path of a node is not a URI. -/
  | pathNotUri (path : String)
  /-- A location lacks its range or its file. -/
  | noLocation
  /-- Only classes and functions can be defined by another node. -/
  | notDefinable (label : Label)
  /-- A definition must be a class or a function. -/
  | kindNotSupported (label : Option Label)
  /-- The empty path leads nowhere. -/
  | noPath
  /-- The chain of parent folders does not end. -/
  | endlessParents (path : String)
  /-- No change is known for a file. -/
  | changeNotFound (path : String)
  /-- A value that names no type of change, as it is written. -/
  | changeTypeUnknown (written : String)
  /-- Among the nodes of a file there is none for the file itself. -/
  | fileNodeNotFound
  /-- A folder holds only folders and files. -/
  | notContainable (className : String)
  | extensionNotSupported (extension : String)
  /-- A definition without a name. -/
  | nameNodeNotFound (kind : String) (start stop : Source.Spot)
  | bodyNodeNotFound (kind : String) (start stop : Source.Spot)
  /-- A key that a table or an object does not have. -/
  | keyNotFound (key : String)
  /-- An item beyond the end of a list. -/
  | itemNotFound
  /-- A node without an environment. -/
  | noEnvironment
  /-- A node without a syntax tree. -/
  | noSyntaxTree
  /-- A node that is neither file, class nor function. -/
  | notDefinition
  | notFolder
  /-- A value that has no description. -/
  | noDescription
  /-- A call without a method. -/
  | callWithoutMethod
  /-- No connection was ever opened. -/
  | notConnected
  /-- A member is asked of something that has none. -/
  | noMembers
  /-- A value of another type than the operation needs. -/
  | wrongType
  /-- The connection was lost too often. -/
  | retriesExhausted
  /-- A message that is not JSON. -/
  | messageMalformed
  /-- A message with too many lists and objects within each other. -/
  | messageTooDeep
  /-- A whole number with more digits than are read. -/
  | tooManyDigits (most found : Nat)
  /-- A text that is not UTF-8. -/
  | textMalformed
  /-- A text with characters that UTF-8 does not have. -/
  | textNotEncodable
  | fileNotFound
  | fileIsDirectory
  | connectionClosed
  | connectionRefused
  /-- No event is left to receive. -/
  | nothingToReceive
  | serviceUnavailable
  /-- Any other fault that a database reports, by its name. -/
  | databaseFault (name : String)
  /-- A chain of members that comes back to where it was. -/
  | endlessMembers
  /-- A node that has no identifier of its own. -/
  | noIdentifier
  /-- A result that no query has set. -/
  | resultUnset
  | divisionByZero
  /-- A whole number that is out of reach of numbers with a fraction. -/
  | numberTooLarge
  /-- A whole number of too many digits to be spelled. -/
  | numberTooLong (most : Nat)
  /-- There is no room for a text. -/
  | outOfMemory
  | templateMalformed (flaw : TemplateFlaw)
  | patternMalformed
  /-- A pattern with too many groups within each other. -/
  | patternTooDeep
  /-- A part of a pattern shall stand more often than can be counted. -/
  | repeatTooLarge
  /-- A group that a pattern does not have. -/
  | groupNotFound (name : String)
  /-- A group that ends before it begins. -/
  | groupMisplaced
  deriving DecidableEq, Repr

/-- What is said about a template. Of letters only the common ones are shown. -/
def TemplateFlaw.message : TemplateFlaw → String
  | .unfinished => "incomplete format"
  | .keyUnfinished => "incomplete format key"
  | .letter c index =>
    "unsupported format character '" ++
      (if 31 ≤ c.toNat && c.toNat < 127 then c.toString else "?") ++ "' (0x" ++
      String.ofList (Nat.toDigits 16 c.toNat) ++ ") at index " ++ toString index
  | .widthTooBig => "width too big"
  | .precisionTooBig => "precision too big"
  | .noNumber => "cannot convert float NaN to integer"

namespace Fault

def message? : Fault → Option String
  | .pathNotUri path => some ("Path format is not valid: " ++ path)
  | .noLocation => some "Invalid Reference initialization"
  | .notDefinable label =>
    some ("Node NodeLabels." ++ label.name ++ " is not a valid definition node")
  | .kindNotSupported label =>
    some ("Kind " ++ (match label with
      | some l => "NodeLabels." ++ l.name
      | none => "None") ++ " is not supported")
  | .noPath => some "no path specified"
  | .endlessParents path => some ("Deeply nested file, probably an infinite loop: " ++ path)
  | .changeNotFound path => some ("Path " ++ path ++ " not found in file diffs")
  | .changeTypeUnknown written => some (written ++ " is not a valid ChangeType")
  | .fileNodeNotFound => some "File node not found in file nodes"
  | .notContainable className =>
    some ("Folder node cannot contain node of type: " ++ className)
  | .extensionNotSupported extension =>
    some ("File extension \"" ++ extension ++ "\" is not supported")
  | .tooManyDigits most found =>
    some ("Exceeds the limit (" ++ toString most ++ " digits) for integer string conversion: " ++
      "value has " ++ toString found ++
      " digits; use sys.set_int_max_str_digits() to increase the limit")
  | .numberTooLong most =>
    some ("Exceeds the limit (" ++ toString most ++ " digits) for integer string conversion; " ++
      "use sys.set_int_max_str_digits() to increase the limit")
  | .templateMalformed flaw => some flaw.message
  | .nameNodeNotFound kind start stop =>
    some ("No identifier node found for node type " ++ kind ++ " at " ++ start.describe ++ " - " ++
      stop.describe)
  | .bodyNodeNotFound kind start stop =>
    some ("No body node found for node type " ++ kind ++ " at " ++ start.describe ++ " - " ++
      stop.describe)
  | _ => none

end Fault
end CodeAtlas
