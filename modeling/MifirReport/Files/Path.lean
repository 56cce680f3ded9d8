/-!
# Paths

A path is a text with slashes between its components. Components that are empty or a single dot lead
nowhere and do not count. The name of a file is the last component, unless there is none or it is
the double dot; its stem is the name up to the last dot, and its extension what follows, unless the
dot begins the name.
-/

namespace MifirReport.Files.Path

/-- The components of a path as they are written. -/
def segments (path : List Char) : List (List Char) :=
  path.splitOn '/'

/-- Whether a component leads somewhere. -/
def counts (segment : List Char) : Bool :=
  segment != [] && segment != ['.']

/-- The components that lead somewhere, the last of them first. -/
def reversedComponents (path : List Char) : List (List Char) :=
  ((segments path).filter counts).reverse

/-- The name of the file that a path leads to. -/
def fileName? (path : List Char) : Option (List Char) :=
  match reversedComponents path with
  | [] => none
  | name :: _ => if name = ['.', '.'] then none else some name

/-- The position of the last dot in a name that does not begin with it: what is before and what is
after. -/
def splitExtension? (name : List Char) : Option (List Char × List Char) :=
  match name.reverse.dropWhile (· ≠ '.') with
  | _ :: c :: before => some ((c :: before).reverse, (name.reverse.takeWhile (· ≠ '.')).reverse)
  | _ => none

/-- The name of a file without its extension. -/
def stem (name : List Char) : List Char :=
  match splitExtension? name with
  | none => name
  | some (before, _) => before

/-- The stem of the file that a path leads to. -/
def fileStem? (path : String) : Option String :=
  (fileName? path.toList).map fun name => String.ofList (stem name)

/-- The extension of the file that a path leads to. -/
def extension? (path : String) : Option String :=
  ((fileName? path.toList).bind splitExtension?).map fun (_, after) => String.ofList after

/-- Whether a path starts from the root. -/
def isAbsolute (path : List Char) : Bool :=
  path.head? == some '/'

/-- The path of the directory around what a path leads to, empty if there is none. A dot that the
path begins with is left out, so that it is empty for a file in `./` as well: both lead to the same
place. -/
def parent (path : String) : String :=
  match reversedComponents path.toList with
  | [] => ""
  | _ :: components =>
    let inner := ['/'].intercalate components.reverse
    String.ofList (if isAbsolute path.toList then '/' :: inner else inner)

/-- A path continued by another. An absolute one takes its place. -/
def join (directory path : String) : String :=
  if isAbsolute path.toList ∨ directory = "" then path
  else if directory.toList.getLast? = some '/' then directory ++ path
  else directory ++ "/" ++ path

end MifirReport.Files.Path
