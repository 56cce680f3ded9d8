import MifirReport.Files.Path
import MifirReport.Files.Storage
import MifirReport.Text.Utf8

/-!
# A disk as a value

A `Disk` lists files and directories by their components from the root; the root itself is always
there. A path is walked component by component (`Disk.walk`), and a relative path starts at the
root. Names and paths are bounded in length, and only the last component may be missing, in which
case a file can be created there.

A handle remembers its file and how far it has written. If the file was emptied in the meantime,
what it writes next still goes to that position, and a gap before it is filled with zero bytes.
-/

namespace MifirReport.Files

local instance decidableEqBytes : DecidableEq ByteArray := ByteArray.instDecidableEq

/-- A file with its content, or a directory. -/
inductive Node
  | file (bytes : ByteArray)
  | directory
  deriving DecidableEq

/-- Files and directories by their components from the root, the latest state of each first. -/
structure Disk where
  nodes : List (List String × Node) := []
  deriving DecidableEq

/-- What a path leads to: something that is there, or a place where a file can be. A path that ends
in a slash asks for a directory. -/
structure Place where
  components : List String
  node : Option Node
  asksDirectory : Bool
  deriving DecidableEq

/-- A file that is being written, and how far. -/
structure Handle where
  components : List String
  offset : Nat
  deriving DecidableEq

namespace Disk

/-- The number of bytes that the name of a file may have. -/
def maxName : Nat := 255

/-- The number of bytes that a path may have. -/
def maxPath : Nat := 4095

variable (disk : Disk)

/-- What is at a place. -/
def find? (components : List String) : Option Node :=
  if components = [] then some .directory else disk.nodes.lookup components

/-- Puts something in a place. -/
def insert (components : List String) (node : Node) : Disk :=
  ⟨(components, node) :: disk.nodes.filter (·.1 ≠ components)⟩

/-- Walks on from a directory. -/
def walk (components : List String) : List String → Except Cause Place
  | [] => .ok ⟨components, some .directory, true⟩
  | segment :: segments =>
    if segment = "" ∨ segment = "." then walk components segments
    else if segment = ".." then walk components.dropLast segments
    else if segment.utf8ByteSize > maxName then .error .nameTooLong
    else
      let here := components ++ [segment]
      match disk.find? here with
      | some .directory => walk here segments
      | found =>
        if segments.all (· = "") then .ok ⟨here, found, segments ≠ []⟩
        else .error (if found.isSome then .notDirectory else .notFound)

/-- What a path leads to. -/
def locate (path : String) : Except Cause Place :=
  if '\x00' ∈ path.toList then .error .nulInName
  else if path = "" then .error .notFound
  else if path.utf8ByteSize > maxPath then .error .nameTooLong
  else disk.walk [] ((Path.segments path.toList).map String.ofList)

/-- The content of a file. -/
def read (path : String) : Except Cause ByteArray :=
  match disk.locate path with
  | .error cause => .error cause
  | .ok ⟨_, none, _⟩ => .error .notFound
  | .ok ⟨_, some .directory, _⟩ => .error .isDirectory
  | .ok ⟨_, some (.file bytes), asksDirectory⟩ =>
    if asksDirectory then .error .notDirectory else .ok bytes

/-- Creates a file, or empties it, and begins to write it. -/
def create (path : String) : Except Cause (Handle × Disk) :=
  match disk.locate path with
  | .error cause => .error cause
  | .ok ⟨components, node, asksDirectory⟩ =>
    if asksDirectory ∨ node = some .directory then .error .isDirectory
    else .ok (⟨components, 0⟩, disk.insert components (.file .empty))

/-- A content with bytes written over it from a position on. -/
def overwrite (content bytes : ByteArray) (offset : Nat) : ByteArray :=
  content.extract 0 offset ++ ⟨Array.replicate (offset - content.size) 0⟩ ++ bytes ++
    content.extract (offset + bytes.size) content.size

/-- Writes on with a handle. -/
def write (handle : Handle) (bytes : ByteArray) : Handle × Disk :=
  let content := match disk.find? handle.components with
    | some (.file content) => content
    | _ => .empty
  ({ handle with offset := handle.offset + bytes.size },
    disk.insert handle.components (.file (overwrite content bytes handle.offset)))

/-- A disk as the state of a computation. -/
def storage : Storage (StateM Disk) where
  Handle := Handle
  read path := fun disk => (disk.read path, disk)
  create path := fun disk =>
    match disk.create path with
    | .error cause => (.error cause, disk)
    | .ok (handle, disk) => (.ok handle, disk)
  write handle bytes := fun disk =>
    let (handle, disk) := disk.write handle bytes
    (.ok handle, disk)

end Disk

end MifirReport.Files
