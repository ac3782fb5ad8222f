import Lineage.Files

/-
Files that are kept as a value.

A path is read from the top of the disk, part by part.  Two periods lead back to
the directory above; whatever is above the top is not there.
-/

namespace Lineage

/-- Files by the parts of their paths, and directories that need hold none. -/
structure Disk where
  files : List (List String × ByteArray)
  directories : List (List String)
  standardInput : ByteArray

namespace Disk

def bytes? (d : Disk) (place : List String) : Option ByteArray :=
  (d.files.find? (·.1 = place)).map (·.2)

/-- A directory is the top, or holds something, or was made. -/
def isDirectoryAt (d : Disk) (place : List String) : Bool :=
  place.isEmpty || d.files.any (fun (path, _) => place.isPrefixOf path && place ≠ path) ||
    d.directories.any place.isPrefixOf

def walk (d : Disk) : List String → List String → Except ReadFault (List String)
  | place, [] =>
    if d.isDirectoryAt place || (d.bytes? place).isSome then .ok place else .error .missing
  | place, part :: parts =>
    if d.isDirectoryAt place then
      if part = "" || part = "." then d.walk place parts
      else if part = ".." then
        if place.isEmpty then .error .missing else d.walk place.dropLast parts
      else d.walk (place ++ [part]) parts
    else if (d.bytes? place).isSome then .error .notDirectory
    else .error .missing

/-- The place that a path leads to.  Paths from the root of the system lead
nowhere. -/
def find (d : Disk) (path : String) : Except ReadFault (List String) :=
  if path.startsWith "/" || path.isEmpty then .error .missing else d.walk [] (path.splitOn "/")

def read (d : Disk) (path : String) : Except ReadFault String := do
  let place ← d.find path
  match d.bytes? place with
  | some bytes => Files.decode bytes
  | none => throw .isDirectory

def list (d : Disk) (path : String) : Except ReadFault (List String) := do
  let place ← d.find path
  if !d.isDirectoryAt place then throw .notDirectory
  return d.files.filterMap fun (file, _) =>
    if file.dropLast = place then file.getLast? else none

def asFiles (d : Disk) : Files Id where
  pathExists path := (d.find path).isOk
  isDirectory path :=
    match d.find path with
    | .ok place => d.isDirectoryAt place
    | .error _ => false
  read path := d.read path
  list path := d.list path
  standardInput := Files.decode d.standardInput

end Disk
end Lineage
