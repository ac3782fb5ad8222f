import Lineage.Command

/-
The program with the files of the system.
-/

namespace Lineage
namespace Main

def refusal : IO.Error → ReadFault
  | .noFileOrDirectory _ number text | .interrupted _ number text
  | .invalidArgument _ number text | .permissionDenied _ number text
  | .resourceExhausted _ number text | .inappropriateType _ number text
  | .alreadyExists _ number text | .noSuchThing _ number text => .refused text number.toNat
  | .otherError number text | .resourceBusy number text | .resourceVanished number text
  | .unsupportedOperation number text | .hardwareFault number text
  | .unsatisfiedConstraints number text | .illegalOperation number text
  | .protocolError number text | .timeExpired number text => .refused text number.toNat
  | .unexpectedEof => .refused "unexpected end of file" 0
  | .userError text => .refused text 0

def orRefusal {α : Type} (action : IO α) : IO (Except ReadFault α) :=
  try return .ok (← action) catch e => return .error (refusal e)

partial def readAll (stream : IO.FS.Stream) (done : ByteArray) : IO ByteArray := do
  let more ← stream.read 65536
  if more.isEmpty then return done else readAll stream (done ++ more)

/-- The names of the regular files of a directory.  A link counts as what it
leads to, and one that leads nowhere is left out. -/
def regularFiles (directory : String) : IO (List String) := do
  let entries ← (← IO.FS.realPath directory).readDir
  let regular (entry : IO.FS.DirEntry) : IO Bool := do
    try return (← entry.path.metadata).type == .file catch _ => return false
  return (← entries.toList.filterM regular).map (·.fileName)

def files : Files IO where
  pathExists path := do return (← orRefusal (IO.FS.realPath path)).isOk
  isDirectory path := do
    match ← orRefusal (IO.FS.realPath path) with
    | .ok place => place.isDir
    | .error _ => return false
  read path := do return (← orRefusal (IO.FS.readBinFile path)).bind Files.decode
  list path := orRefusal (regularFiles path)
  standardInput := do
    return (← orRefusal do readAll (← IO.getStdin) .empty).bind Files.decode

end Main
end Lineage

def main (arguments : List String) : IO UInt32 := do
  let report ← Lineage.Command.run Lineage.Main.files arguments
  IO.print report.output
  IO.eprint report.errors
  return report.code.toUInt32
