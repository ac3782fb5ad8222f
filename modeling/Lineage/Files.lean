/-
The files that a program can see.

A program that reads files is written for any monad in which they can be read.
In the identity monad the files are a fixed value, and the program is a function
of it.
-/

namespace Lineage

inductive ReadFault where
  | refused (text : String) (number : Nat)
  | notUtf8
  deriving DecidableEq

namespace ReadFault

def missing : ReadFault := refused "No such file or directory" 2

def notDirectory : ReadFault := refused "Not a directory" 20

def isDirectory : ReadFault := refused "Is a directory" 21

def message : ReadFault → String
  | refused text number => text ++ " (os error " ++ toString number ++ ")"
  | notUtf8 => "stream did not contain valid UTF-8"

end ReadFault

structure Files (m : Type → Type) where
  pathExists : String → m Bool
  isDirectory : String → m Bool
  read : String → m (Except ReadFault String)
  /-- The regular files of a directory by their names, in any order. -/
  list : String → m (Except ReadFault (List String))
  standardInput : m (Except ReadFault String)

namespace Files

def join (directory name : String) : String :=
  if directory.isEmpty || directory.endsWith "/" then directory ++ name
  else directory ++ "/" ++ name

def decode (bytes : ByteArray) : Except ReadFault String :=
  match String.fromUTF8? bytes with
  | some text => .ok text
  | none => .error .notUtf8

end Files
end Lineage
