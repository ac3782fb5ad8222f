import Lineage.Json
import Lineage.Json.Reader
import Lineage.Record

/-
The JSON form of names and records, written and read.

A record is read from an object with its two lists in any order, or from the two lists
alone.  A name must not be empty.  A list may repeat a name.
-/

namespace Lineage

def QualifiedName.toJson (n : QualifiedName) : Json := .str n.text

def Record.members (r : Record) : List (String × Json) :=
  [("targets", .arr (r.targets.map (·.toJson))), ("sources", .arr (r.sources.map (·.toJson)))]

def Record.toJson (r : Record) : Json := .obj r.members

namespace Json
namespace Reader

/-- A name.  That an empty one is refused is for the container to report. -/
def name : Reader QualifiedName := do
  match ← peek with
  | none => failAhead .endOfValue
  | some '"' =>
    advance
    match QualifiedName.ofString? (← stringBody) with
    | none => failInside .emptyName
    | some n => return n
  | some _ => wrongType "a string"

/-- Names up to the end of a list; each takes at least one character, so `limit`
bounds them. -/
def namesFrom (limit : Nat) (done : List QualifiedName) : Reader (List QualifiedName) := do
  match limit with
  | 0 => return done.reverse
  | limit + 1 =>
    if ← moreItems done.isEmpty then namesFrom limit ((← name) :: done)
    else return done.reverse

def names : Reader (List QualifiedName) := located do
  match ← peek with
  | none => failAhead .endOfValue
  | some '[' =>
    advance
    thenEnd (do namesFrom ((← get).rest.length + 1) []) endList
  | some _ => wrongType "a sequence"

/-- The members of a record object, in any order; unknown ones are skipped. -/
def membersFrom (limit : Nat) (first : Bool) (targets sources : Option (List QualifiedName)) :
    Reader Record := do
  match limit with
  | 0 => failInside (.missingField "targets")
  | limit + 1 =>
    if ← moreMembers first then
      advance
      let key ← stringBody
      if key = "targets" then
        if targets.isSome then failInside (.duplicateField key)
        colon
        membersFrom limit false (some (← names)) sources
      else if key = "sources" then
        if sources.isSome then failInside (.duplicateField key)
        colon
        membersFrom limit false targets (some (← names))
      else
        colon
        skip
        membersFrom limit false targets sources
    else
      match targets, sources with
      | none, _ => failInside (.missingField "targets")
      | _, none => failInside (.missingField "sources")
      | some targets, some sources => return ⟨targets, sources⟩

/-- The two lists of a record, written without their names. -/
def pair : Reader Record := do
  let short (n : Nat) : Reader Record :=
    failInside (.invalidLength n "struct LineageRecord with 2 elements")
  if !(← moreItems true) then short 0
  else
    let targets ← names
    if !(← moreItems false) then short 1
    else return ⟨targets, ← names⟩

def record : Reader Record := located do
  match ← peek with
  | none => failAhead .endOfValue
  | some '[' =>
    advance
    thenEnd pair endList
  | some '\x7b' =>
    advance
    thenEnd (do membersFrom ((← get).rest.length + 1) true none none) endObject
  | some _ => wrongType "struct LineageRecord"

end Reader
end Json

def QualifiedName.ofJson (text : String) : Except Json.Fault QualifiedName :=
  Json.Reader.name.whole text

def Record.ofJson (text : String) : Except Json.Fault Record :=
  Json.Reader.record.whole text

end Lineage
