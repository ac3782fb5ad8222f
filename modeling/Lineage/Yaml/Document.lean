import Lineage.Yaml.Event

/-
The first document of a YAML text, with every alias tied to its anchor.
-/

namespace Lineage
namespace Yaml

/-- A part of a document.  An alias stands for the part with a given number. -/
inductive Part where
  | reference (number : Nat)
  | scalar (tag : Option String) (text : String) (style : Style)
  | sequence (tag : Option String)
  | mapping (tag : Option String)
  | collectionEnd
  deriving DecidableEq

structure LocatedPart where
  part : Part
  mark : Mark

structure Document where
  parts : Array LocatedPart
  fault : Option Fault
  more : Bool

namespace Document

/-- Tie the events of a document together.  An alias refers to the last anchor
of its name. -/
def collect (fault : Option Fault) :
    List LocatedEvent → List (String × Nat) → Array LocatedPart → Document
  | [], _, parts => ⟨parts, fault, false⟩
  | ⟨event, mark⟩ :: rest, anchors, parts =>
    let named (anchor : Option String) : List (String × Nat) :=
      match anchor with
      | some name => (name, parts.size) :: anchors
      | none => anchors
    match event with
    | .documentStart => collect fault rest anchors parts
    | .documentEnd => ⟨parts, none, !rest.isEmpty || fault.isSome⟩
    | .reference name =>
      match anchors.find? (·.1 = name) with
      | some (_, number) => collect fault rest anchors (parts.push ⟨.reference number, mark⟩)
      | none => ⟨parts, some (.unknownAnchor mark), false⟩
    | .scalar anchor tag text style =>
      collect fault rest (named anchor) (parts.push ⟨.scalar tag text style, mark⟩)
    | .sequence anchor tag => collect fault rest (named anchor) (parts.push ⟨.sequence tag, mark⟩)
    | .mapping anchor tag => collect fault rest (named anchor) (parts.push ⟨.mapping tag, mark⟩)
    | .sequenceEnd | .mappingEnd => collect fault rest anchors (parts.push ⟨.collectionEnd, mark⟩)

def ofText (text : String) : Document :=
  let (events, fault) := events text
  collect fault events [] #[]

/-- The part that a part stands for: anchors come before their aliases, and no
alias carries an anchor. -/
def resolve (d : Document) (p : LocatedPart) : LocatedPart :=
  match p.part with
  | .reference number => (d.parts[number]?).getD p
  | _ => p

end Document
end Yaml
end Lineage
