import Lineage.Yaml.Lexer

/-
The events of a YAML text: its nodes in the order of the text, collections by
their start and end.

The grammar is read with a stack of what may come next.  One step takes the top
of the stack and gives at most one event.
-/

namespace Lineage
namespace Yaml

inductive Event where
  | documentStart
  | documentEnd
  | reference (name : String)
  | scalar (anchor tag : Option String) (text : String) (style : Style)
  | sequence (anchor tag : Option String)
  | sequenceEnd
  | mapping (anchor tag : Option String)
  | mappingEnd
  deriving DecidableEq

structure LocatedEvent where
  event : Event
  mark : Mark

/-- What may come next.  The entries of a collection carry the place where it
was opened, and whether none came before. -/
inductive Goal where
  | document (first : Bool)
  | documentContent
  | documentEnd
  | blockNode
  | entry (opened : Mark)
  /-- An entry of a sequence that is not indented more than its key. -/
  | plainEntry
  | key (opened : Mark)
  | value (opened : Mark)
  | flowEntry (first : Bool) (opened : Mark)
  /-- The parts of a mapping of one pair inside a flow sequence. -/
  | pairKey
  | pairValue
  | pairEnd
  | flowKey (first : Bool) (opened : Mark)
  | flowValue
  | missingValue
  deriving DecidableEq

structure Reading where
  tokens : List Located
  goals : List Goal
  handles : List (String × String)

namespace Reading

abbrev Step := Except Fault (Option LocatedEvent × Reading)

def event (r : Reading) (e : Event) (mark : Mark) : Step := .ok (some ⟨e, mark⟩, r)

def emptyNode (r : Reading) (mark : Mark) : Step := r.event (.scalar none none "" .plain) mark

def advance (r : Reading) : Reading := { r with tokens := r.tokens.tail }

def push (r : Reading) (goals : List Goal) : Reading := { r with goals := goals ++ r.goals }

def next? (r : Reading) : Option Token := r.tokens.head?.map (·.token)

def isNext (r : Reading) (token : Token) : Bool := r.next? = some token

def mark (r : Reading) : Mark := (r.tokens.head?.map (·.start)).getD .start

def markAfter (r : Reading) : Mark := (r.tokens.head?.map (·.stop)).getD .start

def fault (r : Reading) (activity : Activity) (opened : Mark) (problem : Problem) : Fault :=
  .broken problem r.mark (some (activity, opened))

def standardHandles : List (String × String) :=
  [("!", "!"), ("!!", "tag:yaml.org,2002:")]

/-- Read the directives in front of a document.  The standard handles may be
given another meaning once. -/
def directives : Nat → Reading → Bool → List (String × String) → Except Fault Reading
  | 0, r, _, _ => .ok r
  | limit + 1, r, versioned, handles =>
    match r.next? with
    | some (.versionDirective major minor) =>
      if versioned then .error (.broken .duplicateVersion r.mark none)
      else if major ≠ 1 || (minor ≠ 1 && minor ≠ 2) then
        .error (.broken .incompatibleVersion r.mark none)
      else directives limit r.advance true handles
    | some (.tagDirective handle lead) =>
      if handles.any (·.1 = handle) then .error (.broken .duplicateHandle r.mark none)
      else directives limit r.advance versioned ((handle, lead) :: handles)
    | _ => .ok { r with handles := handles ++ standardHandles }

def document (first : Bool) (r : Reading) : Step :=
  let r := if first then r else { r with tokens := r.tokens.dropWhile (·.token = .documentEnd) }
  match r.next? with
  | none | some .endOfText => .ok (none, r)
  | some token =>
    let isMark := match token with
      | .versionDirective .. | .tagDirective .. | .documentStart => true
      | _ => false
    if first && !isMark then
      { r with handles := standardHandles }.push [.blockNode, .documentEnd]
        |>.event .documentStart r.mark
    else
      let opened := r.mark
      match directives (r.tokens.length + 1) r false [] with
      | .error f => .error f
      | .ok r =>
        match r.next? with
        | none => .ok (none, r)
        | some .documentStart =>
          (r.advance.push [.documentContent, .documentEnd]).event .documentStart opened
        | some _ => .error (.broken .documentStartMissing r.mark none)

/-- The anchor and the tag in front of a node, in either order: the tag's handle
and suffix with its place. -/
def properties (r : Reading) :
    Option String × Option (String × String × Mark) × Reading :=
  let tag? (r : Reading) : Option (String × String × Mark) × Reading :=
    match r.next? with
    | some (.tag handle suffix) => (some (handle, suffix, r.mark), r.advance)
    | _ => (none, r)
  match r.next? with
  | some (.anchor name) =>
    let (tag, r) := tag? r.advance
    (some name, tag, r)
  | _ =>
    let (tag, r) := tag? r
    match r.next? with
    | some (.anchor name) => if tag.isSome then (some name, tag, r.advance) else (none, tag, r)
    | _ => (none, tag, r)

def resolveTag (r : Reading) (opened : Mark) :
    Option (String × String × Mark) → Except Fault (Option String)
  | none => .ok none
  | some ("", suffix, _) => .ok (some suffix)
  | some (handle, suffix, place) =>
    match r.handles.find? (·.1 = handle) with
    | some (_, lead) => .ok (some (lead ++ suffix))
    | none => .error (.broken .undefinedHandle place (some (.node, opened)))

/-- A node.  Block collections may not start between flow brackets, and entries
may stand in their key's column. -/
def node (block plainEntries : Bool) (r : Reading) : Step :=
  match r.next? with
  | none => .ok (none, r)
  | some (.reference name) => r.advance.event (.reference name) r.mark
  | some _ =>
    let opened := r.mark
    let (anchor, tag, r) := r.properties
    if r.tokens.isEmpty then .ok (none, r)
    else
      match r.resolveTag opened tag with
      | .error f => .error f
      | .ok tag =>
        let sequence (r : Reading) : Step := r.event (.sequence anchor tag) opened
        let mapping (r : Reading) : Step := r.event (.mapping anchor tag) opened
        match r.next? with
        | some (.scalar text style) => r.advance.event (.scalar anchor tag text style) opened
        | some .flowSequence => sequence (r.advance.push [.flowEntry true r.mark])
        | some .flowMapping => mapping (r.advance.push [.flowKey true r.mark])
        | some token =>
          if plainEntries && token = .entry then sequence (r.push [.plainEntry])
          else if block && token = .blockSequence then
            sequence (r.advance.push [.entry r.mark])
          else if block && token = .blockMapping then mapping (r.advance.push [.key r.mark])
          else if anchor.isSome || tag.isSome then
            r.event (.scalar anchor tag "" .plain) opened
          else .error (r.fault (if block then .blockNode else .flowNode) opened .contentMissing)
        | none => .ok (none, r)

/-- A node in a place that may also stay empty: it is, if one of the stop tokens
comes next. -/
def nodeUnless (stops : List Token) (empty : Mark) (block plainEntries : Bool) (goal : Goal)
    (r : Reading) : Step :=
  let r := r.push [goal]
  match r.next? with
  | none => .ok (none, r)
  | some token =>
    if stops.contains token then r.emptyNode empty else r.node block plainEntries

def toward (r : Reading) : Goal → Step
  | .document first => r.document first
  | .documentContent =>
    match r.next? with
    | some (.versionDirective ..) | some (.tagDirective ..) | some .documentStart
    | some .documentEnd | some .endOfText => r.emptyNode r.mark
    | _ => r.node true false
  | .documentEnd =>
    let after := if r.isNext .documentEnd then r.advance else r
    (after.push [.document false]).event .documentEnd r.mark
  | .blockNode => r.node true false
  | .entry opened =>
    if r.isNext .entry then
      r.advance.nodeUnless [.entry, .blockEnd] r.markAfter true false (.entry opened)
    else if r.isNext .blockEnd then r.advance.event .sequenceEnd r.mark
    else .error (r.fault .blockSequence opened .dashMissing)
  | .plainEntry =>
    if r.isNext .entry then
      r.advance.nodeUnless [.entry, .key, .value, .blockEnd] r.markAfter true false .plainEntry
    else r.event .sequenceEnd r.mark
  | .key opened =>
    if r.isNext .key then
      r.advance.nodeUnless [.key, .value, .blockEnd] r.markAfter true true (.value opened)
    else if r.isNext .blockEnd then r.advance.event .mappingEnd r.mark
    else .error (r.fault .blockMapping opened .keyMissing)
  | .value opened =>
    if r.isNext .value then
      r.advance.nodeUnless [.key, .value, .blockEnd] r.markAfter true true (.key opened)
    else (r.push [.key opened]).emptyNode r.mark
  | .flowEntry first opened =>
    if r.isNext .flowSequenceEnd then r.advance.event .sequenceEnd r.mark
    else if !first && !r.isNext .comma then
      .error (r.fault .flowSequence opened .listCommaMissing)
    else
      let r := if first then r else r.advance
      let r := r.push [.flowEntry false opened]
      match r.next? with
      | none => .ok (none, r)
      | some .key => (r.advance.push [.pairKey]).event (.mapping none none) r.mark
      | some .flowSequenceEnd =>
        { r.advance with goals := r.goals.tail }.event .sequenceEnd r.mark
      | some _ => r.node false false
  | .pairKey =>
    if [Token.value, .comma, .flowSequenceEnd].any r.isNext then
      (r.advance.push [.pairValue]).emptyNode r.markAfter
    else (r.push [.pairValue]).node false false
  | .pairValue =>
    if r.isNext .value then
      r.advance.nodeUnless [.comma, .flowSequenceEnd] r.advance.mark false false .pairEnd
    else (r.push [.pairEnd]).emptyNode r.mark
  | .pairEnd => r.event .mappingEnd r.mark
  | .flowKey first opened =>
    if r.isNext .flowMappingEnd then r.advance.event .mappingEnd r.mark
    else if !first && !r.isNext .comma then
      .error (r.fault .flowMapping opened .mapCommaMissing)
    else
      let r := if first then r else r.advance
      let r := r.push [.flowKey false opened]
      match r.next? with
      | none => .ok (none, r)
      | some .key =>
        let r := r.advance
        r.nodeUnless [.value, .comma, .flowMappingEnd] r.mark false false .flowValue
      | some .flowMappingEnd =>
        { r.advance with goals := r.goals.tail }.event .mappingEnd r.mark
      | some _ => (r.push [.missingValue]).node false false
  | .flowValue =>
    if r.isNext .value then
      let r := r.advance
      match r.next? with
      | none => .ok (none, r)
      | some token =>
        if token = .comma || token = .flowMappingEnd then r.emptyNode r.mark
        else r.node false false
    else r.emptyNode r.mark
  | .missingValue => r.emptyNode r.mark

/-- The events of what is left to read, and what stopped the reading.  A reading
that runs out of tokens stops for the reason that the tokens stopped. -/
def run (fault : Option Fault) : Nat → Reading → List LocatedEvent →
    List LocatedEvent × Option Fault
  | 0, _, done => (done.reverse, fault)
  | limit + 1, r, done =>
    match r.goals with
    | [] => (done.reverse, fault)
    | goal :: goals =>
      if r.tokens.isEmpty then (done.reverse, fault)
      else
        match { r with goals }.toward goal with
        | .error f => (done.reverse, some f)
        | .ok (none, _) => (done.reverse, fault)
        | .ok (some e, r) => run fault limit r (e :: done)

end Reading

/-- The events of a text, and what stopped the reading before its end.  Every
token gives less than four events. -/
def events (text : String) : List LocatedEvent × Option Fault :=
  let (tokens, fault) := tokens text
  Reading.run fault (4 * tokens.length + 4) ⟨tokens, [.document true], []⟩ []

end Yaml
end Lineage
