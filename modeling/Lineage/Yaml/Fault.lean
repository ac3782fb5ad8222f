/-
Places in a YAML text and what can be wrong there.
-/

namespace Lineage
namespace Yaml

/-- A place in a text.  All three numbers are counted from zero and count
characters; a byte order mark counts. -/
structure Mark where
  index : Nat
  line : Nat
  column : Nat
  deriving DecidableEq, Inhabited

namespace Mark

def start : Mark := ⟨0, 0, 0⟩

/-- How a place is named behind a message.  The very start is not named. -/
def suffix (m : Mark) : String :=
  if m.line = 0 && m.column = 0 then ""
  else " at line " ++ toString (m.line + 1) ++ " column " ++ toString (m.column + 1)

end Mark

inductive Activity where
  | nextToken
  | simpleKey
  | directive
  | versionDirective
  | tagDirective
  | tagDirectiveUri
  | directiveHandle
  | directiveHandleEnd
  | anchor
  | reference
  | tag
  | tagUri
  | blockScalar
  | quotedScalar
  | quotedEscape
  | plainScalar
  | blockNode
  | flowNode
  | node
  | blockSequence
  | blockMapping
  | flowSequence
  | flowMapping
  deriving DecidableEq

namespace Activity

def phrase : Activity → String
  | nextToken => "while scanning for the next token"
  | simpleKey => "while scanning a simple key"
  | directive => "while scanning a directive"
  | versionDirective => "while scanning a %YAML directive"
  | tagDirective => "while scanning a %TAG directive"
  | tagDirectiveUri => "while parsing a %TAG directive"
  | directiveHandle => "while scanning a tag directive"
  | directiveHandleEnd => "while parsing a tag directive"
  | anchor => "while scanning an anchor"
  | reference => "while scanning an alias"
  | tag => "while scanning a tag"
  | tagUri => "while parsing a tag"
  | blockScalar => "while scanning a block scalar"
  | quotedScalar => "while scanning a quoted scalar"
  | quotedEscape => "while parsing a quoted scalar"
  | plainScalar => "while scanning a plain scalar"
  | blockNode => "while parsing a block node"
  | flowNode => "while parsing a flow node"
  | node => "while parsing a node"
  | blockSequence => "while parsing a block collection"
  | blockMapping => "while parsing a block mapping"
  | flowSequence => "while parsing a flow sequence"
  | flowMapping => "while parsing a flow mapping"

end Activity

inductive Problem where
  | noToken
  | keyWithoutColon
  | entryNotAllowed
  | keyNotAllowed
  | valueNotAllowed
  | unknownDirective
  | directiveNameMissing
  | directiveNameBroken
  | directiveNotEnded
  | versionBroken
  | versionMissing
  | versionTooLong
  | blankMissing
  | blankOrBreakMissing
  | bangMissing
  | tagNotClosed
  | uriMissing
  | octetMissing
  | octetLeading
  | octetTrailing
  | anchorName
  | zeroIndentation
  | headerNotEnded
  | tabInIndentation
  | tabViolatesIndentation
  | documentMark
  | endOfText
  | unknownEscape
  | notHexadecimal
  | noCharacter
  | colonInFlow
  | documentStartMissing
  | duplicateVersion
  | incompatibleVersion
  | duplicateHandle
  | undefinedHandle
  | contentMissing
  | dashMissing
  | keyMissing
  | listCommaMissing
  | mapCommaMissing
  deriving DecidableEq

namespace Problem

def phrase : Problem → String
  | noToken => "found character that cannot start any token"
  | keyWithoutColon => "could not find expected ':'"
  | entryNotAllowed => "block sequence entries are not allowed in this context"
  | keyNotAllowed => "mapping keys are not allowed in this context"
  | valueNotAllowed => "mapping values are not allowed in this context"
  | unknownDirective => "found unknown directive name"
  | directiveNameMissing => "could not find expected directive name"
  | directiveNameBroken => "found unexpected non-alphabetical character"
  | directiveNotEnded | headerNotEnded => "did not find expected comment or line break"
  | versionBroken => "did not find expected digit or '.' character"
  | versionMissing => "did not find expected version number"
  | versionTooLong => "found extremely long version number"
  | blankMissing => "did not find expected whitespace"
  | blankOrBreakMissing => "did not find expected whitespace or line break"
  | bangMissing => "did not find expected '!'"
  | tagNotClosed => "did not find the expected '>'"
  | uriMissing => "did not find expected tag URI"
  | octetMissing => "did not find URI escaped octet"
  | octetLeading => "found an incorrect leading UTF-8 octet"
  | octetTrailing => "found an incorrect trailing UTF-8 octet"
  | anchorName => "did not find expected alphabetic or numeric character"
  | zeroIndentation => "found an indentation indicator equal to 0"
  | tabInIndentation => "found a tab character where an indentation space is expected"
  | tabViolatesIndentation => "found a tab character that violates indentation"
  | documentMark => "found unexpected document indicator"
  | endOfText => "found unexpected end of stream"
  | unknownEscape => "found unknown escape character"
  | notHexadecimal => "did not find expected hexdecimal number"
  | noCharacter => "found invalid Unicode character escape code"
  | colonInFlow => "found unexpected ':'"
  | documentStartMissing => "did not find expected <document start>"
  | duplicateVersion => "found duplicate %YAML directive"
  | incompatibleVersion => "found incompatible YAML document"
  | duplicateHandle => "found duplicate %TAG directive"
  | undefinedHandle => "found undefined tag handle"
  | contentMissing => "did not find expected node content"
  | dashMissing => "did not find expected '-' indicator"
  | keyMissing => "did not find expected key"
  | listCommaMissing => "did not find expected ',' or ']'"
  | mapCommaMissing => "did not find expected ',' or '\x7d'"

end Problem

inductive Fault where
  | control (offset : Nat)
  | broken (problem : Problem) (place : Mark) (during : Option (Activity × Mark))
  | unknownAnchor (place : Mark)
  deriving DecidableEq

namespace Fault

def message : Fault → String
  | control offset =>
    "control characters are not allowed" ++
      (if offset = 0 then "" else " at position " ++ toString offset)
  | broken problem place during =>
    problem.phrase ++ place.suffix ++
      match during with
      | none => ""
      | some (activity, since) =>
        ", " ++ activity.phrase ++
          (if since.line = place.line && since.column = place.column then "" else since.suffix)
  | unknownAnchor place => "unknown anchor" ++ place.suffix

end Fault
end Yaml
end Lineage
