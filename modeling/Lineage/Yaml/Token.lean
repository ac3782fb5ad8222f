import Lineage.Yaml.Fault

/-
Tokens of a YAML text.
-/

namespace Lineage
namespace Yaml

inductive Style where
  | plain
  | singleQuoted
  | doubleQuoted
  | literal
  | folded
  deriving DecidableEq

/-- Block collections have no closing character of their own; they end where the
indentation does. -/
inductive Token where
  | versionDirective (major minor : Nat)
  /-- A short name for the front part of tags. -/
  | tagDirective (handle lead : String)
  | documentStart
  | documentEnd
  | blockSequence
  | blockMapping
  | blockEnd
  | flowSequence
  | flowSequenceEnd
  | flowMapping
  | flowMappingEnd
  | entry
  | comma
  | key
  | value
  | reference (name : String)
  | anchor (name : String)
  | tag (handle suffix : String)
  | scalar (text : String) (style : Style)
  | endOfText
  deriving DecidableEq

structure Located where
  token : Token
  start : Mark
  stop : Mark

/-! ### Characters -/

/-- A line break: line feed, carriage return, next line, and the two Unicode
separators. -/
def isBreak (c : Char) : Bool :=
  c = '\n' || c = '\r' || c = '\u0085' || c = '\u2028' || c = '\u2029'

def isBlank (c : Char) : Bool := c = ' ' || c = '\t'

def isBlankOrBreak (c : Char) : Bool := isBlank c || isBreak c

def isNameChar (c : Char) : Bool := c.isAlphanum || c = '_' || c = '-'

def isTagChar (c : Char) : Bool :=
  isNameChar c || [';', '/', '?', ':', '@', '&', '=', '+', '$', '.', '%', '!', '~', '*', '\'', '(',
    ')'].contains c

def isUriChar (c : Char) : Bool := isTagChar c || c = ',' || c = '[' || c = ']'

/-- The characters that no plain scalar starts with, unless what follows them
says otherwise. -/
def isIndicator (c : Char) : Bool :=
  ['-', '?', ':', ',', '[', ']', '\x7b', '\x7d', '#', '&', '*', '!', '|', '>', '\'', '"', '%', '@',
    '\x60'].contains c

def isFlowIndicator (c : Char) : Bool :=
  [',', '[', ']', '\x7b', '\x7d'].contains c

def isAllowed (c : Char) : Bool :=
  let n := c.toNat
  n = 0x9 || n = 0xA || n = 0xD || (0x20 ≤ n && n ≤ 0x7E) || n = 0x85 ||
    (0xA0 ≤ n && n ≤ 0xD7FF) || (0xE000 ≤ n && n ≤ 0xFFFD) || 0x10000 ≤ n

/-! ### Reading characters -/

structure Cursor where
  rest : List Char
  mark : Mark

namespace Cursor

def peek (c : Cursor) : Option Char := c.rest.head?

def ahead (c : Cursor) (n : Nat) : Option Char := c.rest[n]?

def advance : Cursor → Cursor
  | ⟨[], m⟩ => ⟨[], m⟩
  | ⟨_ :: rest, m⟩ => ⟨rest, ⟨m.index + 1, m.line, m.column + 1⟩⟩

def skip : Nat → Cursor → Cursor
  | 0, c => c
  | n + 1, c => skip n c.advance

/-- Take a line break.  All but the Unicode separators stand for a line feed; a
carriage return and a line feed are one break. -/
def takeBreak? (c : Cursor) : Option (String × Cursor) :=
  let next (n : Nat) : Mark := ⟨c.mark.index + n, c.mark.line + 1, 0⟩
  match c.rest with
  | '\r' :: '\n' :: rest => some ("\n", ⟨rest, next 2⟩)
  | x :: rest =>
    if x = '\u2028' || x = '\u2029' then some (x.toString, ⟨rest, next 1⟩)
    else if isBreak x then some ("\n", ⟨rest, next 1⟩)
    else none
  | [] => none

def takeWhile (p : Char → Bool) (c : Cursor) : String × Cursor :=
  go c.rest c.mark ""
where
  go : List Char → Mark → String → String × Cursor
    | [], m, run => (run, ⟨[], m⟩)
    | x :: rest, m, run =>
      if p x then go rest ⟨m.index + 1, m.line, m.column + 1⟩ (run.push x)
      else (run, ⟨x :: rest, m⟩)

def skipBlanks (c : Cursor) : Cursor := (c.takeWhile isBlank).2

def skipLine (c : Cursor) : Cursor := (c.takeWhile fun x => !isBreak x).2

def endsAt (c : Cursor) (n : Nat) : Bool := (c.ahead n).all isBlankOrBreak

def atDocumentMark (c : Cursor) : Bool :=
  c.mark.column = 0 && (c.rest.take 3 = ['-', '-', '-'] || c.rest.take 3 = ['.', '.', '.']) &&
    c.endsAt 3

/-- Skip the comment at the end of a line; nothing else may stand there. -/
def skipLineEnd? (c : Cursor) : Option Cursor :=
  let c := c.skipBlanks
  let c := if c.peek = some '#' then c.skipLine else c
  match c.takeBreak? with
  | some (_, c) => some c
  | none => if c.rest.isEmpty then some c else none

end Cursor
end Yaml
end Lineage
