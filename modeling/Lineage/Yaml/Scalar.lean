import Lineage.Yaml.Token

/-
The texts of scalars in their three written forms: plain, quoted and block.

Lines of a plain or quoted scalar are folded: a single line break stands for a
space, and of several breaks all but the first are kept.
-/

namespace Lineage
namespace Yaml

/-- White space between two words of a scalar.  Once it holds a line break, its
blanks do not count. -/
structure Gap where
  blanks : String
  folded : Bool
  first : String
  more : String

namespace Gap

def none : Gap := ⟨"", false, "", ""⟩

def joined : Gap := ⟨"", true, "", ""⟩

def add (g : Gap) (lineBreak : String) : Gap :=
  if g.folded then { g with more := g.more ++ lineBreak } else ⟨"", true, lineBreak, ""⟩

def text (g : Gap) : String :=
  if !g.folded then g.blanks
  else if g.first = "\n" then if g.more.isEmpty then " " else g.more
  else g.first ++ g.more

end Gap

/-- Read on in a gap.  No tab may stand in front of column `inside` of a further
line; the place of one that does is the error. -/
def takeGap (inside : Nat) : Nat → Cursor → Gap → Except Mark (Gap × Cursor)
  | 0, c, g => .ok (g, c)
  | limit + 1, c, g =>
    match c.takeBreak? with
    | some (lineBreak, c) => takeGap inside limit c (g.add lineBreak)
    | none =>
      match c.peek with
      | none => .ok (g, c)
      | some x =>
        if !isBlank x then .ok (g, c)
        else if g.folded then
          if x = '\t' && c.mark.column < inside then .error c.mark
          else takeGap inside limit c.advance g
        else takeGap inside limit c.advance { g with blanks := g.blanks.push x }

/-! ### Plain scalars -/

/-- A word of a plain scalar.  Between flow brackets a colon must not stand right
in front of an indicator; the place of one that does is the error. -/
def plainWord (inFlow : Bool) : List Char → Mark → String → Except Mark (String × Cursor)
  | [], m, word => .ok (word, ⟨[], m⟩)
  | x :: rest, m, word =>
    let next := rest.head?
    if isBlankOrBreak x then .ok (word, ⟨x :: rest, m⟩)
    else if inFlow && x = ':' && next.any fun y => isFlowIndicator y || y = '?' then .error m
    else if (x = ':' && next.all isBlankOrBreak) || (inFlow && isFlowIndicator x) then
      .ok (word, ⟨x :: rest, m⟩)
    else plainWord inFlow rest ⟨m.index + 1, m.line, m.column + 1⟩ (word.push x)

structure PlainText where
  text : String
  rest : Cursor
  folded : Bool

/-- The words of a plain scalar.  Outside of flow brackets further lines must
reach column `inside`. -/
def plainFrom (inFlow : Bool) (inside : Nat) (opened : Mark) :
    Nat → Cursor → Gap → String → Except Fault PlainText
  | 0, c, gap, text => .ok ⟨text, c, gap.folded⟩
  | limit + 1, c, gap, text =>
    let fault (problem : Problem) (m : Mark) : Fault :=
      .broken problem m (some (.plainScalar, opened))
    if c.atDocumentMark || c.peek = some '#' then .ok ⟨text, c, gap.folded⟩
    else
      match plainWord inFlow c.rest c.mark "" with
      | .error m => .error (fault .colonInFlow m)
      | .ok (word, c) =>
        let text := if word.isEmpty then text else text ++ gap.text ++ word
        let gap := if word.isEmpty then gap else .none
        if !c.peek.any isBlankOrBreak then .ok ⟨text, c, gap.folded⟩
        else
          match takeGap inside (c.rest.length + 1) c gap with
          | .error m => .error (fault .tabViolatesIndentation m)
          | .ok (gap, c) =>
            if !inFlow && c.mark.column < inside then .ok ⟨text, c, gap.folded⟩
            else plainFrom inFlow inside opened limit c gap text

/-! ### Quoted scalars -/

def escapeOf? (x : Char) : Option Char :=
  match x with
  | '0' => some '\x00'
  | 'a' => some '\x07'
  | 'b' => some '\x08'
  | 't' | '\t' => some '\t'
  | 'n' => some '\n'
  | 'v' => some '\x0b'
  | 'f' => some '\x0c'
  | 'r' => some '\r'
  | 'e' => some '\x1b'
  | ' ' | '"' | '/' | '\\' => some x
  | 'N' => some '\u0085'
  | '_' => some '\u00a0'
  | 'L' => some '\u2028'
  | 'P' => some '\u2029'
  | _ => none

def escapeLength? (x : Char) : Option Nat :=
  match x with
  | 'x' => some 2
  | 'u' => some 4
  | 'U' => some 8
  | _ => none

def hexDigit? (c : Char) : Option Nat :=
  if c.isDigit then some (c.toNat - 48)
  else if 'a' ≤ c && c ≤ 'f' then some (c.toNat - 87)
  else if 'A' ≤ c && c ≤ 'F' then some (c.toNat - 55)
  else none

def hexNumber? (digits : List Char) : Option Nat :=
  digits.foldl (fun n? c => n?.bind fun n => (hexDigit? c).map (16 * n + ·)) (some 0)

def codePoint (count : Nat) (c : Cursor) : Except Problem (Char × Cursor) :=
  let digits := c.rest.take count
  match if digits.length = count then hexNumber? digits else none with
  | none => .error .notHexadecimal
  | some n => if n.isValidChar then .ok (Char.ofNat n, c.skip count) else .error .noCharacter

/-- A word between quotes: it ends with white space or the closing quote.  An
escaped line break ends it too, and the gap behind it is joined. -/
def quotedWord (quote : Char) (opened : Mark) :
    Nat → Cursor → String → Except Fault (String × Gap × Cursor)
  | 0, c, word => .ok (word, .none, c)
  | limit + 1, c, word =>
    let fault (problem : Problem) (m : Mark) : Fault :=
      .broken problem m (some (.quotedEscape, opened))
    match c.peek with
    | none => .ok (word, .none, c)
    | some x =>
      if isBlankOrBreak x then .ok (word, .none, c)
      else if x = quote then
        if quote = '\'' && c.ahead 1 = some '\'' then
          quotedWord quote opened limit (c.skip 2) (word.push '\'')
        else .ok (word, .none, c)
      else if quote = '"' && x = '\\' then
        match c.advance.takeBreak? with
        | some (_, c) => .ok (word, .joined, c)
        | none =>
          match c.ahead 1 with
          | none => .error (fault .unknownEscape c.mark)
          | some letter =>
            match escapeOf? letter, escapeLength? letter with
            | some y, _ => quotedWord quote opened limit (c.skip 2) (word.push y)
            | none, some count =>
              match codePoint count (c.skip 2) with
              | .ok (y, c) => quotedWord quote opened limit c (word.push y)
              | .error problem => .error (fault problem (c.skip 2).mark)
            | none, none => .error (fault .unknownEscape c.mark)
      else quotedWord quote opened limit c.advance (word.push x)

def quotedFrom (quote : Char) (opened : Mark) :
    Nat → Cursor → String → Except Fault (String × Cursor)
  | 0, c, text => .ok (text, c)
  | limit + 1, c, text => do
    let fault (problem : Problem) : Fault :=
      .broken problem c.mark (some (.quotedScalar, opened))
    if c.atDocumentMark then throw (fault .documentMark)
    if c.rest.isEmpty then throw (fault .endOfText)
    let (word, gap, c) ← quotedWord quote opened (c.rest.length + 1) c ""
    let text := text ++ word
    if c.peek = some quote then return (text, c.advance)
    -- No tab stands in front of column zero.
    let (gap, c) := (takeGap 0 (c.rest.length + 1) c gap).toOption.getD (gap, c)
    quotedFrom quote opened limit c (text ++ gap.text)

/-! ### Block scalars -/

inductive Chomping where
  | strip
  | clip
  | keep
  deriving DecidableEq

/-- The header of a block scalar behind its first character: chomping and
indentation in either order, then nothing but a comment. -/
def blockHeader (opened : Mark) (c : Cursor) : Except Fault (Chomping × Nat × Cursor) := do
  let fault (problem : Problem) (c : Cursor) : Fault :=
    .broken problem c.mark (some (.blockScalar, opened))
  let chomping? (c : Cursor) : Option (Chomping × Cursor) :=
    match c.peek with
    | some '+' => some (.keep, c.advance)
    | some '-' => some (.strip, c.advance)
    | _ => none
  let indentation (c : Cursor) : Except Fault (Nat × Cursor) :=
    match c.peek with
    | some x =>
      if x = '0' then .error (fault .zeroIndentation c)
      else if x.isDigit then .ok (x.toNat - 48, c.advance)
      else .ok (0, c)
    | none => .ok (0, c)
  let (chomping, increment, c) ←
    match chomping? c with
    | some (chomping, c) => do
      let (increment, c) ← indentation c
      pure (chomping, increment, c)
    | none => do
      let (increment, c) ← indentation c
      match if increment = 0 then none else chomping? c with
      | some (chomping, c) => pure (chomping, increment, c)
      | none => pure (.clip, increment, c)
  let commentEnd := c.skipBlanks
  let commentEnd := if commentEnd.peek = some '#' then commentEnd.skipLine else commentEnd
  match c.skipLineEnd? with
  | some c => return (chomping, increment, c)
  | none => throw (fault .headerNotEnded commentEnd)

/-- Skip the indentation of a block scalar and its empty lines.  While the
indentation is unknown, which zero says, the deepest line decides it. -/
def blockBreaks (opened : Mark) (outside : Nat) (indent : Nat) :
    Nat → Nat → Cursor → String → Except Fault (Nat × String × Cursor)
  | 0, _, c, breaks => .ok (indent, breaks, c)
  | limit + 1, deepest, c, breaks =>
    let spaces := (c.rest.takeWhile (· = ' ')).length
    let c := c.skip (if indent = 0 then spaces else min spaces (indent - c.mark.column))
    let deepest := max deepest c.mark.column
    if (indent = 0 || c.mark.column < indent) && c.peek = some '\t' then
      .error (.broken .tabInIndentation c.mark (some (.blockScalar, opened)))
    else
      match c.takeBreak? with
      | some (lineBreak, c) =>
        blockBreaks opened outside indent limit deepest c (breaks ++ lineBreak)
      | none => .ok (if indent = 0 then max deepest (max outside 1) else indent, breaks, c)

/-- The lines of a block scalar.  A folded one joins two lines that both start
with text. -/
def blockLines (literal : Bool) (chomping : Chomping) (opened : Mark) (indent : Nat) :
    Nat → Cursor → String → (lastBreak : String) → (lastIndented : Bool) → (breaks : String) →
      Except Fault (String × Cursor)
  | 0, c, text, _, _, _ => .ok (text, c)
  | limit + 1, c, text, lastBreak, lastIndented, breaks =>
    if c.mark.column = indent && !c.rest.isEmpty then
      let indented := c.peek.any isBlank
      let joint :=
        if !literal && lastBreak = "\n" && !lastIndented && !indented then
          if breaks.isEmpty then " " else breaks
        else lastBreak ++ breaks
      let (line, c) := c.takeWhile fun x => !isBreak x
      let (lineBreak, c) := (c.takeBreak?).getD ("", c)
      match blockBreaks opened 0 indent (c.rest.length + 1) 0 c "" with
      | .error fault => .error fault
      | .ok (_, breaks, c) =>
        blockLines literal chomping opened indent limit c (text ++ joint ++ line) lineBreak indented
          breaks
    else
      match chomping with
      | .strip => .ok (text, c)
      | .clip => .ok (text ++ lastBreak, c)
      | .keep => .ok (text ++ lastBreak ++ breaks, c)

/-- A block scalar behind its first character.  Its lines must be indented to
column `outside` at least. -/
def blockText (literal : Bool) (opened : Mark) (outside : Nat) (c : Cursor) :
    Except Fault (String × Cursor) := do
  let (chomping, increment, c) ← blockHeader opened c
  let indent := if increment = 0 then 0 else outside - 1 + increment
  let (indent, breaks, c) ← blockBreaks opened outside indent (c.rest.length + 1) 0 c ""
  blockLines literal chomping opened indent (c.rest.length + 1) c "" "" false breaks

end Yaml
end Lineage
