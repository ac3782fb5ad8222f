import Lineage.Text.Blank
import Lineage.Yaml.Scalar

/-
Splitting a YAML text into tokens.

What a mapping key starts with is known only when its colon is found.  Until
then the place where a key may have started is kept, and the key's token is put
in there later.  Such a key must end on its line and within 1024 characters.
-/

namespace Lineage
namespace Yaml

/-- A place where a key may have started: its number among the tokens, and
whether nothing but a key can stand there. -/
structure PossibleKey where
  number : Nat
  required : Bool
  mark : Mark

structure Lexing where
  cursor : Cursor
  tokens : Array Located
  /-- The indentations of the open block collections, innermost first. -/
  indents : List Nat
  /-- The possible key of every level of flow brackets, innermost first. -/
  inner : List (Option PossibleKey)
  outer : Option PossibleKey
  keyAllowed : Bool

namespace Lexing

def ofText (text : List Char) : Lexing := ⟨⟨text, .start⟩, #[], [], [], none, true⟩

def mark (s : Lexing) : Mark := s.cursor.mark

def inFlow (s : Lexing) : Bool := !s.inner.isEmpty

/-- The column that further lines of the innermost block collection reach. -/
def inside (s : Lexing) : Nat :=
  match s.indents with
  | [] => 0
  | indent :: _ => indent + 1

def keys (s : Lexing) : List PossibleKey := (s.outer :: s.inner).filterMap id

def key? (s : Lexing) : Option PossibleKey :=
  match s.inner with
  | [] => s.outer
  | key :: _ => key

def setKey (s : Lexing) (key : Option PossibleKey) : Lexing :=
  match s.inner with
  | [] => { s with outer := key }
  | _ :: inner => { s with inner := key :: inner }

def push (s : Lexing) (token : Token) (start : Mark) : Lexing :=
  { s with tokens := s.tokens.push ⟨token, start, s.mark⟩ }

/-- Put a token of no width in front of the token with a given number. -/
def insert (s : Lexing) (number : Nat) (token : Token) (mark : Mark) : Lexing :=
  { s with tokens := (s.tokens.extract 0 number).push ⟨token, mark, mark⟩ ++
      s.tokens.extract number s.tokens.size }

def move (s : Lexing) (cursor : Cursor) : Lexing := { s with cursor }

def pushShort (s : Lexing) (token : Token) (width : Nat) : Lexing :=
  (s.move (s.cursor.skip width)).push token s.mark

def fault (s : Lexing) (problem : Problem) : Fault := .broken problem s.mark none

def keyFault (s : Lexing) (key : PossibleKey) : Fault :=
  .broken .keyWithoutColon s.mark (some (.simpleKey, key.mark))

/-! ### Possible keys -/

def isStale (s : Lexing) (key : PossibleKey) : Bool :=
  key.mark.line < s.mark.line || key.mark.index + 1024 < s.mark.index

def dropStale (s : Lexing) : Except Fault Lexing :=
  match s.keys.find? fun key => key.required && s.isStale key with
  | some key => .error (s.keyFault key)
  | none =>
    let fresh (key : Option PossibleKey) := key.filter (!s.isStale ·)
    .ok { s with outer := fresh s.outer, inner := s.inner.map fresh }

def dropKey (s : Lexing) : Except Fault Lexing :=
  match s.key? with
  | none => .ok s
  | some key => if key.required then .error (s.keyFault key) else .ok (s.setKey none)

def saveKey (s : Lexing) : Except Fault Lexing :=
  if s.keyAllowed then
    let required := !s.inFlow && s.indents.head? = some s.mark.column
    s.dropKey.map (·.setKey (some ⟨s.tokens.size, required, s.mark⟩))
  else .ok s

/-! ### Indentation -/

/-- Start a block collection in a column unless one with this indentation is
open. -/
def indentTo (s : Lexing) (column : Nat) (number : Nat) (token : Token) (mark : Mark) : Lexing :=
  if !s.inFlow && s.inside ≤ column then
    { s.insert number token mark with indents := column :: s.indents }
  else s

def endBlocks (ends : Nat → Bool) (s : Lexing) : Lexing :=
  if s.inFlow then s
  else
    let ended := s.indents.takeWhile ends
    let tokens := ended.foldl (fun tokens _ => tokens.push ⟨.blockEnd, s.mark, s.mark⟩) s.tokens
    { s with tokens, indents := s.indents.drop ended.length }

def unindentTo (s : Lexing) (column : Nat) : Lexing := s.endBlocks (column < ·)

def unindentAll (s : Lexing) : Lexing := s.endBlocks fun _ => true

/-! ### Tokens -/

/-- Skip white space and comments in front of the next token.  A tab counts as
white space only where no key may start. -/
def skipToToken : Nat → Lexing → Lexing
  | 0, s => s
  | limit + 1, s =>
    let c := s.cursor
    let c := if c.mark.index = 0 && c.peek = some '\ufeff' then c.advance else c
    let tabs := s.inFlow || !s.keyAllowed
    let c := (c.takeWhile fun x => x = ' ' || (tabs && x = '\t')).2
    let c := if c.peek = some '#' then c.skipLine else c
    match c.takeBreak? with
    | some (_, c) => skipToToken limit { s with cursor := c, keyAllowed := s.keyAllowed || !s.inFlow }
    | none => s.move c

/-- The end of the text counts as the start of a line of its own. -/
def scanEnd (s : Lexing) : Except Fault Lexing := do
  let m := s.mark
  let m := if m.column = 0 then m else ⟨m.index, m.line + 1, 0⟩
  let s ← ((s.move ⟨[], m⟩).unindentAll).dropKey
  return { s with keyAllowed := false }.push .endOfText m

def versionNumber (opened : Mark) (c : Cursor) : Except Fault (Nat × Cursor) :=
  let during := some (Activity.versionDirective, opened)
  let (digits, after) := c.takeWhile Char.isDigit
  if 9 < digits.length then
    .error (.broken .versionTooLong (c.skip 9).mark during)
  else
    match digits.toNat? with
    | none => .error (.broken .versionMissing after.mark during)
    | some n => .ok (n, after)

def octetCount? (octet : Nat) : Option Nat :=
  if octet < 0x80 then some 1
  else if 0xC0 ≤ octet && octet < 0xE0 then some 2
  else if 0xE0 ≤ octet && octet < 0xF0 then some 3
  else if 0xF0 ≤ octet && octet < 0xF8 then some 4
  else none

def octets (fault : Problem → Cursor → Fault) :
    Nat → Cursor → List Nat → Except Fault (List Nat × Cursor)
  | 0, c, done => .ok (done, c)
  | count + 1, c, done =>
    match c.rest with
    | '%' :: a :: b :: _ =>
      match hexNumber? [a, b] with
      | none => .error (fault .octetMissing c)
      | some n =>
        if n / 64 = 2 then octets fault count (c.skip 3) (done ++ [n])
        else .error (fault .octetTrailing c)
    | _ => .error (fault .octetMissing c)

def escapedChar (fault : Problem → Cursor → Fault) (c : Cursor) : Except Fault (Char × Cursor) :=
  match c.rest with
  | '%' :: a :: b :: _ =>
    match hexNumber? [a, b] with
    | none => .error (fault .octetMissing c)
    | some first =>
      match octetCount? first with
      | none => .error (fault .octetLeading c)
      | some count =>
        match octets fault (count - 1) (c.skip 3) [] with
        | .error f => .error f
        | .ok (more, c) =>
          let lead := if count = 1 then first else first % (1 <<< (7 - count))
          .ok (Char.ofNat (more.foldl (fun n o => 64 * n + o % 64) lead), c)
  | _ => .error (fault .octetMissing c)

def tagChars (isMember : Char → Bool) (fault : Problem → Cursor → Fault) :
    Nat → Cursor → String → Except Fault (String × Cursor)
  | 0, c, text => .ok (text, c)
  | limit + 1, c, text =>
    match c.peek with
    | none => .ok (text, c)
    | some x =>
      if !isMember x then .ok (text, c)
      else if x = '%' then
        match escapedChar fault c with
        | .error f => .error f
        | .ok (y, c) => tagChars isMember fault limit c (text.push y)
      else tagChars isMember fault limit c.advance (text.push x)

/-- The part of a tag behind its handle.  What a mistaken handle holds belongs
to it. -/
def tagSuffix (isMember : Char → Bool) (activity : Activity) (opened : Mark) (head : String)
    (c : Cursor) : Except Fault (String × Cursor) := do
  let fault (problem : Problem) (c : Cursor) : Fault :=
    .broken problem c.mark (some (activity, opened))
  let (text, after) ← tagChars isMember fault (c.rest.length + 1) c ""
  if head.isEmpty && text.isEmpty then throw (fault .uriMissing after)
  return (String.ofList (head.toList.drop 1) ++ text, after)

/-- A handle of tags: a name between exclamation marks, where the name and the
second mark may be missing. -/
def tagHandle (opened : Mark) (inDirective : Bool) (c : Cursor) :
    Except Fault (String × Cursor) := do
  let during := some (if inDirective then Activity.directiveHandle else .tag, opened)
  if c.peek ≠ some '!' then throw (.broken .bangMissing c.mark during)
  let (name, c) := c.advance.takeWhile isNameChar
  if c.peek = some '!' then return ("!" ++ name ++ "!", c.advance)
  else if inDirective && !name.isEmpty then
    throw (.broken .bangMissing c.mark (some (.directiveHandleEnd, opened)))
  else return ("!" ++ name, c)

def scanTagDirective (opened : Mark) (c : Cursor) : Except Fault (Token × Cursor) := do
  let during := some (Activity.tagDirective, opened)
  let (handle, c) ← tagHandle opened true c.skipBlanks
  if !c.peek.any isBlank then throw (.broken .blankMissing c.mark during)
  let (lead, c) ← tagSuffix isUriChar .tagDirectiveUri opened "" c.skipBlanks
  if !c.endsAt 0 then throw (.broken .blankOrBreakMissing c.mark during)
  return (.tagDirective handle lead, c)

def scanVersionDirective (opened : Mark) (c : Cursor) : Except Fault (Token × Cursor) := do
  let (major, c) ← versionNumber opened c.skipBlanks
  if c.peek ≠ some '.' then
    throw (.broken .versionBroken c.mark (some (.versionDirective, opened)))
  let (minor, c) ← versionNumber opened c.advance
  return (.versionDirective major minor, c)

def scanDirective (s : Lexing) : Except Fault Lexing := do
  let s ← s.unindentAll.dropKey
  let opened := s.mark
  let fault (problem : Problem) (c : Cursor) : Fault :=
    .broken problem c.mark (some (.directive, opened))
  let (name, c) := s.cursor.advance.takeWhile isNameChar
  if name.isEmpty then throw (fault .directiveNameMissing c)
  if !c.endsAt 0 then throw (fault .directiveNameBroken c)
  let (token, c) ←
    if name = "YAML" then scanVersionDirective opened c
    else if name = "TAG" then scanTagDirective opened c
    else throw (fault .unknownDirective c)
  let commentEnd := c.skipBlanks
  let commentEnd := if commentEnd.peek = some '#' then commentEnd.skipLine else commentEnd
  match c.skipLineEnd? with
  | none => throw (fault .directiveNotEnded commentEnd)
  | some after =>
    let s := { s with keyAllowed := false }
    return ((s.move c).push token opened).move after

def scanDocumentMark (s : Lexing) : Except Fault Lexing := do
  let s ← s.unindentAll.dropKey
  let token := if s.cursor.peek = some '-' then Token.documentStart else .documentEnd
  return { s with keyAllowed := false }.pushShort token 3

def scanFlowStart (s : Lexing) (token : Token) : Except Fault Lexing := do
  let s ← s.saveKey
  return { s with inner := none :: s.inner, keyAllowed := true }.pushShort token 1

def scanFlowEnd (s : Lexing) (token : Token) : Except Fault Lexing := do
  let s ← s.dropKey
  return { s with inner := s.inner.tail, keyAllowed := false }.pushShort token 1

def scanComma (s : Lexing) : Except Fault Lexing := do
  let s ← s.dropKey
  return { s with keyAllowed := true }.pushShort .comma 1

/-- A dash.  One between flow brackets is left to the grammar. -/
def scanEntry (s : Lexing) : Except Fault Lexing := do
  if !s.inFlow && !s.keyAllowed then throw (s.fault .entryNotAllowed)
  let s ← (s.indentTo s.mark.column s.tokens.size .blockSequence s.mark).dropKey
  return { s with keyAllowed := true }.pushShort .entry 1

def scanKey (s : Lexing) : Except Fault Lexing := do
  if !s.inFlow && !s.keyAllowed then throw (s.fault .keyNotAllowed)
  let s ← (s.indentTo s.mark.column s.tokens.size .blockMapping s.mark).dropKey
  return { s with keyAllowed := !s.inFlow }.pushShort .key 1

/-- A colon: it tells where its key started, or follows a question mark's key. -/
def scanValue (s : Lexing) : Except Fault Lexing :=
  match s.key? with
  | some key =>
    let s := s.insert key.number .key key.mark
    let s := s.indentTo key.mark.column key.number .blockMapping key.mark
    .ok ({ s.setKey none with keyAllowed := false }.pushShort .value 1)
  | none =>
    if !s.inFlow && !s.keyAllowed then .error (s.fault .valueNotAllowed)
    else
      let s := s.indentTo s.mark.column s.tokens.size .blockMapping s.mark
      .ok ({ s with keyAllowed := !s.inFlow }.pushShort .value 1)

def scanAnchor (s : Lexing) (activity : Activity) (token : String → Token) :
    Except Fault Lexing := do
  let s ← s.saveKey
  let opened := s.mark
  let (name, c) := s.cursor.advance.takeWhile isNameChar
  let mayFollow := ['?', ':', ',', ']', '\x7d', '%', '@', '\x60']
  if name.isEmpty || !(c.endsAt 0 || c.peek.any mayFollow.contains) then
    throw (.broken .anchorName c.mark (some (activity, opened)))
  return ({ s with keyAllowed := false }.move c).push (token name) opened

def scanTag (s : Lexing) : Except Fault Lexing := do
  let s ← s.saveKey
  let opened := s.mark
  let during := some (Activity.tag, opened)
  let c := s.cursor
  let (token, c) ←
    if c.ahead 1 = some '<' then do
      let (suffix, c) ← tagSuffix isUriChar .tagUri opened "" (c.skip 2)
      if c.peek ≠ some '>' then throw (.broken .tagNotClosed c.mark during)
      pure (Token.tag "" suffix, c.advance)
    else do
      let (handle, c) ← tagHandle opened false c
      if 1 < handle.length && handle.endsWith "!" then do
        let (suffix, c) ← tagSuffix isTagChar .tagUri opened "" c
        pure (Token.tag handle suffix, c)
      else do
        let (suffix, c) ← tagSuffix isTagChar .tagUri opened handle c
        pure (if suffix.isEmpty then Token.tag "" "!" else Token.tag "!" suffix, c)
  if !(c.endsAt 0 || (s.inFlow && c.peek = some ',')) then
    throw (.broken .blankOrBreakMissing c.mark during)
  return ({ s with keyAllowed := false }.move c).push token opened

def scanBlockScalar (s : Lexing) (literal : Bool) : Except Fault Lexing := do
  let s ← s.dropKey
  let opened := s.mark
  let (text, c) ← blockText literal opened s.inside s.cursor.advance
  let token := Token.scalar text (if literal then .literal else .folded)
  return ({ s with keyAllowed := true }.move c).push token opened

def scanQuoted (s : Lexing) (quote : Char) (style : Style) : Except Fault Lexing := do
  let s ← s.saveKey
  let opened := s.mark
  let c := s.cursor.advance
  let (text, c) ← quotedFrom quote opened (c.rest.length + 1) c ""
  return ({ s with keyAllowed := false }.move c).push (.scalar text style) opened

/-- A plain scalar.  If a line ended behind it, a key may start again. -/
def scanPlain (s : Lexing) : Except Fault Lexing := do
  let s ← s.saveKey
  let opened := s.mark
  let scalar ← plainFrom s.inFlow s.inside opened (s.cursor.rest.length + 1) s.cursor .none ""
  return ({ s with keyAllowed := scalar.folded }.move scalar.rest).push
    (.scalar scalar.text .plain) opened

def scanToken (s : Lexing) : Except Fault Lexing :=
  let c := s.cursor
  let separated := c.endsAt 1
  match c.peek with
  | none => s.scanEnd
  | some x =>
    if c.mark.column = 0 && x = '%' then s.scanDirective
    else if c.atDocumentMark then s.scanDocumentMark
    else if x = '[' then s.scanFlowStart .flowSequence
    else if x = '\x7b' then s.scanFlowStart .flowMapping
    else if x = ']' then s.scanFlowEnd .flowSequenceEnd
    else if x = '\x7d' then s.scanFlowEnd .flowMappingEnd
    else if x = ',' then s.scanComma
    else if x = '-' && separated then s.scanEntry
    else if x = '?' && (s.inFlow || separated) then s.scanKey
    else if x = ':' && (s.inFlow || separated) then s.scanValue
    else if x = '*' then s.scanAnchor .reference .reference
    else if x = '&' then s.scanAnchor .anchor .anchor
    else if x = '!' then s.scanTag
    else if x = '|' && !s.inFlow then s.scanBlockScalar true
    else if x = '>' && !s.inFlow then s.scanBlockScalar false
    else if x = '\'' then s.scanQuoted x .singleQuoted
    else if x = '"' then s.scanQuoted x .doubleQuoted
    else if !(isBlank x || isIndicator x) || x = '-' ||
        (!s.inFlow && (x = '?' || x = ':')) then s.scanPlain
    else .error (.broken .noToken s.mark (some (.nextToken, s.mark)))

def step (s : Lexing) : Except Fault Lexing := do
  let s := s.skipToToken (s.cursor.rest.length + 1)
  let s ← s.dropStale
  (s.unindentTo s.mark.column).scanToken

/-- How many of the tokens no key can be put in front of any more. -/
def settled (s : Lexing) : Nat := s.keys.foldl (fun n key => min n key.number) s.tokens.size

/-- Go on to the end of the text.  If that fails, the tokens that were settled
before the failing step stay. -/
def run : Nat → Lexing → (settled : List Located) → List Located × Option Fault
  | 0, _, settled => (settled, none)
  | limit + 1, s, settled =>
    match s.dropStale with
    | .error fault => (settled, some fault)
    | .ok s =>
      let settled := (s.tokens.extract 0 s.settled).toList
      if (s.tokens.back?.map (·.token)) = some .endOfText then (settled, none)
      else
        match s.step with
        | .error fault => (settled, some fault)
        | .ok s => run limit s settled

end Lexing

def control? : Nat → List Char → Option Nat
  | _, [] => none
  | offset, c :: rest => if isAllowed c then control? (offset + c.utf8Size) rest else some offset

def tokens (text : String) : List Located × Option Fault :=
  let cs := text.toList
  match control? 0 cs with
  | some offset => ([], some (.control offset))
  | none => Lexing.run (cs.length + 2) (.ofText cs) []

end Yaml
end Lineage
