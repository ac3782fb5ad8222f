import Lineage.Decimal
import Lineage.Fault

/-
Reading JSON text.

A fault carries the place where the reader stood, counted in bytes within a
line.  A value of the wrong shape is reported by the innermost container around
it, after that container tried to read its own end.
-/

namespace Lineage
namespace Json

inductive Cause where
  | endOfList
  | endOfObject
  | endOfString
  | endOfValue
  | expectedColon
  | expectedListComma
  | expectedObjectComma
  | expectedIdent
  | expectedValue
  | invalidEscape
  | invalidNumber
  | numberOutOfRange
  | controlCharacter
  | keyNotString
  | loneSurrogate
  | unfinishedSurrogate
  | trailingComma
  | trailingCharacters
  /-- A value of another type; what was found is described in words. -/
  | invalidType (found expected : String)
  | invalidLength (length : Nat) (expected : String)
  | missingField (name : String)
  | duplicateField (name : String)
  | emptyName
  deriving DecidableEq

namespace Cause

def message : Cause → String
  | endOfList => "EOF while parsing a list"
  | endOfObject => "EOF while parsing an object"
  | endOfString => "EOF while parsing a string"
  | endOfValue => "EOF while parsing a value"
  | expectedColon => "expected `:`"
  | expectedListComma => "expected `,` or `]`"
  | expectedObjectComma => "expected `,` or `\x7d`"
  | expectedIdent => "expected ident"
  | expectedValue => "expected value"
  | invalidEscape => "invalid escape"
  | invalidNumber => "invalid number"
  | numberOutOfRange => "number out of range"
  | controlCharacter => "control character (\\u0000-\\u001F) found while parsing a string"
  | keyNotString => "key must be a string"
  | loneSurrogate => "lone leading surrogate in hex escape"
  | unfinishedSurrogate => "unexpected end of hex escape"
  | trailingComma => "trailing comma"
  | trailingCharacters => "trailing characters"
  | invalidType found expected => "invalid type: " ++ found ++ ", expected " ++ expected
  | invalidLength length expected =>
    "invalid length " ++ toString length ++ ", expected " ++ expected
  | missingField name => "missing field `" ++ name ++ "`"
  | duplicateField name => "duplicate field `" ++ name ++ "`"
  | emptyName => "qualified name must not be empty"

end Cause

/-- A line, counted from one, and the number of bytes before a place in it. -/
structure Place where
  line : Nat
  column : Nat
  deriving DecidableEq

structure Fault where
  cause : Cause
  place : Option Place
  deriving DecidableEq

def Fault.message (f : Fault) : String :=
  match f.place with
  | none => f.cause.message
  | some p =>
    f.cause.message ++ " at line " ++ toString p.line ++ " column " ++ toString p.column

structure Cursor where
  rest : List Char
  place : Place

namespace Cursor

def ofString (s : String) : Cursor := ⟨s.toList, ⟨1, 0⟩⟩

def after (p : Place) (c : Char) : Place :=
  if c = '\n' then ⟨p.line + 1, 0⟩ else ⟨p.line, p.column + c.utf8Size⟩

def advance (c : Cursor) : Cursor :=
  match c.rest with
  | [] => c
  | x :: rest => ⟨rest, after c.place x⟩

/-- The place after the first byte of what comes next. -/
def peekPlace (c : Cursor) : Place :=
  match c.rest with
  | [] => c.place
  | '\n' :: _ => ⟨c.place.line + 1, 0⟩
  | _ => ⟨c.place.line, c.place.column + 1⟩

def isSpace (c : Char) : Bool := c = ' ' || c = '\n' || c = '\t' || c = '\r'

def skipSpaces (c : Cursor) : Cursor :=
  go c.rest c.place
where
  go : List Char → Place → Cursor
    | [], p => ⟨[], p⟩
    | x :: rest, p => if isSpace x then go rest (after p x) else ⟨x :: rest, p⟩

end Cursor

/-- A reader moves the cursor also when it fails. -/
abbrev Reader := ExceptT Fault (StateM Cursor)

namespace Reader

variable {α : Type}

def fail (cause : Cause) : Reader α := do throw ⟨cause, some (← get).place⟩

def failAhead (cause : Cause) : Reader α := do throw ⟨cause, some (← get).peekPlace⟩

/-- Fail at a place that a container fills in. -/
def failInside (cause : Cause) : Reader α := throw ⟨cause, none⟩

/-- Give a fault without a place the place where the cursor stands now. -/
def located (r : Reader α) : Reader α := fun c =>
  match r c with
  | (.error ⟨cause, none⟩, c) => (.error ⟨cause, some c.place⟩, c)
  | result => result

/-- Read the end of a container after its content, also after bad content.  The
fault of the content goes first. -/
def thenEnd (content : Reader α) (ending : Reader Unit) : Reader α := fun c =>
  match content c with
  | (.error f, c) => (.error f, (ending c).2)
  | (.ok a, c) =>
    match ending c with
    | (.ok (), c) => (.ok a, c)
    | (.error f, c) => (.error f, c)

/-- The next character that is no white space. -/
def peek : Reader (Option Char) := do
  modify Cursor.skipSpaces
  return (← get).rest.head?

def advance : Reader Unit := modify Cursor.advance

def next? : Reader (Option Char) := do
  let c ← get
  set c.advance
  return c.rest.head?

def ident : List Char → Reader Unit
  | [] => return ()
  | expected :: more => do
    match ← next? with
    | none => fail .endOfValue
    | some c => if c = expected then ident more else fail .expectedIdent

def hexDigit? (c : Char) : Option Nat :=
  if '0' ≤ c ∧ c ≤ '9' then some (c.toNat - 48)
  else if 'a' ≤ c ∧ c ≤ 'f' then some (c.toNat - 87)
  else if 'A' ≤ c ∧ c ≤ 'F' then some (c.toNat - 55)
  else none

def hexFour : Reader Nat := do
  let c ← get
  match c.rest with
  | a :: b :: x :: y :: rest =>
    set (Cursor.mk rest ([a, b, x, y].foldl Cursor.after c.place))
    match hexDigit? a, hexDigit? b, hexDigit? x, hexDigit? y with
    | some a, some b, some x, some y => return ((a * 16 + b) * 16 + x) * 16 + y
    | _, _, _, _ => fail .invalidEscape
  | rest =>
    set (Cursor.mk [] (rest.foldl Cursor.after c.place))
    fail .endOfString

/-- The second half of an escaped character outside the basic plane, after the
first half `high`. -/
def lowSurrogate (high : Nat) : Reader Char := do
  for expected in ['\\', 'u'] do
    match ← next? with
    | none => fail .endOfString
    | some c => if c ≠ expected then fail .unfinishedSurrogate
  let low ← hexFour
  if low < 0xDC00 || 0xDFFF < low then fail .loneSurrogate
  return Char.ofNat ((high - 0xD800) * 1024 + (low - 0xDC00) + 0x10000)

def escaped : Reader Char := do
  match ← next? with
  | none => fail .endOfString
  | some '"' => return '"'
  | some '\\' => return '\\'
  | some '/' => return '/'
  | some 'b' => return '\x08'
  | some 'f' => return '\x0c'
  | some 'n' => return '\n'
  | some 'r' => return '\r'
  | some 't' => return '\t'
  | some 'u' =>
    let n ← hexFour
    if 0xDC00 ≤ n && n ≤ 0xDFFF then fail .loneSurrogate
    else if 0xD800 ≤ n && n ≤ 0xDBFF then lowSurrogate n
    else return Char.ofNat n
  | some _ => fail .invalidEscape

/-- The characters of a string after its opening quote; `limit` bounds how many
there can be. -/
def stringFrom (limit : Nat) (done : List Char) : Reader String := do
  match limit with
  | 0 => fail .endOfString
  | limit + 1 =>
    match ← next? with
    | none => fail .endOfString
    | some '"' => return String.ofList done.reverse
    | some '\\' => stringFrom limit ((← escaped) :: done)
    | some c => if c.toNat < 32 then fail .controlCharacter else stringFrom limit (c :: done)

def stringBody : Reader String := do
  stringFrom ((← get).rest.length + 1) []

def digits : Reader (List Char) := do
  let c ← get
  let taken := c.rest.takeWhile Char.isDigit
  set (Cursor.mk (c.rest.drop taken.length) ⟨c.place.line, c.place.column + taken.length⟩)
  return taken

/-- What comes next, white space included. -/
def ahead : Reader (Option Char) := return (← get).rest.head?

/-- The text of a number with a fraction or an exponent, or too large for an
integer. -/
def floating (negative : Bool) (mantissa : Nat) (exponent : Int) : Reader String := do
  let f := Decimal.nearest mantissa exponent
  if f.isInf then fail .numberOutOfRange
  let text := if f.toBits = 0 then "0.0" else (Decimal.shortest f.toBits).compact
  return "floating point `" ++ (if negative then "-" else "") ++ text ++ "`"

def number (negative : Bool) : Reader String := do
  match ← ahead with
  | none =>
    fail .endOfValue
  | some first =>
    if !first.isDigit then
      advance
      fail .invalidNumber
    let whole ← if first = '0' then do advance; pure ['0'] else digits
    if first = '0' && (← ahead).any Char.isDigit then failAhead .invalidNumber
    let fraction ← if (← ahead) = some '.' then do
        advance
        let ds ← digits
        if ds.isEmpty then
          failAhead (if (← ahead).isNone then .endOfValue else .invalidNumber)
        pure (some ds)
      else pure none
    let exponent ← if (← ahead) = some 'e' || (← ahead) = some 'E' then do
        advance
        let minus := (← ahead) = some '-'
        if minus || (← ahead) = some '+' then advance
        let ds ← digits
        if ds.isEmpty then
          match ← next? with
          | none => fail .endOfValue
          | some _ => fail .invalidNumber
        pure (some (if minus then -(Decimal.ofDigits ds : Int) else Decimal.ofDigits ds))
      else pure none
    let n := Decimal.ofDigits whole
    match fraction, exponent with
    | none, none =>
      if negative then
        if n = 0 || Decimal.wordCount / 2 < n then floating true n 0 else return "integer `-" ++ toString n ++ "`"
      else if Decimal.wordCount ≤ n then floating false n 0
      else return "integer `" ++ toString n ++ "`"
    | _, _ =>
      let ds := fraction.getD []
      floating negative (Decimal.ofDigits (whole ++ ds)) (exponent.getD 0 - ds.length)

def wrongType (expected : String) : Reader α := located do
  match ← ahead with
  | some 'n' => advance; ident ['u', 'l', 'l']; failInside (.invalidType "null" expected)
  | some 't' =>
    advance; ident ['r', 'u', 'e']; failInside (.invalidType "boolean `true`" expected)
  | some 'f' =>
    advance; ident ['a', 'l', 's', 'e']; failInside (.invalidType "boolean `false`" expected)
  | some '-' => advance; failInside (.invalidType (← number true) expected)
  | some '"' =>
    advance
    let s ← stringBody
    failInside (.invalidType ("string " ++ Text.quoted s) expected)
  | some '[' => failInside (.invalidType "sequence" expected)
  | some '\x7b' => failInside (.invalidType "map" expected)
  | some c =>
    if c.isDigit then failInside (.invalidType (← number false) expected)
    else failAhead .expectedValue
  | none => failAhead .expectedValue

def endList : Reader Unit := do
  match ← peek with
  | some ']' => advance
  | some ',' =>
    advance
    failAhead (if (← peek) = some ']' then .trailingComma else .trailingCharacters)
  | some _ => failAhead .trailingCharacters
  | none => failAhead .endOfList

def endObject : Reader Unit := do
  match ← peek with
  | some '\x7d' => advance
  | some ',' => failAhead .trailingComma
  | some _ => failAhead .trailingCharacters
  | none => failAhead .endOfObject

/-- Whether a list goes on; a comma is taken except before the first item. -/
def moreItems (first : Bool) : Reader Bool := do
  match ← peek with
  | none => failAhead .endOfList
  | some ']' => return false
  | some c =>
    if first then return true
    if c ≠ ',' then failAhead .expectedListComma
    advance
    match ← peek with
    | some ']' => failAhead .trailingComma
    | some _ => return true
    | none => failAhead .endOfValue

def moreMembers (first : Bool) : Reader Bool := do
  match ← peek with
  | none => failAhead .endOfObject
  | some '\x7d' => return false
  | some c =>
    if first then
      if c ≠ '"' then failAhead .keyNotString
      return true
    if c ≠ ',' then failAhead .expectedObjectComma
    advance
    match ← peek with
    | some '"' => return true
    | some '\x7d' => failAhead .trailingComma
    | some _ => failAhead .keyNotString
    | none => failAhead .endOfValue

def colon : Reader Unit := do
  match ← peek with
  | some ':' => advance
  | some _ => failAhead .expectedColon
  | none => failAhead .endOfObject

/-- Skip an unknown value.  `opened` holds the brackets that are open, innermost
first, and each round takes at least one character. -/
def skipFrom (limit : Nat) (opened : List Char) : Reader Unit := do
  match limit with
  | 0 => return ()
  | limit + 1 =>
    match ← peek with
    | none => failAhead .endOfValue
    | some 'n' => advance; ident ['u', 'l', 'l']; skipEnd limit opened
    | some 't' => advance; ident ['r', 'u', 'e']; skipEnd limit opened
    | some 'f' => advance; ident ['a', 'l', 's', 'e']; skipEnd limit opened
    | some '-' => advance; discard (number true); skipEnd limit opened
    | some '"' => advance; discard stringBody; skipEnd limit opened
    | some '[' =>
      advance
      match ← peek with
      | some ']' => advance; skipEnd limit opened
      | none => failAhead .endOfList
      | some _ => skipFrom limit (']' :: opened)
    | some '\x7b' =>
      advance
      match ← peek with
      | some '\x7d' => advance; skipEnd limit opened
      | none => failAhead .endOfObject
      | some _ => skipKey limit ('\x7d' :: opened)
    | some c =>
      if c.isDigit then discard (number false); skipEnd limit opened
      else failAhead .expectedValue
where
  skipKey (limit : Nat) (opened : List Char) : Reader Unit := do
    match limit with
    | 0 => return ()
    | limit + 1 =>
      match ← peek with
      | some '"' => advance
      | some _ => failAhead .keyNotString
      | none => failAhead .endOfObject
      discard stringBody
      colon
      skipFrom limit opened
  /-- After a value: the ends of containers, or a comma and the next value. -/
  skipEnd (limit : Nat) (opened : List Char) : Reader Unit := do
    match limit, opened with
    | _, [] => return ()
    | 0, _ => return ()
    | limit + 1, closing :: outer =>
      match ← peek with
      | none => failAhead (if closing = ']' then .endOfList else .endOfObject)
      | some c =>
        if c = closing then advance; skipEnd limit outer
        else if c = ',' then
          advance
          if closing = ']' then skipFrom limit opened else skipKey limit opened
        else failAhead (if closing = ']' then .expectedListComma else .expectedObjectComma)

def skip : Reader Unit := do
  skipFrom (3 * (← get).rest.length + 3) []

/-- Read a whole text: nothing but white space may follow the value. -/
def whole (r : Reader α) (text : String) : Except Fault α :=
  let all : Reader α := do
    let a ← r
    match ← peek with
    | none => return a
    | some _ => failAhead .trailingCharacters
  (all (Cursor.ofString text)).1

end Reader
end Json

end Lineage
