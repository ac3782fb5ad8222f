import Lineage.Sql.Dialect
import Lineage.Sql.Token
import Lineage.Text.Blank

/-
Splitting SQL text into tokens.

White space and comments separate tokens and leave none.  A period is a token
of its own where it cannot belong to a number.
-/

namespace Lineage
namespace Sql

structure Cursor where
  rest : List Char
  place : Place

namespace Cursor

def advance : Cursor → Cursor
  | ⟨[], place⟩ => ⟨[], place⟩
  | ⟨c :: rest, place⟩ => ⟨rest, place.after c⟩

def skip : Nat → Cursor → Cursor
  | 0, c => c
  | n + 1, c => skip n c.advance

def takeWhile (p : Char → Bool) (c : Cursor) : String × Cursor :=
  go c.rest c.place ""
where
  go : List Char → Place → String → String × Cursor
    | [], place, run => (run, ⟨[], place⟩)
    | x :: rest, place, run =>
      if p x then go rest (place.after x) (run.push x) else (run, ⟨x :: rest, place⟩)

/-- The text up to a closing quote, and what follows the quote.  A doubled quote
stands for one, and so does a quote behind a backslash where that escapes. -/
def untilQuote? (quote : Char) (escapes : Bool) (c : Cursor) : Option (String × Cursor) :=
  go c.rest c.place ""
where
  go : List Char → Place → String → Option (String × Cursor)
    | [], _, _ => none
    | x :: y :: rest, place, run =>
      if x = quote then
        if y = quote then go rest ((place.after x).after y) (run.push quote)
        else some (run, ⟨y :: rest, place.after x⟩)
      else if escapes && x = '\\' then go rest ((place.after x).after y) (run.push y)
      else go (y :: rest) (place.after x) (run.push x)
    | [x], place, run => if x = quote then some (run, ⟨[], place.after x⟩) else none

/-- What follows a comment that `depth` openings are inside of, or where the
text ends without its closing. -/
def afterComment (nests : Bool) : Nat → List Char → Place → Except Place Cursor
  | _, [], place => .error place
  | depth, '*' :: '/' :: rest, place =>
    let place := (place.after '*').after '/'
    match depth with
    | 0 | 1 => .ok ⟨rest, place⟩
    | depth + 2 => afterComment nests (depth + 1) rest place
  | depth, '/' :: '*' :: rest, place =>
    if nests then afterComment nests (depth + 1) rest ((place.after '/').after '*')
    else afterComment nests depth ('*' :: rest) (place.after '/')
  | depth, x :: rest, place => afterComment nests depth rest (place.after x)
termination_by _ rest => rest.length

/-- The text in front of the first occurrence of a closing mark, and what
follows the mark. -/
def untilMark? (mark : List Char) : List Char → Place → String → Option (String × Cursor)
  | [], _, _ => none
  | x :: rest, place, run =>
    if mark.isPrefixOf (x :: rest) then some (run, skip mark.length ⟨x :: rest, place⟩)
    else untilMark? mark rest (place.after x) (run.push x)

end Cursor

/-- What came right before, as far as a period depends on it. -/
inductive Before where
  | word
  | period
  | other
  deriving DecidableEq

def operators (d : Dialect) : List String :=
  ["!~~*", "->>", "<=>", "||/", "!~*", "!~~", "~~*", "#>>", "->", "=>", "==", "!=", "!!", "!~",
    "<=", "<>", "<<", "<@", ">=", ">>", "::", ":=", "&&", "^@", "||", "|/", "~*", "~~", "@>",
    "@?", "@@", "#-", "#>"] ++ if d.isPermissive then ["|>", "//"] else []

/-- An operator or a single character.  The two ways to write "not equal" are
one token. -/
def scanSymbol (d : Dialect) (c : Cursor) : Token × Cursor :=
  match (operators d).find? fun o => o.toList.isPrefixOf c.rest with
  | some o => (.symbol (if o = "!=" then "<>" else o), c.skip o.length)
  | none =>
    match c.rest with
    | [] => (.symbol "", c)
    | x :: _ => (.symbol x.toString, c.advance)

def scanWord (d : Dialect) (first : String) (c : Cursor) : Token × Cursor :=
  let (more, c) := c.takeWhile d.continuesIdentifier
  (.word (.plain (first ++ more)), c)

/-- An exponent of a number; a letter without digits behind it is none. -/
def scanExponent (c : Cursor) : String × Cursor :=
  match c.rest with
  | e :: rest =>
    if e = 'e' || e = 'E' then
      let sign := match rest with
        | s :: _ => if s = '+' || s = '-' then s.toString else ""
        | [] => ""
      let (digits, after) := (c.skip (1 + sign.length)).takeWhile Char.isDigit
      if digits.isEmpty then ("", c) else (e.toString ++ sign ++ digits, after)
    else ("", c)
  | [] => ("", c)

def scanNumber (d : Dialect) (before : Before) (c : Cursor) : Token × Cursor :=
  let (whole, c) := c.takeWhile Char.isDigit
  match decide (whole = "0"), c.rest with
  | true, 'x' :: _ =>
    let (digits, c) := c.advance.takeWhile fun x =>
      x.isDigit || ('a' ≤ x && x ≤ 'f') || ('A' ≤ x && x ≤ 'F')
    (.text .hex digits, c)
  | _, _ =>
    let (point, c) := match c.rest with
      | '.' :: _ => (".", c.advance)
      | _ => ("", c)
    if whole.isEmpty && d.digitsStartIdentifier && before = .word then (.symbol ".", c)
    else
      let (fraction, c) := c.takeWhile Char.isDigit
      let mantissa := whole ++ point ++ fraction
      if mantissa = "." then (.symbol ".", c)
      else
        let (exponent, c) := scanExponent c
        let text := mantissa ++ exponent
        let (tail, after) := c.takeWhile d.continuesIdentifier
        if d.digitsStartIdentifier && exponent.isEmpty && !tail.isEmpty then
          (.word (.plain (text ++ tail)), after)
        else if d.digitsStartIdentifier && !exponent.isEmpty && before = .period then
          (.word (.plain text), c)
        else
          match c.rest with
          | 'L' :: _ => (.number text true, c.advance)
          | _ => (.number text false, c)

def scanText (style : TextStyle) (length : Nat) (quote : Char) (escapes : Bool) (c : Cursor) :
    Except SyntaxFault (Token × Cursor) :=
  let opened := c.skip length
  match opened.advance.untilQuote? quote escapes with
  | some (value, after) => .ok (.text style value, after)
  | none =>
    if style = .escaped then .error (.unterminatedEscapes c.place)
    else .error (.unterminatedString opened.place)

def scanQuotedWord (quote : Char) (c : Cursor) : Except SyntaxFault (Token × Cursor) :=
  match c.advance.untilQuote? quote false with
  | some (value, after) => .ok (.word (.quoted quote value), after)
  | none => .error (.unterminatedIdentifier quote c.place)

def Cursor.last (c : Cursor) : Place := c.rest.foldl Place.after c.place

def scanDollar (c : Cursor) : Except SyntaxFault (Token × Cursor) :=
  let (tag, after) := c.takeWhile fun x => Text.isLetter x || x.isDigit || x = '_'
  match after.rest with
  | '$' :: rest =>
    let mark := ('$' :: tag.toList) ++ ['$']
    match Cursor.untilMark? mark rest (after.place.after '$') "" with
    | some (value, after) => .ok (.text (.dollar tag) value, after)
    | none => .error (.unterminatedDollar (!tag.isEmpty) c.last)
  | _ => .ok (.placeholder ("$" ++ tag), after)

/-- The letters that turn a following quote into a literal of some style, with
the number of characters in front of the quote. -/
def literalStyle? (d : Dialect) : List Char → Option (TextStyle × Nat × Char × Bool)
  | x :: '\'' :: _ =>
    if x = 'n' || x = 'N' then some (.national, 1, '\'', false)
    else if x = 'x' || x = 'X' then some (.hex, 1, '\'', true)
    else if !d.isPermissive then none
    else if x = 'b' || x = 'B' then some (.bytes, 1, '\'', false)
    else if x = 'r' || x = 'R' then some (.raw, 1, '\'', false)
    else if x = 'e' || x = 'E' then some (.escaped, 1, '\'', true)
    else none
  | x :: '"' :: _ =>
    if !d.isPermissive then none
    else if x = 'b' || x = 'B' then some (.doubleBytes, 1, '"', false)
    else if x = 'r' || x = 'R' then some (.doubleRaw, 1, '"', false)
    else none
  | x :: '&' :: '\'' :: _ =>
    if d.isPermissive && (x = 'u' || x = 'U') then some (.unicode, 2, '\'', false) else none
  | _ => none

/-- A word that starts with a sign: the sign, whatever character follows, and
what goes on from there. -/
def signWord? (d : Dialect) : List Char → Option String
  | '@' :: '@' :: x :: _ =>
    if d.startsIdentifier '@' && x ≠ ' ' then some (String.ofList ['@', '@', x]) else none
  | '@' :: x :: _ =>
    if d.startsIdentifier '@' && !(['>', '?', '@', ' ', '\'', '"', '\x60'].contains x) then
      some (String.ofList ['@', x])
    else none
  | '#' :: x :: _ =>
    if d.startsIdentifier '#' && !(['-', '>', ' '].contains x) then
      some (String.ofList ['#', x])
    else none
  | _ => none

/-- The next token, or nothing if white space or a comment comes next.  The
text must not be at its end. -/
def scanToken (d : Dialect) (before : Before) (c : Cursor) :
    Except SyntaxFault (Option Token × Cursor) := do
  let some' (r : Token × Cursor) : Option Token × Cursor := (some r.1, r.2)
  match c.rest with
  | [] => return (none, c)
  | x :: rest =>
    if Text.isBlank x then return (none, c.advance)
    else if let some (style, length, quote, escapes) := literalStyle? d c.rest then
      return some' (← scanText style length quote escapes c)
    else if x = '\'' then return some' (← scanText .single 0 '\'' false c)
    else if x = '"' && !d.quotesIdentifier '"' then return some' (← scanText .double 0 '"' false c)
    else if d.quotesIdentifier x then return some' (← scanQuotedWord x c)
    else if x = '.' && rest.head? = some '_' then
      if before = .word then return (some (.symbol "."), c.advance)
      else throw (.strayUnderscore c.place)
    else if x.isDigit || x = '.' then return some' (scanNumber d before c)
    else if x = '-' && rest.head? = some '-' || x = '#' && d.hashComments then
      let (_, c) := c.takeWhile (· ≠ '\n')
      return (none, c.advance)
    else if x = '/' && rest.head? = some '*' then
      let c := c.skip 2
      match Cursor.afterComment d.nestsComments 1 c.rest c.place with
      | .ok c => return (none, c)
      | .error place => throw (.unterminatedComment place)
    else if let some first := signWord? d c.rest then
      return some' (scanWord d first (c.skip first.length))
    else if x = '?' then
      let (digits, c) := c.advance.takeWhile Char.isDigit
      return (some (.placeholder ("?" ++ digits)), c)
    else if d.startsIdentifier x && x ≠ '#' && x ≠ '@' then
      return some' (scanWord d x.toString c.advance)
    else if x = '$' then return some' (← scanDollar c.advance)
    else return some' (scanSymbol d c)

/-- All tokens of a text, with the latest first in `done`.  Every token takes at
least one character, so `limit` is never reached from `tokens`. -/
def tokensFrom (d : Dialect) : Nat → Before → Cursor → List Located →
    Except SyntaxFault (List Located)
  | 0, _, _, done => .ok done.reverse
  | limit + 1, before, c, done =>
    if c.rest.isEmpty then .ok done.reverse
    else
      match scanToken d before c with
      | .error f => .error f
      | .ok (none, after) => tokensFrom d limit .other after done
      | .ok (some token, after) =>
        let before := match token with
          | .word _ => .word
          | .symbol "." => .period
          | _ => .other
        tokensFrom d limit before after (⟨token, c.place⟩ :: done)

def tokens (d : Dialect) (text : String) : Except SyntaxFault (List Located) :=
  tokensFrom d (text.length + 1) .other ⟨text.toList, .start⟩ []

end Sql
end Lineage
