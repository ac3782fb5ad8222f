import Lineage.Text.Blank

/-
Lexemes of a parenthesised tree text.

The scanner takes one character at a time.  White space, which is ASCII here,
and parentheses end a plain atom; a quoted atom runs to its closing quote,
whatever is inside.
-/

namespace Lineage
namespace Hive

inductive Lexeme where
  | opening
  | closing
  /-- An atom as it is spelled, quotes included. -/
  | atom (spelling : String)
  /-- A quoted atom that the text ends in. -/
  | unterminated (quote : Char)
  deriving DecidableEq

/-- A lexeme and its line: the one that it ends on, or for an atom without an
end the one that it starts on. -/
structure Located where
  lexeme : Lexeme
  line : Nat
  deriving DecidableEq

/-- What the scanner is inside of; the latest character of an atom comes
first. -/
inductive Inside where
  | nothing
  | plain (atom : List Char)
  | quoted (quote : Char) (opened : Nat) (atom : List Char)
  | escaped (quote : Char) (opened : Nat) (atom : List Char)

/-- The scanner between two characters; the latest lexeme comes first. -/
structure Scanner where
  inside : Inside
  line : Nat
  done : List Located

namespace Scanner

def start : Scanner := ⟨.nothing, 1, []⟩

def isQuote (c : Char) : Bool := c = '\'' || c = '"' || c = '\x60'

def spell (atom : List Char) : String := String.ofList atom.reverse

def between (line : Nat) (done : List Located) (c : Char) : Scanner :=
  if c = '\n' then ⟨.nothing, line + 1, done⟩
  else if Text.isAsciiBlank c then ⟨.nothing, line, done⟩
  else if c = '(' then ⟨.nothing, line, ⟨.opening, line⟩ :: done⟩
  else if c = ')' then ⟨.nothing, line, ⟨.closing, line⟩ :: done⟩
  else if isQuote c then ⟨.quoted c line [c], line, done⟩
  else ⟨.plain [c], line, done⟩

/-- Take one character.  A backslash escapes the next character unless the
quote is a backtick, and an escaped line feed is not counted as a line. -/
def step (s : Scanner) (c : Char) : Scanner :=
  match s with
  | ⟨.nothing, line, done⟩ => between line done c
  | ⟨.plain atom, line, done⟩ =>
    if Text.isAsciiBlank c || c = '(' || c = ')' then
      between line (⟨.atom (spell atom), line⟩ :: done) c
    else ⟨.plain (c :: atom), line, done⟩
  | ⟨.quoted quote opened atom, line, done⟩ =>
    if c = '\\' && quote ≠ '\x60' then ⟨.escaped quote opened (c :: atom), line, done⟩
    else if c = '\n' then ⟨.quoted quote opened (c :: atom), line + 1, done⟩
    else if c = quote then ⟨.nothing, line, ⟨.atom (spell (c :: atom)), line⟩ :: done⟩
    else ⟨.quoted quote opened (c :: atom), line, done⟩
  | ⟨.escaped quote opened atom, line, done⟩ => ⟨.quoted quote opened (c :: atom), line, done⟩

def finish (s : Scanner) : List Located :=
  match s.inside with
  | .nothing => s.done.reverse
  | .plain atom => (⟨.atom (spell atom), s.line⟩ :: s.done).reverse
  | .quoted quote opened _ | .escaped quote opened _ =>
    (⟨.unterminated quote, opened⟩ :: s.done).reverse

end Scanner

def lexemes (text : List Char) : List Located × Nat :=
  let s := text.foldl Scanner.step .start
  (s.finish, s.line)

end Hive
end Lineage
