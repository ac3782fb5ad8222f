import Lineage.Decimal
import Lineage.Fault

/-
What can be wrong with SQL text.
-/

namespace Lineage
namespace Sql

/-- A place in a text: lines and columns are counted from one, columns in
characters. -/
structure Place where
  line : Nat
  column : Nat
  deriving DecidableEq

namespace Place

def start : Place := ⟨1, 1⟩

def after (p : Place) (c : Char) : Place :=
  if c = '\n' then ⟨p.line + 1, 1⟩ else ⟨p.line, p.column + 1⟩

def suffix (p : Place) : String :=
  " at Line: " ++ toString p.line ++ ", Column: " ++ toString p.column

end Place

/-- Why a text is no SQL.  A fault at the end of the text has no place. -/
inductive SyntaxFault where
  | unterminatedString (opened : Place)
  | unterminatedEscapes (opened : Place)
  | unterminatedIdentifier (quote : Char) (opened : Place)
  | unterminatedComment (textEnd : Place)
  | unterminatedDollar (tagged : Bool) (textEnd : Place)
  | strayUnderscore (place : Place)
  | expected (what found : String) (place : Option Place)
  | reservedWord (word : String) (next : Option Place)
  /-- Tokens that are fine one by one and make no sense together. -/
  | refused (why : String) (place : Option Place)
  | tooDeep
  deriving DecidableEq

namespace SyntaxFault

def at? : Option Place → String
  | none => ""
  | some p => p.suffix

def message : SyntaxFault → String
  | unterminatedString opened => "Unterminated string literal" ++ opened.suffix
  | unterminatedEscapes opened => "Unterminated encoded string literal" ++ opened.suffix
  | unterminatedIdentifier quote opened =>
    "Expected close delimiter '" ++ quote.toString ++ "' before EOF." ++ opened.suffix
  | unterminatedComment textEnd =>
    "Unexpected EOF while in a multi-line comment" ++ textEnd.suffix
  | unterminatedDollar tagged textEnd =>
    (if tagged then "Unterminated dollar-quoted, expected $"
      else "Unterminated dollar-quoted string") ++ textEnd.suffix
  | strayUnderscore place => "Unexpected character '_'" ++ place.suffix
  | expected what found place => "Expected: " ++ what ++ ", found: " ++ found ++ at? place
  | reservedWord word next => "Expected an expression, found: " ++ word ++ at? next
  | refused why place => why ++ at? place
  | tooDeep => "recursion limit exceeded"

end SyntaxFault

/-- The text behind the first occurrence of a label. -/
def behind? (label : List Char) : List Char → Option (List Char)
  | [] => if label.isEmpty then some [] else none
  | c :: rest =>
    if label.isPrefixOf (c :: rest) then some ((c :: rest).drop label.length)
    else behind? label rest

/-- The number behind the first occurrence of a label, if it fits a machine
word. -/
def numberBehind? (label : String) (text : List Char) : Option Nat :=
  (behind? label.toList text).bind fun rest =>
    let digits := rest.takeWhile Char.isDigit
    if digits.isEmpty then none
    else
      let n := Decimal.ofDigits digits
      if n < Decimal.wordCount then some n else none

/-- The line and column that a message names.  Both are zero unless it names
both. -/
def placeIn (message : String) : Nat × Nat :=
  match numberBehind? "Line: " message.toList, numberBehind? "Column: " message.toList with
  | some line, some column => (line, column)
  | _, _ => (0, 0)

inductive Fault where
  | unknownDialect (name : String)
  | empty
  | syntactic (fault : SyntaxFault)
  deriving DecidableEq

namespace Fault

def message : Fault → String
  | unknownDialect name =>
    coded "S003" ("Unknown SQL dialect: " ++ name ++ " (expected hive, spark or generic)")
  | empty => emptyInput
  | syntactic fault =>
    let text := "sql parser error: " ++ fault.message
    let (line, column) := placeIn text
    coded "S001" ("SQL parse error at line " ++ toString line ++ ", column " ++
      toString column ++ ": " ++ text)

end Fault
end Sql
end Lineage
