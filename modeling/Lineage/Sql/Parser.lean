import Lineage.Sql.Lexer
import Lineage.Sql.Syntax

/-
Parsers on token lists.

A parser reads from the front of the tokens and may fail.  A failure gives
nothing back, so an attempt that fails leaves the tokens as they were.
-/

namespace Lineage
namespace Sql

abbrev Parser := ReaderT Dialect (StateT (List Located) (Except SyntaxFault))

namespace Parser

variable {α : Type}

def dialect : Parser Dialect := read

def fail (f : SyntaxFault) : Parser α := throw f

/-- The token that comes `n` places behind the next one. -/
def ahead (n : Nat) : Parser (Option Token) := do return (← get)[n]?.map (·.token)

def peek : Parser (Option Token) := ahead 0

def place : Parser (Option Place) := do return (← get).head?.map (·.place)

def advance : Parser Unit := modify List.tail

def next : Parser (Option Located) := do
  let t := (← get).head?
  advance
  return t

def unexpected (what : String) (found : Option Located) : Parser α :=
  match found with
  | none => fail (.expected what "EOF" none)
  | some t => fail (.expected what t.token.spelling (some t.place))

def expected (what : String) : Parser α := do unexpected what (← get).head?

def refuse (why : String) : Parser α := do fail (.refused why (← place))

/-- The word at a distance in upper case; empty for any other token. -/
def keywordAt (n : Nat) : Parser String := do
  match ← ahead n with
  | some (.word w) => return w.keyword
  | _ => return ""

def isKeyword (keyword : String) : Parser Bool := do return (← keywordAt 0) = keyword

def keyword (keyword : String) : Parser Bool := do
  let found ← isKeyword keyword
  if found then advance
  return found

def areKeywords (keywords : List String) : Parser Bool := do
  let tokens := (← get).take keywords.length
  return tokens.length = keywords.length &&
    (tokens.zip keywords).all fun (t, k) => t.token.isKeyword k

/-- Take all of these keywords, or none of them. -/
def keywords (keywords : List String) : Parser Bool := do
  let found ← areKeywords keywords
  if found then modify (·.drop keywords.length)
  return found

def oneOf? (keywords : List String) : Parser (Option String) := do
  let next ← keywordAt 0
  if next ≠ "" && keywords.contains next then
    advance
    return some next
  else return none

def anyKeyword (keywords : List String) : Parser Bool := do return (← oneOf? keywords).isSome

def onlyIf (condition : Bool) (p : Parser Bool) : Parser Bool :=
  if condition then p else return false

def anyOf : List (Parser Bool) → Parser Bool
  | [] => return false
  | p :: ps => do if ← p then return true else anyOf ps

def expectKeyword (keyword : String) : Parser Unit := do
  if !(← Parser.keyword keyword) then expected keyword

def expectKeywords (keywords : List String) : Parser Unit := keywords.forM expectKeyword

def expectOneOf (keywords : List String) : Parser String := do
  match ← oneOf? keywords with
  | some k => return k
  | none => expected ("one of " ++ " or ".intercalate keywords)

def isSymbol (symbol : String) : Parser Bool := do
  return (← peek) = some (.symbol symbol)

def symbol (symbol : String) : Parser Bool := do
  let found ← isSymbol symbol
  if found then advance
  return found

def expectSymbol (symbol : String) : Parser Unit := do
  if !(← Parser.symbol symbol) then expected symbol

/-- Try a parser.  If it fails, the tokens stay; only too deep a nesting is not
forgiven. -/
def attempt (p : Parser α) : Parser (Option α) := fun d tokens =>
  match p d tokens with
  | .ok (a, rest) => .ok (some a, rest)
  | .error .tooDeep => .error .tooDeep
  | .error _ => .ok (none, tokens)

/-- Repeat a step until it gives nothing.  Every step takes a token, so there
are at most as many steps as tokens. -/
def many (step : Parser (Option α)) : Parser (List α) := do
  go ((← get).length + 1) []
where
  go : Nat → List α → Parser (List α)
    | 0, done => return done.reverse
    | limit + 1, done => do
      match ← step with
      | none => return done.reverse
      | some a => go limit (a :: done)

/-- One or more items with commas between them.  After a comma, `stop` may say
that there is no further item. -/
def commaSeparatedUntil (stop : Parser Bool) (item : Parser α) : Parser (List α) := do
  let first ← item
  let rest ← many do
    if !(← symbol ",") then return none
    else if ← stop then return none
    else return some (← item)
  return first :: rest

def commaSeparated (item : Parser α) : Parser (List α) :=
  commaSeparatedUntil (return false) item

def parenthesized (p : Parser α) : Parser α := do
  expectSymbol "("
  let a ← p
  expectSymbol ")"
  return a

/-- What follows a keyword, if the keyword comes next. -/
def after (keyword : String) (p : Parser (List α)) : Parser (List α) := do
  if ← Parser.keyword keyword then p else return []

def afterAll (keywords : List String) (p : Parser (List α)) : Parser (List α) := do
  if ← Parser.keywords keywords then p else return []

/-- An identifier.  A string literal may stand for one. -/
def ident : Parser Ident := do
  let t ← next
  match t with
  | some ⟨.word w, _⟩ => return ⟨w.value, w.quote⟩
  | some ⟨.text .single s, _⟩ => return ⟨s, some '\''⟩
  | some ⟨.text .double s, _⟩ => return ⟨s, some '"'⟩
  | _ => unexpected "identifier" t

def objectName : Parser ObjectName := do
  let first ← ident
  let rest ← many do
    if ← symbol "." then return some (← ident) else return none
  return ⟨first :: rest⟩

def identList : Parser (List Ident) := parenthesized (commaSeparated ident)

def optionalIdentList : Parser (List Ident) := do
  if ← isSymbol "(" then identList else return []

def mandatoryList (item : Parser α) : Parser (List α) := do
  if ← isSymbol "(" then parenthesized (commaSeparated item)
  else expected "a list of columns in parentheses"

/-- A string literal.  A quoted identifier may stand for one. -/
def literalString : Parser String := do
  let t ← next
  match t with
  | some ⟨.text .single s, _⟩ | some ⟨.text .double s, _⟩ | some ⟨.text .unicode s, _⟩ => return s
  | some ⟨.word ⟨s, some _, _⟩, _⟩ => return s
  | _ => unexpected "literal string" t

def literalNat : Parser Nat := do
  let t ← next
  match t with
  | some ⟨.number digits _, _⟩ =>
    match digits.toNat? with
    | some n => return n
    | none => unexpected "literal int" t
  | _ => unexpected "literal int" t

end Parser
end Sql
end Lineage
