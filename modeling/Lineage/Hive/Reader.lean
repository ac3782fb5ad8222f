import Lineage.Fault
import Lineage.Hive.Token
import Lineage.Hive.Lexeme
import Lineage.Tree.Outline
import Lineage.Walk

/-
Hive syntax trees from their two textual forms.

A tree string writes a node with children as a parenthesis that holds its label
and its children.  A dump writes one node a line, a child indented deeper than
its parent.
-/

namespace Lineage
namespace Hive

inductive Malformed where
  | unterminated (quote : Char)
  /-- A parenthesis that opens no labelled node. -/
  | headless
  | unbalanced
  | unclosed (count : Nat)
  deriving DecidableEq

namespace Malformed

def message : Malformed → String
  | unterminated quote => "unterminated quoted atom starting with " ++ quote.toString
  | headless => "'(' must be followed by a token"
  | unbalanced => "unbalanced ')'"
  | unclosed count => toString count ++ " unclosed '('"

end Malformed

inductive Fault where
  | empty
  | malformed (what : Malformed) (line : Nat)
  | tooDeep (limit line : Nat)
  deriving DecidableEq

namespace Fault

def message : Fault → String
  | empty => emptyInput
  | malformed what line =>
    coded "S004" ("Malformed Hive AST at line " ++ toString line ++ ": " ++ what.message)
  | tooDeep limit line =>
    coded "S005" ("Hive AST nesting exceeds " ++ toString limit ++ " levels at line " ++
      toString line)

end Fault

/-- The trees of a list of lexemes.  No more than `limit` parentheses may be
open at once; `line` is where the text ends. -/
def readForest (limit line : Nat) :
    Builder Token → List Located → Except Fault (List (Tree Token))
  | b, [] =>
    if b.depth = 0 then .ok b.forest else .error (.malformed (.unclosed b.depth) line)
  | b, ⟨.opening, _⟩ :: rest =>
    match rest with
    | ⟨.atom spelling, line'⟩ :: rest =>
      if limit ≤ b.depth then .error (.tooDeep limit line')
      else
        let token := Token.ofAtom spelling
        readForest limit line (b.openNode token token.payload) rest
    | ⟨.unterminated quote, line'⟩ :: _ => .error (.malformed (.unterminated quote) line')
    | ⟨_, line'⟩ :: _ => .error (.malformed .headless line')
    | [] => .error (.malformed .headless line)
  | b, ⟨.closing, line'⟩ :: rest =>
    match b.close? with
    | none => .error (.malformed .unbalanced line')
    | some b => readForest limit line b rest
  | b, ⟨.atom spelling, _⟩ :: rest =>
    readForest limit line (b.graft (Token.ofAtom spelling).toTree) rest
  | _, ⟨.unterminated quote, line'⟩ :: _ => .error (.malformed (.unterminated quote) line')

/-- One tree of many: a single one stands for itself. -/
def joinForest : List (Tree Token) → Tree Token
  | [t] => t
  | ts => .branch .nil ts

def readTreeString (limit : Nat) (text : List Char) : Except Fault (Tree Token) :=
  let (lexemes, line) := lexemes text
  joinForest <$> readForest limit line .empty lexemes

structure DumpLine where
  number : Nat
  entry : Entry Token

/-- The lines of a dump that are not blank.  White space is trimmed from both
ends, and the bytes in front of the label are the indentation. -/
def dumpLines (text : List Char) : List DumpLine :=
  (Text.lines text).zipIdx.filterMap fun (line, index) =>
    let label := Text.trim line
    if label.isEmpty then none
    else
      let token := Token.ofAtom (String.ofList label)
      some ⟨index + 1, Text.byteCount (line.takeWhile Text.isBlank), token, token.payload⟩

def readDump (limit : Nat) (text : List Char) : Except Fault (Tree Token) :=
  let lines := dumpLines text
  match Outline.tooDeep? limit (lines.map (·.entry.indent)) with
  | some place => .error (.tooDeep limit ((lines[place]?.map (·.number)).getD 0))
  | none =>
    if lines.isEmpty then .error .empty
    else .ok (joinForest (Outline.forest (lines.map (·.entry))))

/-- Read a tree in either form: a tree string starts with a parenthesis. -/
def readTree (limit : Nat) (text : String) : Except Fault (Tree Token) :=
  let chars := text.toList
  match Text.trimStart chars with
  | [] => .error .empty
  | '(' :: _ => readTreeString limit chars
  | _ => readDump limit chars

def lineage (o : ExtractOptions) (limit : Nat) (text : String) : Except Fault Record :=
  (Tree.lineage o) <$> readTree limit text

end Hive
end Lineage
