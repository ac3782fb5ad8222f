import Lineage.Plan.Lower
import Lineage.Plan.Notes
import Lineage.Record.Json
import Lineage.Sql.Fault
import Lineage.Sql.Parser.Statement
import Lineage.Text.Blank
import Lineage.Walk

/-
Scripts: SQL text with any number of statements, and the lineage of each.
-/

namespace Lineage
namespace Script

/-- The statements of a text.  White space around the text does not count, so
lines are numbered from the first one that is not blank. -/
def read (d : Sql.Dialect) (text : String) : Except Sql.Fault (List Sql.Statement) :=
  match Text.trim text.toList with
  | [] => .error .empty
  | cs =>
    match Sql.parse d (String.ofList cs) with
    | .ok statements => .ok statements
    | .error fault => .error (.syntactic fault)

def readFirst (d : Sql.Dialect) (text : String) : Except Sql.Fault Sql.Statement :=
  (read d text).bind fun
    | [] => .error .empty
    | statement :: _ => .ok statement

def dialect (name : String) : Except Sql.Fault Sql.Dialect :=
  match Sql.Dialect.ofNameIgnoringCase? name with
  | some d => .ok d
  | none => .error (.unknownDialect name)

/-- The lineage of one statement and its place in the script, counted from
zero. -/
structure StatementLineage where
  index : Nat
  record : Record
  deriving DecidableEq

/-- The lineage of every statement.  Each is read on its own: what one of them
defines is unknown to the others. -/
def lineage (o : ExtractOptions) (statements : List Sql.Statement) : List StatementLineage :=
  statements.zipIdx.map fun (statement, index) => ⟨index, (Plan.lower statement).lineage o⟩

def summary (statements : List StatementLineage) : Record :=
  Record.mergeAll (statements.map (·.record))

def planLog (o : ExtractOptions) (plan : Plan.PlanTree) : List LogLine :=
  (Plan.notes plan).map (·.logLine) ++ (plan.events o).filterMap (·.logLine?)

def log (o : ExtractOptions) (statements : List Sql.Statement) : List LogLine :=
  statements.flatMap fun statement => planLog o (Plan.lower statement)

def StatementLineage.toJson (s : StatementLineage) : Json :=
  .obj (("index", .nat s.index) :: s.record.members)

end Script
end Lineage
