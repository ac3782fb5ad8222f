import Lineage.Command.Line
import Lineage.Hive.Reader
import Lineage.Script

/-
What a run prints.
-/

namespace Lineage
namespace Command

/-! ### Lineage -/

structure ScriptLineage where
  statements : List Script.StatementLineage
  summary : Record
  deriving DecidableEq

namespace ScriptLineage

def ofStatements (o : ExtractOptions) (statements : List Sql.Statement) : ScriptLineage :=
  let lineage := Script.lineage o statements
  ⟨lineage, Script.summary lineage⟩

def toJson (s : ScriptLineage) : Json :=
  .obj [("statements", .arr (s.statements.map (·.toJson))), ("summary", s.summary.toJson)]

end ScriptLineage

def namesText (names : List QualifiedName) : String :=
  if names.isEmpty then "(none)" else ", ".intercalate (names.map (·.text))

def recordText (r : Record) : String :=
  "targets: " ++ namesText r.targets ++ "\nsources: " ++ namesText r.sources

def scriptText (s : ScriptLineage) : String :=
  "\n".intercalate (s.statements.map fun statement =>
    "-- statement " ++ toString statement.index ++ "\n" ++ recordText statement.record)

def jsonText (pretty : Bool) (j : Json) : String := if pretty then j.pretty "" else j.compact

def renderRecord (format : Format) (pretty : Bool) (r : Record) : String :=
  match format with
  | .json => jsonText pretty r.toJson
  | .text => recordText r

def renderScript (format : Format) (pretty : Bool) (s : ScriptLineage) : String :=
  match format with
  | .json => jsonText pretty s.toJson
  | .text => scriptText s

def renderScripts (format : Format) (pretty : Bool) (scripts : List (String × ScriptLineage)) :
    String :=
  match format with
  | .json => jsonText pretty (.obj (scripts.map fun (path, s) => (path, s.toJson)))
  | .text =>
    "\n\n".intercalate (scripts.map fun (path, s) => "== " ++ path ++ " ==\n" ++ scriptText s)

/-! ### Failures -/

/-- Why a run failed: a message, and what is behind it, the nearest cause
first. -/
structure Failure where
  message : String
  causes : List String
  deriving DecidableEq

namespace Failure

/-- A cause behind its label; further lines of it are indented as far. -/
def causeText (label indent : String) (cause : String) : String :=
  label ++ ("\n" ++ indent).intercalate (cause.splitOn "\n")

def numberLabel (n : Nat) : String :=
  let digits := toString n
  String.ofList (List.replicate (5 - digits.length) ' ') ++ digits ++ ": "

/-- Several causes are numbered from zero, a single one is not. -/
def text (f : Failure) : String :=
  let causes := match f.causes with
    | [] => []
    | [cause] => [causeText "    " "    " cause]
    | causes => causes.zipIdx.map fun (cause, n) => causeText (numberLabel n) "       " cause
  f.message ++
    if causes.isEmpty then "" else "\n\nCaused by:\n" ++ "\n".intercalate causes

end Failure

/-! ### Reports -/

structure Report where
  code : Nat
  output : String
  errors : String
  deriving DecidableEq

def logText (l : LogLine) : String :=
  "[" ++ l.level.name ++ " " ++ l.origin ++ "] " ++ l.message ++ "\n"

/-- The log lines that are shown: none without the user's wish, and never those
that trace single names. -/
def shownLog (verbose : Bool) (log : List LogLine) : String :=
  if verbose then "".intercalate ((log.filter (·.level = .debug)).map logText) else ""

def description : String := "Table lineage CLI - targets and sources of SQL statements"

def version : String := "tl 0.1.0"

def help : String :=
  description ++ "\n\nUsage: tl [OPTIONS] <COMMAND>\n\nCommands:\n" ++
    "  extract   Extract target and source tables from SQL text\n" ++
    "  hive-ast  Extract target and source tables from a Hive AST dump\n" ++
    "  help      Print this message or the help of the given subcommand(s)\n"

namespace Report

def ofUsage : UsageFault → Report
  | .helpWanted => ⟨0, help, ""⟩
  | .versionWanted => ⟨0, version ++ "\n", ""⟩
  | .nothingGiven => ⟨2, "", help⟩
  | fault => ⟨2, "", "error: " ++ fault.message ++ "\n"⟩

/-- The report on a run: what it logged, and its result.  A run that fails prints
nothing to the output. -/
def ofRun (verbose : Bool) (log : List LogLine) : Except Failure String → Report
  | .ok output => ⟨0, output ++ "\n", shownLog verbose log⟩
  | .error failure => ⟨1, "", shownLog verbose log ++ "Error: " ++ failure.text ++ "\n"⟩

end Report
end Command
end Lineage
