import Lineage.Command.Report
import Lineage.Files
import Lineage.Settings.Reader

/-
The program: it reads a command line and some files, and reports the lineage of
what is in them.

A run stops at its first failure.  What was logged before stays.
-/

namespace Lineage
namespace Command

abbrev Run (m : Type → Type) := ExceptT Failure (StateT (List LogLine) m)

section
variable {m : Type → Type} [Monad m] (files : Files m)

def note (origin message : String) : Run m Unit :=
  modify (· ++ [⟨.debug, origin, message⟩])

def noteAll (lines : List LogLine) : Run m Unit := modify (· ++ lines)

def failWith {α : Type} (message : String) (causes : List String) : Run m α :=
  throw ⟨message, causes⟩

/-- What a settings fault is caused by: itself, and what is behind it. -/
def settingsCauses (fault : Settings.Fault) : List String := fault.message :: fault.cause?.toList

/-- The settings that a user names, or those of the working directory, which may
have none. -/
def loadSettings (config : Option String) : Run m Settings := do
  match config with
  | some path =>
    match ← (Settings.load files path : m _) with
    | .ok s => return s
    | .error fault => failWith ("Failed to load config: " ++ path) (settingsCauses fault)
  | none =>
    match ← (Settings.loadFrom files "." : m _) with
    | .ok s => return s
    | .error (.missing _) =>
      note "tl::commands::common" "no lineage.yml found, using defaults"
      return Settings.default
    | .error fault => failWith "Failed to load lineage.yml" (settingsCauses fault)

/-- The options of a run: a switch can add to the settings and take nothing
away. -/
def optionsOf (s : Settings) (r : Request) : ExtractOptions :=
  if r.emitCteNames then { emitCteNames := true } else s.extractOptions

/-- The text of a file; a dash stands for the standard input. -/
def readInput (path : String) : Run m String := do
  if path = "-" then
    match ← (files.standardInput : m _) with
    | .ok text => return text
    | .error why => failWith "Failed to read standard input" [why.message]
  else
    match ← (files.read path : m _) with
    | .ok text => return text
    | .error why => failWith ("Failed to read " ++ path) [why.message]

def readScript (d : Sql.Dialect) (o : ExtractOptions) (path : String) : Run m ScriptLineage := do
  let text ← readInput files path
  match Script.read d text with
  | .error fault => failWith ("Failed to extract lineage from " ++ path) [fault.message]
  | .ok statements =>
    noteAll (Script.log o statements)
    return .ofStatements o statements

/-- Whether a name ends in `.sql`, with something in front of it. -/
def isScriptName (name : String) : Bool := name.endsWith ".sql" && name ≠ ".sql"

def scriptPaths (directory : String) : Run m (List String) := do
  match ← (files.list directory : m _) with
  | .error why => failWith ("Failed to read directory " ++ directory) [why.message]
  | .ok names =>
    let scripts := (names.filter isScriptName).mergeSort (· ≤ ·)
    return scripts.map (Files.join directory)

def readScripts (d : Sql.Dialect) (o : ExtractOptions) :
    List String → Run m (List (String × ScriptLineage))
  | [] => return []
  | path :: paths => do
    let script ← readScript files d o path
    return (path, script) :: (← readScripts d o paths)

def extract (r : Request) (dialect : Option Sql.Dialect) : Run m String := do
  let s ← loadSettings files r.config
  let d := dialect.getD s.dialect
  let o := optionsOf s r
  note "tl::commands::extract" ("extracting with dialect " ++ d.name)
  if ← (files.isDirectory r.path : m Bool) then
    let scripts ← readScripts files d o (← scriptPaths files r.path)
    return renderScripts r.format r.pretty scripts
  else return renderScript r.format r.pretty (← readScript files d o r.path)

def hiveAst (r : Request) (maxDepth : Option Nat) : Run m String := do
  let s ← loadSettings files r.config
  let limit := maxDepth.getD s.maxDepth
  if limit = 0 then failWith "--max-depth must be greater than zero" []
  let text ← readInput files r.path
  match Hive.readTree limit text with
  | .error fault => failWith ("Failed to read Hive AST from " ++ r.path) [fault.message]
  | .ok tree =>
    let events := tree.events (optionsOf s r)
    noteAll (events.filterMap (·.logLine?))
    return renderRecord r.format r.pretty (Record.ofEvents events)

def perform (r : Request) : Run m String :=
  match r.job with
  | .extract dialect => extract files r dialect
  | .hiveAst maxDepth => hiveAst files r maxDepth

def run (arguments : List String) : m Report := do
  match request arguments with
  | .error fault => return .ofUsage fault
  | .ok r =>
    let (result, log) ← (perform files r).run.run []
    return .ofRun r.verbose log result

end

end Command
end Lineage
