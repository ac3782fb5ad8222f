import Lineage.Sql.Parser.Definition

/-
The parser of statements and scripts.

Statements, queries, expressions and tables may nest in each other up to fifty
levels deep; every one of them takes a level.
-/

namespace Lineage
namespace Sql
namespace Parser

section

variable (n : Nested)

/-! ### Statements that look at tables -/

/-- `EXPLAIN` or `DESCRIBE` of a statement, or else of a table. -/
def explain (described : Bool) : Parser Statement := do
  if !described && (← dialect).isPermissive && (← isSymbol "(") then
    discard <| parenthesized <| commaSeparated do
      discard ident
      if !(← isSymbol ",") && !(← isSymbol ")") then discard (expr n)
  else if ← keywords ["QUERY", "PLAN"] then pure ()
  else if ← keyword "ESTIMATE" then pure ()
  else
    discard (keyword "ANALYZE")
    discard (keyword "VERBOSE")
    if ← keyword "FORMAT" then
      discard (symbol "=")
      discard ident
  match ← attempt n.statement with
  | some (.other "EXPLAIN" _) =>
    fail (.refused "Explain must be root of the plan" none)
  | some s => return .other "EXPLAIN" [.statement s]
  | none =>
    discard (oneOf? ["EXTENDED", "FORMATTED"])
    if (← dialect).isPermissive then discard (keyword "TABLE")
    return .other "EXPLAIN" [.relation (← objectName)]

def analyze : Parser Statement := do
  discard (keyword "TABLE")
  let table? ← attempt objectName
  let clauses ← many do
    match ← oneOf? ["PARTITION", "FOR", "CACHE", "NOSCAN", "COMPUTE"] with
    | some "PARTITION" => return some (← tuple n)
    | some "FOR" =>
      expectKeyword "COLUMNS"
      discard (attempt (commaSeparated ident))
      return some []
    | some "CACHE" =>
      expectKeyword "METADATA"
      return some []
    | some "COMPUTE" =>
      expectKeyword "STATISTICS"
      return some []
    | some _ => return some []
    | none => return none
  return .other "ANALYZE" (table?.toList.map .relation ++ clauses.flatten.map .expr)

def truncate : Parser Statement := do
  discard (keyword "TABLE")
  ifExists
  let tables ← commaSeparated do
    discard (keyword "ONLY")
    let name ← objectName
    discard (symbol "*")
    return name
  let partition ← partitionValues n
  if (← dialect).isPermissive then
    if !(← keywords ["RESTART", "IDENTITY"]) then discard (keywords ["CONTINUE", "IDENTITY"])
    discard (oneOf? ["CASCADE", "RESTRICT"])
  if ← keywords ["ON", "CLUSTER"] then discard ident
  return .other "TRUNCATE" (tables.map .relation ++ partition.map .expr)

def repair : Parser Statement := do
  discard (keyword "REPAIR")
  expectKeyword "TABLE"
  let table ← objectName
  discard <| attempt do
    discard (oneOf? ["ADD", "DROP", "SYNC"])
    expectKeyword "PARTITIONS"
  return .other "MSCK" [.relation table]

/-- `CACHE TABLE`, with a query unless the text ends behind the table. -/
def cache : Parser Statement := do
  if !(← keyword "TABLE") then
    discard objectName
    if !(← keyword "TABLE") then expected "a `TABLE` keyword"
  let table ← objectName
  let options ← optionsAfter n ["OPTIONS"]
  let mentioned : List Part := .relation table :: options.map .expr
  match ← peek with
  | none => return .other "CACHE" mentioned
  | some (.word _) =>
    discard (keyword "AS")
    return .other "CACHE" (mentioned ++ [.expr (.subquery (← n.query))])
  | some _ => expected "a QUERY statement"

def uncache : Parser Statement := do
  expectKeyword "TABLE"
  ifExists
  return .other "UNCACHE" [.relation (← objectName)]

/-! ### Other statements -/

def call : Parser Statement := do
  let name ← objectName
  if ← isSymbol "(" then return .other "CALL" [.expr (← callFrom n name)]
  else return .other "CALL" []

def copy : Parser Statement := do
  let source ← if ← symbol "(" then do
      let query ← n.query
      expectSymbol ")"
      pure [Part.expr (.subquery query)]
    else do
      discard objectName
      discard optionalIdentList
      pure []
  if (← oneOf? ["FROM", "TO"]).isNone then expected "FROM or TO"
  restOfStatement
  return .other "COPY" source

def setVariable : Parser Statement := do
  if (← oneOf? ["SESSION", "LOCAL", "GLOBAL", "HIVEVAR"]) = some "HIVEVAR" then expectSymbol ":"
  if ← anyOf [anyKeyword ["ROLE", "NAMES", "TRANSACTION", "TIMEZONE"], keywords ["TIME", "ZONE"]] then
    restOfStatement
    return .other "SET" []
  discard objectName
  if !(← anyOf [symbol "=", keyword "TO"]) then expected "equals sign or TO"
  let values ← commaSeparated do
    match ← attempt (expr n) with
    | some e => return e
    | none => expected "variable value"
  return .other "SET" (values.map .expr)

def useDatabase : Parser Statement := do
  match ← dialect with
  | .hive =>
    if !(← keyword "DEFAULT") then discard objectName
  | .spark =>
    discard (oneOf? ["CATALOG", "DATABASE", "SCHEMA"])
    discard objectName
  | .generic => discard objectName
  return .other "USE" []

def chain : Parser Unit := do
  discard (oneOf? ["TRANSACTION", "WORK", "TRAN"])
  if ← keyword "AND" then
    discard (keyword "NO")
    expectKeyword "CHAIN"

def rollback : Parser Statement := do
  chain
  if ← keyword "TO" then
    discard (keyword "SAVEPOINT")
    discard ident
  return .other "ROLLBACK" []

def load : Parser Statement := do
  let data ← keyword "DATA"
  if (← dialect) = .spark || !data then
    expected "`DATA` or an extension name after `LOAD`"
  discard (keyword "LOCAL")
  expectKeyword "INPATH"
  discard literalString
  discard (keyword "OVERWRITE")
  expectKeywords ["INTO", "TABLE"]
  discard objectName
  let partition ← partitionValues n
  if ← keyword "INPUTFORMAT" then
    discard (expr n)
    expectKeyword "SERDE"
    discard (expr n)
  return .other "LOAD" (partition.map .expr)

def plainStatements : List String :=
  ["KILL", "FLUSH", "DETACH", "ATTACH", "DISCARD", "DECLARE", "FETCH", "OPEN", "CLOSE", "SHOW",
    "GRANT", "DENY", "REVOKE", "START", "BEGIN", "END", "ASSERT", "DEALLOCATE", "EXECUTE", "EXEC",
    "PREPARE", "PRAGMA", "UNLOAD", "RENAME", "PRINT", "RETURN", "RAISERROR", "IF", "WHILE", "CASE",
    "RAISE", "EXPORT", "VACUUM", "RESET"]

def statementHere : Parser Statement := do
  let d ← dialect
  match ← peek with
  | some (.symbol "(") => return .query (← n.query)
  | some (.word w) =>
    let behind (p : Parser Statement) : Parser Statement := do
      advance
      p
    let unknown : Parser Statement := expected "an SQL statement"
    match w.keyword with
    | "SELECT" | "WITH" | "VALUES" | "FROM" => return .query (← n.query)
    | "INSERT" => behind (insert n)
    | "UPDATE" => behind (update n)
    | "DELETE" => behind (delete n)
    | "MERGE" => behind (merge n)
    | "CREATE" => behind (create n)
    | "DROP" => behind drop
    | "ALTER" => behind (alter n)
    | "REPLACE" =>
      behind (if d.isPermissive then insert n else refuse "Unsupported statement REPLACE")
    | "EXPLAIN" => behind (explain n false)
    | "DESC" | "DESCRIBE" => behind (explain n true)
    | "ANALYZE" => behind (analyze n)
    | "TRUNCATE" => behind (truncate n)
    | "MSCK" => behind repair
    | "CACHE" => behind (cache n)
    | "UNCACHE" => behind uncache
    | "CALL" => behind (call n)
    | "COPY" => behind (copy n)
    | "SET" => behind (setVariable n)
    | "USE" => behind useDatabase
    | "LOAD" => behind (load n)
    | "COMMIT" =>
      behind do
        chain
        return .other "COMMIT" []
    | "ROLLBACK" => behind rollback
    | "SAVEPOINT" =>
      behind do
        discard ident
        return .other "SAVEPOINT" []
    | "RELEASE" =>
      behind do
        discard (keyword "SAVEPOINT")
        discard ident
        return .other "RELEASE" []
    | "COMMENT" | "OPTIMIZE" =>
      if d.isPermissive then
        behind do
          restOfStatement
          return .other w.keyword []
      else unknown
    | word =>
      if plainStatements.contains word then
        behind do
          restOfStatement
          return .other word []
      else unknown
  | _ => expected "an SQL statement"

end

/-! ### Nesting -/

/-- The parsers with room for a number of further levels. -/
def nested : Nat → Nested
  | 0 => ⟨fun _ => fail .tooDeep, fail .tooDeep, fail .tooDeep, fail .tooDeep⟩
  | levels + 1 =>
    let inner := nested levels
    ⟨fun precedence => exprAbove inner precedence, query inner, statementHere inner,
      tableFactor inner⟩

def deepest : Nat := 50

/-- The statements of a script.  Semicolons separate them, and any number of
semicolons may stand between two; the word `END` may stop the script instead. -/
def statements : Parser (List Statement) := do
  let n := nested deepest
  let rec script (separated : Bool) : Nat → List Statement → Parser (List Statement)
    | 0, done => return done.reverse
    | limit + 1, done => do
      let semicolons ← many do
        if ← symbol ";" then return some () else return none
      let separated := separated || !semicolons.isEmpty
      if (← peek).isNone then return done.reverse
      else if separated then script false limit ((← n.statement) :: done)
      else if ← isKeyword "END" then return done.reverse
      else expected "end of statement"
  script true ((← get).length + 1) []

end Parser

def parse (d : Dialect) (text : String) : Except SyntaxFault (List Statement) := do
  let (statements, _) ← Parser.statements d (← tokens d text)
  return statements

end Sql
end Lineage
