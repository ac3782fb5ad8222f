import Lineage.Sql.Parser.Write

/-
Parsers of the statements that define, change and drop tables, views and the
like.
-/

namespace Lineage
namespace Sql
namespace Parser

def restOfStatement : Parser Unit := modify (·.dropWhile fun t => t.token ≠ .symbol ";")

def ifNotExists : Parser Unit := discard (keywords ["IF", "NOT", "EXISTS"])

def ifExists : Parser Unit := discard (keywords ["IF", "EXISTS"])

section

variable (n : Nested)

/-! ### Options -/

def optionList : Parser (List Expr) := do
  expectSymbol "("
  if ← symbol ")" then return []
  let options ← commaSeparated do
    discard ident
    expectSymbol "="
    expr n
  expectSymbol ")"
  return options

def optionsAfter (words : List String) : Parser (List Expr) := afterAll words (optionList n)

/-- Keywords whose options must stand in parentheses: without one the keywords
belong to something else. -/
def parenthesizedOptions (word : String) : Parser (List Expr) := do
  if (← isKeyword word) && (← ahead 1) = some (.symbol "(") then
    advance
    optionList n
  else return []

/-! ### Columns -/

def referenceActions : Parser Unit := discard <| many do
  if ← keyword "MATCH" then
    discard (expectOneOf ["FULL", "PARTIAL", "SIMPLE"])
    return some ()
  else if (← isKeyword "ON") && ["DELETE", "UPDATE"].contains (← keywordAt 1) then
    modify (·.drop 2)
    if ← keyword "SET" then discard (expectOneOf ["NULL", "DEFAULT"])
    else if ← keyword "NO" then expectKeyword "ACTION"
    else discard (expectOneOf ["RESTRICT", "CASCADE"])
    return some ()
  else return none

def constraintTiming : Parser Unit := discard <| many do
  if ← anyOf [keywords ["NOT", "DEFERRABLE"], keyword "DEFERRABLE", keywords ["NOT", "ENFORCED"],
      keyword "ENFORCED"] then
    return some ()
  else if ← keyword "INITIALLY" then
    discard (expectOneOf ["DEFERRED", "IMMEDIATE"])
    return some ()
  else return none

/-- One option of a column, with the expressions it holds. -/
def columnOption? : Parser (Option (List Expr)) := do
  let d ← dialect
  if ← keywords ["CHARACTER", "SET"] then
    discard objectName
    return some []
  if ← keyword "COLLATE" then
    discard objectName
    return some []
  if ← keywords ["NOT", "NULL"] then return some []
  if ← keyword "COMMENT" then
    discard literalString
    return some []
  if ← keyword "NULL" then return some []
  if ← keyword "DEFAULT" then return some [← expr n]
  if ← onlyIf d.isPermissive (anyKeyword ["MATERIALIZED", "ALIAS"]) then return some [← expr n]
  if ← keywords ["PRIMARY", "KEY"] then
    constraintTiming
    return some []
  if ← keyword "UNIQUE" then
    discard (keyword "KEY")
    constraintTiming
    return some []
  if ← keyword "REFERENCES" then
    discard objectName
    discard optionalIdentList
    referenceActions
    constraintTiming
    return some []
  if ← keyword "CHECK" then return some (← tuple n)
  if ← keyword "GENERATED" then
    if ← keyword "ALWAYS" then pure ()
    else expectKeywords ["BY", "DEFAULT"]
    expectKeyword "AS"
    if ← keyword "IDENTITY" then
      if ← isSymbol "(" then
        expectSymbol "("
        modify (·.dropWhile fun t => t.token ≠ .symbol ")")
        expectSymbol ")"
      return some []
    let items ← tuple n
    discard (oneOf? ["STORED", "VIRTUAL"])
    return some items
  if !d.isPermissive then return none
  if (← oneOf? ["AUTO_INCREMENT", "AUTOINCREMENT", "ASC", "DESC", "INVISIBLE"]).isSome then
    return some []
  if ← keywords ["ON", "UPDATE"] then return some [← expr n]
  if ← isKeyword "OPTIONS" then return some (← optionsAfter n ["OPTIONS"])
  if ← keyword "AS" then
    let items ← tuple n
    discard (oneOf? ["STORED", "VIRTUAL"])
    return some items
  return none

def columnOptions : Parser (List Expr) := do
  let options ← many do
    if ← keyword "CONSTRAINT" then
      discard ident
      match ← columnOption? n with
      | some es => return some es
      | none => expected "constraint details after CONSTRAINT <name>"
    else columnOption? n
  return options.flatten

def columnDef : Parser (List Expr) := do
  discard ident
  discard typeName
  columnOptions n

def partitionColumn : Parser (List Expr) := do
  discard ident
  discard (attempt typeName)
  columnOptions n

def indexColumns : Parser (List Expr) := do
  if ← isSymbol "(" then parenthesized (orderItems n)
  else expected "a list of columns in parentheses"

def tableConstraint? : Parser (Option (List Expr)) := do
  let d ← dialect
  let named ← keyword "CONSTRAINT"
  if named then discard ident
  let indexName : Parser Unit := do
    if !(← isSymbol "(") && !(← isKeyword "USING") then discard ident
    if ← keyword "USING" then discard ident
  if ← keyword "UNIQUE" then
    discard (oneOf? ["KEY", "INDEX"])
    indexName
    let columns ← indexColumns n
    constraintTiming
    return some columns
  else if ← keyword "PRIMARY" then
    expectKeyword "KEY"
    indexName
    let columns ← indexColumns n
    constraintTiming
    return some columns
  else if ← keyword "FOREIGN" then
    expectKeyword "KEY"
    if !(← isSymbol "(") then discard ident
    discard (mandatoryList ident)
    expectKeyword "REFERENCES"
    discard objectName
    discard optionalIdentList
    referenceActions
    constraintTiming
    return some []
  else if ← keyword "CHECK" then
    let items ← tuple n
    constraintTiming
    return some items
  else if named then expected "PRIMARY, UNIQUE, FOREIGN, or CHECK"
  else if ← onlyIf d.isPermissive (anyKeyword ["INDEX", "KEY"]) then
    indexName
    return some (← indexColumns n)
  else return none

def columnDefs : Parser (List Expr) := do
  if !(← symbol "(") then return []
  if ← symbol ")" then return []
  let rec defs : Nat → Parser (List Expr)
    | 0 => return []
    | limit + 1 => do
      let here ← match ← tableConstraint? n with
        | some es => pure es
        | none =>
          match ← peek with
          | some (.word _) => columnDef n
          | _ => expected "column name or constraint definition"
      let comma ← symbol ","
      let closing ← isSymbol ")"
      if !comma && !closing then expected "',' or ')' after column definition"
      else if closing && !comma then
        advance
        return here
      else return here ++ (← defs limit)
  defs ((← get).length + 1)

/-! ### Tables -/

def rowFormat : Parser Unit := do
  expectKeyword "FORMAT"
  if ← keyword "SERDE" then discard literalString
  else
    expectKeyword "DELIMITED"
    discard <| many do
      if ← keywords ["FIELDS", "TERMINATED", "BY"] then
        discard ident
        if ← keywords ["ESCAPED", "BY"] then discard ident
        return some ()
      else if ← anyOf [keywords ["COLLECTION", "ITEMS", "TERMINATED", "BY"],
          keywords ["MAP", "KEYS", "TERMINATED", "BY"], keywords ["LINES", "TERMINATED", "BY"],
          keywords ["NULL", "DEFINED", "AS"]] then
        discard ident
        return some ()
      else return none

def storage : Parser (List Expr) := do
  let clauses ← many do
    if ← keyword "ROW" then
      rowFormat
      return some []
    else if ← keyword "STORED" then
      expectKeyword "AS"
      if ← keyword "INPUTFORMAT" then
        let input ← expr n
        expectKeyword "OUTPUTFORMAT"
        return some [input, ← expr n]
      fileFormat
      return some []
    else if ← keyword "LOCATION" then
      discard literalString
      return some []
    else if ← keyword "USING" then
      discard ident
      return some []
    else if ← areKeywords ["WITH", "SERDEPROPERTIES"] then
      return some (← optionsAfter n ["WITH", "SERDEPROPERTIES"])
    else return none
  return clauses.flatten

def distribution : Parser (List Expr) := do
  let partition ← afterAll ["PARTITIONED", "BY"] do
    return (← parenthesized (commaSeparated (partitionColumn n))).flatten
  if ← keywords ["CLUSTERED", "BY"] then
    discard (mandatoryList ident)
    let sorted ← afterAll ["SORTED", "BY"] (parenthesized (orderItems n))
    expectKeyword "INTO"
    discard literalNat
    expectKeyword "BUCKETS"
    return partition ++ sorted
  return partition

def plainOptions : Parser Unit := discard <| many do
  if (← oneOf? ["COMMENT", "ENGINE", "CHARSET", "COLLATE", "AUTO_INCREMENT"]).isSome then
    discard (symbol "=")
    match ← peek with
    | some (.word _) => discard ident
    | _ => discard value
    discard (symbol ",")
    return some ()
  else return none

def tableConfig : Parser (List Expr) := do
  let d ← dialect
  let withOptions ← parenthesizedOptions n "WITH"
  let properties ← optionsAfter n ["TBLPROPERTIES"]
  let partition ← if d.isPermissive then
      afterAll ["PARTITION", "BY"] (return [← expr n])
    else pure []
  let cluster ← if d.isPermissive then afterAll ["CLUSTER", "BY"] (exprs n) else pure []
  let options ← if d.isPermissive then optionsAfter n ["OPTIONS"] else pure []
  let all := withOptions ++ properties ++ partition ++ cluster ++ options
  if (withOptions ++ properties ++ options).isEmpty then plainOptions
  return all

def createTable : Parser Statement := do
  let d ← dialect
  ifNotExists
  let name ← objectName
  if ← keywords ["ON", "CLUSTER"] then discard ident
  if (← oneOf? ["LIKE", "ILIKE"]).isSome then discard objectName
  if ← keyword "CLONE" then discard (attempt objectName)
  let columns ← columnDefs n
  if ← onlyIf (d = .hive) (keyword "COMMENT") then
    match ← peek with
    | some (.text .single _) => advance
    | _ => expected "comment"
  discard (keywords ["WITHOUT", "ROWID"])
  let placed ← distribution n
  let stored ← storage n
  let config ← tableConfig n
  let keys ← if d.isPermissive then do
      let keys ← afterAll ["PRIMARY", "KEY"] (return [← expr n])
      pure (keys ++ (← afterAll ["ORDER", "BY"] (exprs n)))
    else pure []
  if ← keywords ["ON", "COMMIT"] then
    if ← keyword "DELETE" then expectKeyword "ROWS"
    else if ← keyword "PRESERVE" then expectKeyword "ROWS"
    else expectKeyword "DROP"
  discard (keyword "STRICT")
  let query? ← if ← keyword "AS" then pure (some (← n.query))
    else if d.isPermissive && (← isKeyword "SELECT") then pure (some (← n.query))
    else pure none
  return .createTable ⟨name, columns ++ placed ++ stored ++ config ++ keys, query?⟩

/-- `CREATE EXTERNAL TABLE` behind its keywords; it takes no query. -/
def createExternalTable : Parser Statement := do
  ifNotExists
  let name ← objectName
  let columns ← columnDefs n
  let placed ← distribution n
  let stored ← storage n
  let properties ← optionsAfter n ["TBLPROPERTIES"]
  return .createTable ⟨name, columns ++ placed ++ stored ++ properties, none⟩

/-! ### Views and other objects -/

def viewColumns : Parser Unit := do
  if !(← symbol "(") then return
  if ← symbol ")" then return
  discard <| commaSeparated do
    discard ident
    columnOptions n
  expectSymbol ")"

/-- `CREATE VIEW` from `VIEW` on, or from a word in front of it. -/
def createView : Parser Statement := do
  let d ← dialect
  discard (keyword "SECURE")
  discard (keyword "MATERIALIZED")
  expectKeyword "VIEW"
  ifNotExists
  let name ← objectName
  ifNotExists
  discard (keywords ["COPY", "GRANTS"])
  viewColumns n
  discard (optionsAfter n ["WITH"])
  if ← keyword "CLUSTER" then
    expectKeyword "BY"
    discard optionalIdentList
  if d.isPermissive then
    discard (optionsAfter n ["OPTIONS"])
    if ← keyword "TO" then discard objectName
    if ← keyword "COMMENT" then
      expectSymbol "="
      discard literalString
  expectKeyword "AS"
  let query ← n.query
  if d.isPermissive then discard (keywords ["WITH", "NO", "SCHEMA", "BINDING"])
  return .createView ⟨name, query⟩

def createIndex : Parser Statement := do
  discard (keyword "CONCURRENTLY")
  let tentative ← keywords ["IF", "NOT", "EXISTS"]
  let method : Parser Unit := do
    if ← keyword "USING" then discard ident
  if !(← onlyIf (!tentative) (keyword "ON")) then
    discard objectName
    method
    expectKeyword "ON"
  let table ← objectName
  method
  let columns ← indexColumns n
  if ← keyword "INCLUDE" then discard (mandatoryList ident)
  if ← keyword "NULLS" then
    discard (keyword "NOT")
    expectKeyword "DISTINCT"
  let options ← parenthesizedOptions n "WITH"
  let condition ← filter n
  return .other "CREATE INDEX" (.relation table :: (columns ++ options ++ condition).map .expr)

def createDatabase : Parser Statement := do
  ifNotExists
  discard objectName
  discard <| many do
    if (← oneOf? ["LOCATION", "MANAGEDLOCATION"]).isSome then
      discard literalString
      return some ()
    else return none
  if ← keyword "CLONE" then discard objectName
  return .other "CREATE DATABASE" []

def createSchema : Parser Statement := do
  ifNotExists
  if ← keyword "AUTHORIZATION" then discard ident
  else
    discard objectName
    if ← keyword "AUTHORIZATION" then discard ident
  if ← keywords ["DEFAULT", "COLLATE"] then discard (expr n)
  discard (parenthesizedOptions n "WITH")
  discard (optionsAfter n ["OPTIONS"])
  if ← keyword "CLONE" then discard objectName
  return .other "CREATE SCHEMA" []

/-- Kinds of object whose definitions name no table. -/
def plainObjects : List String :=
  ["POLICY", "FUNCTION", "DOMAIN", "TRIGGER", "MACRO", "SECRET", "USER"]

def morePlainObjects : List String :=
  ["EXTENSION", "VIRTUAL", "ROLE", "SEQUENCE", "TYPE", "PROCEDURE", "CONNECTOR", "OPERATOR",
    "SERVER"]

def create : Parser Statement := do
  let replace ← keywords ["OR", "REPLACE"]
  discard (keywords ["OR", "ALTER"])
  discard (keyword "LOCAL")
  discard (keyword "GLOBAL")
  discard (keyword "TRANSIENT")
  discard (oneOf? ["TEMP", "TEMPORARY"])
  if ← keyword "TABLE" then createTable n
  else if (← isKeyword "MATERIALIZED") || (← isKeyword "VIEW") ||
      (← areKeywords ["SECURE", "VIEW"]) || (← areKeywords ["SECURE", "MATERIALIZED", "VIEW"]) then
    createView n
  else if ← keyword "EXTERNAL" then
    expectKeyword "TABLE"
    createExternalTable n
  else if (← oneOf? plainObjects).isSome then
    restOfStatement
    return .other "CREATE" []
  else if replace then
    expected "[EXTERNAL] TABLE or [MATERIALIZED] VIEW or FUNCTION after CREATE OR REPLACE"
  else if ← anyOf [keyword "INDEX", keywords ["UNIQUE", "INDEX"]] then createIndex n
  else if ← keyword "SCHEMA" then createSchema n
  else if ← keyword "DATABASE" then createDatabase
  else if ← anyKeyword morePlainObjects then
    restOfStatement
    return .other "CREATE" []
  else expected "an object type after CREATE"

/-- `DROP` behind its keyword; nothing that it names is read. -/
def drop : Parser Statement := do
  if (← dialect).isPermissive then discard (keyword "TEMPORARY")
  if ← anyOf [anyKeyword ["TABLE", "VIEW", "INDEX", "ROLE", "SCHEMA", "DATABASE", "SEQUENCE",
      "STAGE", "TYPE", "USER", "STREAM"], keywords ["MATERIALIZED", "VIEW"]] then
    ifExists
    discard (commaSeparated objectName)
    let here ← place
    let cascade ← keyword "CASCADE"
    let restrict ← keyword "RESTRICT"
    discard (keyword "PURGE")
    if cascade && restrict then
      fail (.refused "Cannot specify both CASCADE and RESTRICT in DROP" here)
    if ← keyword "ON" then discard objectName
  else if (← oneOf? ["FUNCTION", "POLICY", "CONNECTOR", "DOMAIN", "PROCEDURE", "SECRET", "TRIGGER",
      "EXTENSION", "OPERATOR"]).isSome then
    restOfStatement
  else
    expected ("CONNECTOR, DATABASE, EXTENSION, FUNCTION, INDEX, OPERATOR, POLICY, PROCEDURE, " ++
      "ROLE, SCHEMA, SECRET, SEQUENCE, STAGE, TABLE, TRIGGER, TYPE, VIEW, MATERIALIZED VIEW or " ++
      "USER after DROP")
  return .other "DROP" []

/-! ### Changes -/

def addOperation : Parser (List Expr) := do
  match ← tableConstraint? n with
  | some es => return es
  | none =>
    ifNotExists
    let partitions ← many do
      if ← keyword "PARTITION" then
        let values ← tuple n
        if ← keyword "LOCATION" then discard literalString
        return some values
      else return none
    if !partitions.isEmpty then return partitions.flatten
    discard (keyword "COLUMN")
    ifNotExists
    let column ← columnDef n
    if (← dialect).isPermissive then
      if !(← keyword "FIRST") then
        if ← keyword "AFTER" then discard ident
    return column

def dropOperation : Parser (List Expr) := do
  let behavior : Parser Unit := discard (oneOf? ["CASCADE", "RESTRICT"])
  if ← anyOf [keywords ["IF", "EXISTS", "PARTITION"], keyword "PARTITION"] then tuple n
  else if ← keyword "CONSTRAINT" then
    ifExists
    discard ident
    behavior
    return []
  else if ← keywords ["PRIMARY", "KEY"] then return []
  else
    discard (keyword "COLUMN")
    ifExists
    discard ident
    behavior
    return []

def alterColumn : Parser (List Expr) := do
  discard (keyword "COLUMN")
  discard ident
  if ← anyOf [keywords ["SET", "NOT", "NULL"], keywords ["DROP", "NOT", "NULL"],
      keywords ["DROP", "DEFAULT"]] then
    return []
  else if ← keywords ["SET", "DEFAULT"] then return [← expr n]
  else if ← anyOf [keywords ["SET", "DATA", "TYPE"], keyword "TYPE"] then
    discard typeName
    after "USING" (return [← expr n])
  else expected "SET/DROP NOT NULL, SET DEFAULT, or SET DATA TYPE after ALTER COLUMN"

def alterOperation : Parser (List Expr) := do
  if ← keyword "ADD" then addOperation n
  else if ← keyword "RENAME" then
    if ← keyword "TO" then discard objectName
    else
      discard (keyword "COLUMN")
      discard ident
      expectKeyword "TO"
      discard ident
    return []
  else if ← keyword "PARTITION" then
    let old ← tuple n
    expectKeywords ["RENAME", "TO", "PARTITION"]
    return old ++ (← tuple n)
  else if ← keyword "DROP" then dropOperation n
  else if ← keyword "CHANGE" then
    discard (keyword "COLUMN")
    discard ident
    columnDef n
  else if ← keyword "MODIFY" then
    discard (keyword "COLUMN")
    columnDef n
  else if ← keyword "ALTER" then alterColumn n
  else if ← keyword "SWAP" then
    expectKeyword "WITH"
    discard objectName
    return []
  else if ← keywords ["OWNER", "TO"] then
    discard ident
    return []
  else if ← areKeywords ["SET", "TBLPROPERTIES"] then optionsAfter n ["SET", "TBLPROPERTIES"]
  else
    match ← parenthesizedOptions n "SET" with
    | [] =>
      expected ("ADD, RENAME, PARTITION, SWAP, DROP, REPLICA IDENTITY, SET, or SET " ++
        "TBLPROPERTIES after ALTER TABLE")
    | options => return options

def alter : Parser Statement := do
  match ← expectOneOf ["VIEW", "TYPE", "TABLE", "INDEX", "ROLE", "POLICY", "CONNECTOR", "ICEBERG",
      "SCHEMA", "USER", "OPERATOR"] with
  | "TABLE" =>
    ifExists
    discard (keyword "ONLY")
    let table ← objectName
    if ← keywords ["ON", "CLUSTER"] then discard ident
    let operations ← commaSeparated (alterOperation n)
    if ← anyOf [keyword "LOCATION", keywords ["SET", "LOCATION"]] then discard literalString
    return .other "ALTER TABLE" (.relation table :: operations.flatten.map .expr)
  | "VIEW" =>
    let view ← objectName
    discard optionalIdentList
    discard (optionsAfter n ["WITH"])
    expectKeyword "AS"
    return .other "ALTER VIEW" [.relation view, .expr (.subquery (← n.query))]
  | _ =>
    restOfStatement
    return .other "ALTER" []

end

end Parser
end Sql
end Lineage
