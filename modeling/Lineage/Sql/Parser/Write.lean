import Lineage.Sql.Parser.Query

/-
Parsers of the statements that change rows: `INSERT`, `UPDATE`, `DELETE` and
`MERGE`, each from behind its keyword.
-/

namespace Lineage
namespace Sql
namespace Parser

section

variable (n : Nested)

def assignment : Parser Expr := do
  if ← isSymbol "(" then discard (parenthesized (commaSeparated objectName))
  else discard objectName
  expectSymbol "="
  return .form "=" [← expr n]

def assignments : Parser (List Expr) := commaSeparated (assignment n)

def returning : Parser (List Expr) := after "RETURNING" (selectItems n)

def filter : Parser (List Expr) := after "WHERE" (return [← expr n])

def conflictWord : Parser Unit := do
  if ← isKeyword "OR" then
    if ["REPLACE", "ROLLBACK", "ABORT", "FAIL", "IGNORE"].contains (← keywordAt 1) then
      modify (·.drop 2)

/-- `ON CONFLICT` and `ON DUPLICATE KEY UPDATE`. -/
def conflictClause : Parser (List Expr) := after "ON" do
  if ← keyword "CONFLICT" then
    if ← keywords ["ON", "CONSTRAINT"] then discard objectName
    else discard optionalIdentList
    expectKeyword "DO"
    if ← keyword "NOTHING" then return []
    expectKeywords ["UPDATE", "SET"]
    let changes ← assignments n
    return changes ++ (← filter n)
  else
    expectKeywords ["DUPLICATE", "KEY", "UPDATE"]
    assignments n

def partitionValues : Parser (List Expr) := after "PARTITION" (tuple n)

def fileFormat : Parser Unit := do
  if (← oneOf? ["AVRO", "JSONFILE", "ORC", "PARQUET", "RCFILE", "SEQUENCEFILE",
      "TEXTFILE"]).isNone then
    expected "fileformat"

/-- An insert into a directory reads tables and writes none. -/
def insertDirectory : Parser Statement := do
  discard literalString
  if ← keywords ["STORED", "AS"] then fileFormat
  return .other "INSERT DIRECTORY" [.expr (.subquery (← n.query))]

/-- The rows of an insert: a query, assignments, or the defaults alone. -/
def insertRows : Parser (Option Query × List Expr) := do
  let d ← dialect
  if ← keywords ["DEFAULT", "VALUES"] then return (none, [])
  let isSubquery := (← isSymbol "(") && ["SELECT", "WITH"].contains (← keywordAt 1)
  let partition ← if isSubquery then pure [] else do
    discard optionalIdentList
    let partition ← partitionValues n
    if d = .hive then discard optionalIdentList
    pure partition
  if ← onlyIf d.isPermissive (keyword "SET") then return (none, (← assignments n) ++ partition)
  return (some (← n.query), partition)

def insertTable : Parser Statement := do
  discard (keyword "TABLE")
  let name ← objectName
  let (source, operands) ← insertRows n
  if ← onlyIf (← dialect).isPermissive (keyword "AS") then
    discard objectName
    discard optionalIdentList
  let conflict ← conflictClause n
  return .insert ⟨.table name, source, operands ++ conflict ++ (← returning n)⟩

def insert : Parser Statement := do
  conflictWord
  if (← dialect).isPermissive then
    discard (oneOf? ["LOW_PRIORITY", "DELAYED", "HIGH_PRIORITY"])
    discard (keyword "IGNORE")
  discard (keyword "OVERWRITE")
  discard (keyword "INTO")
  discard (keyword "LOCAL")
  if ← keyword "DIRECTORY" then insertDirectory n else insertTable n

def update : Parser Statement := do
  conflictWord
  let table ← tableWithJoins n
  let early ← after "FROM" (tableList n)
  expectKeyword "SET"
  let changes ← assignments n
  let late ← if early.isEmpty then after "FROM" (tableList n) else pure []
  let selection ← filter n
  let returned ← returning n
  let limit ← after "LIMIT" (return [← expr n])
  return .update ⟨table, changes, early ++ late, selection, returned ++ limit⟩

/-- In the permissive dialect `FROM` may be left out, and no tables are listed
in front of it. -/
def delete : Parser Statement := do
  let listed ← if ← keyword "FROM" then pure []
    else if (← dialect).isPermissive then pure []
    else do
      let listed ← commaSeparated objectName
      expectKeyword "FROM"
      pure listed
  let tables ← tableList n
  let joined ← after "USING" (tableList n)
  let selection ← filter n
  let returned ← returning n
  let order ← afterAll ["ORDER", "BY"] (orderItems n)
  let limit ← after "LIMIT" do
    if ← keyword "ALL" then return []
    return [← expr n]
  return .delete ⟨listed, tables, joined, selection, returned, order, limit⟩

inductive MergeRows where
  | matched
  | notMatched
  | notMatchedBySource
  | notMatchedByTarget
  deriving DecidableEq

namespace MergeRows

def name : MergeRows → String
  | matched => "MATCHED"
  | notMatched => "NOT MATCHED"
  | notMatchedBySource => "NOT MATCHED BY SOURCE"
  | notMatchedByTarget => "NOT MATCHED BY TARGET"

/-- Whether the rows have no match among the target's rows. -/
def lackTarget (r : MergeRows) : Bool := r = notMatched || r = notMatchedByTarget

end MergeRows

def mergeRows : Parser MergeRows := do
  let negated ← keyword "NOT"
  expectKeyword "MATCHED"
  if !negated then return .matched
  if ← keywords ["BY", "SOURCE"] then return .notMatchedBySource
  if ← keywords ["BY", "TARGET"] then return .notMatchedByTarget
  return .notMatched

def mergeAction (rows : MergeRows) : Parser (List Expr) := do
  let here ← place
  let refuseAction (action : String) : Parser (List Expr) :=
    fail (.refused (action ++ " is not allowed in a " ++ rows.name ++ " merge clause") here)
  match ← oneOf? ["UPDATE", "INSERT", "DELETE"] with
  | some "UPDATE" =>
    if rows.lackTarget then refuseAction "UPDATE" else
      expectKeyword "SET"
      assignments n
  | some "DELETE" => if rows.lackTarget then refuseAction "DELETE" else return []
  | some _ =>
    if !rows.lackTarget then refuseAction "INSERT" else
      discard optionalIdentList
      if ← onlyIf (← dialect).isPermissive (keyword "ROW") then return []
      expectKeyword "VALUES"
      valueRows n
  | none => refuse "expected UPDATE, DELETE or INSERT in merge clause"

def mergeClauses : Parser (List Expr) := do
  let clauses ← many do
    if !(← keyword "WHEN") then return none
    let rows ← mergeRows
    let condition ← after "AND" (return [← expr n])
    expectKeyword "THEN"
    return some (condition ++ (← mergeAction n rows))
  return clauses.flatten

/-- Only `OUTPUT` may put its rows into a table. -/
def mergeOutput : Parser (List Expr) := do
  match ← oneOf? ["OUTPUT", "RETURNING"] with
  | none => return []
  | some word =>
    let items ← projection n
    if word = "OUTPUT" then intoTable
    return items

def merge : Parser Statement := do
  discard (keyword "INTO")
  let table ← n.factor
  expectKeyword "USING"
  let source ← n.factor
  expectKeyword "ON"
  let condition ← expr n
  let clauses ← mergeClauses n
  return .merge ⟨table, source, condition, clauses, ← mergeOutput n⟩

def writeBody : Parser Statement := do
  if ← keyword "UPDATE" then update n
  else if ← keyword "DELETE" then delete n
  else
    expectKeyword "MERGE"
    merge n

def insertBody : Parser Statement := do
  expectKeyword "INSERT"
  insert n

def query : Parser Query := queryWith n (insertBody n) (writeBody n)

end

end Parser
end Sql
end Lineage
