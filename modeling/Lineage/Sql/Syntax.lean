/-
Syntax trees of SQL statements.

The trees keep what can hold a table name or a query, in the order in which it
is written.  A clause that holds nothing else than expressions is the list of
those expressions, and an absent clause is an empty list.
-/

namespace Lineage
namespace Sql

structure Ident where
  value : String
  quote : Option Char
  deriving DecidableEq, Inhabited

/-- An identifier as it is written.  A quote inside is doubled. -/
def Ident.spelling (i : Ident) : String :=
  match i.quote with
  | none => i.value
  | some q =>
    let inner := i.value.foldl (fun done c => if c = q then (done.push c).push c else done.push c) ""
    q.toString ++ inner ++ q.toString

structure ObjectName where
  parts : List Ident
  deriving DecidableEq, Inhabited

/-- The name that a table goes by in its query, with names for its columns. -/
structure Alias where
  name : Ident
  columns : List Ident
  deriving DecidableEq

def Alias.spelling (a : Alias) : String :=
  if a.columns.isEmpty then a.name.spelling
  else a.name.spelling ++ " (" ++ ", ".intercalate (a.columns.map Ident.spelling) ++ ")"

inductive SetOperator where
  | union
  | except
  | intersect
  | minus
  deriving DecidableEq

mutual

inductive Expr where
  | column (parts : List Ident)
  | literal (text : String)
  | call (function : ObjectName) (operands : List Expr)
  /-- Any other operator, with its operands in order. -/
  | form (head : String) (operands : List Expr)
  | subquery (query : Query)

structure Query where
  definitions : Option With
  body : SetExpr
  orderBy : List Expr
  /-- `LIMIT`, `OFFSET` and what else may follow. -/
  bounds : List Expr

structure With where
  recursive : Bool
  ctes : List Cte

structure Cte where
  aka : Alias
  query : Query

inductive SetExpr where
  | select (block : Select)
  | query (query : Query)
  | setOperation (operator : SetOperator) (left right : SetExpr)
  | values (rows : List Expr)
  | table (name : ObjectName)
  | insert (statement : Statement)
  /-- An `UPDATE`, `DELETE` or `MERGE` behind a `WITH` list. -/
  | write (statement : Statement)

structure Select where
  /-- `DISTINCT ON` and `TOP`. -/
  leading : List Expr
  projection : List Expr
  tables : List TableWithJoins
  lateralViews : List Expr
  prewhere : List Expr
  selection : List Expr
  groupBy : List Expr
  /-- `CLUSTER BY`, `DISTRIBUTE BY` and `SORT BY`. -/
  placement : List Expr
  having : List Expr
  windows : List Expr
  qualify : List Expr
  connectBy : List Expr

inductive TableFactor where
  /-- A named table, or a table function with its arguments. -/
  | table (name : ObjectName) (aka : Option Alias) (operands : List Expr)
  | derived (query : Query) (aka : Option Alias) (sample : List Expr)
  | nested (tables : TableWithJoins) (aka : Option Alias)
  /-- A table made from another one, or from expressions alone. -/
  | other (head : String) (inner : List TableFactor) (operands : List Expr)
      (aka : Option Alias)

structure TableWithJoins where
  relation : TableFactor
  joins : List Join

structure Join where
  relation : TableFactor
  constraint : List Expr

inductive Statement where
  | query (query : Query)
  | insert (statement : Insert)
  | update (statement : Update)
  | delete (statement : Delete)
  | merge (statement : Merge)
  | createTable (statement : CreateTable)
  | createView (statement : CreateView)
  /-- Any other statement, by its leading keywords. -/
  | other (head : String) (parts : List Part)

structure Insert where
  target : InsertTarget
  source : Option Query
  /-- Assignments, partition values, conflict clauses and returned columns. -/
  operands : List Expr

inductive InsertTarget where
  | table (name : ObjectName)
  | function (call : Expr)

structure Update where
  table : TableWithJoins
  assignments : List Expr
  tables : List TableWithJoins
  selection : List Expr
  /-- Returned columns and the row limit. -/
  operands : List Expr

structure Delete where
  listed : List ObjectName
  tables : List TableWithJoins
  usingTables : List TableWithJoins
  selection : List Expr
  returning : List Expr
  orderBy : List Expr
  limit : List Expr

structure Merge where
  table : TableFactor
  source : TableFactor
  condition : Expr
  clauses : List Expr
  output : List Expr

structure CreateTable where
  name : ObjectName
  columns : List Expr
  query : Option Query

structure CreateView where
  name : ObjectName
  query : Query

/-- What a statement without a tree of its own mentions. -/
inductive Part where
  | relation (name : ObjectName)
  | expr (expr : Expr)
  | statement (statement : Statement)

end

instance : Inhabited Expr := ⟨.column []⟩

instance : Inhabited Query := ⟨⟨none, .values [], [], []⟩⟩

instance : Inhabited TableFactor := ⟨.table default none []⟩

instance : Inhabited TableWithJoins := ⟨⟨default, []⟩⟩

instance : Inhabited Statement := ⟨.query default⟩

end Sql
end Lineage
