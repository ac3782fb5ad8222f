import Lineage.Plan.Node
import Lineage.Sql.Visit

/-
Plans of SQL statements.

A plan holds the written table of a statement, the tables that it reads, its
query blocks with their definitions, set operations, and the subqueries of
expressions.  The first child of a write statement is the written table.  What
the statement only reads stands below an `other` child, because a relation right
below a write node counts as written.
-/

namespace Lineage
namespace Plan

open Sql

abbrev PlanTree := Tree Node

/-- A name with one leaf a part, quotes removed. -/
def objectName (name : ObjectName) : PlanTree :=
  .branch .objectName (name.parts.map fun part => .leaf .ident part.value)

def insertTarget (name : ObjectName) : PlanTree :=
  .branch .insertTarget [.branch .targetTable [objectName name]]

def relations (names : List ObjectName) : List PlanTree :=
  names.map fun name => .branch .relation [objectName name]

def aliasLeaf : Option Alias → List PlanTree
  | none => []
  | some aka => [.leaf .ident aka.name.value]

def joined (relation : PlanTree) (constraint : List PlanTree) : PlanTree :=
  if constraint.isEmpty then relation else .branch .other (relation :: constraint)

/-- The table that a factor reads if a name listed in a `DELETE` refers to it,
by the same name or by its alias. -/
def deletedTable? (factor : TableFactor) (listed : ObjectName) : Option ObjectName :=
  match factor with
  | .table name aka _ =>
    let byAlias := match aka, listed.parts with
      | some aka, [part] => part.value = aka.name.value
      | _, _ => false
    if name = listed || byAlias then some name else none
  | _ => none

def isDeleted (listed : List ObjectName) (factor : TableFactor) : Bool :=
  listed.any fun name => (deletedTable? factor name).isSome

/-- The factors of a `FROM` list that stand in no parentheses. -/
def factors (tables : List TableWithJoins) : List TableFactor :=
  tables.flatMap fun t => t.relation :: t.joins.map (·.relation)

/-- The table that a listed name stands for; a name that refers to no factor
stands for itself. -/
def deletionTarget (tables : List TableWithJoins) (listed : ObjectName) : ObjectName :=
  ((factors tables).findSome? (deletedTable? · listed)).getD listed

mutual

/-- The outermost subqueries of an expression. -/
def subqueries : Expr → List PlanTree
  | .column _ | .literal _ => []
  | .call _ operands | .form _ operands => subqueriesIn operands
  | .subquery query => [.branch .expr [lowerQuery query]]

def subqueriesIn : List Expr → List PlanTree
  | [] => []
  | e :: es => subqueries e ++ subqueriesIn es

/-- A query block.  The definitions of a recursive list stand below a node of
their own. -/
def lowerQuery : Query → PlanTree
  | ⟨none, body, orderBy, _⟩ => .branch .query (lowerBody body :: subqueriesIn orderBy)
  | ⟨some ⟨false, ctes⟩, body, orderBy, _⟩ =>
    .branch .query (lowerCtes ctes ++ lowerBody body :: subqueriesIn orderBy)
  | ⟨some ⟨true, ctes⟩, body, orderBy, _⟩ =>
    .branch .query (.node .recursiveWith (some Tree.recursiveMarker) (lowerCtes ctes) ::
      lowerBody body :: subqueriesIn orderBy)

def lowerCtes : List Cte → List PlanTree
  | [] => []
  | ⟨aka, query⟩ :: ctes =>
    .node .cte (some aka.name.value) [lowerQuery query] :: lowerCtes ctes

def lowerBody : SetExpr → PlanTree
  | .select block => lowerSelect block
  | .query query => lowerQuery query
  | .setOperation _ left right => .branch .setOperation [lowerBody left, lowerBody right]
  | .insert statement => lower statement
  | .values rows => .branch .values (subqueriesIn rows)
  | .table _ => .branch .other []
  | .write statement => .branch .other (relations statement.relations)

/-- A block reads its tables first, then what its expressions hold. -/
def lowerSelect : Select → PlanTree
  | ⟨_, projection, tables, _, _, selection, groupBy, _, having, _, qualify, _⟩ =>
    .branch .select (lowerTables tables ++ subqueriesIn projection ++ subqueriesIn selection ++
      subqueriesIn groupBy ++ subqueriesIn having ++ subqueriesIn qualify)

def lowerTables : List TableWithJoins → List PlanTree
  | [] => []
  | t :: ts => lowerTable t :: lowerTables ts

def lowerTable : TableWithJoins → PlanTree
  | ⟨relation, []⟩ => lowerFactor relation
  | ⟨relation, joins⟩ => .branch .join (lowerFactor relation :: lowerJoins joins)

def lowerJoins : List Join → List PlanTree
  | [] => []
  | ⟨relation, constraint⟩ :: joins =>
    joined (lowerFactor relation) (subqueriesIn constraint) :: lowerJoins joins

def lowerFactor : TableFactor → PlanTree
  | .table name aka _ => .branch .relation (objectName name :: aliasLeaf aka)
  | .derived query aka _ => .branch .derived (lowerQuery query :: aliasLeaf aka)
  | .nested tables _ => lowerTable tables
  | .other head inner operands aka =>
    .branch .other (relations (TableFactor.other head inner operands aka).relations)

/-- The tables of a plain `DELETE`, each named one with its joins: what it
writes, and what it reads. -/
def deleteAll : List TableWithJoins → List PlanTree × List PlanTree
  | [] => ([], [])
  | ⟨relation, joins⟩ :: ts =>
    let (written, read) := deleteAll ts
    match relation with
    | .table name _ _ => (insertTarget name :: written, lowerJoins joins ++ read)
    | factor => (written, lowerFactor factor :: lowerJoins joins ++ read)

/-- What a `DELETE` with listed names reads: all but the tables that the names
refer to. -/
def deleteListed (listed : List ObjectName) : List TableWithJoins → List PlanTree
  | [] => []
  | ⟨relation, joins⟩ :: ts =>
    (if isDeleted listed relation then [] else [lowerFactor relation]) ++
      deleteListedJoins listed joins ++ deleteListed listed ts

def deleteListedJoins (listed : List ObjectName) : List Join → List PlanTree
  | [] => []
  | ⟨relation, constraint⟩ :: joins =>
    (if isDeleted listed relation then subqueriesIn constraint
      else [joined (lowerFactor relation) (subqueriesIn constraint)]) ++
      deleteListedJoins listed joins

def lower : Statement → PlanTree
  | .query query => lowerQuery query
  | .insert ⟨.table name, none, _⟩ => .branch .insert [insertTarget name]
  | .insert ⟨.table name, some source, _⟩ => .branch .insert [insertTarget name, lowerQuery source]
  | .insert ⟨.function _, none, _⟩ => .branch .insert []
  | .insert ⟨.function _, some source, _⟩ => .branch .insert [lowerQuery source]
  | .update ⟨⟨relation, joins⟩, assignments, tables, selection, _⟩ =>
    let reads := lowerJoins joins ++ lowerTables tables ++ subqueriesIn assignments ++
      subqueriesIn selection
    match relation with
    | .table name _ _ => .branch .update [insertTarget name, .branch .other reads]
    | factor => .branch .update [.branch .other (lowerFactor factor :: reads)]
  | .delete ⟨listed, tables, usingTables, selection, _, orderBy, _⟩ =>
    let reads := lowerTables usingTables ++ subqueriesIn selection ++ subqueriesIn orderBy
    if listed.isEmpty then
      let (written, read) := deleteAll tables
      .branch .delete (written ++ [.branch .other (read ++ reads)])
    else
      .branch .delete (listed.map (fun name => insertTarget (deletionTarget tables name)) ++
        [.branch .other (deleteListed listed tables ++ reads)])
  | .merge ⟨table, source, condition, clauses, _⟩ =>
    let reads := lowerFactor source :: subqueries condition ++ subqueriesIn clauses
    match table with
    | .table name _ _ => .branch .merge [insertTarget name, .branch .other reads]
    | factor => .branch .merge [.branch .other (lowerFactor factor :: reads)]
  | .createTable ⟨name, _, none⟩ => .branch .createTableAs [insertTarget name]
  | .createTable ⟨name, _, some query⟩ =>
    .branch .createTableAs [insertTarget name, lowerQuery query]
  | .createView ⟨name, query⟩ => .branch .createView [insertTarget name, lowerQuery query]
  | .other head parts => .branch .statement (relations (Statement.other head parts).relations)

end

def script (statements : List Statement) : PlanTree := .branch .script (statements.map lower)

end Plan
end Lineage
