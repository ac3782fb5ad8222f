import Lineage.Tree

/-
The node types of a plan: what is left of a SQL statement once everything that
does not decide lineage is dropped.
-/

namespace Lineage
namespace Plan

inductive Node where
  | script
  | insert
  | update
  | delete
  | merge
  | createTableAs
  | createView
  | insertTarget
  | targetTable
  | objectName
  | ident
  | relation
  | query
  | select
  | join
  | setOperation
  | derived
  | cte
  /-- The definitions of a `WITH RECURSIVE`. -/
  | recursiveWith
  | values
  /-- An expression that holds a subquery. -/
  | expr
  /-- A statement kept for the relations it mentions only. -/
  | statement
  | other
  deriving DecidableEq, Inhabited

namespace Node

def all : List Node :=
  [script, insert, update, delete, merge, createTableAs, createView, insertTarget, targetTable,
    objectName, ident, relation, query, select, join, setOperation, derived, cte, recursiveWith,
    values, expr, statement, other]

def name : Node → String
  | script => "Script"
  | insert => "Insert"
  | update => "Update"
  | delete => "Delete"
  | merge => "Merge"
  | createTableAs => "CreateTableAs"
  | createView => "CreateView"
  | insertTarget => "InsertTarget"
  | targetTable => "TargetTable"
  | objectName => "ObjectName"
  | ident => "Ident"
  | relation => "Relation"
  | query => "Query"
  | select => "Select"
  | join => "Join"
  | setOperation => "SetOperation"
  | derived => "Derived"
  | cte => "Cte"
  | recursiveWith => "RecursiveWith"
  | values => "Values"
  | expr => "Expr"
  | statement => "Statement"
  | other => "Other"

def ofName? (s : String) : Option Node := all.find? (·.name = s)

instance : Vocabulary Node where
  kind
    | script => .root
    | insert | update | delete | merge | createTableAs | createView => .insert
    | insertTarget => .destination
    | targetTable => .table
    | objectName => .tableName
    | relation => .tableRef
    | query => .query
    | select => .select
    | join => .join
    | setOperation => .union
    | derived => .subqueryAlias
    | cte | recursiveWith => .cteDef
    | ident | values | expr | statement | other => .other

theorem mem_all (n : Node) : n ∈ all := by cases n <;> decide

theorem ofName?_name (n : Node) : ofName? n.name = some n := by cases n <;> rfl

end Node
end Plan
end Lineage
