import Lineage.Proofs.QualifiedName
import Lineage.Sql.Visit

/-
Which tables a SQL statement reads.

The rules are those of SQL.  A name of several parts is a table.  A name of one
part is a table unless a `WITH` list around it defines the name where it stands:
the main body and the sort keys see the whole list, the query of a definition
sees the definitions before it, and in a recursive list also itself.

The references come in the order of the clauses: definitions, tables with their
joins, projection, selection, grouping, and so on.
-/

namespace Lineage
namespace Sql

/-- A table name that is read, and the definitions that it sees. -/
structure Reference where
  name : ObjectName
  visible : Names

namespace Reference

/-- The name of the table if the reference is free. -/
def free? (r : Reference) : Option QualifiedName :=
  match r.name.parts with
  | [part] =>
    if r.visible (foldCase part.value) then none else QualifiedName.ofString? part.value
  | parts => QualifiedName.ofString? (".".intercalate (parts.map Ident.value))

end Reference

/-- The tables that references stand for, those of definitions left out. -/
def freeNames (references : List Reference) : List QualifiedName :=
  references.filterMap Reference.free?

/-- The name that a definition can be referred to by. -/
def Cte.name? : Cte → Option String
  | ⟨aka, _⟩ => if aka.name.value = "" then none else some aka.name.value

def cteNames (ctes : List Cte) : List String := ctes.filterMap Cte.name?

def TableFactor.isNamed : TableFactor → Bool
  | .table .. => true
  | _ => false

mutual

/-- The tables read in the subqueries of an expression. -/
def Expr.reads (visible : Names) : Expr → List Reference
  | .column _ | .literal _ => []
  | .call _ operands | .form _ operands => exprReads visible operands
  | .subquery query => query.reads visible

def exprReads (visible : Names) : List Expr → List Reference
  | [] => []
  | e :: es => e.reads visible ++ exprReads visible es

def Query.reads (visible : Names) : Query → List Reference
  | ⟨none, body, orderBy, bounds⟩ =>
    body.reads visible ++ exprReads visible orderBy ++ exprReads visible bounds
  | ⟨some ⟨recursive, ctes⟩, body, orderBy, bounds⟩ =>
    cteReads recursive visible ctes ++ (body.reads (visible.bindAll (cteNames ctes)) ++
      exprReads (visible.bindAll (cteNames ctes)) orderBy ++
      exprReads (visible.bindAll (cteNames ctes)) bounds)

/-- Each definition sees those before it. -/
def cteReads (recursive : Bool) (visible : Names) : List Cte → List Reference
  | [] => []
  | ⟨aka, query⟩ :: ctes =>
    query.reads (if recursive then visible.bind? (Cte.name? ⟨aka, query⟩) else visible) ++
      cteReads recursive (visible.bind? (Cte.name? ⟨aka, query⟩)) ctes

def SetExpr.reads (visible : Names) : SetExpr → List Reference
  | .select block => block.reads visible
  | .query query => query.reads visible
  | .setOperation _ left right => left.reads visible ++ right.reads visible
  | .values rows => exprReads visible rows
  | .table name => [⟨name, visible⟩]
  | .insert statement | .write statement => statement.reads visible

def Select.reads (visible : Names) : Select → List Reference
  | ⟨leading, projection, tables, lateralViews, prewhere, selection, groupBy, placement, having,
      windows, qualify, connectBy⟩ =>
    tablesReads visible tables ++ exprReads visible projection ++ exprReads visible selection ++
      exprReads visible groupBy ++ exprReads visible having ++ exprReads visible qualify ++
      (exprReads visible leading ++ exprReads visible lateralViews ++
        exprReads visible prewhere ++ exprReads visible placement ++
        exprReads visible windows ++ exprReads visible connectBy)

def TableFactor.reads (visible : Names) : TableFactor → List Reference
  | .table name _ operands => ⟨name, visible⟩ :: exprReads visible operands
  | .derived query _ sample => query.reads visible ++ exprReads visible sample
  | .nested tables _ => tables.reads visible
  | .other _ inner operands _ => factorReads visible inner ++ exprReads visible operands

def factorReads (visible : Names) : List TableFactor → List Reference
  | [] => []
  | t :: ts => t.reads visible ++ factorReads visible ts

def TableWithJoins.reads (visible : Names) : TableWithJoins → List Reference
  | ⟨relation, joins⟩ => relation.reads visible ++ joinReads visible joins

def tablesReads (visible : Names) : List TableWithJoins → List Reference
  | [] => []
  | t :: ts => t.reads visible ++ tablesReads visible ts

def joinReads (visible : Names) : List Join → List Reference
  | [] => []
  | ⟨relation, constraint⟩ :: joins =>
    relation.reads visible ++ exprReads visible constraint ++ joinReads visible joins

/-- What the tables of a `DELETE` read: its named ones are written. -/
def deleteReads (visible : Names) : List TableWithJoins → List Reference
  | [] => []
  | ⟨relation, joins⟩ :: ts =>
    (if relation.isNamed then [] else relation.reads visible) ++ joinReads visible joins ++
      deleteReads visible ts

/-- What a statement reads.  The tables of a `DELETE` that lists what it deletes
are left out. -/
def Statement.reads (visible : Names) : Statement → List Reference
  | .query query => query.reads visible
  | .insert ⟨target, none, operands⟩ => target.reads visible ++ exprReads visible operands
  | .insert ⟨target, some source, operands⟩ =>
    target.reads visible ++ source.reads visible ++ exprReads visible operands
  | .update ⟨⟨relation, joins⟩, assignments, tables, selection, operands⟩ =>
    (if relation.isNamed then [] else relation.reads visible) ++ joinReads visible joins ++
      tablesReads visible tables ++ exprReads visible assignments ++
      exprReads visible selection ++ exprReads visible operands
  | .delete ⟨_, tables, usingTables, selection, returning, orderBy, limit⟩ =>
    deleteReads visible tables ++ tablesReads visible usingTables ++
      exprReads visible selection ++ exprReads visible orderBy ++
      (exprReads visible returning ++ exprReads visible limit)
  | .merge ⟨table, source, condition, clauses, output⟩ =>
    (if table.isNamed then [] else table.reads visible) ++ source.reads visible ++
      condition.reads visible ++ exprReads visible clauses ++ exprReads visible output
  | .createTable ⟨_, columns, none⟩ => exprReads visible columns
  | .createTable ⟨_, columns, some query⟩ => query.reads visible ++ exprReads visible columns
  | .createView ⟨_, query⟩ => query.reads visible
  | .other _ parts => partReads visible parts

def InsertTarget.reads (visible : Names) : InsertTarget → List Reference
  | .table _ => []
  | .function call => call.reads visible

def partReads (visible : Names) : List Part → List Reference
  | [] => []
  | .relation name :: parts => ⟨name, visible⟩ :: partReads visible parts
  | .expr expr :: parts => expr.reads visible ++ partReads visible parts
  | .statement statement :: parts => statement.reads visible ++ partReads visible parts

end

/-! ## The core of SQL -/

/-- Whether no expression of a clause holds a query. -/
def queryFree (es : List Expr) : Bool := (exprVisits es).isEmpty

/-- Whether every part of a name says something. -/
def ObjectName.isProper (name : ObjectName) : Bool := name.parts.all (·.value ≠ "")

def InsertTarget.isCore : InsertTarget → Bool
  | .table _ => true
  | .function call => queryFree [call]

mutual

def Expr.isCore : Expr → Bool
  | .column _ | .literal _ => true
  | .call _ operands | .form _ operands => exprsAreCore operands
  | .subquery query => query.isCore

def exprsAreCore : List Expr → Bool
  | [] => true
  | e :: es => e.isCore && exprsAreCore es

/-- Statements of the core hold queries in `FROM` and `JOIN`, in set operations
and `WITH` lists, and in expressions, but only in the clauses named here; a
`WITH` list is not empty, and no definition has a dot in its name. -/
def Query.isCore : Query → Bool
  | ⟨none, body, orderBy, bounds⟩ => body.isCore && exprsAreCore orderBy && queryFree bounds
  | ⟨some ⟨_, ctes⟩, body, orderBy, bounds⟩ =>
    !ctes.isEmpty && ctesAreCore ctes && body.isCore && exprsAreCore orderBy && queryFree bounds

def ctesAreCore : List Cte → Bool
  | [] => true
  | ⟨aka, query⟩ :: ctes => '.' ∉ aka.name.value.toList && query.isCore && ctesAreCore ctes

def SetExpr.isCore : SetExpr → Bool
  | .select block => block.isCore
  | .query query => query.isCore
  | .setOperation _ left right => left.isCore && right.isCore
  | .values rows => exprsAreCore rows
  | .insert statement => statement.isCore
  | .table _ | .write _ => false

def Select.isCore : Select → Bool
  | ⟨leading, projection, tables, lateralViews, prewhere, selection, groupBy, placement, having,
      windows, qualify, connectBy⟩ =>
    tablesAreCore tables && exprsAreCore projection && exprsAreCore selection &&
      exprsAreCore groupBy && exprsAreCore having && exprsAreCore qualify &&
      (queryFree leading && queryFree lateralViews && queryFree prewhere &&
        queryFree placement && queryFree windows && queryFree connectBy)

def TableFactor.isCore : TableFactor → Bool
  | .table name _ operands => name.isProper && queryFree operands
  | .derived query _ sample => query.isCore && queryFree sample
  | .nested tables _ => tables.isCore
  | .other .. => false

def TableWithJoins.isCore : TableWithJoins → Bool
  | ⟨relation, joins⟩ => relation.isCore && joinsAreCore joins

def tablesAreCore : List TableWithJoins → Bool
  | [] => true
  | t :: ts => t.isCore && tablesAreCore ts

def joinsAreCore : List Join → Bool
  | [] => true
  | ⟨relation, constraint⟩ :: joins =>
    relation.isCore && exprsAreCore constraint && joinsAreCore joins

def Statement.isCore : Statement → Bool
  | .query query => query.isCore
  | .insert ⟨target, none, operands⟩ => target.isCore && queryFree operands
  | .insert ⟨target, some source, operands⟩ =>
    target.isCore && source.isCore && queryFree operands
  | .update ⟨table, assignments, tables, selection, operands⟩ =>
    table.isCore && tablesAreCore tables && exprsAreCore assignments &&
      exprsAreCore selection && queryFree operands
  | .delete ⟨listed, tables, usingTables, selection, returning, orderBy, limit⟩ =>
    listed.isEmpty && tablesAreCore tables && tablesAreCore usingTables &&
      exprsAreCore selection && exprsAreCore orderBy && (queryFree returning && queryFree limit)
  | .merge ⟨table, source, condition, clauses, output⟩ =>
    table.isCore && source.isCore && condition.isCore && exprsAreCore clauses && queryFree output
  | .createTable ⟨_, columns, none⟩ => queryFree columns
  | .createTable ⟨_, columns, some query⟩ => query.isCore && queryFree columns
  | .createView ⟨_, query⟩ => query.isCore
  | .other .. => false

end

/-! ## Clauses without queries -/

mutual

theorem Expr.reads_of_visits {visible : Names} : (e : Expr) → e.visits = [] → e.reads visible = []
  | .column _, _ | .literal _, _ => rfl
  | .call _ operands, h | .form _ operands, h => exprReads_of_visits operands h
  | .subquery ⟨none, _, _, _⟩, h | .subquery ⟨some _, _, _, _⟩, h => absurd h (List.cons_ne_nil _ _)

theorem exprReads_of_visits {visible : Names} :
    (es : List Expr) → exprVisits es = [] → exprReads visible es = []
  | [], _ => rfl
  | e :: es, h => by
    obtain ⟨he, hes⟩ := List.append_eq_nil_iff.1 h
    rw [exprReads, Expr.reads_of_visits e he, exprReads_of_visits es hes, List.append_nil]

end

/-- A clause without queries reads nothing. -/
theorem reads_of_queryFree {visible : Names} {es : List Expr} (h : queryFree es = true) :
    exprReads visible es = [] :=
  exprReads_of_visits es (List.isEmpty_iff.1 h)

theorem InsertTarget.reads_of_isCore {visible : Names} {target : InsertTarget}
    (h : target.isCore = true) : target.reads visible = [] := by
  cases target with
  | table name => rfl
  | function call =>
    have hcall : call.reads visible ++ [] = [] := reads_of_queryFree h
    rw [InsertTarget.reads, ← hcall, List.append_nil]

end Sql
end Lineage
