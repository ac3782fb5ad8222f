import Lineage.Sql.Syntax

/-
What a reader meets in a syntax tree, from left to right: the names of tables,
and where queries begin and end.
-/

namespace Lineage
namespace Sql

inductive Visit where
  | relation (name : ObjectName)
  | enter (query : Query)
  | leave

mutual

def Expr.visits : Expr → List Visit
  | .column _ | .literal _ => []
  | .call _ operands | .form _ operands => exprVisits operands
  | .subquery query => query.visits

def exprVisits : List Expr → List Visit
  | [] => []
  | e :: es => e.visits ++ exprVisits es

def Query.visits : Query → List Visit
  | ⟨none, body, orderBy, bounds⟩ =>
    .enter ⟨none, body, orderBy, bounds⟩ ::
      (body.visits ++ exprVisits orderBy ++ exprVisits bounds ++ [.leave])
  | ⟨some definitions, body, orderBy, bounds⟩ =>
    .enter ⟨some definitions, body, orderBy, bounds⟩ ::
      (definitions.visits ++ body.visits ++ exprVisits orderBy ++ exprVisits bounds ++ [.leave])

def With.visits : With → List Visit
  | ⟨_, ctes⟩ => cteVisits ctes

def cteVisits : List Cte → List Visit
  | [] => []
  | ⟨_, query⟩ :: ctes => query.visits ++ cteVisits ctes

def SetExpr.visits : SetExpr → List Visit
  | .select block => block.visits
  | .query query => query.visits
  | .setOperation _ left right => left.visits ++ right.visits
  | .values rows => exprVisits rows
  | .table _ => []
  | .insert statement | .write statement => statement.visits

def Select.visits : Select → List Visit
  | ⟨leading, projection, tables, lateralViews, prewhere, selection, groupBy, placement, having,
      windows, qualify, connectBy⟩ =>
    exprVisits leading ++ exprVisits projection ++ tablesVisits tables ++
      exprVisits lateralViews ++ exprVisits prewhere ++ exprVisits selection ++
      exprVisits groupBy ++ exprVisits placement ++ exprVisits having ++ exprVisits windows ++
      exprVisits qualify ++ exprVisits connectBy

def TableFactor.visits : TableFactor → List Visit
  | .table name _ operands => .relation name :: exprVisits operands
  | .derived query _ sample => query.visits ++ exprVisits sample
  | .nested tables _ => tables.visits
  | .other _ inner operands _ => factorVisits inner ++ exprVisits operands

def factorVisits : List TableFactor → List Visit
  | [] => []
  | t :: ts => t.visits ++ factorVisits ts

def TableWithJoins.visits : TableWithJoins → List Visit
  | ⟨relation, joins⟩ => relation.visits ++ joinVisits joins

def tablesVisits : List TableWithJoins → List Visit
  | [] => []
  | t :: ts => t.visits ++ tablesVisits ts

def joinVisits : List Join → List Visit
  | [] => []
  | ⟨relation, constraint⟩ :: joins =>
    relation.visits ++ exprVisits constraint ++ joinVisits joins

def Statement.visits : Statement → List Visit
  | .query query => query.visits
  | .insert ⟨target, none, operands⟩ => target.visits ++ exprVisits operands
  | .insert ⟨target, some source, operands⟩ =>
    target.visits ++ source.visits ++ exprVisits operands
  | .update ⟨table, assignments, tables, selection, operands⟩ =>
    table.visits ++ exprVisits assignments ++ tablesVisits tables ++ exprVisits selection ++
      exprVisits operands
  | .delete ⟨_, tables, usingTables, selection, returning, orderBy, limit⟩ =>
    tablesVisits tables ++ tablesVisits usingTables ++ exprVisits selection ++
      exprVisits returning ++ exprVisits orderBy ++ exprVisits limit
  | .merge ⟨table, source, condition, clauses, output⟩ =>
    table.visits ++ source.visits ++ condition.visits ++ exprVisits clauses ++ exprVisits output
  | .createTable ⟨name, columns, none⟩ => .relation name :: exprVisits columns
  | .createTable ⟨name, columns, some query⟩ =>
    .relation name :: (exprVisits columns ++ query.visits)
  | .createView ⟨_, query⟩ => query.visits
  | .other _ parts => partVisits parts

def InsertTarget.visits : InsertTarget → List Visit
  | .table name => [.relation name]
  | .function call => call.visits

def partVisits : List Part → List Visit
  | [] => []
  | .relation name :: parts => .relation name :: partVisits parts
  | .expr expr :: parts => expr.visits ++ partVisits parts
  | .statement statement :: parts => statement.visits ++ partVisits parts

end

def relationsIn (visits : List Visit) : List ObjectName :=
  visits.filterMap fun
    | .relation name => some name
    | _ => none

def Statement.relations (s : Statement) : List ObjectName := relationsIn s.visits

def TableFactor.relations (t : TableFactor) : List ObjectName := relationsIn t.visits

end Sql
end Lineage
