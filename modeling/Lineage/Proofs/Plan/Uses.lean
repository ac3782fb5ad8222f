import Lineage.Plan.Lower
import Lineage.Proofs.Plan.References
import Lineage.Proofs.Record

/-
Which tables a statement writes and reads.

Every table is taken by its name, whatever definitions the name may see.  A write
comes before what it reads, and the rest follows the order in which the clauses
are searched.  A clause that no one searches has no part in this.
-/

namespace Lineage
namespace Sql

/-- A table that is written or read somewhere in a statement. -/
structure Use where
  access : Access
  name : ObjectName
  deriving DecidableEq

/-- The name of a table as it is recorded, if its parts say anything. -/
def ObjectName.qualifiedName? (name : ObjectName) : Option QualifiedName :=
  QualifiedName.ofString? (QualifiedName.dotted (name.parts.map Ident.value))

def Use.mention? (u : Use) : Option Mention := u.name.qualifiedName?.map (⟨u.access, ·⟩)

def usesAs (access : Access) (names : List ObjectName) : List Use := names.map (⟨access, ·⟩)

def tablesUsed (access : Access) (us : List Use) : List ObjectName :=
  (us.filter (·.access = access)).map Use.name

/-- The table of a write, if it has a name. -/
def TableFactor.written : TableFactor → List ObjectName
  | .table name _ _ => [name]
  | _ => []

def InsertTarget.written : InsertTarget → List ObjectName
  | .table name => [name]
  | .function _ => []

mutual

def Expr.uses : Expr → List Use
  | .column _ | .literal _ => []
  | .call _ operands | .form _ operands => exprUses operands
  | .subquery query => query.uses

def exprUses : List Expr → List Use
  | [] => []
  | e :: es => e.uses ++ exprUses es

def Query.uses : Query → List Use
  | ⟨none, body, orderBy, _⟩ => body.uses ++ exprUses orderBy
  | ⟨some ⟨_, ctes⟩, body, orderBy, _⟩ => cteUses ctes ++ (body.uses ++ exprUses orderBy)

def cteUses : List Cte → List Use
  | [] => []
  | ⟨_, query⟩ :: ctes => query.uses ++ cteUses ctes

/-- An `INSERT` behind a `WITH` list writes.  Of any other write in that place
only the mentioned tables are known. -/
def SetExpr.uses : SetExpr → List Use
  | .select block => block.uses
  | .query query => query.uses
  | .setOperation _ left right => left.uses ++ right.uses
  | .values rows => exprUses rows
  | .table _ => []
  | .insert statement => statement.uses
  | .write statement => usesAs .read statement.relations

def Select.uses : Select → List Use
  | ⟨_, projection, tables, _, _, selection, groupBy, _, having, _, qualify, _⟩ =>
    tablesUses tables ++ exprUses projection ++ exprUses selection ++ exprUses groupBy ++
      exprUses having ++ exprUses qualify

def TableFactor.uses : TableFactor → List Use
  | .table name _ _ => [⟨.read, name⟩]
  | .derived query _ _ => query.uses
  | .nested tables _ => tables.uses
  | .other head inner operands aka =>
    usesAs .read (TableFactor.other head inner operands aka).relations

def TableWithJoins.uses : TableWithJoins → List Use
  | ⟨relation, joins⟩ => relation.uses ++ joinUses joins

def tablesUses : List TableWithJoins → List Use
  | [] => []
  | t :: ts => t.uses ++ tablesUses ts

def joinUses : List Join → List Use
  | [] => []
  | ⟨relation, constraint⟩ :: joins =>
    relation.uses ++ exprUses constraint ++ joinUses joins

/-- What the tables of a `DELETE` read.  A table that is deleted from is not
read; whether it is one may depend on whether it leads or is joined. -/
def deletionUses (leading joined : TableFactor → Bool) : List TableWithJoins → List Use
  | [] => []
  | ⟨relation, joins⟩ :: ts =>
    (if leading relation then [] else relation.uses) ++ deletionJoinUses joined joins ++
      deletionUses leading joined ts

def deletionJoinUses (joined : TableFactor → Bool) : List Join → List Use
  | [] => []
  | ⟨relation, constraint⟩ :: joins =>
    (if joined relation then [] else relation.uses) ++ exprUses constraint ++
      deletionJoinUses joined joins

def Statement.uses : Statement → List Use
  | .query query => query.uses
  | .insert ⟨target, none, _⟩ => usesAs .write target.written
  | .insert ⟨target, some source, _⟩ => usesAs .write target.written ++ source.uses
  | .update ⟨⟨relation, joins⟩, assignments, tables, selection, _⟩ =>
    usesAs .write relation.written ++ ((if relation.isNamed then [] else relation.uses) ++
      (joinUses joins ++ tablesUses tables ++ exprUses assignments ++ exprUses selection))
  | .delete ⟨[], tables, usingTables, selection, _, orderBy, _⟩ =>
    usesAs .write (tables.flatMap (·.relation.written)) ++
      (deletionUses TableFactor.isNamed (fun _ => false) tables ++
        (tablesUses usingTables ++ exprUses selection ++ exprUses orderBy))
  | .delete ⟨name :: names, tables, usingTables, selection, _, orderBy, _⟩ =>
    usesAs .write ((name :: names).map (Plan.deletionTarget tables)) ++
      (deletionUses (Plan.isDeleted (name :: names)) (Plan.isDeleted (name :: names)) tables ++
        (tablesUses usingTables ++ exprUses selection ++ exprUses orderBy))
  | .merge ⟨table, source, condition, clauses, _⟩ =>
    usesAs .write table.written ++ ((if table.isNamed then [] else table.uses) ++
      (source.uses ++ condition.uses ++ exprUses clauses))
  | .createTable ⟨name, _, none⟩ => usesAs .write [name]
  | .createTable ⟨name, _, some query⟩ => usesAs .write [name] ++ query.uses
  | .createView ⟨name, query⟩ => usesAs .write [name] ++ query.uses
  | .other head parts => usesAs .read (Statement.other head parts).relations

end

/-- The written tables of a statement, as the clauses come. -/
def Statement.written (s : Statement) : List ObjectName := tablesUsed .write s.uses

theorem tablesUsed_append (access : Access) (us vs : List Use) :
    tablesUsed access (us ++ vs) = tablesUsed access us ++ tablesUsed access vs := by
  rw [tablesUsed, List.filter_append, List.map_append, ← tablesUsed, ← tablesUsed]

theorem tablesUsed_usesAs (access : Access) (names : List ObjectName) :
    tablesUsed access (usesAs access names) = names := by
  have hall : ∀ u ∈ usesAs access names, decide (u.access = access) = true := by
    intro u hu
    obtain ⟨name, _, rfl⟩ := List.mem_map.1 hu
    exact decide_eq_true rfl
  rw [tablesUsed, List.filter_eq_self.2 hall, usesAs, List.map_map]
  exact List.map_id names

theorem tablesUsed_usesAs_of_ne {access other : Access} (h : other ≠ access)
    (names : List ObjectName) : tablesUsed access (usesAs other names) = [] := by
  have hnone : (usesAs other names).filter (·.access = access) = [] := by
    refine List.filter_eq_nil_iff.2 (fun u hu => ?_)
    obtain ⟨name, _, rfl⟩ := List.mem_map.1 hu
    exact fun ha => h (of_decide_eq_true ha)
  rw [tablesUsed, hnone, List.map_nil]

/-- What is mentioned in one way are the tables that are used so and have a name. -/
theorem names_filterMap_mention? (access : Access) (us : List Use) :
    Mention.names access (us.filterMap Use.mention?) =
      (tablesUsed access us).filterMap ObjectName.qualifiedName? := by
  induction us with
  | nil => rfl
  | cons u us ih =>
    rw [tablesUsed] at ih ⊢
    obtain ⟨given, name⟩ := u
    by_cases hg : given = access
    · cases hn : name.qualifiedName? <;> simp [Use.mention?, Mention.names_cons, hn, hg, ih]
    · cases hn : name.qualifiedName? <;> simp [Use.mention?, Mention.names_cons, hn, hg, ih]

theorem deletionJoinUses_none (joins : List Join) :
    deletionJoinUses (fun _ => false) joins = joinUses joins := by
  induction joins with
  | nil => rfl
  | cons j joins ih =>
    obtain ⟨relation, constraint⟩ := j
    rw [deletionJoinUses, joinUses, ih, if_neg Bool.false_ne_true]

end Sql
end Lineage
