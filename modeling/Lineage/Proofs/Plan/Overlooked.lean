import Lineage.Proofs.Plan.Tables

/-
Tables that no one looks for.

A plan takes up the clauses of a query one by one, and a clause that is not taken up
leaves no trace in it.  What is mentioned in such a clause only is lost.
-/

namespace Lineage
namespace Sql

def exprRelations (es : List Expr) : List ObjectName := relationsIn (exprVisits es)

def InsertTarget.overlooked : InsertTarget → List ObjectName
  | .table _ => []
  | .function call => exprRelations [call]

mutual

/-- The tables mentioned in clauses that are not searched for queries: the bounds of a
query; all clauses of a block but its tables, projection, selection, grouping, group
filter and window filter; the arguments of a table function and the sample of a
subquery; what a write returns, and the columns of a created table.  A `DELETE` that
lists what it deletes does not look at the tables that are listed. -/
def Query.overlooked : Query → List ObjectName
  | ⟨none, body, orderBy, bounds⟩ =>
    body.overlooked ++ exprOverlooked orderBy ++ exprRelations bounds
  | ⟨some ⟨_, ctes⟩, body, orderBy, bounds⟩ =>
    cteOverlooked ctes ++ body.overlooked ++ exprOverlooked orderBy ++ exprRelations bounds

def Expr.overlooked : Expr → List ObjectName
  | .column _ | .literal _ => []
  | .call _ operands | .form _ operands => exprOverlooked operands
  | .subquery query => query.overlooked

def exprOverlooked : List Expr → List ObjectName
  | [] => []
  | e :: es => e.overlooked ++ exprOverlooked es

def cteOverlooked : List Cte → List ObjectName
  | [] => []
  | ⟨_, query⟩ :: ctes => query.overlooked ++ cteOverlooked ctes

def SetExpr.overlooked : SetExpr → List ObjectName
  | .select block => block.overlooked
  | .query query => query.overlooked
  | .setOperation _ left right => left.overlooked ++ right.overlooked
  | .values rows => exprOverlooked rows
  | .table _ | .write _ => []
  | .insert statement => statement.overlooked

def Select.overlooked : Select → List ObjectName
  | ⟨leading, projection, tables, lateralViews, prewhere, selection, groupBy, placement, having,
      windows, qualify, connectBy⟩ =>
    exprRelations leading ++ exprOverlooked projection ++ tablesOverlooked tables ++
      exprRelations lateralViews ++ exprRelations prewhere ++ exprOverlooked selection ++
      exprOverlooked groupBy ++ exprRelations placement ++ exprOverlooked having ++
      exprRelations windows ++ exprOverlooked qualify ++ exprRelations connectBy

def TableFactor.overlooked : TableFactor → List ObjectName
  | .table _ _ operands => exprRelations operands
  | .derived query _ sample => query.overlooked ++ exprRelations sample
  | .nested tables _ => tables.overlooked
  | .other .. => []

def TableWithJoins.overlooked : TableWithJoins → List ObjectName
  | ⟨relation, joins⟩ => relation.overlooked ++ joinOverlooked joins

def tablesOverlooked : List TableWithJoins → List ObjectName
  | [] => []
  | t :: ts => t.overlooked ++ tablesOverlooked ts

def joinOverlooked : List Join → List ObjectName
  | [] => []
  | ⟨relation, constraint⟩ :: joins =>
    relation.overlooked ++ exprOverlooked constraint ++ joinOverlooked joins

def deletionOverlooked (deleted : TableFactor → Bool) : List TableWithJoins → List ObjectName
  | [] => []
  | ⟨relation, joins⟩ :: ts =>
    (if deleted relation then relation.relations else relation.overlooked) ++
      deletionJoinOverlooked deleted joins ++ deletionOverlooked deleted ts

def deletionJoinOverlooked (deleted : TableFactor → Bool) : List Join → List ObjectName
  | [] => []
  | ⟨relation, constraint⟩ :: joins =>
    (if deleted relation then relation.relations else relation.overlooked) ++
      exprOverlooked constraint ++ deletionJoinOverlooked deleted joins

def Statement.overlooked : Statement → List ObjectName
  | .query query => query.overlooked
  | .insert ⟨target, none, operands⟩ => target.overlooked ++ exprRelations operands
  | .insert ⟨target, some source, operands⟩ =>
    target.overlooked ++ source.overlooked ++ exprRelations operands
  | .update ⟨table, assignments, tables, selection, operands⟩ =>
    table.overlooked ++ exprOverlooked assignments ++ tablesOverlooked tables ++
      exprOverlooked selection ++ exprRelations operands
  | .delete ⟨[], tables, usingTables, selection, returning, orderBy, limit⟩ =>
    tablesOverlooked tables ++ tablesOverlooked usingTables ++ exprOverlooked selection ++
      exprRelations returning ++ exprOverlooked orderBy ++ exprRelations limit
  | .delete ⟨name :: names, tables, usingTables, selection, returning, orderBy, limit⟩ =>
    deletionOverlooked (Plan.isDeleted (name :: names)) tables ++ tablesOverlooked usingTables ++
      exprOverlooked selection ++ exprRelations returning ++ exprOverlooked orderBy ++
      exprRelations limit
  | .merge ⟨table, source, condition, clauses, output⟩ =>
    table.overlooked ++ source.overlooked ++ condition.overlooked ++ exprOverlooked clauses ++
      exprRelations output
  | .createTable ⟨_, columns, none⟩ => exprRelations columns
  | .createTable ⟨_, columns, some query⟩ => exprRelations columns ++ query.overlooked
  | .createView ⟨_, query⟩ => query.overlooked
  | .other .. => []

end

/-! ## Every mention is used or overlooked -/

theorem relationsIn_append (a b : List Visit) :
    relationsIn (a ++ b) = relationsIn a ++ relationsIn b := List.filterMap_append ..

/-- Visits whose tables are all used or overlooked. -/
structure Covered (visits : List Visit) (us : List Use) (lost : List ObjectName) : Prop where
  found : ∀ name ∈ relationsIn visits, name ∈ us.map Use.name ∨ name ∈ lost
  met : ∀ name ∈ lost, name ∈ relationsIn visits

namespace Covered

variable {vs vs' : List Visit} {us us' : List Use} {ls ls' : List ObjectName}

theorem nil : Covered [] [] [] :=
  ⟨fun _ h => absurd h List.not_mem_nil, fun _ h => absurd h List.not_mem_nil⟩

theorem append (h : Covered vs us ls) (h' : Covered vs' us' ls') :
    Covered (vs ++ vs') (us ++ us') (ls ++ ls') := by
  constructor
  · intro name hname
    rw [relationsIn_append, List.mem_append] at hname
    rw [List.map_append, List.mem_append, List.mem_append]
    rcases hname with hname | hname
    · exact (h.found name hname).imp .inl .inl
    · exact (h'.found name hname).imp .inr .inr
  · intro name hname
    rw [relationsIn_append, List.mem_append]
    exact (List.mem_append.1 hname).imp (h.met name) (h'.met name)

theorem mono (h : Covered vs us ls) (hsub : us ⊆ us') : Covered vs us' ls :=
  ⟨fun name hname => (h.found name hname).imp_left (fun hu => List.map_subset _ hsub hu), h.met⟩

/-- A clause that is not searched. -/
theorem unsearched (h : Covered vs us ls) (es : List Expr) :
    Covered (vs ++ exprVisits es) us (ls ++ exprRelations es) := by
  have hclause : Covered (exprVisits es) [] (exprRelations es) :=
    ⟨fun _ hname => .inr hname, fun _ hname => hname⟩
  have hall := h.append hclause
  rwa [List.append_nil] at hall

/-- Tables that are listed without their structure. -/
theorem listed (vs : List Visit) : Covered vs (usesAs .read (relationsIn vs)) [] := by
  refine ⟨fun name hname => .inl ?_, fun _ h => absurd h List.not_mem_nil⟩
  exact List.mem_map.2 ⟨⟨.read, name⟩, List.mem_map_of_mem hname, rfl⟩

theorem relation (access : Access) (name : ObjectName) :
    Covered [.relation name] [⟨access, name⟩] [] := by
  refine ⟨fun other hother => .inl ?_, fun _ h => absurd h List.not_mem_nil⟩
  exact hother

/-- Where a query begins and ends is no table. -/
theorem query (h : Covered vs us ls) (q : Query) :
    Covered (.enter q :: (vs ++ [.leave])) us ls := by
  have hsame : relationsIn (.enter q :: (vs ++ [.leave])) = relationsIn vs := by
    have hbegin : relationsIn (.enter q :: (vs ++ [.leave])) = relationsIn (vs ++ [.leave]) := rfl
    have hend : relationsIn [.leave] = [] := rfl
    rw [hbegin, relationsIn_append, hend, List.append_nil]
  refine ⟨fun name hname => h.found name ?_, fun name hname => ?_⟩
  · rwa [hsame] at hname
  · rw [hsame]
    exact h.met name hname

theorem skipped {deleted : Bool} (h : Covered vs us ls) :
    Covered vs (if deleted then [] else us) (if deleted then relationsIn vs else ls) := by
  split
  · exact ⟨fun _ hname => .inr hname, fun _ hname => hname⟩
  · exact h

/-- The table of a write is used whether it is named or not. -/
theorem written {factor : TableFactor}
    (h : Covered factor.visits factor.uses factor.overlooked) :
    Covered factor.visits
      (usesAs .write factor.written ++ if factor.isNamed then [] else factor.uses)
      factor.overlooked := by
  cases factor with
  | table name aka operands => exact (Covered.relation .write name).unsearched operands
  | _ => exact h

end Covered

theorem covered_target (target : InsertTarget) :
    Covered target.visits (usesAs .write target.written) target.overlooked := by
  cases target with
  | table name => exact .relation .write name
  | function call =>
    have hcall := Covered.nil.unsearched [call]
    rw [exprVisits, exprVisits, List.append_nil] at hcall
    exact hcall

mutual

theorem covered_expr : (e : Expr) → Covered e.visits e.uses e.overlooked
  | .column _ | .literal _ => .nil
  | .call _ operands | .form _ operands => covered_exprs operands
  | .subquery query => covered_query query

theorem covered_exprs : (es : List Expr) → Covered (exprVisits es) (exprUses es) (exprOverlooked es)
  | [] => .nil
  | e :: es => (covered_expr e).append (covered_exprs es)

theorem covered_query : (q : Query) → Covered q.visits q.uses q.overlooked
  | ⟨none, body, orderBy, bounds⟩ =>
    (((covered_body body).append (covered_exprs orderBy)).unsearched bounds).query _
  | ⟨some ⟨recursive, ctes⟩, body, orderBy, bounds⟩ => by
    have hmain := ((covered_ctes ctes).append (covered_body body)).append (covered_exprs orderBy)
    have huses : cteUses ctes ++ body.uses ++ exprUses orderBy =
        cteUses ctes ++ (body.uses ++ exprUses orderBy) := List.append_assoc ..
    rw [huses] at hmain
    exact (hmain.unsearched bounds).query _

theorem covered_ctes : (ctes : List Cte) →
    Covered (cteVisits ctes) (cteUses ctes) (cteOverlooked ctes)
  | [] => .nil
  | ⟨_, query⟩ :: ctes => (covered_query query).append (covered_ctes ctes)

theorem covered_body : (body : SetExpr) → Covered body.visits body.uses body.overlooked
  | .select block => covered_select block
  | .query query => covered_query query
  | .setOperation _ left right => (covered_body left).append (covered_body right)
  | .values rows => covered_exprs rows
  | .table _ => .nil
  | .insert statement => covered_statement statement
  | .write statement => .listed statement.visits

theorem covered_select : (block : Select) → Covered block.visits block.uses block.overlooked
  | ⟨leading, projection, tables, lateralViews, prewhere, selection, groupBy, placement, having,
      windows, qualify, connectBy⟩ => by
    have hall := ((((((((((((Covered.nil.unsearched leading).append
      (covered_exprs projection)).append (covered_tables tables)).unsearched
      lateralViews).unsearched prewhere).append (covered_exprs selection)).append
      (covered_exprs groupBy)).unsearched placement).append (covered_exprs having)).unsearched
      windows).append (covered_exprs qualify)).unsearched connectBy)
    -- the plan has the tables before the projection
    refine hall.mono (fun u hu => ?_)
    simp only [Select.uses, List.mem_append, List.not_mem_nil, false_or] at hu ⊢
    tauto

theorem covered_factor : (t : TableFactor) → Covered t.visits t.uses t.overlooked
  | .table name _ operands => (Covered.relation .read name).unsearched operands
  | .derived query _ sample => (covered_query query).unsearched sample
  | .nested tables _ => covered_table tables
  | .other head inner operands aka => .listed (TableFactor.other head inner operands aka).visits

theorem covered_table : (t : TableWithJoins) → Covered t.visits t.uses t.overlooked
  | ⟨relation, joins⟩ => (covered_factor relation).append (covered_joins joins)

theorem covered_tables : (tables : List TableWithJoins) →
    Covered (tablesVisits tables) (tablesUses tables) (tablesOverlooked tables)
  | [] => .nil
  | t :: ts => (covered_table t).append (covered_tables ts)

theorem covered_joins : (joins : List Join) →
    Covered (joinVisits joins) (joinUses joins) (joinOverlooked joins)
  | [] => .nil
  | ⟨relation, constraint⟩ :: joins =>
    ((covered_factor relation).append (covered_exprs constraint)).append (covered_joins joins)

theorem covered_deletionAll : (tables : List TableWithJoins) →
    Covered (tablesVisits tables) (usesAs .write (tables.flatMap (·.relation.written)) ++
      deletionUses TableFactor.isNamed (fun _ => false) tables) (tablesOverlooked tables)
  | [] => .nil
  | ⟨relation, joins⟩ :: ts => by
    have hjoined := (covered_factor relation).written.append (covered_joins joins)
    have hall := hjoined.append (covered_deletionAll ts)
    -- all written tables stand in front of what is read
    refine hall.mono (fun u hu => ?_)
    rw [List.flatMap_cons, usesAs, List.map_append, ← usesAs, ← usesAs, deletionUses,
      deletionJoinUses_none]
    simp only [List.mem_append] at hu ⊢
    tauto

theorem covered_deletion (deleted : TableFactor → Bool) : (tables : List TableWithJoins) →
    Covered (tablesVisits tables) (deletionUses deleted deleted tables)
      (deletionOverlooked deleted tables)
  | [] => .nil
  | ⟨relation, joins⟩ :: ts =>
    (((covered_factor relation).skipped).append (covered_deletionJoins deleted joins)).append
      (covered_deletion deleted ts)

theorem covered_deletionJoins (deleted : TableFactor → Bool) : (joins : List Join) →
    Covered (joinVisits joins) (deletionJoinUses deleted joins)
      (deletionJoinOverlooked deleted joins)
  | [] => .nil
  | ⟨relation, constraint⟩ :: joins =>
    (((covered_factor relation).skipped).append (covered_exprs constraint)).append
      (covered_deletionJoins deleted joins)

theorem covered_statement : (s : Statement) → Covered s.visits s.uses s.overlooked
  | .query query => covered_query query
  | .insert ⟨target, none, operands⟩ => (covered_target target).unsearched operands
  | .insert ⟨target, some source, operands⟩ =>
    ((covered_target target).append (covered_query source)).unsearched operands
  | .update ⟨⟨relation, joins⟩, assignments, tables, selection, operands⟩ => by
    have htable := (covered_factor relation).written.append (covered_joins joins)
    have hall := (((htable.append (covered_exprs assignments)).append
      (covered_tables tables)).append (covered_exprs selection)).unsearched operands
    refine hall.mono (fun u hu => ?_)
    simp only [Statement.uses, List.mem_append] at hu ⊢
    tauto
  | .delete ⟨[], tables, usingTables, selection, returning, orderBy, limit⟩ => by
    have hall := (((((covered_deletionAll tables).append (covered_tables usingTables)).append
      (covered_exprs selection)).unsearched returning).append (covered_exprs orderBy)).unsearched
      limit
    refine hall.mono (fun u hu => ?_)
    simp only [Statement.uses, List.mem_append] at hu ⊢
    tauto
  | .delete ⟨name :: names, tables, usingTables, selection, returning, orderBy, limit⟩ => by
    have htables := covered_deletion (Plan.isDeleted (name :: names)) tables
    have hall := ((((htables.append (covered_tables usingTables)).append
      (covered_exprs selection)).unsearched returning).append (covered_exprs orderBy)).unsearched
      limit
    refine hall.mono (fun u hu => ?_)
    simp only [Statement.uses, List.mem_append] at hu ⊢
    tauto
  | .merge ⟨table, source, condition, clauses, output⟩ => by
    have hall := ((((covered_factor table).written.append (covered_factor source)).append
      (covered_expr condition)).append (covered_exprs clauses)).unsearched output
    refine hall.mono (fun u hu => ?_)
    simp only [Statement.uses, List.mem_append] at hu ⊢
    tauto
  | .createTable ⟨name, columns, none⟩ => (Covered.relation .write name).unsearched columns
  | .createTable ⟨name, columns, some query⟩ =>
    ((Covered.relation .write name).unsearched columns).append (covered_query query)
  | .createView ⟨name, query⟩ =>
    (covered_query query).mono (List.subset_append_right _ _)
  | .other head parts => .listed (Statement.other head parts).visits

end

end Sql

namespace Plan

open Sql

/-- With definitions recorded by name, the record holds the tables that are used. -/
theorem mem_lineage_iff {o : ExtractOptions} (ho : o.emitCteNames = true) {s : Statement}
    {n : QualifiedName} :
    (n ∈ ((lower s).lineage o).sources ∨ n ∈ ((lower s).lineage o).targets) ↔
      ∃ u ∈ s.uses, u.name.qualifiedName? = some n := by
  rw [Tree.lineage_eq_ofMentions_run, run_lower_of_emit ho, Record.mem_sources_ofMentions,
    Record.mem_targets_ofMentions, List.mem_filterMap, List.mem_filterMap]
  simp only [Use.mention?, Option.map_eq_some_iff, Mention.mk.injEq]
  constructor
  · rintro (⟨u, hu, m, hm, -, rfl⟩ | ⟨u, hu, m, hm, -, rfl⟩)
    · exact ⟨u, hu, hm⟩
    · exact ⟨u, hu, hm⟩
  · rintro ⟨⟨access, name⟩, hu, hn⟩
    cases access with
    | read => exact .inl ⟨⟨.read, name⟩, hu, n, hn, rfl, rfl⟩
    | write => exact .inr ⟨⟨.write, name⟩, hu, n, hn, rfl, rfl⟩

/-- Whether a query loses a table.  With definitions recorded by name, every table
that is mentioned anywhere in the query is recorded exactly if those mentioned in the
overlooked clauses are used elsewhere, too. -/
theorem relations_recorded_iff (q : Query) :
    (∀ name ∈ relationsIn q.visits, ∀ n, name.qualifiedName? = some n →
      n ∈ ((lowerQuery q).lineage ⟨true⟩).sources ∨ n ∈ ((lowerQuery q).lineage ⟨true⟩).targets) ↔
    ∀ name ∈ q.overlooked, ∀ n, name.qualifiedName? = some n →
      ∃ u ∈ q.uses, u.name.qualifiedName? = some n := by
  have hcovered := covered_query q
  have hrecorded (n : QualifiedName) : (n ∈ ((lowerQuery q).lineage ⟨true⟩).sources ∨
      n ∈ ((lowerQuery q).lineage ⟨true⟩).targets) ↔
      ∃ u ∈ q.uses, u.name.qualifiedName? = some n :=
    mem_lineage_iff (s := .query q) rfl
  simp only [hrecorded]
  constructor
  · intro h name hname
    exact h name (hcovered.met name hname)
  · intro h name hname n hn
    rcases hcovered.found name hname with hused | hlost
    · obtain ⟨u, hu, rfl⟩ := List.mem_map.1 hused
      exact ⟨u, hu, hn⟩
    · exact h name hlost n hn

/-- `SELECT * FROM t LATERAL VIEW explode((SELECT * FROM inner_t)) v` -/
def lateralQuery : Query :=
  ⟨none, .select ⟨[], [.column []], [⟨named ["t"], []⟩],
    [.call ⟨[⟨"explode", none⟩]⟩ [.subquery (selectFrom [⟨named ["inner_t"], []⟩] [])]],
    [], [], [], [], [], [], [], []⟩, [], []⟩

/-- The table read in the lateral view is lost. -/
theorem not_forall_relations_recorded :
    ¬ ∀ (q : Query), ∀ name ∈ relationsIn q.visits, ∀ n, name.qualifiedName? = some n →
      n ∈ ((lowerQuery q).lineage ⟨true⟩).sources ∨
        n ∈ ((lowerQuery q).lineage ⟨true⟩).targets := by
  intro h
  have hmet : (⟨[⟨"inner_t", none⟩]⟩ : ObjectName) ∈ relationsIn lateralQuery.visits := by decide
  have hrecord := h lateralQuery _ hmet ⟨"inner_t", by decide⟩ (by decide)
  have hsources : ((lowerQuery lateralQuery).lineage ⟨true⟩).sources.map (·.text) = ["t"] := by cbv
  have htargets : ((lowerQuery lateralQuery).lineage ⟨true⟩).targets.map (·.text) = [] := by cbv
  rcases hrecord with hsource | htarget
  · have htext := List.mem_map_of_mem (f := (·.text)) hsource
    rw [hsources] at htext
    exact absurd htext (by decide)
  · have htext := List.mem_map_of_mem (f := (·.text)) htarget
    rw [htargets] at htext
    exact absurd htext List.not_mem_nil

end Plan
end Lineage
