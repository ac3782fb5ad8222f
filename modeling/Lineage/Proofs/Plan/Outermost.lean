import Mathlib.Data.List.Basic
import Mathlib.Data.List.Induction
import Lineage.Plan.Lower

/-
The outermost queries of a fragment.

A visitor of a fragment is told where queries begin and end.  A collector that counts
how many are open takes up a query exactly where none is, so it takes each outermost
query once, whatever is nested in it.  The plan of an expression list holds what such a
collector finds.
-/

namespace Lineage
namespace Sql

namespace Visit

def isEnter : Visit → Bool
  | enter _ => true
  | _ => false

def isLeave : Visit → Bool
  | leave => true
  | _ => false

end Visit

def entered (visits : List Visit) : Nat := visits.countP Visit.isEnter

def left (visits : List Visit) : Nat := visits.countP Visit.isLeave

/-- At no point more queries are left than were entered. -/
def LeavesEntered (visits : List Visit) : Prop :=
  ∀ n, left (visits.take n) ≤ entered (visits.take n)

/-- No query is left that was not entered, and in the end every one is left. -/
structure Bracketed (visits : List Visit) : Prop where
  leavesEntered : LeavesEntered visits
  left_eq : left visits = entered visits

/-- The query that a visit enters, if none is open behind the visits before it. -/
def outermostAt? (before : List Visit) : Visit → Option Query
  | .enter query => if left before = entered before then some query else none
  | _ => none

/-- The queries that are entered where no other one is open, in the order of the visits. -/
def outermost (visits : List Visit) : List Query :=
  visits.zipIdx.filterMap fun entry => outermostAt? (visits.take entry.2) entry.1

theorem entered_append (a b : List Visit) : entered (a ++ b) = entered a + entered b :=
  List.countP_append

theorem left_append (a b : List Visit) : left (a ++ b) = left a + left b := List.countP_append

theorem entered_enter (query : Query) (visits : List Visit) :
    entered (.enter query :: visits) = entered visits + 1 := List.countP_cons_of_pos rfl

theorem left_enter (query : Query) (visits : List Visit) :
    left (.enter query :: visits) = left visits := List.countP_cons_of_neg Bool.false_ne_true

theorem LeavesEntered.left_le {visits : List Visit} (h : LeavesEntered visits) :
    left visits ≤ entered visits := by
  have hall := h visits.length
  rwa [List.take_length] at hall

theorem LeavesEntered.take {visits : List Visit} (h : LeavesEntered visits) (n : Nat) :
    LeavesEntered (visits.take n) := by
  intro m
  rw [List.take_take]
  exact h (min m n)

theorem LeavesEntered.of_append {a b : List Visit} (h : LeavesEntered (a ++ b)) :
    LeavesEntered a := by
  have hfront := h.take a.length
  rwa [List.take_left] at hfront

/-! ## Fragments are bracketed -/

theorem bracketed_nil : Bracketed [] where
  leavesEntered n := by rw [List.take_nil]; exact Nat.le_refl _
  left_eq := rfl

theorem Bracketed.append {a b : List Visit} (ha : Bracketed a) (hb : Bracketed b) :
    Bracketed (a ++ b) where
  leavesEntered n := by
    have hfront := ha.leavesEntered n
    have hback := hb.leavesEntered (n - a.length)
    rw [List.take_append, left_append, entered_append]
    omega
  left_eq := by rw [left_append, entered_append, ha.left_eq, hb.left_eq]

theorem bracketed_relation (name : ObjectName) : Bracketed [.relation name] where
  leavesEntered n := by cases n <;> simp [left, entered, Visit.isEnter, Visit.isLeave]
  left_eq := rfl

/-- A query around bracketed visits. -/
theorem Bracketed.query {inner : List Visit} (h : Bracketed inner) (query : Query) :
    Bracketed (.enter query :: (inner ++ [.leave])) where
  leavesEntered
    | 0 => Nat.le_refl _
    | n + 1 => by
      have hinner := h.leavesEntered n
      have hleave : left (List.take (n - inner.length) [.leave]) ≤ 1 :=
        Nat.le_trans List.countP_le_length (List.length_take_le' _ _)
      rw [List.take_succ_cons, left_enter, entered_enter, List.take_append, left_append,
        entered_append]
      omega
  left_eq := by
    have heq := h.left_eq
    rw [left_enter, entered_enter, left_append, entered_append, heq]
    rfl

mutual

theorem bracketed_expr : (e : Expr) → Bracketed e.visits
  | .column _ | .literal _ => bracketed_nil
  | .call _ operands | .form _ operands => bracketed_exprs operands
  | .subquery query => bracketed_query query

theorem bracketed_exprs : (es : List Expr) → Bracketed (exprVisits es)
  | [] => bracketed_nil
  | e :: es => (bracketed_expr e).append (bracketed_exprs es)

theorem bracketed_query : (q : Query) → Bracketed q.visits
  | ⟨none, body, orderBy, bounds⟩ =>
    (((bracketed_body body).append (bracketed_exprs orderBy)).append
      (bracketed_exprs bounds)).query _
  | ⟨some ⟨_, ctes⟩, body, orderBy, bounds⟩ =>
    ((((bracketed_ctes ctes).append (bracketed_body body)).append
      (bracketed_exprs orderBy)).append (bracketed_exprs bounds)).query _

theorem bracketed_ctes : (ctes : List Cte) → Bracketed (cteVisits ctes)
  | [] => bracketed_nil
  | ⟨_, query⟩ :: ctes => (bracketed_query query).append (bracketed_ctes ctes)

theorem bracketed_body : (body : SetExpr) → Bracketed body.visits
  | .select block => bracketed_select block
  | .query query => bracketed_query query
  | .setOperation _ left right => (bracketed_body left).append (bracketed_body right)
  | .values rows => bracketed_exprs rows
  | .table _ => bracketed_nil
  | .insert statement | .write statement => bracketed_statement statement

theorem bracketed_select : (block : Select) → Bracketed block.visits
  | ⟨leading, projection, tables, lateralViews, prewhere, selection, groupBy, placement, having,
      windows, qualify, connectBy⟩ =>
    ((((((((((((bracketed_exprs leading).append (bracketed_exprs projection)).append
      (bracketed_tables tables)).append (bracketed_exprs lateralViews)).append
      (bracketed_exprs prewhere)).append (bracketed_exprs selection)).append
      (bracketed_exprs groupBy)).append (bracketed_exprs placement)).append
      (bracketed_exprs having)).append (bracketed_exprs windows)).append
      (bracketed_exprs qualify)).append (bracketed_exprs connectBy))

theorem bracketed_factor : (t : TableFactor) → Bracketed t.visits
  | .table name _ operands => (bracketed_relation name).append (bracketed_exprs operands)
  | .derived query _ sample => (bracketed_query query).append (bracketed_exprs sample)
  | .nested tables _ => bracketed_table tables
  | .other _ inner operands _ => (bracketed_factors inner).append (bracketed_exprs operands)

theorem bracketed_factors : (ts : List TableFactor) → Bracketed (factorVisits ts)
  | [] => bracketed_nil
  | t :: ts => (bracketed_factor t).append (bracketed_factors ts)

theorem bracketed_table : (t : TableWithJoins) → Bracketed t.visits
  | ⟨relation, joins⟩ => (bracketed_factor relation).append (bracketed_joins joins)

theorem bracketed_tables : (tables : List TableWithJoins) → Bracketed (tablesVisits tables)
  | [] => bracketed_nil
  | t :: ts => (bracketed_table t).append (bracketed_tables ts)

theorem bracketed_joins : (joins : List Join) → Bracketed (joinVisits joins)
  | [] => bracketed_nil
  | ⟨relation, constraint⟩ :: joins =>
    ((bracketed_factor relation).append (bracketed_exprs constraint)).append
      (bracketed_joins joins)

theorem bracketed_statement : (s : Statement) → Bracketed s.visits
  | .query query => bracketed_query query
  | .insert ⟨target, none, operands⟩ =>
    (bracketed_insertTarget target).append (bracketed_exprs operands)
  | .insert ⟨target, some source, operands⟩ =>
    ((bracketed_insertTarget target).append (bracketed_query source)).append
      (bracketed_exprs operands)
  | .update ⟨table, assignments, tables, selection, operands⟩ =>
    ((((bracketed_table table).append (bracketed_exprs assignments)).append
      (bracketed_tables tables)).append (bracketed_exprs selection)).append
      (bracketed_exprs operands)
  | .delete ⟨_, tables, usingTables, selection, returning, orderBy, limit⟩ =>
    (((((bracketed_tables tables).append (bracketed_tables usingTables)).append
      (bracketed_exprs selection)).append (bracketed_exprs returning)).append
      (bracketed_exprs orderBy)).append (bracketed_exprs limit)
  | .merge ⟨table, source, condition, clauses, output⟩ =>
    ((((bracketed_factor table).append (bracketed_factor source)).append
      (bracketed_expr condition)).append (bracketed_exprs clauses)).append (bracketed_exprs output)
  | .createTable ⟨name, columns, none⟩ =>
    (bracketed_relation name).append (bracketed_exprs columns)
  | .createTable ⟨name, columns, some query⟩ =>
    (bracketed_relation name).append ((bracketed_exprs columns).append (bracketed_query query))
  | .createView ⟨_, query⟩ => bracketed_query query
  | .other _ parts => bracketed_parts parts

theorem bracketed_insertTarget : (t : InsertTarget) → Bracketed t.visits
  | .table name => bracketed_relation name
  | .function call => bracketed_expr call

theorem bracketed_parts : (parts : List Part) → Bracketed (partVisits parts)
  | [] => bracketed_nil
  | .relation name :: parts => (bracketed_relation name).append (bracketed_parts parts)
  | .expr expr :: parts => (bracketed_expr expr).append (bracketed_parts parts)
  | .statement statement :: parts =>
    (bracketed_statement statement).append (bracketed_parts parts)

end

/-! ## Outermost queries -/

theorem outermostAt?_congr {a b : List Visit}
    (h : left a = entered a ↔ left b = entered b) (visit : Visit) :
    outermostAt? a visit = outermostAt? b visit := by
  cases visit with
  | enter query => exact if_congr h rfl rfl
  | relation name => rfl
  | leave => rfl

theorem outermost_concat (visits : List Visit) (visit : Visit) :
    outermost (visits ++ [visit]) = outermost visits ++ (outermostAt? visits visit).toList := by
  have hbefore : ∀ entry ∈ visits.zipIdx,
      outermostAt? ((visits ++ [visit]).take entry.2) entry.1 =
        outermostAt? (visits.take entry.2) entry.1 := by
    intro entry hentry
    have hlt : entry.2 < visits.length := List.snd_lt_of_mem_zipIdx hentry
    rw [List.take_append_of_le_length (Nat.le_of_lt hlt)]
  have hlast : [(visit, visits.length)].filterMap
      (fun entry => outermostAt? ((visits ++ [visit]).take entry.2) entry.1) =
        (outermostAt? visits visit).toList := by
    rw [List.filterMap_cons, List.filterMap_nil, List.take_left]
    cases outermostAt? visits visit <;> rfl
  rw [outermost, List.zipIdx_append, List.filterMap_append, List.filterMap_congr hbefore,
    List.zipIdx_singleton, Nat.zero_add, hlast]
  rfl

/-- Behind bracketed visits, what follows has the outermost queries it has alone. -/
theorem outermost_append {a : List Visit} (h : left a = entered a) (b : List Visit) :
    outermost (a ++ b) = outermost a ++ outermost b := by
  induction b using List.reverseRecOn with
  | nil => exact (congrArg outermost (List.append_nil a)).trans (List.append_nil _).symm
  | append_singleton b visit ih =>
    have hopen : left (a ++ b) = entered (a ++ b) ↔ left b = entered b := by
      rw [left_append, entered_append]
      omega
    rw [← List.append_assoc, outermost_concat, outermost_concat, ih, List.append_assoc,
      outermostAt?_congr hopen]

/-- Where a query is entered and not left, there is no other outermost one. -/
theorem outermost_enter {visits : List Visit} (h : LeavesEntered visits) (query : Query) :
    outermost (.enter query :: visits) = [query] := by
  induction visits using List.reverseRecOn with
  | nil => rfl
  | append_singleton visits visit ih =>
    have hle := h.of_append.left_le
    have hnone : outermostAt? (.enter query :: visits) visit = none := by
      cases visit with
      | enter inner =>
        have hne : left (.enter query :: visits) ≠ entered (.enter query :: visits) := by
          rw [left_enter, entered_enter]
          omega
        exact if_neg hne
      | relation name => rfl
      | leave => rfl
    rw [← List.cons_append, outermost_concat, ih h.of_append, hnone]
    rfl

/-- A query around bracketed visits is the only outermost one. -/
theorem outermost_query {inner : List Visit} (h : Bracketed inner) (query : Query) :
    outermost (.enter query :: (inner ++ [.leave])) = [query] := by
  rw [← List.cons_append, outermost_concat, outermost_enter h.leavesEntered]
  rfl

end Sql

namespace Plan

open Sql

/-! ## The collector -/

/-- How many queries are open, and the plans of those that were taken up, the latest
one last. -/
structure Collector where
  depth : Nat
  found : List PlanTree

namespace Collector

/-- Take up a query where none is open.  There is no leaving where none is open. -/
def visit? (c : Collector) : Visit → Option Collector
  | .relation _ => some c
  | .enter query =>
    some ⟨c.depth + 1, if c.depth = 0 then c.found ++ [lowerQuery query] else c.found⟩
  | .leave =>
    match c.depth with
    | 0 => none
    | depth + 1 => some ⟨depth, c.found⟩

/-- The expressions that stand for what was found. -/
def exprs (c : Collector) : List PlanTree := c.found.map fun plan => .branch .expr [plan]

end Collector

def collect? (visits : List Visit) : Option Collector := visits.foldlM Collector.visit? ⟨0, []⟩

theorem collect?_concat (visits : List Visit) (visit : Visit) :
    collect? (visits ++ [visit]) = (collect? visits).bind (·.visit? visit) := by
  rw [collect?, List.foldlM_append]
  simp [collect?]

/-- A collector that leaves entered queries only has those open that it did not leave, and
has taken up the outermost ones. -/
theorem collect?_eq_some {visits : List Visit} (h : LeavesEntered visits) :
    collect? visits =
      some ⟨entered visits - left visits, (outermost visits).map lowerQuery⟩ := by
  induction visits using List.reverseRecOn with
  | nil => rfl
  | append_singleton visits visit ih =>
    have hle := h.of_append.left_le
    have hle' := h.left_le
    rw [collect?_concat, ih h.of_append, Option.bind_some, outermost_concat, List.map_append]
    rw [left_append, entered_append] at hle' ⊢
    generalize hl : left visits = l at hle hle'
    generalize he : entered visits = e at hle hle'
    cases visit with
    | relation name =>
      have hnone : outermostAt? visits (.relation name) = none := rfl
      rw [hnone, Option.toList_none, List.map_nil, List.append_nil]
      rfl
    | enter query =>
      have hdepth : e + entered [.enter query] - (l + left [.enter query]) = e - l + 1 := by
        show e + (0 + 1) - (l + 0) = _
        omega
      rw [hdepth, Collector.visit?, outermostAt?, hl, he]
      by_cases hopen : l = e
      · have hzero : e - l = 0 := Nat.sub_eq_zero_of_le (Nat.le_of_eq hopen.symm)
        rw [if_pos hopen, if_pos hzero]
        rfl
      · have hpos : e - l ≠ 0 := by omega
        rw [if_neg hopen, if_neg hpos, Option.toList_none, List.map_nil, List.append_nil]
    | leave =>
      have hnone : outermostAt? visits .leave = none := rfl
      have hleave : l + 1 ≤ e + 0 := hle'
      obtain ⟨depth, hdepth⟩ : ∃ depth, e - l = depth + 1 := ⟨e - l - 1, by omega⟩
      have hafter : e + entered [.leave] - (l + left [.leave]) = depth := by
        show e + 0 - (l + 1) = depth
        omega
      rw [hafter, hnone, Option.toList_none, List.map_nil, List.append_nil, hdepth]
      rfl

/-! ## The plans of subqueries -/

/-- The expression that stands for a query. -/
def exprOf (query : Query) : PlanTree := .branch .expr [lowerQuery query]

theorem Collector.exprs_map (depth : Nat) (queries : List Query) :
    Collector.exprs ⟨depth, queries.map lowerQuery⟩ = queries.map exprOf := List.map_map

theorem outermost_visits (q : Query) : outermost q.visits = [q] := by
  obtain ⟨definitions, body, orderBy, bounds⟩ := q
  cases definitions with
  | none =>
    exact outermost_query (((bracketed_body body).append (bracketed_exprs orderBy)).append
      (bracketed_exprs bounds)) _
  | some definitions =>
    obtain ⟨recursive, ctes⟩ := definitions
    exact outermost_query ((((bracketed_ctes ctes).append (bracketed_body body)).append
      (bracketed_exprs orderBy)).append (bracketed_exprs bounds)) _

mutual

theorem subqueries_eq : (e : Expr) → subqueries e = (outermost e.visits).map exprOf
  | .column _ | .literal _ => rfl
  | .call _ operands | .form _ operands => subqueriesIn_eq operands
  | .subquery query => by rw [subqueries, Expr.visits, outermost_visits]; rfl

theorem subqueriesIn_eq : (es : List Expr) →
    subqueriesIn es = (outermost (exprVisits es)).map exprOf
  | [] => rfl
  | e :: es => by
    rw [subqueriesIn, exprVisits, outermost_append (bracketed_expr e).left_eq, List.map_append,
      subqueries_eq e, subqueriesIn_eq es]

end

/-- A collector takes up each outermost query of bracketed visits once.  It leaves only what
it entered, so its depth is the number of queries that are open, and in the end none is.
The queries that are entered where none is open are found in the order of the visits, each
with its own plan, and no query that is nested in another one is.  The visits of an
expression list are bracketed, and the plan of the list holds what is found. -/
theorem subqueries_outermost {visits : List Visit} (h : Bracketed visits) :
    (∀ n, ∃ c, collect? (visits.take n) = some c ∧
      c.depth + left (visits.take n) = entered (visits.take n)) ∧
    (∃ c, collect? visits = some c ∧ c.depth = 0 ∧ c.exprs = (outermost visits).map exprOf) ∧
    ∀ es, Bracketed (exprVisits es) ∧
      subqueriesIn es = (outermost (exprVisits es)).map exprOf := by
  refine ⟨fun n => ⟨_, collect?_eq_some (h.leavesEntered.take n), ?_⟩,
    ⟨_, collect?_eq_some h.leavesEntered, ?_, Collector.exprs_map ..⟩,
    fun es => ⟨bracketed_exprs es, subqueriesIn_eq es⟩⟩
  · exact Nat.sub_add_cancel (h.leavesEntered n)
  · rw [h.left_eq]
    exact Nat.sub_self _

/-- `VALUES (1)` -/
def oneRow : Query := ⟨none, .values [.literal "1"], [], []⟩

/-- A subquery with another one in it, in front of an operator over a third. -/
def nestedQueries : List Expr :=
  [.subquery ⟨none, .values [.subquery oneRow], [], []⟩, .form "NOT" [.subquery oneRow]]

/-- Two queries are open behind the first two visits, and the inner one is not found. -/
theorem subqueries_outermost_nested :
    Bracketed (exprVisits nestedQueries) ∧
    (∃ c, collect? ((exprVisits nestedQueries).take 2) = some c ∧ c.depth + 0 = 2) ∧
    ∃ c, collect? (exprVisits nestedQueries) = some c ∧ c.depth = 0 ∧
      c.exprs = [exprOf ⟨none, .values [.subquery oneRow], [], []⟩, exprOf oneRow] := by
  have hbracketed : Bracketed (exprVisits nestedQueries) := bracketed_exprs nestedQueries
  obtain ⟨hdepth, hfound, -⟩ := subqueries_outermost hbracketed
  exact ⟨hbracketed, hdepth 2, hfound⟩

end Plan
end Lineage
