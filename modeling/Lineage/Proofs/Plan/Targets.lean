import Lineage.Proofs.Plan.Tables
import Lineage.Proofs.Preorder

/-
The targets of a plan are the written tables of its statement.

The nodes that name a written table are counted in preorder, and so are the events
of the walk.  Both agree with the syntax of the statement occurrence by occurrence,
so no such node is left out and no read table is taken for a written one.
-/

namespace Lineage

namespace Event

/-- The table that an event notes as written. -/
def target? : Event → Option QualifiedName
  | target n => some n
  | _ => none

theorem filterMap_target? (events : List Event) :
    events.filterMap target? = Mention.names .write (events.filterMap mention?) := by
  rw [Mention.names, List.filterMap_filterMap]
  refine congrArg (List.filterMap · events) (funext fun e => ?_)
  cases e <;> rfl

end Event

namespace Plan

open Sql

/-- The nodes of a plan that name a written table, in preorder. -/
def targetNodes (plan : PlanTree) : List PlanTree :=
  (plan.subtrees.toList.map (·.2)).filter (·.label = .insertTarget)

def targetNodesIn (plans : List PlanTree) : List PlanTree :=
  (Tree.partsAll plans).filter (·.label = .insertTarget)

theorem targetNodes_eq (plan : PlanTree) : targetNodes plan = targetNodesIn [plan] := by
  rw [targetNodes, Tree.map_subtrees, targetNodesIn]
  exact congrArg (List.filter _) (List.append_nil _).symm

theorem targetNodesIn_append (a b : List PlanTree) :
    targetNodesIn (a ++ b) = targetNodesIn a ++ targetNodesIn b := by
  rw [targetNodesIn, Tree.partsAll_append, List.filter_append, ← targetNodesIn, ← targetNodesIn]

theorem targetNodesIn_node {label : Node} (h : label ≠ .insertTarget) (text : Option String)
    (children : List PlanTree) :
    targetNodesIn [.node label text children] = targetNodesIn children := by
  have hparts : Tree.partsAll [Tree.node label text children] =
      Tree.node label text children :: Tree.partsAll children := List.append_nil _
  have hother : ¬ decide ((Tree.node label text children).label = .insertTarget) = true :=
    fun hl => h (of_decide_eq_true hl)
  rw [targetNodesIn, hparts, List.filter_cons, if_neg hother, ← targetNodesIn]

theorem targetNodesIn_leaves (parts : List Ident) :
    targetNodesIn (parts.map fun part => .leaf .ident part.value) = [] := by
  induction parts with
  | nil => rfl
  | cons part parts ih => exact ih

theorem targetNodesIn_objectName (name : ObjectName) : targetNodesIn [objectName name] = [] := by
  rw [objectName, Tree.branch, targetNodesIn_node (by decide)]
  exact targetNodesIn_leaves name.parts

theorem targetNodesIn_insertTargets (names : List ObjectName) :
    targetNodesIn (names.map insertTarget) = names.map insertTarget := by
  induction names with
  | nil => rfl
  | cons name names ih =>
    have hinside : targetNodesIn [Tree.branch .targetTable [objectName name]] = [] := by
      rw [Tree.branch, targetNodesIn_node (by decide)]
      exact targetNodesIn_objectName name
    have hself : targetNodesIn [insertTarget name] =
        insertTarget name :: targetNodesIn [Tree.branch .targetTable [objectName name]] := by
      have hparts : Tree.partsAll [insertTarget name] =
          insertTarget name :: Tree.partsAll [Tree.branch .targetTable [objectName name]] :=
        List.append_nil _
      rw [targetNodesIn, hparts, List.filter_cons, if_pos (by rfl), ← targetNodesIn]
    have hcons : (name :: names).map insertTarget =
        [insertTarget name] ++ names.map insertTarget := rfl
    rw [hcons, targetNodesIn_append, hself, hinside, ih]

/-- A listing has one target node for each written table, in the same order. -/
theorem Lists.targetNodesIn_eq {ts : List PlanTree} {us : List Use} (h : Lists ts us) :
    targetNodesIn ts = (tablesUsed .write us).map insertTarget := by
  induction h with
  | nil => rfl
  | append _ _ iha ihb =>
    rw [targetNodesIn_append, iha, ihb, tablesUsed_append, List.map_append]
  | relation name aka =>
    have halias : targetNodesIn (Plan.aliasLeaf aka) = [] := by cases aka <;> rfl
    have hchildren : objectName name :: Plan.aliasLeaf aka =
        [objectName name] ++ Plan.aliasLeaf aka := rfl
    rw [Tree.branch, targetNodesIn_node (by decide), hchildren, targetNodesIn_append,
      targetNodesIn_objectName, halias]
    rfl
  | aliasLeaf aka => cases aka <;> rfl
  | @group label ts us hl _ ih =>
    have hlabel : label ≠ .insertTarget := by
      rintro rfl
      exact absurd hl (by decide)
    rw [Tree.branch, targetNodesIn_node hlabel, ih]
  | @block label ts us hl _ ih =>
    have hlabel : label ≠ .insertTarget := by
      rintro rfl
      exact absurd hl (by decide)
    rw [Tree.branch, targetNodesIn_node hlabel, ih]
  | definition ht _ ih => rw [targetNodesIn_node (by decide), ih]
  | definitions ht _ ih => rw [targetNodesIn_node (by decide), ih]
  | @write label names ts us hl _ _ ih =>
    have hlabel : label ≠ .insertTarget := by
      rintro rfl
      exact Kind.noConfusion hl
    rw [Tree.branch, targetNodesIn_node hlabel, targetNodesIn_append, ih,
      targetNodesIn_insertTargets, tablesUsed_append, tablesUsed_usesAs, List.map_append]

/-- The targets of a statement are its written tables.  The target nodes of the plan
are those of the tables that the statement writes, in preorder.  The walk notes the
name of each once as written, whatever definitions it has met, and notes nothing else
as written.  The record keeps the first occurrences. -/
theorem targets_lower (o : ExtractOptions) (s : Statement) :
    targetNodes (lower s) = s.written.map insertTarget ∧
    ((lower s).events o).filterMap Event.target? =
      s.written.filterMap ObjectName.qualifiedName? ∧
    ((lower s).lineage o).targets =
      (s.written.filterMap ObjectName.qualifiedName?).eraseDups := by
  have hnodes : targetNodes (lower s) = s.written.map insertTarget := by
    rw [targetNodes_eq]
    exact (lists_lower s).targetNodesIn_eq
  have hevents : ((lower s).events o).filterMap Event.target? =
      s.written.filterMap ObjectName.qualifiedName? := by
    rw [Event.filterMap_target?]
    exact names_write_run_lower o s
  exact ⟨hnodes, hevents, targets_eq_written o s⟩

end Plan
end Lineage
