import Lineage.Plan.Node
import Lineage.Tree.Outline
import Lineage.Walk

/-
What is worth telling about a plan: the statements that could not be read in
full.
-/

namespace Lineage
namespace Plan

/-- A statement of which the plan knows less than the statement says. -/
inductive Note where
  | insertWithoutTable
  | updateWithoutTable
  | mergeWithoutTable
  | unsupportedStatement
  deriving DecidableEq

namespace Note

def message : Note → String
  | insertWithoutTable => "insert into a table function, no target"
  | updateWithoutTable => "update of a non-table relation, no target"
  | mergeWithoutTable => "merge into a non-table relation, no target"
  | unsupportedStatement => "collecting relations of unsupported statement"

def logLine (n : Note) : LogLine := ⟨.debug, "tl_sql::plan", n.message⟩

end Note

def hasTarget (t : Tree Node) : Bool := (t.children.head?.map (·.label)) == some .insertTarget

/-- The note on one node.  A `DELETE` may do without a written table. -/
def note? (t : Tree Node) : Option Note :=
  match t.label with
  | .insert => if hasTarget t then none else some .insertWithoutTable
  | .update => if hasTarget t then none else some .updateWithoutTable
  | .merge => if hasTarget t then none else some .mergeWithoutTable
  | .statement => some .unsupportedStatement
  | _ => none

def notes (t : Tree Node) : List Note := t.subtrees.toList.filterMap fun (_, t) => note? t

end Plan
end Lineage
