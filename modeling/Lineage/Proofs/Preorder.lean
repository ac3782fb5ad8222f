import Lineage.Tree.Outline

/-
Preorder by recursion on the tree.
-/

namespace Lineage
namespace Tree

variable {κ : Type}

mutual

/-- The nodes of a tree in preorder, each with all that is below it. -/
def parts : Tree κ → List (Tree κ)
  | node label text children => node label text children :: partsAll children

def partsAll : List (Tree κ) → List (Tree κ)
  | [] => []
  | t :: ts => t.parts ++ partsAll ts

end

theorem parts_eq (t : Tree κ) : t.parts = t :: partsAll t.children := by
  obtain ⟨label, text, children⟩ := t
  rfl

theorem partsAll_append (a b : List (Tree κ)) : partsAll (a ++ b) = partsAll a ++ partsAll b := by
  induction a with
  | nil => rfl
  | cons t a ih => rw [List.cons_append, partsAll, partsAll, ih, List.append_assoc]

theorem map_underneath (depth : Nat) (children : List (Tree κ)) :
    (underneath depth children).map (·.2) = children := by
  rw [underneath, List.map_map]
  exact List.map_id children

/-- A traversal with a list of pending trees has them in preorder. -/
theorem map_subtreesOnto (pending : List (Nat × Tree κ)) (visited : Array (Nat × Tree κ)) :
    (subtreesOnto pending visited).toList.map (·.2) =
      visited.toList.map (·.2) ++ partsAll (pending.map (·.2)) := by
  fun_induction subtreesOnto pending visited with
  | case1 visited => exact (List.append_nil _).symm
  | case2 depth t pending visited ih =>
    have hvisited : (visited.push (depth, t)).toList.map (·.2) =
        visited.toList.map (·.2) ++ [t] := by
      rw [Array.toList_push, List.map_append]
      rfl
    have hpending : partsAll (((depth, t) :: pending).map (·.2)) =
        t.parts ++ partsAll (pending.map (·.2)) := rfl
    rw [ih, hvisited, hpending, List.map_append, map_underneath, partsAll_append, parts_eq,
      List.append_assoc]
    rfl

theorem map_subtrees (t : Tree κ) : t.subtrees.toList.map (·.2) = t.parts := by
  rw [subtrees, map_subtreesOnto]
  exact List.append_nil _

end Tree
end Lineage
