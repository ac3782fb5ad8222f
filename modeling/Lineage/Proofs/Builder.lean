import Lineage.Tree.Builder

/-
What a builder does with a run of trees.

Trees that are grafted while a node is open become its children, in order, and
the node itself is grafted where it was opened once it is closed.
-/

namespace Lineage
namespace Builder

variable {κ : Type}

/-- Graft several trees, the first one first. -/
def graftAll (b : Builder κ) (ts : List (Tree κ)) : Builder κ := ts.foldl graft b

theorem graftAll_cons (b : Builder κ) (t : Tree κ) (ts : List (Tree κ)) :
    b.graftAll (t :: ts) = (b.graft t).graftAll ts := rfl

theorem graftAll_append (b : Builder κ) (ts us : List (Tree κ)) :
    b.graftAll (ts ++ us) = (b.graftAll ts).graftAll us := List.foldl_append

theorem depth_graftAll (b : Builder κ) (ts : List (Tree κ)) : (b.graftAll ts).depth = b.depth := by
  induction ts generalizing b with
  | nil => rfl
  | cons t ts ih => rw [graftAll_cons, ih, depth_graft]

theorem graftAll_opened (n : OpenNode κ) (rest : List (OpenNode κ)) (complete : List (Tree κ))
    (depth : Nat) (h : depth = (n :: rest).length) (ts : List (Tree κ)) :
    graftAll ⟨n :: rest, complete, depth, h⟩ ts =
      ⟨{ n with children := ts.reverse ++ n.children } :: rest, complete, depth, h⟩ := by
  induction ts generalizing n with
  | nil => rfl
  | cons t ts ih =>
    have hstep := ih (n.push t) h
    rw [graftAll_cons, List.reverse_cons, List.append_assoc]
    exact hstep

/-- A node that is opened and closed is a tree over what was grafted meanwhile. -/
theorem close?_openNode (b : Builder κ) (label : κ) (text : Option String)
    (children : List (Tree κ)) :
    ((b.openNode label text).graftAll children).close? =
      some (b.graft (.node label text children)) := by
  obtain ⟨opened, complete, depth, h⟩ := b
  rw [openNode, graftAll_opened, close?]
  simp [OpenNode.close]

theorem closeMany_of_close? {b c : Builder κ} (h : b.close? = some c) (count : Nat) :
    closeMany (count + 1) b = closeMany count c := by
  rw [closeMany, h]

/-- One more node is completed after the others. -/
theorem closeMany_succ {b c : Builder κ} {count : Nat} (h : (closeMany count b).close? = some c) :
    closeMany (count + 1) b = c := by
  induction count generalizing b with
  | zero => exact closeMany_of_close? h 0
  | succ count ih =>
    cases hb : b.close? with
    | none =>
      rw [closeMany, hb] at h
      exact absurd (hb.symm.trans h) (by simp)
    | some b' =>
      rw [closeMany_of_close? hb] at h ⊢
      exact ih h

/-- Whatever is completed early, everything is completed in the end. -/
theorem forest_closeMany (count : Nat) (b : Builder κ) : (closeMany count b).forest = b.forest := by
  induction count generalizing b with
  | zero => rfl
  | succ count ih =>
    cases hb : b.close? with
    | none => rw [closeMany, hb]
    | some b' => rw [closeMany_of_close? hb, ih, forest, forest, depth_of_close? hb,
        closeMany_of_close? hb]

theorem forest_graftAll_empty (ts : List (Tree κ)) : (empty.graftAll ts).forest = ts := by
  have hcomplete (complete : List (Tree κ)) :
      (graftAll ⟨[], complete, 0, rfl⟩ ts).complete = ts.reverse ++ complete := by
    induction ts generalizing complete with
    | nil => rfl
    | cons t ts ih =>
      have hstep := ih (t :: complete)
      rw [graftAll_cons, List.reverse_cons, List.append_assoc]
      exact hstep
  have hdepth : (empty.graftAll ts).depth = 0 := depth_graftAll empty ts
  rw [forest, hdepth, closeMany]
  show (graftAll ⟨[], [], 0, rfl⟩ ts).complete.reverse = ts
  rw [hcomplete, List.append_nil, List.reverse_reverse]

end Builder
end Lineage
