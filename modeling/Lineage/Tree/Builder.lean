import Lineage.Tree

/-
Trees that grow from left to right.

A builder holds the nodes that are still open, innermost first, and the
top-level trees that are complete.  Readers drive it with three moves, so no
reader recurses on the depth of what it reads.
-/

namespace Lineage

/-- A node that still takes children; the latest child comes first. -/
structure OpenNode (κ : Type) where
  label : κ
  text : Option String
  children : List (Tree κ)

namespace OpenNode

variable {κ : Type}

def close (n : OpenNode κ) : Tree κ := .node n.label n.text n.children.reverse

def push (n : OpenNode κ) (child : Tree κ) : OpenNode κ :=
  { n with children := child :: n.children }

end OpenNode

/-- A forest under construction; the latest complete tree comes first. -/
structure Builder (κ : Type) where
  opened : List (OpenNode κ)
  complete : List (Tree κ)
  depth : Nat
  depth_eq : depth = opened.length

namespace Builder

variable {κ : Type}

def empty : Builder κ := ⟨[], [], 0, rfl⟩

def openNode (b : Builder κ) (label : κ) (text : Option String) : Builder κ :=
  ⟨⟨label, text, []⟩ :: b.opened, b.complete, b.depth + 1, by simp [b.depth_eq]⟩

def graft : Builder κ → Tree κ → Builder κ
  | ⟨[], complete, depth, h⟩, t => ⟨[], t :: complete, depth, h⟩
  | ⟨n :: rest, complete, depth, h⟩, t => ⟨n.push t :: rest, complete, depth, h⟩

/-- Complete the innermost open node; `none` if nothing is open. -/
def close? : Builder κ → Option (Builder κ)
  | ⟨[], _, _, _⟩ => none
  | ⟨n :: rest, complete, depth, h⟩ =>
    some (graft ⟨rest, complete, depth - 1, by simp [h]⟩ n.close)

/-- Complete the `count` innermost open nodes, or all that there are. -/
def closeMany : Nat → Builder κ → Builder κ
  | 0, b => b
  | count + 1, b =>
    match b.close? with
    | none => b
    | some b => closeMany count b

def forest (b : Builder κ) : List (Tree κ) := (closeMany b.depth b).complete.reverse

theorem depth_openNode (b : Builder κ) (label : κ) (text : Option String) :
    (b.openNode label text).depth = b.depth + 1 := rfl

theorem depth_graft (b : Builder κ) (t : Tree κ) : (b.graft t).depth = b.depth := by
  unfold graft; split <;> rfl

theorem close?_eq_none_iff (b : Builder κ) : b.close? = none ↔ b.depth = 0 := by
  rw [b.depth_eq]; unfold close?; split <;> simp

theorem depth_of_close? {b c : Builder κ} (h : b.close? = some c) :
    b.depth = c.depth + 1 := by
  unfold close? at h
  split at h
  · simp at h
  · next n rest complete depth hd =>
    obtain rfl := Option.some.inj h
    rw [depth_graft]
    simp [hd]

end Builder
end Lineage
