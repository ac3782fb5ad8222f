import Lineage.Kind
import Lineage.QualifiedName

/-
Syntax trees over any vocabulary: ordered children and an optional text.
-/

namespace Lineage

/-- A node of a syntax tree.  The text is a leaf's payload, such as one part of
an identifier. -/
inductive Tree (κ : Type) where
  | node (label : κ) (text : Option String) (children : List (Tree κ))

namespace Tree

variable {κ : Type}

instance [Inhabited κ] : Inhabited (Tree κ) := ⟨node default none []⟩

def label : Tree κ → κ
  | node k _ _ => k

def text : Tree κ → Option String
  | node _ t _ => t

def children : Tree κ → List (Tree κ)
  | node _ _ cs => cs

def bare (k : κ) : Tree κ := node k none []

def leaf (k : κ) (t : String) : Tree κ := node k (some t) []

def branch (k : κ) (cs : List (Tree κ)) : Tree κ := node k none cs

/-- The text that marks a list whose definitions may refer to themselves. -/
def recursiveMarker : String := "RECURSIVE"

def isLeaf (t : Tree κ) : Bool := t.children.isEmpty

section
variable [Vocabulary κ]

def kind (t : Tree κ) : Kind := Vocabulary.kind t.label

def childOfKind? (t : Tree κ) (k : Kind) : Option (Tree κ) :=
  t.children.find? (·.kind = k)

def childIndex? (t : Tree κ) (k : Kind) : Option Nat :=
  t.children.findIdx? (·.kind = k)

end

/-- The texts of the children joined by dots: the name that a `tableName` node
stands for.  Children without text, or with an empty one, contribute nothing. -/
def dottedName (t : Tree κ) : String :=
  QualifiedName.dotted (t.children.filterMap text)

def qualifiedName? (t : Tree κ) : Option QualifiedName :=
  QualifiedName.ofString? t.dottedName

mutual

def size : Tree κ → Nat
  | node _ _ cs => sizeList cs + 1

def sizeList : List (Tree κ) → Nat
  | [] => 0
  | t :: ts => size t + sizeList ts

end

theorem sizeList_nil : sizeList ([] : List (Tree κ)) = 0 := rfl

theorem sizeList_cons (t : Tree κ) (ts : List (Tree κ)) :
    sizeList (t :: ts) = t.size + sizeList ts := rfl

theorem size_eq (t : Tree κ) : t.size = sizeList t.children + 1 := by
  cases t; rfl

theorem size_pos (t : Tree κ) : 0 < t.size := by
  rw [size_eq]; exact Nat.succ_pos _

theorem sizeList_append (ts us : List (Tree κ)) :
    sizeList (ts ++ us) = sizeList ts + sizeList us := by
  induction ts with
  | nil => simp [sizeList_nil]
  | cons t ts ih => simp [sizeList_cons, ih, Nat.add_assoc]

theorem sizeList_reverse (ts : List (Tree κ)) : sizeList ts.reverse = sizeList ts := by
  induction ts with
  | nil => rfl
  | cons t ts ih =>
    simp [sizeList_append, sizeList_cons, sizeList_nil, ih, Nat.add_comm]

theorem sizeList_filter_le (p : Tree κ → Bool) (ts : List (Tree κ)) :
    sizeList (ts.filter p) ≤ sizeList ts := by
  induction ts with
  | nil => exact Nat.le_refl _
  | cons t ts ih =>
    rw [List.filter_cons]
    split <;> simp only [sizeList_cons] <;> omega

end Tree
end Lineage
