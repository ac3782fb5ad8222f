import Lineage.Tree.Builder

/-
Outlines: a forest written as one entry a node, in preorder, each with an
indentation.

The parent of an entry is the nearest earlier entry that is indented less.
Depths serve as indentations, and so do irregular ones.
-/

namespace Lineage

structure Entry (κ : Type) where
  indent : Nat
  label : κ
  text : Option String
  deriving DecidableEq

namespace Outline

variable {κ : Type}

/-- How many of the open entries, innermost first, an entry indented by
`indent` ends: those that are not indented less. -/
def ended (opened : List Nat) (indent : Nat) : Nat :=
  (opened.takeWhile (indent ≤ ·)).length

/-- A forest under construction with the indentation of each open node. -/
structure State (κ : Type) where
  opened : List Nat
  builder : Builder κ

namespace State

def start : State κ := ⟨[], .empty⟩

def add (s : State κ) (e : Entry κ) : State κ :=
  let count := ended s.opened e.indent
  { opened := e.indent :: s.opened.drop count
    builder := (s.builder.closeMany count).openNode e.label e.text }

end State

def forest (entries : List (Entry κ)) : List (Tree κ) :=
  (entries.foldl State.add .start).builder.forest

/-- The first entry that has `limit` or more ancestors, by its place in the
list of indentations. -/
def tooDeep? (limit : Nat) (indents : List Nat) : Option Nat :=
  go [] 0 indents
where
  go (opened : List Nat) (place : Nat) : List Nat → Option Nat
    | [] => none
    | indent :: rest =>
      let ancestors := opened.dropWhile (indent ≤ ·)
      if limit ≤ ancestors.length then some place
      else go (indent :: ancestors) (place + 1) rest

end Outline

namespace Tree

variable {κ : Type}

def underneath (depth : Nat) (children : List (Tree κ)) : List (Nat × Tree κ) :=
  children.map (depth + 1, ·)

theorem sizeList_underneath (depth : Nat) (children : List (Tree κ)) :
    sizeList ((underneath depth children).map (·.2)) = sizeList children := by
  simp [underneath, Function.comp_def]

def subtreesOnto : List (Nat × Tree κ) → Array (Nat × Tree κ) → Array (Nat × Tree κ)
  | [], done => done
  | (depth, t) :: pending, done =>
    subtreesOnto (underneath depth t.children ++ pending) (done.push (depth, t))
termination_by pending => sizeList (pending.map (·.2))
decreasing_by
  simp only [List.map_append, List.map_cons, sizeList_append, sizeList_cons, sizeList_underneath,
    size_eq t]
  omega

/-- The nodes of a tree in preorder, each with its depth and all that is below
it. -/
def subtrees (t : Tree κ) : Array (Nat × Tree κ) := subtreesOnto [(0, t)] #[]

def outline (t : Tree κ) : Array (Entry κ) :=
  t.subtrees.map fun (depth, t) => ⟨depth, t.label, t.text⟩

/-- Trees are compared by their outlines, which determine them. -/
instance [DecidableEq κ] : BEq (Tree κ) := ⟨fun a b => a.outline = b.outline⟩

end Tree
end Lineage
