/-
Lexical scopes of `WITH` definitions.

Scopes form a tree: each one but the root was opened inside another.  A name is
looked up from a scope towards the root, so an inner definition hides an outer
one of the same name inside its own scope only.
-/

namespace Lineage

/-- Definition names are compared with ASCII letters in lower case; every other
character stands for itself. -/
def foldCase (name : String) : String := name.map Char.toLower

/-- A scope is known by its place in the order of opening. -/
abbrev ScopeId := Nat

/-- One scope: where it was opened and what it binds, latest binding first. -/
structure Scope (β : Type) where
  parent : Option ScopeId
  bindings : List (String × β)

/-- All scopes of one walk, in the order of opening.  The first is the root. -/
structure Scopes (β : Type) where
  frames : Array (Scope β)

namespace Scopes

variable {β : Type}

def initial : Scopes β := ⟨#[⟨none, []⟩]⟩

def root : ScopeId := 0

def openIn (s : Scopes β) (parent : ScopeId) : ScopeId × Scopes β :=
  (s.frames.size, ⟨s.frames.push ⟨some parent, []⟩⟩)

/-- Bind a name in a scope.  An earlier binding of the name in that scope is
hidden. -/
def define (s : Scopes β) (name : String) (body : β) (scope : ScopeId) : Scopes β :=
  ⟨s.frames.modify scope fun f => { f with bindings := (foldCase name, body) :: f.bindings }⟩

def parent? (s : Scopes β) (scope : ScopeId) : Option ScopeId :=
  s.frames[scope]?.bind (·.parent)

/-- The innermost body bound to a folded name, seen from a scope.  A parent is
older than the scopes opened in it, so the search ends. -/
def find? (s : Scopes β) (key : String) (scope : ScopeId) : Option β :=
  match s.frames[scope]? with
  | none => none
  | some frame =>
    match frame.bindings.lookup key with
    | some body => some body
    | none =>
      match frame.parent with
      | none => none
      | some p => if p < scope then s.find? key p else none
termination_by scope

def resolve? (s : Scopes β) (name : String) (scope : ScopeId) : Option β :=
  s.find? (foldCase name) scope

def defines (s : Scopes β) (name : String) (scope : ScopeId) : Bool :=
  (s.resolve? name scope).isSome

end Scopes
end Lineage
