import Lineage.Proofs.Scope

/-
Scopes that must be there.

The operations on scopes, each of which fails where a scope that it is given does not
exist.  A lookup passes from scope to scope as the parents say, and gives up after a
number of scopes.  As long as each scope was opened in an older one, a lookup from a
scope passes no more scopes than are as old as it.
-/

namespace Lineage
namespace Scopes

variable {β : Type} {s : Scopes β}

def openIn? (s : Scopes β) (parent : ScopeId) : Option (ScopeId × Scopes β) :=
  if parent < s.size then some (s.openIn parent) else none

def define? (s : Scopes β) (name : String) (body : β) (scope : ScopeId) : Option (Scopes β) :=
  if scope < s.size then some (s.define name body scope) else none

/-- The scope that an existing scope was opened in. -/
def outer? (s : Scopes β) (scope : ScopeId) : Option (Option ScopeId) :=
  s.frames[scope]?.map (·.parent)

/-- What a key is bound to in the nearest scope that binds it, of at most `limit`
scopes. -/
def search? (s : Scopes β) (key : String) : Nat → ScopeId → Option (Option β)
  | 0, _ => none
  | limit + 1, scope =>
    match s.frames[scope]? with
    | none => none
    | some frame =>
      match frame.bindings.lookup key with
      | some body => some (some body)
      | none =>
        match frame.parent with
        | none => some none
        | some p => s.search? key limit p

/-- Whether a name resolves, with as many scopes to pass as there are. -/
def defines? (s : Scopes β) (name : String) (scope : ScopeId) : Option Bool :=
  (s.search? (foldCase name) s.size scope).map (·.isSome)

theorem openIn?_eq {p : ScopeId} (h : p < s.size) : s.openIn? p = some (s.openIn p) := if_pos h

theorem define?_eq {i : ScopeId} (name : String) (body : β) (h : i < s.size) :
    s.define? name body i = some (s.define name body i) := if_pos h

theorem outer?_eq {i : ScopeId} (h : i < s.size) : s.outer? i = some (s.parent? i) := by
  have hframe : s.frames[i]? = some s.frames[i] := Array.getElem?_eq_getElem h
  rw [outer?, parent?, hframe]
  rfl

/-- A lookup ends before it has passed more scopes than are as old as the first one,
and each of them exists. -/
theorem search?_eq (hs : s.Ordered) (key : String) {limit : Nat} {i : ScopeId} (hi : i < s.size)
    (hlimit : i < limit) : s.search? key limit i = some (s.find? key i) := by
  induction limit generalizing i with
  | zero => exact absurd hlimit (Nat.not_lt_zero i)
  | succ limit ih =>
    have hframe : s.frames[i]? = some s.frames[i] := Array.getElem?_eq_getElem hi
    rw [search?, find?, hframe]
    cases hbody : s.frames[i].bindings.lookup key with
    | some body => simp only [hbody]
    | none =>
      cases hparent : s.frames[i].parent with
      | none => simp only [hbody, hparent]
      | some p =>
        have hp : p < i := by
          apply hs i p
          rw [parent?, hframe]
          exact hparent
        simp only [hbody, hparent, if_pos hp]
        exact ih (Nat.lt_trans hp hi) (Nat.lt_of_lt_of_le hp (Nat.le_of_lt_succ hlimit))

theorem defines?_eq (hs : s.Ordered) (name : String) {i : ScopeId} (hi : i < s.size) :
    s.defines? name i = some (s.defines name i) := by
  rw [defines?, search?_eq hs _ hi hi]
  rfl

end Scopes
end Lineage
