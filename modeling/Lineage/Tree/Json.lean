import Lineage.Tree
import Lineage.Json

/-
The JSON form of a tree.

An absent text and an empty list of children leave no member.  Since the keys of those that
are there tell them apart, trees with the same form are the same.
-/

namespace Lineage
namespace Tree

variable {κ : Type}

mutual

def toJson (name : κ → String) : Tree κ → Json
  | node k text children =>
    let text := match text with
      | none => []
      | some t => [("text", Json.str t)]
    let children := match children with
      | [] => []
      | cs => [("children", Json.arr (toJsonList name cs))]
    .obj ([("kind", .str (name k))] ++ text ++ children)

def toJsonList (name : κ → String) : List (Tree κ) → List Json
  | [] => []
  | t :: ts => toJson name t :: toJsonList name ts

end

mutual

/-- A tree can be told from its JSON form. -/
theorem toJson_inj {name : κ → String} (hname : ∀ k k', name k = name k' → k = k') :
    (t u : Tree κ) → toJson name t = toJson name u → t = u
  | node k text children, node k' text' children', h => by
    have hchildren := toJsonList_inj hname children children'
    cases text <;> cases text' <;> cases children <;> cases children' <;>
      simp only [toJson, Json.obj.injEq, List.cons_append, List.nil_append, List.append_nil,
        List.cons.injEq, Prod.mk.injEq, Json.str.injEq, Json.arr.injEq, String.reduceEq,
        reduceCtorEq, and_true, true_and, and_false] at h
    case none.none.nil.nil => rw [hname k k' h]
    case none.none.cons.cons => rw [hname k k' h.1, hchildren h.2]
    case some.some.nil.nil => rw [hname k k' h.1, h.2]
    case some.some.cons.cons => rw [hname k k' h.1, h.2.1, hchildren h.2.2]

theorem toJsonList_inj {name : κ → String} (hname : ∀ k k', name k = name k' → k = k') :
    (ts us : List (Tree κ)) → toJsonList name ts = toJsonList name us → ts = us
  | [], [], _ => rfl
  | t :: ts, u :: us, h => by
    rw [toJsonList, toJsonList, List.cons.injEq] at h
    rw [toJson_inj hname t u h.1, toJsonList_inj hname ts us h.2]

end

end Tree
end Lineage
