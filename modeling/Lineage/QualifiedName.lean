/-
Dotted table names such as `db.table`.
-/

namespace Lineage

/-- A table name.  Case and characters are kept as they were read, and a name
is never empty. -/
structure QualifiedName where
  text : String
  text_ne : text ≠ ""
  deriving DecidableEq

namespace QualifiedName

def ofString? (s : String) : Option QualifiedName :=
  if h : s = "" then none else some ⟨s, h⟩

/-- The parts of a name joined by dots.  Empty parts leave no trace. -/
def dotted (parts : List String) : String :=
  ".".intercalate (parts.filter (· ≠ ""))

/-- Names are ordered by their characters, which is the order of their UTF-8
bytes. -/
instance : LE QualifiedName := ⟨fun a b => a.text ≤ b.text⟩

instance (a b : QualifiedName) : Decidable (a ≤ b) :=
  inferInstanceAs (Decidable (a.text ≤ b.text))

def sorted (names : List QualifiedName) : List QualifiedName :=
  names.mergeSort (fun a b => a ≤ b)

theorem ofString?_eq_none_iff {s : String} : ofString? s = none ↔ s = "" := by
  simp [ofString?]

theorem ofString?_eq_some_iff {s : String} {n : QualifiedName} :
    ofString? s = some n ↔ n.text = s := by
  obtain ⟨t, ht⟩ := n
  simp only [ofString?, Option.dite_none_left_eq_some, Option.some.injEq, mk.injEq]
  constructor
  · rintro ⟨_, h⟩; exact h.symm
  · rintro rfl; exact ⟨ht, rfl⟩

end QualifiedName
end Lineage
