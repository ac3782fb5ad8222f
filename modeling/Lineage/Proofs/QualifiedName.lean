import Lineage.QualifiedName
import Lineage.Proofs.Scope

/-
Where a dotted name has its dots.

A name of several parts has a dot whatever the parts are, and folding the case
neither makes one nor takes one away.  A set of names without dots can therefore
hold no name of several parts.
-/

namespace Lineage

/-- Only capital letters change their case, and a dot is no letter. -/
theorem toLower_eq_dot_iff {c : Char} : c.toLower = '.' ↔ c = '.' := by
  constructor
  · intro h
    unfold Char.toLower at h
    split at h
    · next hc =>
      have hval : c.val + ('a'.val - 'A'.val) = '.'.val := congrArg Char.val h
      have hlow : 'A'.val.toNat ≤ c.val.toNat := hc.1
      have hhigh : c.val.toNat ≤ 'Z'.val.toNat := hc.2
      have hnat := congrArg UInt32.toNat hval
      simp at hnat hlow hhigh
      omega
    · exact h
  · rintro rfl
    rfl

theorem dot_mem_foldCase {s : String} : '.' ∈ (foldCase s).toList ↔ '.' ∈ s.toList := by
  rw [foldCase, String.toList_map, List.mem_map]
  constructor
  · rintro ⟨c, hc, h⟩
    rwa [← toLower_eq_dot_iff.1 h]
  · exact fun h => ⟨'.', h, rfl⟩

namespace QualifiedName

theorem dotted_of_ne {parts : List String} (h : ∀ part ∈ parts, part ≠ "") :
    dotted parts = ".".intercalate parts := by
  rw [dotted, List.filter_eq_self.2 (fun part hp => decide_eq_true (h part hp))]

theorem dotted_singleton {part : String} (h : part ≠ "") : dotted [part] = part := by
  rw [dotted, List.filter_cons, if_pos (decide_eq_true h)]
  exact String.intercalate_singleton

theorem dot_mem_intercalate (a b : String) (parts : List String) :
    '.' ∈ (".".intercalate (a :: b :: parts)).toList := by
  rw [String.intercalate_cons_cons, String.toList_append, String.toList_append]
  simp

/-- A name of two parts or more has a dot. -/
theorem dot_mem_dotted {parts : List String} (h : 2 ≤ (parts.filter (· ≠ "")).length) :
    '.' ∈ (dotted parts).toList := by
  unfold dotted
  cases hp : parts.filter (· ≠ "") with
  | nil => rw [hp] at h; exact absurd h (by simp)
  | cons a rest =>
    cases rest with
    | nil => rw [hp] at h; exact absurd h (by simp)
    | cons b rest => exact dot_mem_intercalate a b rest

end QualifiedName

namespace Names

/-- No name of the set has a dot. -/
def Undotted (names : Names) : Prop := ∀ key, names key = true → '.' ∉ key.toList

theorem undotted_none : none.Undotted := fun _ h => absurd h Bool.false_ne_true

variable {names : Names}

theorem Undotted.bind (h : names.Undotted) {name : String} (hn : '.' ∉ name.toList) :
    (names.bind name).Undotted := by
  intro key hk
  simp only [Names.bind, Bool.or_eq_true, decide_eq_true_eq] at hk
  rcases hk with rfl | hk
  · rwa [dot_mem_foldCase]
  · exact h key hk

/-- Such a set does not hold a name with a dot. -/
theorem Undotted.eq_false (h : names.Undotted) {name : String} (hn : '.' ∈ name.toList) :
    names (foldCase name) = false := by
  rw [Bool.eq_false_iff]
  exact fun hk => h _ hk (dot_mem_foldCase.2 hn)

end Names
end Lineage
