import Lineage.Proofs.Scope

/-
How deep a scope lies, and what is bound outside.

The outermost two scopes of a walk are the root and the one that the tree is
walked in.  Both are outside every block.  The depth of a scope counts the
scopes between it and those two.
-/

namespace Lineage
namespace Scopes

variable {β : Type} {s t : Scopes β}

/-- The names that the outermost two scopes bind. -/
def outside (s : Scopes β) : Names :=
  fun key => (s.binding? 0 key).isSome || (s.binding? 1 key).isSome

def depth (s : Scopes β) (i : ScopeId) : Nat := ((s.chain i).filter (2 ≤ ·)).length

/-- The outermost two scopes are there, and every other one was opened in one
that is there. -/
structure Rooted (s : Scopes β) : Prop where
  two_le : 2 ≤ s.size
  parent : ∀ i < s.size, 2 ≤ i → (s.parent? i).isSome = true

theorem Rooted.openIn (h : s.Rooted) (p : ScopeId) : (s.openIn p).2.Rooted := by
  refine ⟨by rw [size_openIn]; exact Nat.le_succ_of_le h.two_le, fun i hi h2 => ?_⟩
  rw [parent?_openIn]
  by_cases he : i = s.size
  · rw [if_pos he]
    rfl
  · rw [if_neg he]
    rw [size_openIn] at hi
    exact h.parent i (Nat.lt_of_le_of_ne (Nat.le_of_lt_succ hi) he) h2

theorem Rooted.define (h : s.Rooted) (name : String) (body : β) (i : ScopeId) :
    (s.define name body i).Rooted := by
  refine ⟨by rw [size_define]; exact h.two_le, fun j hj h2 => ?_⟩
  rw [size_define] at hj
  rw [parent?_define]
  exact h.parent j hj h2

theorem Rooted.introduce (h : s.Rooted) (name : String) (body : β) (block visible : ScopeId) :
    (s.introduce name body block visible).Rooted :=
  ((h.define name body block).openIn visible).define name body _

/-! ## Depth -/

theorem Extends.depth_eq (h : Extends s t) {i : ScopeId} (hi : i < s.size) :
    t.depth i = s.depth i := by
  rw [depth, depth, h.chain_eq hi]

theorem depth_eq_zero_iff {i : ScopeId} (hi : i < s.size) : s.depth i = 0 ↔ i < 2 := by
  rw [depth, List.length_eq_zero_iff, List.filter_eq_nil_iff]
  constructor
  · intro h
    have hself := h i (self_mem_chain hi)
    exact Nat.lt_of_not_le (fun h2 => hself (decide_eq_true h2))
  · intro h j hj h2
    exact Nat.not_lt.2 (of_decide_eq_true h2) (Nat.lt_of_le_of_lt (le_of_mem_chain hj) h)

theorem depth_openIn_self {p : ScopeId} (h2 : 2 ≤ s.size) (hp : p < s.size) :
    (s.openIn p).2.depth s.size = s.depth p + 1 := by
  rw [depth, chain_openIn_self hp, List.filter_cons, if_pos (decide_eq_true h2),
    List.length_cons]
  rfl

theorem depth_introduce_self {name : String} {body : β} {block visible : ScopeId}
    (h2 : 2 ≤ s.size) (hv : visible < s.size) :
    (s.introduce name body block visible).depth s.size = s.depth visible + 1 := by
  rw [depth, chain_introduce_self hv, List.filter_cons,
    if_pos (decide_eq_true h2), List.length_cons]
  rfl

/-- The scope around a scope lies less deep, unless both are outside. -/
theorem depth_around (ho : s.Ordered) (hr : s.Rooted) {i : ScopeId} (hi : i < s.size) :
    s.depth ((s.parent? i).getD i) = s.depth i - 1 := by
  by_cases h2 : i < 2
  · have hzero := (depth_eq_zero_iff hi).2 h2
    have hlt : (s.parent? i).getD i < 2 := by
      cases hp : s.parent? i with
      | none => exact h2
      | some p => exact Nat.lt_trans (ho i p hp) h2
    rw [hzero, (depth_eq_zero_iff (Nat.lt_of_lt_of_le hlt hr.two_le)).2 hlt]
  · have hge := Nat.le_of_not_lt h2
    obtain ⟨p, hp⟩ := Option.isSome_iff_exists.1 (hr.parent i hi hge)
    have hchain : s.chain i = i :: s.chain p := by
      rw [chain_of_lt hi, hp]
      simp only [if_pos (ho i p hp)]
    rw [hp, Option.getD_some, depth, depth, hchain, List.filter_cons,
      if_pos (decide_eq_true hge), List.length_cons, Nat.add_sub_cancel]

/-! ## Names bound outside -/

theorem outside_openIn (s : Scopes β) (p : ScopeId) : (s.openIn p).2.outside = s.outside := by
  funext key
  rw [outside, outside, binding?_openIn, binding?_openIn]

theorem outside_define (h2 : 2 ≤ s.size) (name : String) (body : β) (i : ScopeId) :
    (s.define name body i).outside = if i < 2 then s.outside.bind name else s.outside := by
  funext key
  have hsome (j : ScopeId) : ((s.define name body i).binding? j key).isSome =
      (decide (i = j ∧ i < s.size ∧ key = foldCase name) || (s.binding? j key).isSome) := by
    rw [binding?_define]
    split
    · next h => rw [decide_eq_true h]; rfl
    · next h => rw [decide_eq_false h]; rfl
  have h0 : 0 < s.size := Nat.lt_of_lt_of_le (by decide) h2
  have h1 : 1 < s.size := h2
  rw [outside, hsome, hsome]
  by_cases hi : i < 2
  · rw [if_pos hi, Names.bind, outside]
    cases i with
    | zero => simp [h0, Bool.or_assoc]
    | succ i =>
      obtain rfl : i = 0 := Nat.lt_one_iff.1 (Nat.lt_of_succ_lt_succ hi)
      simp [h1, Bool.or_left_comm]
  · have hne0 : i ≠ 0 := fun h => hi (h ▸ by decide)
    have hne1 : i ≠ 1 := fun h => hi (h ▸ by decide)
    rw [if_neg hi, outside]
    simp [hne0, hne1]

theorem outside_introduce (h2 : 2 ≤ s.size) (name : String) (body : β)
    (block visible : ScopeId) :
    (s.introduce name body block visible).outside =
      if block < 2 then s.outside.bind name else s.outside := by
  have hsize : 2 ≤ ((s.define name body block).openIn visible).2.size := by
    rw [size_openIn, size_define]
    exact Nat.le_succ_of_le h2
  rw [introduce, outside_define hsize, if_neg (Nat.not_lt.2 h2), outside_openIn,
    outside_define h2]

/-- What the walked tree sees is what is bound outside. -/
theorem sees_one (h : s.chain 1 = [1, 0]) : s.sees 1 = s.outside := by
  funext key
  rw [Bool.eq_iff_iff, sees_eq_true_iff, h, outside, Bool.or_eq_true]
  simp [or_comm]

end Scopes
end Lineage
