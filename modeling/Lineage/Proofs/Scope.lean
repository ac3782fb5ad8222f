import Lineage.Scope

/-
What a scope sees.

A lookup passes the scopes of a chain, from the scope it starts in towards the
root.  Opening a scope and binding a name are described by what they do to the
chains and to the names seen, so that no later proof looks at the frames.
-/

namespace Lineage

/-- A set of definition names in folded case, given by its membership test. -/
abbrev Names := String → Bool

namespace Names

def none : Names := fun _ => false

/-- Put in one more definition. -/
def bind (names : Names) (name : String) : Names :=
  fun key => key = foldCase name || names key

/-- Put in the name of a definition that may have none. -/
def bind? (names : Names) : Option String → Names
  | .none => names
  | some name => names.bind name

/-- Put in several definitions, the first one first. -/
def bindAll (names : Names) (more : List String) : Names := more.foldl bind names

theorem bindAll_append (names : Names) (a b : List String) :
    names.bindAll (a ++ b) = (names.bindAll a).bindAll b := List.foldl_append ..

theorem bindAll_toList (names : Names) (name? : Option String) :
    names.bindAll name?.toList = names.bind? name? := by
  cases name? <;> rfl

theorem mem_bindAll {names : Names} {more : List String} {key : String} :
    names.bindAll more key = true ↔ names key = true ∨ key ∈ more.map foldCase := by
  induction more generalizing names with
  | nil => simp [bindAll]
  | cons name more ih =>
    rw [bindAll, List.foldl_cons, ← bindAll, ih]
    simp only [bind, Bool.or_eq_true, decide_eq_true_eq, List.map_cons, List.mem_cons]
    constructor
    · rintro ((h | h) | h)
      · exact .inr (.inl h)
      · exact .inl h
      · exact .inr (.inr h)
    · rintro (h | h | h)
      · exact .inl (.inr h)
      · exact .inl (.inl h)
      · exact .inr h

end Names

namespace Scopes

variable {β : Type} {s t : Scopes β}

def size (s : Scopes β) : Nat := s.frames.size

/-- The body that a scope itself binds to a folded name. -/
def binding? (s : Scopes β) (scope : ScopeId) (key : String) : Option β :=
  s.frames[scope]?.bind (·.bindings.lookup key)

/-- The scopes that a lookup passes. -/
def chain (s : Scopes β) (scope : ScopeId) : List ScopeId :=
  if scope < s.size then
    scope :: match s.parent? scope with
      | none => []
      | some p => if p < scope then s.chain p else []
  else []
termination_by scope

/-- The names that resolve from a scope. -/
def sees (s : Scopes β) (scope : ScopeId) : Names := fun key => (s.find? key scope).isSome

/-! ## Lookup along the chain -/

theorem frame_of_not_lt {i : ScopeId} (h : ¬ i < s.size) : s.frames[i]? = none :=
  Array.getElem?_eq_none (Nat.le_of_not_lt h)

theorem binding?_of_not_lt {i : ScopeId} (h : ¬ i < s.size) (key : String) :
    s.binding? i key = none := by
  rw [binding?, frame_of_not_lt h]
  rfl

theorem parent?_of_not_lt {i : ScopeId} (h : ¬ i < s.size) : s.parent? i = none := by
  rw [parent?, frame_of_not_lt h]
  rfl

theorem chain_of_not_lt {i : ScopeId} (h : ¬ i < s.size) : s.chain i = [] := by
  rw [chain, if_neg h]

theorem chain_of_lt {i : ScopeId} (h : i < s.size) :
    s.chain i = i :: match s.parent? i with
      | none => []
      | some p => if p < i then s.chain p else [] := by
  rw [chain, if_pos h]

theorem self_mem_chain {i : ScopeId} (h : i < s.size) : i ∈ s.chain i := by
  rw [chain_of_lt h]
  exact List.mem_cons_self

theorem le_of_mem_chain {i j : ScopeId} (h : j ∈ s.chain i) : j ≤ i := by
  induction i using Nat.strongRecOn with
  | ind i ih =>
    by_cases hi : i < s.size
    · rw [chain_of_lt hi] at h
      rcases List.mem_cons.1 h with rfl | h
      · exact Nat.le_refl _
      · split at h
        · exact absurd h List.not_mem_nil
        · next p _ =>
          by_cases hp : p < i
          · rw [if_pos hp] at h
            exact Nat.le_trans (ih p hp h) (Nat.le_of_lt hp)
          · rw [if_neg hp] at h
            exact absurd h List.not_mem_nil
    · rw [chain_of_not_lt hi] at h
      exact absurd h List.not_mem_nil

theorem not_mem_chain_of_lt {i j : ScopeId} (h : i < j) : j ∉ s.chain i := fun hj =>
  Nat.not_lt_of_le (le_of_mem_chain hj) h

theorem find?_of_lt {i : ScopeId} (key : String) (h : i < s.size) :
    s.find? key i = match s.binding? i key with
      | some body => some body
      | none => match s.parent? i with
        | none => none
        | some p => if p < i then s.find? key p else none := by
  have hframe : s.frames[i]? = some s.frames[i] := Array.getElem?_eq_getElem h
  have hbinding : s.binding? i key = s.frames[i].bindings.lookup key := by
    rw [binding?, hframe]
    rfl
  have hparent : s.parent? i = s.frames[i].parent := by
    rw [parent?, hframe]
    rfl
  have hfind := find?.eq_def s key i
  rw [hframe] at hfind
  rw [hbinding, hparent]
  exact hfind

/-- The nearest scope of the chain that binds the name decides. -/
theorem find?_eq_findSome? (s : Scopes β) (key : String) (i : ScopeId) :
    s.find? key i = (s.chain i).findSome? (s.binding? · key) := by
  induction i using Nat.strongRecOn with
  | ind i ih =>
    by_cases hi : i < s.size
    · rw [find?_of_lt key hi, chain_of_lt hi, List.findSome?_cons]
      cases s.binding? i key with
      | some body => rfl
      | none =>
        cases s.parent? i with
        | none => rfl
        | some p =>
          by_cases hlt : p < i
          · simpa only [if_pos hlt] using ih p hlt
          · simp only [if_neg hlt, List.findSome?_nil]
    · rw [find?, frame_of_not_lt hi, chain_of_not_lt hi]
      rfl

theorem sees_eq_true_iff {i : ScopeId} {key : String} :
    s.sees i key = true ↔ ∃ j ∈ s.chain i, (s.binding? j key).isSome = true := by
  rw [sees, find?_eq_findSome?, List.findSome?_isSome_iff]

theorem chain_congr {γ : Type} {t : Scopes γ} {i : ScopeId} (hsize : ∀ j ≤ i, j < s.size ↔ j < t.size)
    (hparent : ∀ j ≤ i, s.parent? j = t.parent? j) : s.chain i = t.chain i := by
  induction i using Nat.strongRecOn with
  | ind i ih =>
    have hi := hsize i (Nat.le_refl i)
    by_cases h : i < s.size
    · rw [chain_of_lt h, chain_of_lt (hi.1 h), hparent i (Nat.le_refl i)]
      cases t.parent? i with
      | none => rfl
      | some p =>
        by_cases hp : p < i
        · have hle (j : ScopeId) (hj : j ≤ p) : j ≤ i := Nat.le_trans hj (Nat.le_of_lt hp)
          have := ih p hp (fun j hj => hsize j (hle j hj)) (fun j hj => hparent j (hle j hj))
          simp only [if_pos hp, this]
        · simp only [if_neg hp]
    · rw [chain_of_not_lt h, chain_of_not_lt (fun ht => h (hi.2 ht))]

theorem sees_congr {i : ScopeId} (hchain : s.chain i = t.chain i)
    (hbinding : ∀ j ∈ t.chain i, s.binding? j = t.binding? j) : s.sees i = t.sees i := by
  funext key
  rw [Bool.eq_iff_iff, sees_eq_true_iff, sees_eq_true_iff, hchain]
  constructor
  · rintro ⟨j, hj, h⟩
    exact ⟨j, hj, by rw [← hbinding j hj]; exact h⟩
  · rintro ⟨j, hj, h⟩
    exact ⟨j, hj, by rw [hbinding j hj]; exact h⟩

/-! ## Opening a scope -/

theorem openIn_fst (s : Scopes β) (p : ScopeId) : (s.openIn p).1 = s.size := rfl

@[simp] theorem size_openIn (s : Scopes β) (p : ScopeId) :
    (s.openIn p).2.size = s.size + 1 := Array.size_push ..

theorem parent?_openIn_of_lt {i : ScopeId} (p : ScopeId) (h : i < s.size) :
    (s.openIn p).2.parent? i = s.parent? i := by
  simp only [parent?, openIn, Array.getElem?_push_lt h, Array.getElem?_eq_getElem h]

theorem parent?_openIn_self (s : Scopes β) (p : ScopeId) :
    (s.openIn p).2.parent? s.size = some p := by
  simp [parent?, openIn, size]

theorem parent?_openIn (s : Scopes β) (p i : ScopeId) :
    (s.openIn p).2.parent? i = if i = s.size then some p else s.parent? i := by
  by_cases h : i = s.size
  · rw [if_pos h, h, parent?_openIn_self]
  · have hframe : (s.openIn p).2.frames[i]? = s.frames[i]? := by
      rw [openIn, Array.getElem?_push]
      exact if_neg h
    rw [if_neg h, parent?, hframe, parent?]

theorem binding?_openIn (s : Scopes β) (p i : ScopeId) :
    (s.openIn p).2.binding? i = s.binding? i := by
  funext key
  simp only [binding?, openIn, Array.getElem?_push]
  by_cases h : i = s.frames.size
  · subst h; simp
  · rw [if_neg h]

theorem chain_openIn_of_lt {i : ScopeId} (p : ScopeId) (h : i < s.size) :
    (s.openIn p).2.chain i = s.chain i := by
  refine chain_congr (fun j hj => ?_) (fun j hj => ?_)
  · have hj : j < s.size := Nat.lt_of_le_of_lt hj h
    rw [size_openIn]
    exact ⟨fun _ => hj, fun _ => Nat.lt_succ_of_lt hj⟩
  · exact parent?_openIn_of_lt p (Nat.lt_of_le_of_lt hj h)

theorem chain_openIn_self {p : ScopeId} (h : p < s.size) :
    (s.openIn p).2.chain s.size = s.size :: s.chain p := by
  have hlt : s.size < (s.openIn p).2.size := by rw [size_openIn]; exact Nat.lt_succ_self _
  rw [chain_of_lt hlt, parent?_openIn_self]
  simp only [if_pos h, chain_openIn_of_lt p h]

theorem sees_openIn_of_lt {i : ScopeId} (p : ScopeId) (h : i < s.size) :
    (s.openIn p).2.sees i = s.sees i :=
  sees_congr (chain_openIn_of_lt p h) (fun j _ => binding?_openIn s p j)

/-- A fresh scope sees what the scope around it sees. -/
theorem sees_openIn_self {p : ScopeId} (h : p < s.size) :
    (s.openIn p).2.sees s.size = s.sees p := by
  have hfresh (key : String) : s.binding? s.size key = none := by simp [binding?, size]
  funext key
  rw [Bool.eq_iff_iff, sees_eq_true_iff, sees_eq_true_iff, chain_openIn_self h]
  simp only [List.mem_cons, exists_eq_or_imp, binding?_openIn, hfresh, Option.isSome_none,
    Bool.false_eq_true, false_or]

/-! ## Binding a name -/

@[simp] theorem size_define (s : Scopes β) (name : String) (body : β) (i : ScopeId) :
    (s.define name body i).size = s.size := Array.size_modify ..

theorem parent?_define (s : Scopes β) (name : String) (body : β) (i j : ScopeId) :
    (s.define name body i).parent? j = s.parent? j := by
  simp only [parent?, define, Array.getElem?_modify]
  by_cases h : i = j
  · subst h; cases s.frames[i]? <;> simp
  · rw [if_neg h]

theorem chain_define (s : Scopes β) (name : String) (body : β) (i j : ScopeId) :
    (s.define name body i).chain j = s.chain j :=
  chain_congr (fun _ _ => by rw [size_define]) (fun _ _ => parent?_define ..)

theorem binding?_define_of_ne {i j : ScopeId} (name : String) (body : β) (h : i ≠ j) :
    (s.define name body i).binding? j = s.binding? j := by
  funext key
  simp only [binding?, define, Array.getElem?_modify, if_neg h]

theorem binding?_define_self {i : ScopeId} (name : String) (body : β) (key : String)
    (h : i < s.size) :
    (s.define name body i).binding? i key =
      if key = foldCase name then some body else s.binding? i key := by
  have hframe : s.frames[i]? = some s.frames[i] := Array.getElem?_eq_getElem h
  simp only [binding?, define, Array.getElem?_modify, if_true, hframe, Option.map_some,
    Option.bind_some, List.lookup_cons]
  by_cases hk : key = foldCase name
  · simp [hk]
  · have : (key == foldCase name) = false := by simp [hk]
    rw [this, if_neg hk]

theorem binding?_define (s : Scopes β) (name : String) (body : β) (i j : ScopeId) (key : String) :
    (s.define name body i).binding? j key =
      if i = j ∧ i < s.size ∧ key = foldCase name then some body else s.binding? j key := by
  by_cases hij : i = j
  · subst hij
    by_cases hi : i < s.size
    · rw [binding?_define_self name body key hi]
      by_cases hk : key = foldCase name
      · rw [if_pos hk, if_pos ⟨rfl, hi, hk⟩]
      · rw [if_neg hk, if_neg (fun h => hk h.2.2)]
    · have hdefined : ¬ i < (s.define name body i).size := by
        rw [size_define]
        exact hi
      rw [if_neg (fun h => hi h.2.1), binding?_of_not_lt hi, binding?_of_not_lt hdefined]
  · rw [if_neg (fun h => hij h.1), binding?_define_of_ne name body hij]

/-- What is bound stays bound, perhaps to the new body. -/
theorem isSome_binding?_define {i : ScopeId} {key : String} (name : String) (body : β)
    (j : ScopeId) (h : (s.binding? i key).isSome = true) :
    ((s.define name body j).binding? i key).isSome = true := by
  rw [binding?_define]
  split
  · rfl
  · exact h

theorem sees_define_of_not_mem {i j : ScopeId} (name : String) (body : β)
    (h : i ∉ s.chain j) : (s.define name body i).sees j = s.sees j :=
  sees_congr (chain_define ..) (fun _ hk => binding?_define_of_ne name body
    (fun he => h (he ▸ hk)))

/-- A scope on the chain of another one passes a new name on to it. -/
theorem sees_define_of_mem {i j : ScopeId} (name : String) (body : β) (hi : i < s.size)
    (h : i ∈ s.chain j) : (s.define name body i).sees j = (s.sees j).bind name := by
  funext key
  rw [Bool.eq_iff_iff, sees_eq_true_iff, chain_define]
  simp only [Names.bind, Bool.or_eq_true, decide_eq_true_eq, sees_eq_true_iff]
  constructor
  · rintro ⟨k, hk, hb⟩
    by_cases he : i = k
    · subst he
      rw [binding?_define_self name body key hi] at hb
      by_cases hkey : key = foldCase name
      · exact .inl hkey
      · rw [if_neg hkey] at hb
        exact .inr ⟨i, hk, hb⟩
    · rw [binding?_define_of_ne name body he] at hb
      exact .inr ⟨k, hk, hb⟩
  · rintro (hkey | ⟨k, hk, hb⟩)
    · exact ⟨i, h, by rw [binding?_define_self name body key hi, if_pos hkey]; rfl⟩
    · by_cases he : i = k
      · subst he
        refine ⟨i, hk, ?_⟩
        rw [binding?_define_self name body key hi]
        by_cases hkey : key = foldCase name
        · rw [if_pos hkey]; rfl
        · rw [if_neg hkey]; exact hb
      · exact ⟨k, hk, by rw [binding?_define_of_ne name body he]; exact hb⟩

/-! ## Order -/

/-- Each scope was opened inside an older one. -/
def Ordered (s : Scopes β) : Prop := ∀ i p, s.parent? i = some p → p < i

theorem ordered_initial : (initial : Scopes β).Ordered := by
  intro i p h
  cases i with
  | zero => simp [initial, parent?] at h
  | succ i => simp [initial, parent?] at h

theorem Ordered.openIn (h : s.Ordered) {p : ScopeId} (hp : p < s.size) :
    (s.openIn p).2.Ordered := by
  intro i q hq
  rw [parent?_openIn] at hq
  by_cases hi : i = s.size
  · rw [if_pos hi, Option.some.injEq] at hq
    rw [hi, ← hq]
    exact hp
  · rw [if_neg hi] at hq
    exact h i q hq

theorem Ordered.define (h : s.Ordered) (name : String) (body : β) (i : ScopeId) :
    (s.define name body i).Ordered := by
  intro j p hp
  rw [parent?_define] at hp
  exact h j p hp

/-! ## What older scopes keep -/

/-- From `s` to `t`, scopes were opened, and the older ones stayed where they were. -/
structure Extends (s t : Scopes β) : Prop where
  size_le : s.size ≤ t.size
  parent_eq : ∀ i < s.size, t.parent? i = s.parent? i

namespace Extends

variable {u : Scopes β}

theorem refl (s : Scopes β) : Extends s s := ⟨Nat.le_refl _, fun _ _ => rfl⟩

theorem trans (h : Extends s t) (h' : Extends t u) : Extends s u := by
  refine ⟨Nat.le_trans h.size_le h'.size_le, fun i hi => ?_⟩
  rw [h'.parent_eq i (Nat.lt_of_lt_of_le hi h.size_le), h.parent_eq i hi]

theorem openIn (h : Extends s t) (p : ScopeId) : Extends s (t.openIn p).2 := by
  refine ⟨by rw [size_openIn]; exact Nat.le_succ_of_le h.size_le, fun i hi => ?_⟩
  rw [parent?_openIn_of_lt p (Nat.lt_of_lt_of_le hi h.size_le), h.parent_eq i hi]

theorem define (h : Extends s t) (name : String) (body : β) (i : ScopeId) :
    Extends s (t.define name body i) := by
  refine ⟨by rw [size_define]; exact h.size_le, fun j hj => ?_⟩
  rw [parent?_define, h.parent_eq j hj]

theorem chain_eq (h : Extends s t) {i : ScopeId} (hi : i < s.size) : t.chain i = s.chain i := by
  refine chain_congr (fun j hj => ?_) (fun j hj => ?_)
  · have hjs : j < s.size := Nat.lt_of_le_of_lt hj hi
    exact ⟨fun _ => hjs, fun _ => Nat.lt_of_lt_of_le hjs h.size_le⟩
  · exact h.parent_eq j (Nat.lt_of_le_of_lt hj hi)

end Extends

/-- In addition, names were bound in new scopes or in `block` only.  A scope that
does not look into `block` sees what it saw. -/
structure Grows (block : ScopeId) (s t : Scopes β) : Prop extends Extends s t where
  sees_eq : ∀ i < s.size, block ∉ s.chain i → t.sees i = s.sees i

namespace Grows

variable {block : ScopeId} {u : Scopes β}

theorem refl (block : ScopeId) (s : Scopes β) : Grows block s s :=
  ⟨.refl s, fun _ _ _ => rfl⟩

theorem trans (h : Grows block s t) (h' : Grows block t u) : Grows block s u := by
  refine ⟨h.toExtends.trans h'.toExtends, fun i hi hb => ?_⟩
  have hit := Nat.lt_of_lt_of_le hi h.size_le
  rw [h'.sees_eq i hit (by rwa [h.chain_eq hi]), h.sees_eq i hi hb]

theorem openIn (block : ScopeId) (s : Scopes β) (p : ScopeId) :
    Grows block s (s.openIn p).2 :=
  ⟨(Extends.refl s).openIn p, fun _ hi _ => sees_openIn_of_lt p hi⟩

theorem define (s : Scopes β) (name : String) (body : β) (block : ScopeId) :
    Grows block s (s.define name body block) :=
  ⟨(Extends.refl s).define name body block, fun _ _ hb => sees_define_of_not_mem name body hb⟩

/-- Names bound in a scope that is newer than all of `s` are invisible to `s`. -/
theorem define_new (h : Grows block s t) {i : ScopeId} (name : String) (body : β)
    (hi : s.size ≤ i) : Grows block s (t.define name body i) := by
  refine ⟨h.toExtends.define name body i, fun j hj hb => ?_⟩
  rw [sees_define_of_not_mem name body, h.sees_eq j hj hb]
  rw [h.chain_eq hj]
  exact not_mem_chain_of_lt (Nat.lt_of_lt_of_le hj hi)

end Grows

/-! ## A definition of a block -/

/-- Bind a definition in its block, and in a scope of its own inside `visible`. -/
def introduce (s : Scopes β) (name : String) (body : β) (block visible : ScopeId) : Scopes β :=
  ((s.define name body block).openIn visible).2.define name body s.size

section introduce

variable {name : String} {body : β} {block visible : ScopeId}

theorem size_introduce : (s.introduce name body block visible).size = s.size + 1 := by
  rw [introduce, size_define, size_openIn, size_define]

theorem lt_size_introduce {i : ScopeId} (hi : i < s.size) :
    i < (s.introduce name body block visible).size := by
  rw [size_introduce]
  exact Nat.lt_succ_of_lt hi

theorem self_lt_size_introduce : s.size < (s.introduce name body block visible).size := by
  rw [size_introduce]
  exact Nat.lt_succ_self _

theorem chain_introduce_self (h : visible < s.size) :
    (s.introduce name body block visible).chain s.size = s.size :: s.chain visible := by
  have hopen := chain_openIn_self (s := s.define name body block) (p := visible)
  rw [size_define, chain_define] at hopen
  rw [introduce, chain_define, hopen h]

theorem Ordered.introduce (hs : s.Ordered) (h : visible < s.size) :
    (s.introduce name body block visible).Ordered := by
  have hdefined := hs.define name body block
  refine (hdefined.openIn ?_).define name body _
  rw [size_define]
  exact h

theorem grows_introduce : Grows block s (s.introduce name body block visible) := by
  have hopen := (Grows.define s name body block).trans (Grows.openIn block _ visible)
  exact hopen.define_new name body (Nat.le_refl _)

/-- The block sees the definition. -/
theorem sees_introduce_block (h : block < s.size) :
    (s.introduce name body block visible).sees block = (s.sees block).bind name := by
  have hdefined : block < (s.define name body block).size := by
    rw [size_define]
    exact h
  have hblock : s.size ∉ ((s.define name body block).openIn visible).2.chain block := by
    rw [chain_openIn_of_lt visible hdefined, chain_define]
    exact not_mem_chain_of_lt h
  rw [introduce, sees_define_of_not_mem name body hblock, sees_openIn_of_lt visible hdefined,
    sees_define_of_mem name body h (self_mem_chain h)]

/-- So does the new scope, which sees what was visible besides. -/
theorem sees_introduce_self (h : visible < s.size) (hb : block ∉ s.chain visible) :
    (s.introduce name body block visible).sees s.size = (s.sees visible).bind name := by
  have hvisible : visible < (s.define name body block).size := by
    rw [size_define]
    exact h
  have hopen := sees_openIn_self hvisible
  have hlt : s.size < ((s.define name body block).openIn visible).2.size := by
    rw [size_openIn, size_define]
    exact Nat.lt_succ_self _
  rw [size_define] at hopen
  rw [introduce, sees_define_of_mem name body hlt (self_mem_chain hlt), hopen,
    sees_define_of_not_mem name body hb]

end introduce

end Scopes
end Lineage
