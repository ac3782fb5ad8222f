import Lineage.Proofs.Walk.Visits

/-
What a visit does to the bindings of a name.

A visit binds the definitions of the `cteDef` nodes that it deals with, which are
the visited node or the children of a visited query block.  Under any other name,
every scope binds what it bound.  A new scope then sees by that name what the
scope sees that it was opened in, so what is not seen where a visit is made is not
seen where its steps are.

A name that is bound in a scope stays bound there, perhaps to a later definition.
-/

namespace Lineage

namespace Scopes

variable {β : Type} {s t u : Scopes β} {key : String}

/-- No scope binds the name. -/
def Unbound (s : Scopes β) (key : String) : Prop := ∀ i, s.binding? i key = none

theorem Unbound.sees_eq (h : s.Unbound key) (i : ScopeId) : s.sees i key = false := by
  rw [Bool.eq_false_iff, Ne, sees_eq_true_iff]
  rintro ⟨j, -, hb⟩
  rw [h j] at hb
  exact Bool.false_ne_true hb

/-- From `s` to `t`, scopes were opened, and nothing was bound to the name. -/
structure Spares (key : String) (s t : Scopes β) : Prop extends Extends s t where
  binding_eq : ∀ i, t.binding? i key = s.binding? i key

namespace Spares

theorem refl (key : String) (s : Scopes β) : Spares key s s := ⟨.refl s, fun _ => rfl⟩

theorem trans (h : Spares key s t) (h' : Spares key t u) : Spares key s u :=
  ⟨h.toExtends.trans h'.toExtends, fun i => (h'.binding_eq i).trans (h.binding_eq i)⟩

theorem openIn (h : Spares key s t) (p : ScopeId) : Spares key s (t.openIn p).2 := by
  refine ⟨h.toExtends.openIn p, fun i => ?_⟩
  rw [binding?_openIn]
  exact h.binding_eq i

theorem define (h : Spares key s t) {name : String} (hne : foldCase name ≠ key) (body : β)
    (i : ScopeId) : Spares key s (t.define name body i) := by
  refine ⟨h.toExtends.define name body i, fun j => ?_⟩
  rw [binding?_define, if_neg (fun hnew => hne hnew.2.2.symm)]
  exact h.binding_eq j

theorem introduce (h : Spares key s t) {name : String} (hne : foldCase name ≠ key) (body : β)
    (block visible : ScopeId) : Spares key s (t.introduce name body block visible) :=
  ((h.define hne body block).openIn visible).define hne body _

theorem unbound (h : Spares key s t) (hs : s.Unbound key) : t.Unbound key :=
  fun i => (h.binding_eq i).trans (hs i)

theorem sees_eq (h : Spares key s t) {i : ScopeId} (hi : i < s.size) :
    t.sees i key = s.sees i key := by
  rw [Bool.eq_iff_iff, sees_eq_true_iff, sees_eq_true_iff, h.chain_eq hi]
  simp only [h.binding_eq]

end Spares

/-- The scope of a definition sees by another name what was visible before. -/
theorem sees_introduce_self_of_ne {name : String} {body : β} {block visible : ScopeId}
    (hne : foldCase name ≠ key) (hv : visible < s.size) :
    (s.introduce name body block visible).sees s.size key = s.sees visible key := by
  have hspares := (Spares.refl key s).introduce hne body block visible
  have hnew : s.binding? s.size key = none := binding?_of_not_lt (Nat.lt_irrefl _) key
  rw [Bool.eq_iff_iff, sees_eq_true_iff, sees_eq_true_iff, chain_introduce_self hv]
  simp only [List.mem_cons, exists_eq_or_imp, hspares.binding_eq, hnew, Option.isSome_none,
    Bool.false_eq_true, false_or]

/-- What a scope does not see, the scope around it does not see. -/
theorem sees_around (ho : s.Ordered) {i : ScopeId} (hi : i < s.size) (h : s.sees i key = false) :
    s.sees ((s.parent? i).getD i) key = false := by
  cases hp : s.parent? i with
  | none => exact h
  | some p =>
    have hchain : s.chain i = i :: s.chain p := by
      rw [chain_of_lt hi, hp]
      simp only [if_pos (ho i p hp)]
    rw [Bool.eq_false_iff, Ne, sees_eq_true_iff, hchain] at h
    rw [Option.getD_some, Bool.eq_false_iff, Ne, sees_eq_true_iff]
    rintro ⟨j, hj, hb⟩
    exact h ⟨j, List.mem_cons_of_mem _ hj, hb⟩

/-! ## What stays bound -/

section

variable {name : String} {body : β} {i block visible : ScopeId}

theorem isSome_binding?_introduce (h : (s.binding? i key).isSome = true) :
    ((s.introduce name body block visible).binding? i key).isSome = true := by
  apply isSome_binding?_define
  rw [binding?_openIn]
  exact isSome_binding?_define name body block h

theorem isSome_binding?_introduce_block (h : block < s.size) :
    ((s.introduce name body block visible).binding? block (foldCase name)).isSome = true := by
  apply isSome_binding?_define
  rw [binding?_openIn, binding?_define_self name body _ h, if_pos rfl]
  rfl

end

end Scopes

variable {κ : Type} [Vocabulary κ]

namespace Tree

/-- The visit of a node binds the definition. -/
def Binds (u d : Tree κ) : Prop :=
  ∃ node, (node = u ∨ u.kind.opensScope = true ∧ node ∈ u.children) ∧ node.kind = .cteDef ∧
    d ∈ node.definitions

/-- The visit of a node binds no definition to the name. -/
def Avoids (u : Tree κ) (key : String) : Prop :=
  ∀ d name, u.Binds d → d.alias? = some name → foldCase name ≠ key

variable {t u d : Tree κ}

theorem binds_of_definition (hk : u.kind = .cteDef) (hd : d ∈ u.definitions) : u.Binds d :=
  ⟨u, .inl rfl, hk, hd⟩

theorem binds_of_child {node : Tree κ} (hb : u.kind.opensScope = true) (hn : node ∈ u.children)
    (hk : node.kind = .cteDef) (hd : d ∈ node.definitions) : u.Binds d :=
  ⟨node, .inr ⟨hb, hn⟩, hk, hd⟩

theorem Binds.below (h : u.Binds d) : u.Below d := by
  obtain ⟨node, rfl | ⟨-, hn⟩, -, hd⟩ := h
  · exact (Below.self node).definition hd
  · exact ((Below.self u).children hn).definition hd

theorem Binds.defines (h : u.Binds d) (hu : t.Below u) {name : String}
    (ha : d.alias? = some name) : t.Defines d name := by
  obtain ⟨node, hnode, hk, hd⟩ := h
  refine ⟨node, ?_, hk, hd, ha⟩
  rcases hnode with rfl | ⟨-, hn⟩
  · exact hu
  · exact hu.children hn

end Tree

/-! ## Schedules -/

namespace Schedule

variable {home : ScopeId} {key : String} {s : Schedule κ}

theorem spares_define {d : Tree κ} (hne : ∀ name, d.alias? = some name → foldCase name ≠ key)
    (home : ScopeId) (recursive : Bool) (s : Schedule κ) :
    Scopes.Spares key s.scopes (s.define home recursive d).scopes := by
  cases ha : d.alias? with
  | none =>
    rw [define_of_none ha]
    exact .refl key _
  | some name =>
    rw [define_of_some ha]
    exact (Scopes.Spares.refl key s.scopes).introduce (hne name ha) d home s.visible

/-- No scope that is in use sees the name. -/
structure Unseeing (home : ScopeId) (key : String) (s : Schedule κ) : Prop
    extends InRange home s where
  home_sees : s.scopes.sees home key = false
  visible_sees : s.scopes.sees s.visible key = false
  steps_see : ∀ st ∈ s.steps, s.scopes.sees st.scope key = false

omit [Vocabulary κ] in
theorem Unseeing.read (h : Unseeing home key s) (nodes : List (Tree κ)) {i : ScopeId}
    (hi : i < s.scopes.size) (hsees : s.scopes.sees i key = false) :
    Unseeing home key (s.read nodes i) := by
  refine ⟨h.toInRange.read nodes hi, h.home_sees, h.visible_sees, fun st hst => ?_⟩
  rcases mem_steps_read_iff.1 hst with ⟨n, -, rfl⟩ | hst
  · exact hsees
  · exact h.steps_see st hst

theorem Unseeing.define (h : Unseeing home key s) {d : Tree κ}
    (hne : ∀ name, d.alias? = some name → foldCase name ≠ key) (recursive : Bool) :
    Unseeing home key (s.define home recursive d) := by
  have hspares := spares_define hne home recursive s
  have holder {i : ScopeId} (hi : i < s.scopes.size) (hsees : s.scopes.sees i key = false) :
      (s.define home recursive d).scopes.sees i key = false := (hspares.sees_eq hi).trans hsees
  have hvisible : (s.define home recursive d).scopes.sees (s.define home recursive d).visible key =
      false := by
    cases ha : d.alias? with
    | none =>
      rw [define_of_none ha]
      exact h.visible_sees
    | some name =>
      rw [define_of_some ha]
      exact (Scopes.sees_introduce_self_of_ne (hne name ha) h.visible_lt).trans h.visible_sees
  refine ⟨h.toInRange.define recursive d, holder h.scope_lt h.home_sees, hvisible,
    fun st hst => ?_⟩
  rcases mem_steps_define_iff.1 hst with ⟨n, -, rfl⟩ | hst
  · cases recursive with
    | true => exact hvisible
    | false => exact holder h.visible_lt h.visible_sees
  · exact holder (h.steps_lt st hst) (h.steps_see st hst)

theorem isSome_binding?_define {i : ScopeId}
    (h : (s.scopes.binding? i key).isSome = true) (recursive : Bool) (d : Tree κ) :
    ((s.define home recursive d).scopes.binding? i key).isSome = true := by
  cases ha : d.alias? with
  | none =>
    rw [define_of_none ha]
    exact h
  | some name =>
    rw [define_of_some ha]
    exact Scopes.isSome_binding?_introduce h

theorem isSome_binding?_defineAll {node d : Tree κ}
    {name : String} (hd : d ∈ node.definitions) (ha : d.alias? = some name)
    (hhome : home < s.scopes.size) :
    ((s.defineAll home node).scopes.binding? home (foldCase name)).isSome = true := by
  have hdefine (s : Schedule κ) (hs : home < s.scopes.size) (recursive : Bool) :
      ((s.define home recursive d).scopes.binding? home (foldCase name)).isSome = true := by
    rw [define_of_some ha]
    exact Scopes.isSome_binding?_introduce_block hs
  by_cases hl : node.children.any Tree.isDefinition = true
  · rw [Tree.definitions, if_pos hl, List.mem_filter] at hd
    obtain ⟨before, behind, hchildren⟩ := List.append_of_mem hd.1
    have hkeep (recursive : Bool) (s : Schedule κ) (c : Tree κ)
        (h : (s.scopes.binding? home (foldCase name)).isSome = true) :
        ((defineListed home recursive s c).scopes.binding? home (foldCase name)).isSome = true := by
      unfold defineListed
      split
      · exact isSome_binding?_define h recursive c
      · exact h
    have hsize (recursive : Bool) (s : Schedule κ) (c : Tree κ) (h : home < s.scopes.size) :
        home < (defineListed home recursive s c).scopes.size := by
      unfold defineListed
      split
      · exact Nat.lt_of_lt_of_le h (grows_define home recursive s c).size_le
      · exact h
    rw [defineAll_of_listing hl, hchildren, List.foldl_append, List.foldl_cons]
    refine foldl_keeps behind (fun c _ s h => hkeep _ s c h) ?_
    rw [defineListed, if_pos hd.2]
    exact hdefine _ (foldl_keeps before (fun c _ s h => hsize _ s c h) hhome) _
  · rw [Tree.definitions, if_neg hl, List.mem_singleton] at hd
    rw [defineAll_of_single hl, ← hd]
    exact hdefine s hhome false

end Schedule

/-! ## Visits -/

namespace Walk

variable {o : ExtractOptions} {scopes : Scopes (Tree κ)} {s : Step κ} {key : String}

/-- What opening a scope and binding the definitions of the visited node keep, a
visit keeps. -/
theorem scopes_visitAlone {P : Scopes (Tree κ) → Prop}
    (hopen : P scopes → P (scopes.openIn s.scope).2)
    (hdefine : ∀ d, s.node.Binds d → ∀ home recursive (sched : Schedule κ), P sched.scopes →
      P (sched.define home recursive d).scopes)
    (h : P scopes) : P (visitAlone o scopes s).scopes := by
  by_cases hb : s.node.kind.opensScope = true
  · rw [visitAlone_block hb]
    refine Schedule.addBlockChildren_keeps (P := fun sched => P sched.scopes)
      (fun node hn hk recursive d hd sched hs => ?_) (fun _ _ _ _ _ _ _ hs => hs)
      (fun _ _ _ _ hs => hs) (hopen h)
    exact hdefine d (Tree.binds_of_child hb hn hk hd) _ recursive sched hs
  · by_cases hd : s.node.kind = .cteDef
    · rw [visitAlone_cteDef hd]
      refine Schedule.defineAll_keeps (P := fun sched => P sched.scopes)
        (fun recursive d hmem sched hs => ?_) (fun _ _ _ _ hs => hs) h
      exact hdefine d (Tree.binds_of_definition hd hmem) _ recursive sched hs
    · rw [(visitAlone_plain (Bool.eq_false_iff.2 hb) hd o scopes).scopes_eq]
      exact h

theorem spares_visitAlone (h : s.node.Avoids key) :
    Scopes.Spares key scopes (visitAlone o scopes s).scopes := by
  refine scopes_visitAlone (fun hs => hs.openIn s.scope)
    (fun d hd home recursive sched hs => ?_) (.refl key scopes)
  exact hs.trans (Schedule.spares_define (fun name => h d name hd) home recursive sched)

theorem isSome_binding?_visitAlone {i : ScopeId} (h : (scopes.binding? i key).isSome = true)
    (s : Step κ) : ((visitAlone o scopes s).scopes.binding? i key).isSome = true := by
  refine scopes_visitAlone (P := fun scopes => (scopes.binding? i key).isSome = true)
    (fun hs => ?_) (fun d _ _ recursive _ hs => Schedule.isSome_binding?_define hs recursive d) h
  rw [Scopes.binding?_openIn]
  exact hs

/-- The steps of a visit do not see the name if the visit was made where it is not
seen, and binds nothing to it. -/
theorem sees_visitAlone (h : s.node.Avoids key) (ho : scopes.Ordered) (hs : s.scope < scopes.size)
    (hsees : scopes.sees s.scope key = false) :
    ∀ st ∈ (visitAlone o scopes s).pending,
      (visitAlone o scopes s).scopes.sees st.scope key = false := by
  have hresume (home : ScopeId) {sched : Schedule κ} (hu : sched.Unseeing home key) :
      ∀ st ∈ (resume [] sched).pending, (resume [] sched).scopes.sees st.scope key = false := by
    exact fun st hst => hu.steps_see st (mem_pending_resume.1 hst)
  by_cases hb : s.node.kind.opensScope = true
  · have hspares := (Scopes.Spares.refl key scopes).openIn s.scope
    have hblock : (scopes.openIn s.scope).2.sees scopes.size key = false := by
      rw [Scopes.sees_openIn_self hs]
      exact hsees
    have hstart : Schedule.Unseeing scopes.size key
        ⟨(scopes.openIn s.scope).2, [], [], s.scope⟩ :=
      ⟨inRange_openBlock ho hs, hblock, (hspares.sees_eq hs).trans hsees,
        fun st hst => absurd hst List.not_mem_nil⟩
    rw [visitAlone_block hb]
    refine hresume scopes.size (Schedule.addBlockChildren_keeps ?_ ?_ ?_ hstart)
    · intro node hn hk recursive d hd s' hs'
      exact hs'.define (fun name => h d name (Tree.binds_of_child hb hn hk hd)) recursive
    · exact fun _ _ _ c _ _ _ hs' => hs'.read [c] hs'.visible_lt hs'.visible_sees
    · exact fun c _ _ _ hs' => hs'.read [c] hs'.scope_lt hs'.home_sees
  · by_cases hd : s.node.kind = .cteDef
    · have hstart : Schedule.Unseeing s.scope key
          ⟨scopes, [], [], (scopes.parent? s.scope).getD s.scope⟩ :=
        ⟨⟨ho, hs, around_lt ho hs, fun st hst => absurd hst List.not_mem_nil⟩, hsees,
          Scopes.sees_around ho hs hsees, fun st hst => absurd hst List.not_mem_nil⟩
      rw [visitAlone_cteDef hd]
      refine hresume s.scope (Schedule.defineAll_keeps ?_ ?_ hstart)
      · intro recursive d hmem s' hs'
        exact hs'.define (fun name => h d name (Tree.binds_of_definition hd hmem)) recursive
      · exact fun c _ _ _ hs' => hs'.read [c] hs'.visible_lt hs'.visible_sees
    · have hplain := visitAlone_plain (Bool.eq_false_iff.2 hb) hd o scopes
      intro st hst
      rw [hplain.pending_eq] at hst
      rw [hplain.scopes_eq, (of_mem_childSteps hst).2]
      exact hsees

end Walk
end Lineage
