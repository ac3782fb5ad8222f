import Lineage.Walk

/-
A walk visits one part of a tree after the other.

What a visit does depends on the scopes and on the visited step alone: events
that were noted before stay behind the new ones, and steps that were pending
before stay behind the new ones.  So a walk over two runs of steps is a walk
over the first and then a walk over the second, in the scopes that the first
one left.
-/

namespace Lineage

namespace Schedule

variable {κ : Type}

/-- Put earlier events and steps behind those of a schedule. -/
def onto (s : Schedule κ) (events : List Event) (steps : List (Step κ)) : Schedule κ :=
  ⟨s.scopes, s.events ++ events, s.steps ++ steps, s.visible⟩

theorem steps_read (s : Schedule κ) (nodes : List (Tree κ)) (scope : ScopeId) :
    (s.read nodes scope).steps = (nodes.map (⟨·, .read, scope⟩)).reverse ++ s.steps := by
  simp only [read]
  generalize s.steps = steps
  induction nodes generalizing steps with
  | nil => rfl
  | cons n nodes ih =>
    rw [List.foldl_cons, ih, List.map_cons, List.reverse_cons, List.append_assoc]
    rfl

theorem read_onto (s : Schedule κ) (nodes : List (Tree κ)) (scope : ScopeId)
    (events : List Event) (steps : List (Step κ)) :
    (s.onto events steps).read nodes scope = (s.read nodes scope).onto events steps := by
  have h := steps_read (s.onto events steps) nodes scope
  have h' := steps_read s nodes scope
  simp only [onto, read] at h h' ⊢
  rw [h, h', List.append_assoc]

variable [Vocabulary κ]

theorem define_onto (scope : ScopeId) (recursive : Bool) (s : Schedule κ) (d : Tree κ)
    (events : List Event) (steps : List (Step κ)) :
    (s.onto events steps).define scope recursive d =
      (s.define scope recursive d).onto events steps := by
  obtain ⟨scopes, ev, st, visible⟩ := s
  cases h : d.alias? with
  | none =>
    simp only [define, onto, h]
    exact read_onto ⟨scopes, .malformed (.emptyName d.kind) :: ev, st, visible⟩ ..
  | some name =>
    simp only [define, onto, h]
    exact read_onto ⟨_, ev, st, _⟩ ..

omit [Vocabulary κ] in
theorem foldl_onto {f : Schedule κ → Tree κ → Schedule κ} (events : List Event)
    (steps : List (Step κ)) (h : ∀ s t, f (s.onto events steps) t = (f s t).onto events steps)
    (nodes : List (Tree κ)) (s : Schedule κ) :
    nodes.foldl f (s.onto events steps) = (nodes.foldl f s).onto events steps := by
  induction nodes generalizing s with
  | nil => rfl
  | cons n nodes ih => rw [List.foldl_cons, h, ih, List.foldl_cons]

theorem defineAll_onto (scope : ScopeId) (s : Schedule κ) (node : Tree κ)
    (events : List Event) (steps : List (Step κ)) :
    (s.onto events steps).defineAll scope node = (s.defineAll scope node).onto events steps := by
  unfold defineAll
  split
  · refine foldl_onto _ _ (fun s t => ?_) ..
    split
    · exact define_onto ..
    · exact read_onto ..
  · exact define_onto ..

theorem addBlockChild_onto (block : ScopeId) (s : Schedule κ) (child : Tree κ)
    (events : List Event) (steps : List (Step κ)) :
    (s.onto events steps).addBlockChild block child =
      (s.addBlockChild block child).onto events steps := by
  unfold addBlockChild
  split
  · exact defineAll_onto ..
  · exact read_onto ..

end Schedule

namespace Walk

variable {κ : Type}

/-- Put earlier events and pending steps behind those of a walk. -/
def onto (w : Walk κ) (events : List Event) (pending : List (Step κ)) : Walk κ :=
  ⟨w.scopes, w.events ++ events, w.pending ++ pending⟩

theorem note_onto (w : Walk κ) (e : Event) (events : List Event) (pending : List (Step κ)) :
    (w.onto events pending).note e = (w.note e).onto events pending := rfl

theorem push_onto (w : Walk κ) (nodes : List (Tree κ)) (access : Access) (scope : ScopeId)
    (events : List Event) (pending : List (Step κ)) :
    (w.onto events pending).push nodes access scope =
      (w.push nodes access scope).onto events pending := by
  simp only [push, onto, List.append_assoc]

theorem resume_onto (s : Schedule κ) (events : List Event) (pending : List (Step κ)) :
    resume pending (s.onto events []) = (resume [] s).onto events pending := by
  simp only [resume, Schedule.onto, onto, List.append_nil, List.reverseAux_eq]

theorem recordName_onto (o : ExtractOptions) (w : Walk κ) (name : QualifiedName)
    (access : Access) (scope : ScopeId) (events : List Event) (pending : List (Step κ)) :
    (w.onto events pending).recordName o name access scope =
      (w.recordName o name access scope).onto events pending := by
  cases access with
  | write => rfl
  | read =>
    have hscopes : (w.onto events pending).scopes = w.scopes := rfl
    simp only [recordName, hscopes]
    split <;> rfl

variable [Vocabulary κ]

theorem recordUnder_onto (o : ExtractOptions) (w : Walk κ) (s : Step κ) (parent : Kind)
    (events : List Event) (pending : List (Step κ)) :
    (w.onto events pending).recordUnder o s parent =
      (w.recordUnder o s parent).onto events pending := by
  unfold recordUnder
  split
  · rfl
  · exact recordName_onto ..

theorem visitBlock_onto (w : Walk κ) (s : Step κ) (events : List Event)
    (pending : List (Step κ)) :
    (w.onto events pending).visitBlock s = (w.visitBlock s).onto events pending := by
  obtain ⟨scopes, ev, p⟩ := w
  simp only [visitBlock, onto]
  have h := Schedule.foldl_onto events [] (fun t c =>
    Schedule.addBlockChild_onto (scopes.openIn s.scope).1 t c events []) s.node.children
    ⟨(scopes.openIn s.scope).2, ev, [], s.scope⟩
  rw [show (Schedule.mk (scopes.openIn s.scope).2 (ev ++ events) [] s.scope) =
    (Schedule.mk (scopes.openIn s.scope).2 ev [] s.scope).onto events [] from rfl, h,
    resume_onto]
  simp only [onto, resume, List.reverseAux_eq, List.append_assoc, List.append_nil]

theorem visitDefinitions_onto (w : Walk κ) (s : Step κ) (events : List Event)
    (pending : List (Step κ)) :
    (w.onto events pending).visitDefinitions s = (w.visitDefinitions s).onto events pending := by
  obtain ⟨scopes, ev, p⟩ := w
  simp only [visitDefinitions, onto]
  rw [show (Schedule.mk scopes (ev ++ events) [] ((scopes.parent? s.scope).getD s.scope)) =
    (Schedule.mk scopes ev [] ((scopes.parent? s.scope).getD s.scope)).onto events [] from rfl,
    Schedule.defineAll_onto, resume_onto]
  simp only [onto, resume, List.reverseAux_eq, List.append_assoc, List.append_nil]

theorem visitInsert_onto (w : Walk κ) (s : Step κ) (events : List Event)
    (pending : List (Step κ)) :
    (w.onto events pending).visitInsert s = (w.visitInsert s).onto events pending := by
  simp only [visitInsert]
  split <;> simp only [onto, note, List.append_assoc, List.cons_append]

theorem visitDestination_onto (w : Walk κ) (s : Step κ) (events : List Event)
    (pending : List (Step κ)) :
    (w.onto events pending).visitDestination s = (w.visitDestination s).onto events pending := by
  unfold visitDestination
  split
  · rfl
  · split <;> rfl

omit [Vocabulary κ] in
theorem visitTableName_onto (o : ExtractOptions) (w : Walk κ) (s : Step κ)
    (events : List Event) (pending : List (Step κ)) :
    (w.onto events pending).visitTableName o s = (w.visitTableName o s).onto events pending := by
  unfold visitTableName
  split
  · rfl
  · split
    · rfl
    · exact recordName_onto ..

theorem visitTableRef_onto (o : ExtractOptions) (w : Walk κ) (s : Step κ)
    (events : List Event) (pending : List (Step κ)) :
    (w.onto events pending).visitTableRef o s = (w.visitTableRef o s).onto events pending := by
  rw [visitTableRef, recordUnder_onto, push_onto, ← visitTableRef]

omit [Vocabulary κ] in
theorem visitResolved_onto (o : ExtractOptions) (w : Walk κ) (s : Step κ)
    (events : List Event) (pending : List (Step κ)) :
    (w.onto events pending).visitResolved o s = (w.visitResolved o s).onto events pending := by
  simp only [visitResolved]
  split
  · exact push_onto ..
  · rw [note_onto]; exact push_onto ..

/-- A visit does not look at earlier events or at what else is pending. -/
theorem visit_onto (o : ExtractOptions) (w : Walk κ) (s : Step κ) (events : List Event)
    (pending : List (Step κ)) :
    (w.onto events pending).visit o s = (w.visit o s).onto events pending := by
  cases hk : s.node.kind with
  | root => simp only [visit, hk]; exact push_onto ..
  | other => simp only [visit, hk]; exact push_onto ..
  | subqueryAlias => simp only [visit, hk]; exact push_onto ..
  | join => simp only [visit, hk]; exact push_onto ..
  | union => simp only [visit, hk]; exact push_onto ..
  | select => simp only [visit, hk]; exact visitBlock_onto ..
  | query => simp only [visit, hk]; exact visitBlock_onto ..
  | insert => simp only [visit, hk]; exact visitInsert_onto ..
  | destination => simp only [visit, hk]; exact visitDestination_onto ..
  | table => simp only [visit, hk]; exact recordUnder_onto ..
  | tableName => simp only [visit, hk]; exact visitTableName_onto ..
  | tableRef => simp only [visit, hk]; exact visitTableRef_onto ..
  | cteDef => simp only [visit, hk]; exact visitDefinitions_onto ..
  | cteRef => simp only [visit, hk]; exact visitResolved_onto ..

/-- The visit of a step on its own. -/
def visitAlone (o : ExtractOptions) (scopes : Scopes (Tree κ)) (s : Step κ) : Walk κ :=
  visit o ⟨scopes, [], []⟩ s

theorem visit_eq_onto (o : ExtractOptions) (scopes : Scopes (Tree κ)) (events : List Event)
    (pending : List (Step κ)) (s : Step κ) :
    visit o ⟨scopes, events, pending⟩ s = (visitAlone o scopes s).onto events pending :=
  visit_onto o ⟨scopes, [], []⟩ s events pending

theorem run_nil (o : ExtractOptions) (scopes : Scopes (Tree κ)) (events : List Event) :
    run o ⟨scopes, events, []⟩ = ⟨scopes, events, []⟩ := by
  rw [run]

theorem run_cons (o : ExtractOptions) (scopes : Scopes (Tree κ)) (events : List Event)
    (s : Step κ) (pending : List (Step κ)) :
    run o ⟨scopes, events, s :: pending⟩ =
      run o ((visitAlone o scopes s).onto events pending) := by
  rw [run, visit_eq_onto]

theorem pending_run (o : ExtractOptions) (w : Walk κ) : (run o w).pending = [] := by
  fun_induction run o w with
  | case1 scopes events => rfl
  | case2 scopes events s pending ih => exact ih

/-- What is pending behind a run of steps is walked in the scopes that the steps
leave. -/
theorem run_onto (o : ExtractOptions) (w : Walk κ) (events : List Event)
    (pending : List (Step κ)) :
    run o (w.onto events pending) = run o ((run o w).onto events pending) := by
  fun_induction run o w with
  | case1 scopes ev => rfl
  | case2 scopes ev s p ih =>
    rw [← ih, ← visit_onto]
    simp only [onto, List.cons_append]
    rw [run]

theorem run_onto_nil (o : ExtractOptions) (w : Walk κ) (events : List Event) :
    run o (w.onto events []) = (run o w).onto events [] := by
  have h := pending_run o w
  rw [run_onto]
  generalize run o w = w' at h ⊢
  obtain ⟨scopes, ev, p⟩ := w'
  obtain rfl : p = [] := h
  exact run_nil ..

/-- A run over two lists of steps is a run over the first, and one over the second in
the scopes that the first has left. -/
theorem run_append (o : ExtractOptions) (scopes : Scopes (Tree κ)) (a b : List (Step κ)) :
    run o ⟨scopes, [], a ++ b⟩ =
      (run o ⟨(run o ⟨scopes, [], a⟩).scopes, [], b⟩).onto (run o ⟨scopes, [], a⟩).events [] := by
  have hdone := pending_run o ⟨scopes, [], a⟩
  have hfirst : Walk.mk scopes [] (a ++ b) = (Walk.mk scopes [] a).onto [] b := rfl
  rw [hfirst, run_onto]
  generalize run o ⟨scopes, [], a⟩ = w at hdone ⊢
  obtain ⟨scopes', events, pending⟩ := w
  obtain rfl : pending = [] := hdone
  have hsecond : (Walk.mk scopes' events []).onto [] b =
      (Walk.mk scopes' [] b).onto events [] := by
    simp only [onto, List.append_nil, List.nil_append]
  rw [hsecond, run_onto_nil]

end Walk
end Lineage
