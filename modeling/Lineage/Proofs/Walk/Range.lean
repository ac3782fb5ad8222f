import Lineage.Proofs.Walk.Schedule

/-
The forms of a visit, and the scopes in range.

A visit notes what the node mentions itself and schedules children in the scope
that it was made in; or it opens scopes for a query block; or it binds
definitions that stand in no block.  Invariants of the walk are proved over these
three forms.
-/

namespace Lineage
namespace Walk

variable {κ : Type} [Vocabulary κ]

theorem visitAlone_block {s : Step κ} (hk : s.node.kind.opensScope = true) (o : ExtractOptions)
    (scopes : Scopes (Tree κ)) :
    visitAlone o scopes s = resume [] (s.node.children.foldl
      (Schedule.addBlockChild scopes.size) ⟨(scopes.openIn s.scope).2, [], [], s.scope⟩) := by
  cases hkind : s.node.kind with
  | select => simp only [visitAlone, visit, hkind]; rfl
  | query => simp only [visitAlone, visit, hkind]; rfl
  | _ => rw [hkind] at hk; exact absurd hk Bool.false_ne_true

theorem visitAlone_cteDef {s : Step κ} (hk : s.node.kind = .cteDef) (o : ExtractOptions)
    (scopes : Scopes (Tree κ)) :
    visitAlone o scopes s = resume [] (Schedule.defineAll s.scope
      ⟨scopes, [], [], (scopes.parent? s.scope).getD s.scope⟩ s.node) := by
  simp only [visitAlone, visit, hk]
  rfl

/-- What a walk has noted so far, in order. -/
def mentioned (w : Walk κ) : List Mention := Event.mentionsOf w.events

omit [Vocabulary κ] in
theorem mentioned_onto (w : Walk κ) (events : List Event) (pending : List (Step κ)) :
    (w.onto events pending).mentioned = Event.mentionsOf events ++ w.mentioned :=
  Event.mentionsOf_append ..

/-- A walk that did no more than note something and schedule children. -/
structure Plain (scopes : Scopes (Tree κ)) (mentions : List Mention) (steps : List (Step κ))
    (w : Walk κ) : Prop where
  scopes_eq : w.scopes = scopes
  mentions_eq : w.mentioned = mentions
  pending_eq : w.pending = steps

/-- The steps for the children that have a position. -/
def childSteps (position : Tree κ → Option Access) (scope : ScopeId)
    (children : List (Tree κ)) : List (Step κ) :=
  children.filterMap fun c => (position c).map fun access => ⟨c, access, scope⟩

omit [Vocabulary κ] in
theorem plain_recordName (o : ExtractOptions) (scopes : Scopes (Tree κ))
    (name : QualifiedName) (access : Access) (scope : ScopeId) :
    Plain scopes (Tree.mentionOf o (scopes.sees scope) access (some name)) []
      (recordName o ⟨scopes, [], []⟩ name access scope) := by
  cases access with
  | write => exact ⟨rfl, rfl, rfl⟩
  | read =>
    by_cases hv : scopes.defines name.text scope = true
    · have hsees : scopes.sees scope (foldCase name.text) = true := hv
      simp only [recordName, if_pos hv, Tree.mentionOf, hsees]
      cases o.emitCteNames <;> exact ⟨rfl, rfl, rfl⟩
    · have hsees : scopes.sees scope (foldCase name.text) = false := Bool.eq_false_iff.2 hv
      simp only [recordName, if_neg hv, Tree.mentionOf, hsees]
      exact ⟨rfl, rfl, rfl⟩

theorem nameUnder_eq (t : Tree κ) (parent : Kind) :
    (∃ m, t.nameUnder parent = .error m ∧ t.heldName? = none) ∨
      ∃ name, t.nameUnder parent = .ok name ∧ t.heldName? = some name := by
  unfold Tree.nameUnder Tree.heldName?
  cases t.childOfKind? .tableName with
  | none => exact .inl ⟨_, rfl, rfl⟩
  | some child =>
    simp only [Option.bind_some]
    cases child.qualifiedName? with
    | none => exact .inl ⟨_, rfl, rfl⟩
    | some name => exact .inr ⟨name, rfl, rfl⟩

theorem plain_recordUnder (o : ExtractOptions) (scopes : Scopes (Tree κ)) (s : Step κ)
    (parent : Kind) :
    Plain scopes (Tree.mentionOf o (scopes.sees s.scope) s.access s.node.heldName?) []
      (recordUnder o ⟨scopes, [], []⟩ s parent) := by
  rcases nameUnder_eq s.node parent with ⟨m, hname, hheld⟩ | ⟨name, hname, hheld⟩
  · simp only [recordUnder, hname, hheld]
    exact ⟨rfl, rfl, rfl⟩
  · simp only [recordUnder, hname, hheld]
    exact plain_recordName ..

theorem plain_visitDestination (o : ExtractOptions) (scopes : Scopes (Tree κ)) (s : Step κ) :
    Plain scopes (Tree.mentionOf o (scopes.sees s.scope) .write
      ((s.node.childOfKind? .table).bind Tree.heldName?)) []
      (visitDestination ⟨scopes, [], []⟩ s) := by
  cases ht : s.node.childOfKind? .table with
  | none => simp only [visitDestination, ht]; exact ⟨rfl, rfl, rfl⟩
  | some table =>
    rcases nameUnder_eq table .table with ⟨m, hname, hheld⟩ | ⟨name, hname, hheld⟩
    · simp only [visitDestination, ht, hname, Option.bind_some, hheld]
      exact ⟨rfl, rfl, rfl⟩
    · simp only [visitDestination, ht, hname, Option.bind_some, hheld]
      exact ⟨rfl, rfl, rfl⟩

omit [Vocabulary κ] in
theorem Plain.push {scopes : Scopes (Tree κ)} {mentions : List Mention} {w : Walk κ}
    (h : Plain scopes mentions [] w) (nodes : List (Tree κ)) (access : Access)
    (scope : ScopeId) :
    Plain scopes mentions (nodes.map (⟨·, access, scope⟩)) (w.push nodes access scope) := by
  refine ⟨h.scopes_eq, h.mentions_eq, ?_⟩
  rw [Walk.push, h.pending_eq, List.append_nil]

omit [Vocabulary κ] in
theorem of_mem_childSteps {position : Tree κ → Option Access} {scope : ScopeId}
    {children : List (Tree κ)} {st : Step κ} (h : st ∈ childSteps position scope children) :
    st.node ∈ children ∧ st.scope = scope := by
  obtain ⟨c, hc, hst⟩ := List.mem_filterMap.1 h
  obtain ⟨access, -, rfl⟩ := Option.map_eq_some_iff.1 hst
  exact ⟨hc, rfl⟩

omit [Vocabulary κ] in
theorem childSteps_some (access : Tree κ → Access) (scope : ScopeId)
    (children : List (Tree κ)) :
    childSteps (fun c => some (access c)) scope children =
      children.map fun c => ⟨c, access c, scope⟩ := by
  rw [childSteps, ← List.filterMap_eq_map]
  rfl

omit [Vocabulary κ] in
theorem childSteps_none (scope : ScopeId) (children : List (Tree κ)) :
    childSteps (fun _ => none) scope children = [] := by
  simp [childSteps]

/-- A visit outside query blocks and definitions notes what the node mentions
itself and schedules the children that have a position. -/
theorem visitAlone_plain {s : Step κ} (hb : s.node.kind.opensScope = false)
    (hd : s.node.kind ≠ .cteDef) (o : ExtractOptions) (scopes : Scopes (Tree κ)) :
    Plain scopes (s.node.ownMentions o (scopes.sees s.scope) s.access)
      (childSteps (s.node.position? s.access) s.scope s.node.children)
      (visitAlone o scopes s) := by
  have hstart : Plain scopes [] [] (Walk.mk scopes [] []) := ⟨rfl, rfl, rfl⟩
  cases hk : s.node.kind with
  | select => rw [hk] at hb; exact absurd hb Bool.noConfusion
  | query => rw [hk] at hb; exact absurd hb Bool.noConfusion
  | cteDef => exact absurd hk hd
  | root | other | subqueryAlias =>
    have hposition : s.node.position? s.access = fun _ => some s.access := by
      funext c; simp only [Tree.position?, hk]
    simp only [visitAlone, visit, hk, Tree.ownMentions, hposition, childSteps_some]
    exact hstart.push ..
  | join | union =>
    have hposition : s.node.position? s.access = fun _ => some .read := by
      funext c; simp only [Tree.position?, hk]
    simp only [visitAlone, visit, hk, Tree.ownMentions, hposition, childSteps_some]
    exact hstart.push ..
  | insert =>
    have hposition : s.node.position? s.access =
        fun c => some (if c.isWritten then .write else .read) := by
      funext c; simp only [Tree.position?, hk]
    simp only [visitAlone, visit, hk, Tree.ownMentions, hposition, childSteps_some, visitInsert]
    split
    · exact ⟨rfl, rfl, List.append_nil _⟩
    · exact ⟨rfl, rfl, List.append_nil _⟩
  | destination =>
    have hposition : s.node.position? s.access = fun _ => none := by
      funext c; simp only [Tree.position?, hk]
    simp only [visitAlone, visit, hk, Tree.ownMentions, hposition, childSteps_none]
    exact plain_visitDestination ..
  | table =>
    have hposition : s.node.position? s.access = fun _ => none := by
      funext c; simp only [Tree.position?, hk]
    simp only [visitAlone, visit, hk, Tree.ownMentions, hposition, childSteps_none]
    exact plain_recordUnder ..
  | tableName =>
    have hposition : s.node.position? s.access = fun _ => none := by
      funext c; simp only [Tree.position?, hk]
    simp only [visitAlone, visit, hk, Tree.ownMentions, hposition, childSteps_none, visitTableName]
    cases ha : s.access with
    | read => exact hstart
    | write =>
      cases s.node.qualifiedName? with
      | none => exact ⟨rfl, rfl, rfl⟩
      | some name => exact plain_recordName ..
  | tableRef =>
    have hsteps : childSteps (s.node.position? s.access) s.scope s.node.children =
        (s.node.children.filter (·.kind ≠ .tableName)).map (⟨·, .read, s.scope⟩) := by
      rw [childSteps, ← List.filterMap_eq_map, List.filterMap_filter]
      congr 1
      funext c
      by_cases hc : c.kind = .tableName <;> simp [Tree.position?, hk, hc]
    simp only [visitAlone, visit, hk, Tree.ownMentions, hsteps, visitTableRef]
    exact (plain_recordUnder ..).push ..
  | cteRef =>
    have hposition : s.node.position? s.access = fun _ => some s.access := by
      funext c; simp only [Tree.position?, hk]
    simp only [visitAlone, visit, hk, Tree.ownMentions, hposition, childSteps_some, visitResolved,
      Tree.mentionOfText]
    cases o.emitCteNames with
    | false => exact hstart.push ..
    | true =>
      simp only [if_true]
      cases s.node.text.bind QualifiedName.ofString? with
      | none => exact hstart.push ..
      | some name =>
        have hnoted : Plain scopes [⟨.read, name⟩] [] ((Walk.mk scopes [] []).note (.resolved name)) :=
          ⟨rfl, rfl, rfl⟩
        exact hnoted.push ..

omit [Vocabulary κ] in
theorem mem_pending_resume {s : Schedule κ} {st : Step κ} :
    st ∈ (resume [] s).pending ↔ st ∈ s.steps := by
  rw [resume, List.reverseAux_eq, List.append_nil, List.mem_reverse]

/-! ## Scopes in range -/

/-- All scopes of a walk exist. -/
structure InRange (w : Walk κ) : Prop where
  ordered : w.scopes.Ordered
  pending_lt : ∀ s ∈ w.pending, s.scope < w.scopes.size

omit [Vocabulary κ] in
theorem inRange_resume {scope : ScopeId} {s : Schedule κ} (h : s.InRange scope) :
    (resume [] s).InRange := by
  exact ⟨h.ordered, fun st hst => h.steps_lt st (mem_pending_resume.1 hst)⟩

omit [Vocabulary κ] in
theorem inRange_openBlock {scopes : Scopes (Tree κ)} {events : List Event} {scope : ScopeId}
    (ho : scopes.Ordered) (hs : scope < scopes.size) :
    (Schedule.mk (scopes.openIn scope).2 events [] scope).InRange scopes.size := by
  refine ⟨ho.openIn hs, ?_, ?_, fun st hst => absurd hst List.not_mem_nil⟩
  · rw [Scopes.size_openIn]
    exact Nat.lt_succ_self _
  · rw [Scopes.size_openIn]
    exact Nat.lt_succ_of_lt hs

omit [Vocabulary κ] in
/-- The scope around an existing one exists. -/
theorem around_lt {scopes : Scopes (Tree κ)} {scope : ScopeId} (ho : scopes.Ordered)
    (hs : scope < scopes.size) : (scopes.parent? scope).getD scope < scopes.size := by
  cases hp : scopes.parent? scope with
  | none => exact hs
  | some p => exact Nat.lt_trans (ho scope p hp) hs

theorem inRange_visitAlone {o : ExtractOptions} {scopes : Scopes (Tree κ)} {s : Step κ}
    (ho : scopes.Ordered) (hs : s.scope < scopes.size) : (visitAlone o scopes s).InRange := by
  by_cases hb : s.node.kind.opensScope = true
  · rw [visitAlone_block hb]
    exact inRange_resume ((inRange_openBlock ho hs).addBlockChildren _)
  · by_cases hd : s.node.kind = .cteDef
    · have hstart : (Schedule.mk scopes [] [] ((scopes.parent? s.scope).getD s.scope)).InRange
          s.scope := ⟨ho, hs, around_lt ho hs, fun st hst => absurd hst List.not_mem_nil⟩
      rw [visitAlone_cteDef hd]
      exact inRange_resume (hstart.defineAll s.node)
    · have hplain := visitAlone_plain (Bool.eq_false_iff.2 hb) hd o scopes
      refine ⟨by rw [hplain.scopes_eq]; exact ho, fun st hst => ?_⟩
      rw [hplain.pending_eq] at hst
      rw [hplain.scopes_eq, (of_mem_childSteps hst).2]
      exact hs

/-- A visit leaves the older scopes in place, and changes no more of them than
the scope of a `cteDef` node. -/
theorem grows_visitAlone (o : ExtractOptions) (scopes : Scopes (Tree κ)) (s : Step κ) :
    Scopes.Grows (if s.node.kind = .cteDef then s.scope else scopes.size) scopes
      (visitAlone o scopes s).scopes := by
  by_cases hd : s.node.kind = .cteDef
  · rw [if_pos hd, visitAlone_cteDef hd]
    exact Schedule.grows_defineAll s.scope ⟨scopes, [], [], _⟩ s.node
  · rw [if_neg hd]
    by_cases hb : s.node.kind.opensScope = true
    · rw [visitAlone_block hb]
      exact (Scopes.Grows.openIn scopes.size scopes s.scope).trans
        (Schedule.grows_addBlockChildren scopes.size ⟨_, [], [], s.scope⟩ s.node.children)
    · rw [(visitAlone_plain (Bool.eq_false_iff.2 hb) hd o scopes).scopes_eq]
      exact .refl ..

/-- A visit of a run keeps the scopes of all pending steps existing. -/
theorem InRange.visit {o : ExtractOptions} {scopes : Scopes (Tree κ)} {events : List Event}
    {s : Step κ} {pending : List (Step κ)} (h : InRange ⟨scopes, events, s :: pending⟩) :
    InRange ((visitAlone o scopes s).onto events pending) := by
  have hs := h.pending_lt s List.mem_cons_self
  have hvisit := inRange_visitAlone (o := o) h.ordered hs
  have hgrows := grows_visitAlone o scopes s
  refine ⟨hvisit.ordered, fun st hst => ?_⟩
  rcases List.mem_append.1 hst with hst | hst
  · exact hvisit.pending_lt st hst
  · exact Nat.lt_of_lt_of_le (h.pending_lt st (List.mem_cons_of_mem _ hst)) hgrows.size_le

theorem inRange_run {o : ExtractOptions} {w : Walk κ} (h : w.InRange) : (run o w).InRange := by
  fun_induction run o w with
  | case1 scopes events => exact h
  | case2 scopes events s pending ih =>
    rw [visit_eq_onto] at ih ⊢
    exact ih h.visit

/-- A run leaves the older scopes where they were. -/
theorem extends_run (o : ExtractOptions) (w : Walk κ) :
    Scopes.Extends w.scopes (run o w).scopes := by
  fun_induction run o w with
  | case1 scopes events => exact .refl scopes
  | case2 scopes events s pending ih =>
    rw [visit_eq_onto] at ih ⊢
    exact (grows_visitAlone o scopes s).toExtends.trans ih

/-! ## The start -/

omit [Vocabulary κ] in
theorem inRange_start (t : Tree κ) : (start t).InRange := by
  refine ⟨Scopes.ordered_initial.openIn Nat.zero_lt_one, fun s hs => ?_⟩
  rw [start, List.mem_singleton] at hs
  subst hs
  exact Nat.lt_succ_self 1

omit [Vocabulary κ] in
theorem binding?_start (t : Tree κ) (i : ScopeId) (key : String) :
    (start t).scopes.binding? i key = none := by
  show (Scopes.initial.openIn Scopes.root).2.binding? i key = none
  rw [Scopes.binding?_openIn]
  cases i <;> simp [Scopes.binding?, Scopes.initial]

omit [Vocabulary κ] in
/-- Nothing is defined where a walk starts. -/
theorem sees_start (t : Tree κ) : (start t).scopes.sees 1 = Names.none := by
  have hopen : (start t).scopes.sees 1 = Scopes.sees Scopes.initial Scopes.root :=
    Scopes.sees_openIn_self Nat.zero_lt_one
  rw [hopen]
  funext key
  simp [Scopes.sees, Scopes.find?, Scopes.initial, Scopes.root, Names.none]

end Walk

namespace Schedule

variable {κ : Type}

/-- The steps that a schedule adds, in the order in which they are visited. -/
theorem reverse_steps_read (s : Schedule κ) (nodes : List (Tree κ)) (scope : ScopeId) :
    (s.read nodes scope).steps.reverse =
      s.steps.reverse ++ Walk.childSteps (fun _ => some .read) scope nodes := by
  rw [steps_read, List.reverse_append, List.reverse_reverse,
    Walk.childSteps_some (fun _ => .read)]

end Schedule
end Lineage
