import Lineage.Proofs.Scope.Checked
import Lineage.Proofs.Walk.Range

/-
A walk that fails where a scope is not there.

It visits as the walk does, by operations on scopes that check what they are given,
and it makes a limited number of visits.  From the start of a walk over a tree, as
many visits as the tree has nodes are enough, and no check ever fails.
-/

namespace Lineage

variable {κ : Type}

namespace Schedule

variable [Vocabulary κ]

def define? (scope : ScopeId) (recursive : Bool) :
    Schedule κ → Tree κ → Option (Schedule κ)
  | ⟨scopes, events, steps, visible⟩, definition =>
    match definition.alias? with
    | none =>
      some (read ⟨scopes, .malformed (.emptyName definition.kind) :: events, steps, visible⟩
        definition.children visible)
    | some name => do
      let defined ← scopes.define? name definition scope
      let (after, opened) ← defined.openIn? visible
      let scopes ← opened.define? name definition after
      some (read ⟨scopes, events, steps, after⟩ definition.children
        (if recursive then after else visible))

def defineAll? (scope : ScopeId) (s : Schedule κ) (node : Tree κ) : Option (Schedule κ) :=
  if node.children.any (·.isDefinition) then
    node.children.foldlM (fun s child =>
      if child.isDefinition then s.define? scope node.isRecursive child
      else some (s.read [child] s.visible)) s
  else
    s.define? scope false node

def addBlockChild? (block : ScopeId) (s : Schedule κ) (child : Tree κ) : Option (Schedule κ) :=
  if child.kind = .cteDef then s.defineAll? block child else some (s.read [child] block)

section

variable {s : Schedule κ} {scope : ScopeId}

theorem define?_eq (h : s.InRange scope) (recursive : Bool) (d : Tree κ) :
    s.define? scope recursive d = some (s.define scope recursive d) := by
  obtain ⟨scopes, events, steps, visible⟩ := s
  cases ha : d.alias? with
  | none => simp only [define?, define, ha]
  | some name =>
    have hscope : scope < scopes.size := h.scope_lt
    have hvisible : visible < (scopes.define name d scope).size := by
      rw [Scopes.size_define]
      exact h.visible_lt
    have hafter : ((scopes.define name d scope).openIn visible).1 <
        ((scopes.define name d scope).openIn visible).2.size := by
      rw [Scopes.openIn_fst, Scopes.size_openIn]
      exact Nat.lt_succ_self _
    simp only [define?, define, ha, Scopes.define?_eq name d hscope, Scopes.openIn?_eq hvisible,
      Scopes.define?_eq name d hafter, Option.bind_eq_bind, Option.bind_some]

omit [Vocabulary κ] in
/-- Checked steps that succeed where an invariant holds, and keep it, are the steps
themselves. -/
theorem foldlM_eq {P : Schedule κ → Prop} {f? : Schedule κ → Tree κ → Option (Schedule κ)}
    {f : Schedule κ → Tree κ → Schedule κ} (nodes : List (Tree κ))
    (heq : ∀ s t, P s → f? s t = some (f s t)) (hkeep : ∀ s t, P s → P (f s t)) (hs : P s) :
    nodes.foldlM f? s = some (nodes.foldl f s) := by
  induction nodes generalizing s with
  | nil => rfl
  | cons n nodes ih =>
    rw [List.foldlM_cons, heq s n hs, List.foldl_cons]
    exact ih (hkeep s n hs)

theorem InRange.defineListed (h : s.InRange scope) (recursive : Bool) (c : Tree κ) :
    (s.defineListed scope recursive c).InRange scope := by
  unfold Schedule.defineListed
  split
  · exact h.define recursive c
  · exact h.read [c] h.visible_lt

theorem InRange.addBlockChild (h : s.InRange scope) (c : Tree κ) :
    (s.addBlockChild scope c).InRange scope := h.addBlockChildren [c]

theorem defineAll?_eq (h : s.InRange scope) (node : Tree κ) :
    s.defineAll? scope node = some (s.defineAll scope node) := by
  by_cases hl : node.children.any Tree.isDefinition = true
  · rw [defineAll?, if_pos hl, defineAll_of_listing hl]
    refine foldlM_eq _ (fun s c hs => ?_) (fun s c hs => hs.defineListed _ c) h
    unfold defineListed
    split
    · exact define?_eq hs ..
    · rfl
  · rw [defineAll?, if_neg hl, defineAll_of_single hl]
    exact define?_eq h ..

theorem addBlockChildren?_eq (h : s.InRange scope) (children : List (Tree κ)) :
    children.foldlM (addBlockChild? scope) s = some (children.foldl (addBlockChild scope) s) := by
  refine foldlM_eq _ (fun s c hs => ?_) (fun s c hs => hs.addBlockChild c) h
  unfold addBlockChild? addBlockChild
  split
  · exact defineAll?_eq hs c
  · rfl

end

end Schedule

namespace Walk

def start? (root : Tree κ) : Option (Walk κ) := do
  let (scope, scopes) ← Scopes.initial.openIn? Scopes.root
  some { scopes, events := [], pending := [⟨root, .read, scope⟩] }

def recordName? (o : ExtractOptions) (w : Walk κ) (name : QualifiedName) (access : Access)
    (scope : ScopeId) : Option (Walk κ) :=
  match access with
  | .write => some (w.note (.target name))
  | .read => do
    let defined ← w.scopes.defines? name.text scope
    if defined then some (w.note (if o.emitCteNames then .emitted name else .suppressed name))
    else some (w.note (.source name))

variable [Vocabulary κ]

def recordUnder? (o : ExtractOptions) (w : Walk κ) (s : Step κ) (parent : Kind) :
    Option (Walk κ) :=
  match s.node.nameUnder parent with
  | .error m => some (w.note (.malformed m))
  | .ok name => w.recordName? o name s.access s.scope

def visitBlock? : Walk κ → Step κ → Option (Walk κ)
  | ⟨scopes, events, pending⟩, s => do
    let (block, scopes) ← scopes.openIn? s.scope
    let schedule ← s.node.children.foldlM (Schedule.addBlockChild? block)
      ⟨scopes, events, [], s.scope⟩
    some (resume pending schedule)

def visitTableName? (o : ExtractOptions) (w : Walk κ) (s : Step κ) : Option (Walk κ) :=
  match s.access with
  | .read => some w
  | .write =>
    match s.node.qualifiedName? with
    | none => some (w.note (.malformed (.emptyName .tableName)))
    | some name => w.recordName? o name s.access s.scope

def visitTableRef? (o : ExtractOptions) (w : Walk κ) (s : Step κ) : Option (Walk κ) := do
  let w ← w.recordUnder? o s .tableRef
  some (w.push (s.node.children.filter (·.kind ≠ .tableName)) .read s.scope)

def visitDefinitions? : Walk κ → Step κ → Option (Walk κ)
  | ⟨scopes, events, pending⟩, s => do
    let outer ← scopes.outer? s.scope
    let schedule ← Schedule.defineAll? s.scope ⟨scopes, events, [], outer.getD s.scope⟩ s.node
    some (resume pending schedule)

def visit? (o : ExtractOptions) (w : Walk κ) (s : Step κ) : Option (Walk κ) :=
  match s.node.kind with
  | .root | .other | .subqueryAlias => some (w.push s.node.children s.access s.scope)
  | .join | .union => some (w.push s.node.children .read s.scope)
  | .select | .query => w.visitBlock? s
  | .insert => some (w.visitInsert s)
  | .destination => some (w.visitDestination s)
  | .table => w.recordUnder? o s .table
  | .tableName => w.visitTableName? o s
  | .tableRef => w.visitTableRef? o s
  | .cteDef => w.visitDefinitions? s
  | .cteRef => some (w.visitResolved o s)

/-- Visit pending steps until none is left, with at most `limit` visits. -/
def runWithin? (o : ExtractOptions) : Nat → Walk κ → Option (Walk κ)
  | _, ⟨scopes, events, []⟩ => some ⟨scopes, events, []⟩
  | 0, ⟨_, _, _ :: _⟩ => none
  | limit + 1, ⟨scopes, events, s :: pending⟩ => do
    let w ← visit? o ⟨scopes, events, pending⟩ s
    runWithin? o limit w

variable {o : ExtractOptions}

omit [Vocabulary κ] in
theorem recordName?_eq {w : Walk κ} (hw : w.scopes.Ordered) (name : QualifiedName)
    (access : Access) {scope : ScopeId} (hs : scope < w.scopes.size) :
    w.recordName? o name access scope = some (w.recordName o name access scope) := by
  cases access with
  | write => rfl
  | read =>
    simp only [recordName?, recordName, Scopes.defines?_eq hw name.text hs,
      Option.bind_eq_bind, Option.bind_some]
    split <;> rfl

section

variable {w : Walk κ} {s : Step κ} (hw : w.scopes.Ordered) (hs : s.scope < w.scopes.size)

include hw hs

theorem recordUnder?_eq (parent : Kind) :
    w.recordUnder? o s parent = some (w.recordUnder o s parent) := by
  cases hn : s.node.nameUnder parent with
  | error m => simp only [recordUnder?, recordUnder, hn]
  | ok name =>
    simp only [recordUnder?, recordUnder, hn]
    exact recordName?_eq hw name s.access hs

theorem visitBlock?_eq : w.visitBlock? s = some (w.visitBlock s) := by
  obtain ⟨scopes, events, pending⟩ := w
  have hopen : (Schedule.mk (scopes.openIn s.scope).2 events [] s.scope).InRange scopes.size :=
    inRange_openBlock hw hs
  have hchildren := Schedule.addBlockChildren?_eq hopen s.node.children
  simp only [visitBlock?, visitBlock, Scopes.openIn?_eq hs, Option.bind_eq_bind,
    Option.bind_some, Scopes.openIn_fst, hchildren]

theorem visitDefinitions?_eq : w.visitDefinitions? s = some (w.visitDefinitions s) := by
  obtain ⟨scopes, events, pending⟩ := w
  have hstart : (Schedule.mk scopes events [] ((scopes.parent? s.scope).getD s.scope)).InRange
      s.scope := ⟨hw, hs, around_lt hw hs, fun _ hst => absurd hst List.not_mem_nil⟩
  have hdefined := Schedule.defineAll?_eq hstart s.node
  simp only [visitDefinitions?, visitDefinitions, Scopes.outer?_eq hs, Option.bind_eq_bind,
    Option.bind_some, hdefined]

omit [Vocabulary κ] in
theorem visitTableName?_eq : w.visitTableName? o s = some (w.visitTableName o s) := by
  cases ha : s.access with
  | read => simp only [visitTableName?, visitTableName, ha]
  | write =>
    cases hq : s.node.qualifiedName? with
    | none => simp only [visitTableName?, visitTableName, ha, hq]
    | some name =>
      simp only [visitTableName?, visitTableName, ha, hq]
      exact recordName?_eq hw name .write hs

/-- Where its scope exists and each scope was opened in an older one, a visit passes
every check. -/
theorem visit?_eq : w.visit? o s = some (w.visit o s) := by
  cases hk : s.node.kind with
  | select => simp only [visit?, visit, hk]; exact visitBlock?_eq hw hs
  | query => simp only [visit?, visit, hk]; exact visitBlock?_eq hw hs
  | table => simp only [visit?, visit, hk]; exact recordUnder?_eq hw hs .table
  | tableName => simp only [visit?, visit, hk]; exact visitTableName?_eq hw hs
  | tableRef =>
    simp only [visit?, visit, hk, visitTableRef?, visitTableRef, recordUnder?_eq hw hs,
      Option.bind_eq_bind, Option.bind_some]
  | cteDef => simp only [visit?, visit, hk]; exact visitDefinitions?_eq hw hs
  | _ => simp only [visit?, visit, hk]

end

/-- A run passes every check, with a visit for each pending node at most. -/
theorem runWithin?_eq {w : Walk κ} (hw : w.InRange) {limit : Nat}
    (hlimit : Step.total w.pending ≤ limit) : runWithin? o limit w = some (run o w) := by
  induction limit generalizing w with
  | zero =>
    obtain ⟨scopes, events, pending⟩ := w
    cases pending with
    | nil => rw [runWithin?, run_nil]
    | cons s pending =>
      have hpos := Tree.size_pos s.node
      rw [Step.total_cons] at hlimit
      omega
  | succ limit ih =>
    obtain ⟨scopes, events, pending⟩ := w
    cases pending with
    | nil => rw [runWithin?, run_nil]
    | cons s pending =>
      have hs := hw.pending_lt s List.mem_cons_self
      have hvisit : visit? o ⟨scopes, events, pending⟩ s =
          some (visit o ⟨scopes, events, pending⟩ s) := visit?_eq hw.ordered hs
      have hnext : (visit o ⟨scopes, events, pending⟩ s).InRange := by
        rw [visit_eq_onto]
        exact hw.visit
      have hless : Step.total (visit o ⟨scopes, events, pending⟩ s).pending <
          s.node.size + Step.total pending := total_visit_lt o ⟨scopes, events, pending⟩ s
      rw [Step.total_cons] at hlimit
      rw [runWithin?, hvisit, run]
      exact ih hnext (by omega)

end Walk
end Lineage
