import Lineage.Proofs.Walk.Mentions
import Lineage.Proofs.Walk.Sequence

/-
What is scheduled for the children of a block.

Each definition is bound in the scope of its block, and once more in a scope of
its own at the end of the chain that the next definition starts from.  Scopes
that are older than the block keep what they see.
-/

namespace Lineage

namespace Schedule

variable {κ : Type}

@[simp] theorem scopes_read (s : Schedule κ) (nodes : List (Tree κ)) (scope : ScopeId) :
    (s.read nodes scope).scopes = s.scopes := rfl

@[simp] theorem visible_read (s : Schedule κ) (nodes : List (Tree κ)) (scope : ScopeId) :
    (s.read nodes scope).visible = s.visible := rfl

@[simp] theorem events_read (s : Schedule κ) (nodes : List (Tree κ)) (scope : ScopeId) :
    (s.read nodes scope).events = s.events := rfl

variable [Vocabulary κ]

theorem define_of_none {d : Tree κ} (h : d.alias? = none) (scope : ScopeId) (recursive : Bool)
    (s : Schedule κ) :
    s.define scope recursive d =
      read ⟨s.scopes, .malformed (.emptyName d.kind) :: s.events, s.steps, s.visible⟩
        d.children s.visible := by
  simp only [define, h]

theorem define_of_some {d : Tree κ} {name : String} (h : d.alias? = some name)
    (scope : ScopeId) (recursive : Bool) (s : Schedule κ) :
    s.define scope recursive d =
      read ⟨s.scopes.introduce name d scope s.visible, s.events, s.steps,
        s.scopes.size⟩ d.children (if recursive then s.scopes.size else s.visible) := by
  have hsize : (s.scopes.define name d scope).size = s.scopes.size := Scopes.size_define ..
  simp only [define, h, Scopes.openIn_fst, Scopes.introduce, hsize]

/-- The child of a listing node, as one step of the fold over the list. -/
def defineListed (scope : ScopeId) (recursive : Bool) (s : Schedule κ) (child : Tree κ) :
    Schedule κ :=
  if child.isDefinition then s.define scope recursive child else s.read [child] s.visible

theorem defineAll_of_listing {node : Tree κ} (h : node.children.any Tree.isDefinition = true)
    (scope : ScopeId) (s : Schedule κ) :
    s.defineAll scope node = node.children.foldl (defineListed scope node.isRecursive) s := by
  rw [defineAll, if_pos h]
  rfl

theorem defineAll_of_single {node : Tree κ} (h : ¬ node.children.any Tree.isDefinition = true)
    (scope : ScopeId) (s : Schedule κ) :
    s.defineAll scope node = s.define scope false node := by
  rw [defineAll, if_neg h]

omit [Vocabulary κ] in
/-- A property that every scheduled child keeps holds after all of them. -/
theorem foldl_keeps {P : Schedule κ → Prop} {f : Schedule κ → Tree κ → Schedule κ}
    (nodes : List (Tree κ)) (h : ∀ t ∈ nodes, ∀ s, P s → P (f s t)) {s : Schedule κ}
    (hs : P s) : P (nodes.foldl f s) := by
  induction nodes generalizing s with
  | nil => exact hs
  | cons n nodes ih =>
    exact ih (fun t ht => h t (List.mem_cons_of_mem _ ht)) (h n List.mem_cons_self s hs)

/-- A property holds after a `cteDef` node if its definitions and its other
children keep it. -/
theorem defineAll_keeps {P : Schedule κ → Prop} {scope : ScopeId} {node : Tree κ}
    (hdefine : ∀ recursive, ∀ d ∈ node.definitions, ∀ s, P s → P (s.define scope recursive d))
    (hread : ∀ c ∈ node.children, ¬ c.isDefinition = true → ∀ s, P s → P (s.read [c] s.visible))
    {s : Schedule κ} (hs : P s) : P (s.defineAll scope node) := by
  by_cases hl : node.children.any Tree.isDefinition = true
  · rw [defineAll_of_listing hl]
    refine foldl_keeps _ (fun c hc s hs => ?_) hs
    unfold defineListed
    by_cases hd : c.isDefinition = true
    · rw [if_pos hd]
      refine hdefine _ c ?_ s hs
      rw [Tree.definitions, if_pos hl]
      exact List.mem_filter.2 ⟨hc, hd⟩
    · rw [if_neg hd]
      exact hread c hc hd s hs
  · rw [defineAll_of_single hl]
    refine hdefine _ node ?_ s hs
    rw [Tree.definitions, if_neg hl]
    exact List.mem_singleton_self _

/-- A property holds after the children of a block if the definitions of its
`cteDef` nodes and the other children keep it. -/
theorem addBlockChildren_keeps {P : Schedule κ → Prop} {block : ScopeId}
    {children : List (Tree κ)}
    (hdefine : ∀ node ∈ children, node.kind = .cteDef → ∀ recursive, ∀ d ∈ node.definitions,
      ∀ s, P s → P (s.define block recursive d))
    (hlist : ∀ node ∈ children, node.kind = .cteDef → ∀ c ∈ node.children,
      ¬ c.isDefinition = true → ∀ s, P s → P (s.read [c] s.visible))
    (hread : ∀ c ∈ children, c.kind ≠ .cteDef → ∀ s, P s → P (s.read [c] block))
    {s : Schedule κ} (hs : P s) : P (children.foldl (addBlockChild block) s) := by
  refine foldl_keeps _ (fun c hc s hs => ?_) hs
  unfold addBlockChild
  by_cases hk : c.kind = .cteDef
  · rw [if_pos hk]
    exact defineAll_keeps (hdefine c hc hk) (hlist c hc hk) hs
  · rw [if_neg hk]
    exact hread c hc hk s hs

/-! ## Scheduled nodes -/

omit [Vocabulary κ] in
theorem mem_steps_read_iff {s : Schedule κ} {nodes : List (Tree κ)} {scope : ScopeId}
    {st : Step κ} : st ∈ (s.read nodes scope).steps ↔
      (∃ n ∈ nodes, ⟨n, .read, scope⟩ = st) ∨ st ∈ s.steps := by
  rw [steps_read, List.mem_append, List.mem_reverse, List.mem_map]

omit [Vocabulary κ] in
theorem mem_steps_read {s : Schedule κ} {nodes : List (Tree κ)} {scope : ScopeId}
    {st : Step κ} (h : st ∈ (s.read nodes scope).steps) : st.node ∈ nodes ∨ st ∈ s.steps := by
  rcases mem_steps_read_iff.1 h with ⟨n, hn, rfl⟩ | h
  · exact .inl hn
  · exact .inr h

/-- The steps of a definition are those for its body, which starts from the scopes
before it, or from its own one in a recursive list. -/
theorem mem_steps_define_iff {scope : ScopeId} {recursive : Bool} {s : Schedule κ} {d : Tree κ}
    {st : Step κ} : st ∈ (s.define scope recursive d).steps ↔
      (∃ n ∈ d.children, ⟨n, .read, if recursive then (s.define scope recursive d).visible
        else s.visible⟩ = st) ∨ st ∈ s.steps := by
  cases ha : d.alias? with
  | none =>
    rw [define_of_none ha, mem_steps_read_iff]
    show _ ↔ (∃ n ∈ d.children, ⟨n, .read, if recursive then s.visible else s.visible⟩ = st) ∨ _
    rw [ite_self]
  | some name =>
    rw [define_of_some ha, mem_steps_read_iff]
    rfl

theorem mem_steps_define {scope : ScopeId} {recursive : Bool} {s : Schedule κ} {d : Tree κ}
    {st : Step κ} (h : st ∈ (s.define scope recursive d).steps) :
    st.node ∈ d.children ∨ st ∈ s.steps := by
  rcases mem_steps_define_iff.1 h with ⟨n, hn, rfl⟩ | h
  · exact .inl hn
  · exact .inr h

/-! ## Events -/

/-- A schedule notes definitions without a name, and nothing else. -/
def Quiet (s : Schedule κ) : Prop := Event.mentionsOf s.events = []

omit [Vocabulary κ] in
theorem quiet_fresh (scopes : Scopes (Tree κ)) (steps : List (Step κ)) (visible : ScopeId) :
    Quiet ⟨scopes, [], steps, visible⟩ := rfl

theorem Quiet.define {scope : ScopeId} {s : Schedule κ} (h : s.Quiet) (recursive : Bool)
    (d : Tree κ) : (s.define scope recursive d).Quiet := by
  cases ha : d.alias? with
  | none =>
    rw [define_of_none ha, Quiet, events_read]
    exact (Event.mentionsOf_append [_] s.events).trans (by rw [h]; rfl)
  | some name => rw [define_of_some ha]; exact h

theorem Quiet.defineAll {scope : ScopeId} {s : Schedule κ} (h : s.Quiet) (node : Tree κ) :
    (s.defineAll scope node).Quiet :=
  defineAll_keeps (fun recursive d _ _ hs => hs.define recursive d) (fun _ _ _ _ hs => hs) h

theorem Quiet.addBlockChildren {block : ScopeId} {s : Schedule κ} (h : s.Quiet)
    (children : List (Tree κ)) : (children.foldl (addBlockChild block) s).Quiet :=
  addBlockChildren_keeps (fun _ _ _ recursive d _ _ hs => hs.define recursive d)
    (fun _ _ _ _ _ _ _ hs => hs) (fun _ _ _ _ hs => hs) h

/-! ## Scopes in range -/

/-- All scopes of a schedule exist, and so does a given one. -/
structure InRange (scope : ScopeId) (s : Schedule κ) : Prop where
  ordered : s.scopes.Ordered
  scope_lt : scope < s.scopes.size
  visible_lt : s.visible < s.scopes.size
  steps_lt : ∀ st ∈ s.steps, st.scope < s.scopes.size

namespace InRange

variable {scope : ScopeId} {s : Schedule κ}

omit [Vocabulary κ] in
theorem read (h : s.InRange scope) (nodes : List (Tree κ)) {i : ScopeId}
    (hi : i < s.scopes.size) : (s.read nodes i).InRange scope := by
  refine ⟨h.ordered, h.scope_lt, h.visible_lt, fun st hst => ?_⟩
  rcases mem_steps_read_iff.1 hst with ⟨n, -, rfl⟩ | hst
  · exact hi
  · exact h.steps_lt st hst

theorem define (h : s.InRange scope) (recursive : Bool) (d : Tree κ) :
    (s.define scope recursive d).InRange scope := by
  cases ha : d.alias? with
  | none =>
    have hnoted : (Schedule.mk s.scopes (.malformed (.emptyName d.kind) :: s.events) s.steps
        s.visible).InRange scope := ⟨h.ordered, h.scope_lt, h.visible_lt, h.steps_lt⟩
    rw [define_of_none ha]
    exact hnoted.read d.children h.visible_lt
  | some name =>
    have hself : s.scopes.size < (s.scopes.introduce name d scope s.visible).size :=
      Scopes.self_lt_size_introduce
    have hlt {i : ScopeId} (hi : i < s.scopes.size) :
        i < (s.scopes.introduce name d scope s.visible).size :=
      Scopes.lt_size_introduce hi
    have hbound : (Schedule.mk (s.scopes.introduce name d scope s.visible) s.events s.steps
        s.scopes.size).InRange scope :=
      ⟨h.ordered.introduce h.visible_lt, hlt h.scope_lt, hself,
        fun st hst => hlt (h.steps_lt st hst)⟩
    rw [define_of_some ha]
    refine hbound.read d.children ?_
    split
    · exact hself
    · exact hlt h.visible_lt

theorem defineAll (h : s.InRange scope) (node : Tree κ) : (s.defineAll scope node).InRange scope :=
  defineAll_keeps (fun recursive d _ _ hs => hs.define recursive d)
    (fun c _ _ _ hs => hs.read [c] hs.visible_lt) h

theorem addBlockChildren (h : s.InRange scope) (children : List (Tree κ)) :
    (children.foldl (addBlockChild scope) s).InRange scope :=
  addBlockChildren_keeps (fun _ _ _ recursive d _ _ hs => hs.define recursive d)
    (fun _ _ _ c _ _ _ hs => hs.read [c] hs.visible_lt)
    (fun c _ _ _ hs => hs.read [c] hs.scope_lt) h

end InRange

/-! ## Scopes that grow -/

theorem grows_define (scope : ScopeId) (recursive : Bool) (s : Schedule κ) (d : Tree κ) :
    Scopes.Grows scope s.scopes (s.define scope recursive d).scopes := by
  cases ha : d.alias? with
  | none => rw [define_of_none ha]; exact .refl ..
  | some name =>
    rw [define_of_some ha]
    exact Scopes.grows_introduce

theorem grows_defineAll (scope : ScopeId) (s : Schedule κ) (node : Tree κ) :
    Scopes.Grows scope s.scopes (s.defineAll scope node).scopes :=
  defineAll_keeps (P := fun s' => Scopes.Grows scope s.scopes s'.scopes)
    (fun recursive d _ s' hs => hs.trans (grows_define scope recursive s' d))
    (fun _ _ _ _ hs => hs) (.refl ..)

theorem grows_addBlockChildren (block : ScopeId) (s : Schedule κ) (children : List (Tree κ)) :
    Scopes.Grows block s.scopes (children.foldl (addBlockChild block) s).scopes :=
  addBlockChildren_keeps (P := fun s' => Scopes.Grows block s.scopes s'.scopes)
    (fun _ _ _ recursive d _ s' hs => hs.trans (grows_define block recursive s' d))
    (fun _ _ _ _ _ _ _ hs => hs) (fun _ _ _ _ hs => hs) (.refl ..)

end Schedule
end Lineage
