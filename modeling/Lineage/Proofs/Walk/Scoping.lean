import Lineage.Proofs.Walk.Range

/-
The walk computes what the tree mentions.

The visible names of a pending step are those that its scope sees.  They do not
change while the step is pending: definitions of a tree whose `cteDef` nodes
stand in query blocks are bound before anything is visited that sees them.
-/

namespace Lineage

namespace Step

variable {κ : Type} [Vocabulary κ]

/-- What a pending step mentions in given scopes. -/
def mentions (o : ExtractOptions) (scopes : Scopes (Tree κ)) (s : Step κ) : List Mention :=
  s.node.mentions o (scopes.sees s.scope) s.access

def mentionsAll (o : ExtractOptions) (scopes : Scopes (Tree κ)) (steps : List (Step κ)) :
    List Mention :=
  steps.flatMap (mentions o scopes)

theorem mentionsAll_append (o : ExtractOptions) (scopes : Scopes (Tree κ))
    (a b : List (Step κ)) :
    mentionsAll o scopes (a ++ b) = mentionsAll o scopes a ++ mentionsAll o scopes b :=
  List.flatMap_append ..

/-- Steps mention the same in scopes that show them the same names. -/
theorem mentionsAll_congr {o : ExtractOptions} {scopes scopes' : Scopes (Tree κ)}
    {steps : List (Step κ)} (h : ∀ s ∈ steps, scopes.sees s.scope = scopes'.sees s.scope) :
    mentionsAll o scopes steps = mentionsAll o scopes' steps := by
  induction steps with
  | nil => rfl
  | cons s steps ih =>
    have hs := h s List.mem_cons_self
    have ih := ih (fun t ht => h t (List.mem_cons_of_mem _ ht))
    simp only [mentionsAll, List.flatMap_cons] at ih ⊢
    rw [ih, mentions, mentions, hs]

theorem mentionsAll_childSteps (o : ExtractOptions) (scopes : Scopes (Tree κ))
    (position : Tree κ → Option Access) (scope : ScopeId) (children : List (Tree κ)) :
    mentionsAll o scopes (Walk.childSteps position scope children) =
      Tree.childMentions o (scopes.sees scope) position children := by
  induction children with
  | nil => rfl
  | cons c cs ih =>
    rw [Tree.childMentions, ← ih, Walk.childSteps, List.filterMap_cons]
    cases position c <;> rfl

end Step

namespace Schedule

variable {κ : Type} [Vocabulary κ]

def mentions (o : ExtractOptions) (scopes : Scopes (Tree κ)) (s : Schedule κ) : List Mention :=
  Step.mentionsAll o scopes s.steps.reverse

theorem mentions_read (o : ExtractOptions) (scopes : Scopes (Tree κ)) (s : Schedule κ)
    (nodes : List (Tree κ)) (scope : ScopeId) :
    (s.read nodes scope).mentions o scopes =
      s.mentions o scopes ++
        Tree.childMentions o (scopes.sees scope) (fun _ => some .read) nodes := by
  rw [mentions, reverse_steps_read, Step.mentionsAll_append, ← mentions,
    Step.mentionsAll_childSteps]

/-- Between two schedules of one block, the block and the definitions to come
got to see some names more. -/
structure Binds (block : ScopeId) (s s' : Schedule κ) (names : List String) : Prop where
  grows : Scopes.Grows block s.scopes s'.scopes
  block_sees : s'.scopes.sees block = (s.scopes.sees block).bindAll names
  visible_sees : s'.scopes.sees s'.visible = (s.scopes.sees s.visible).bindAll names

/-- What must hold of a schedule for its block to be bound. -/
structure Apart (block : ScopeId) (s : Schedule κ) : Prop extends InRange block s where
  not_mem : block ∉ s.scopes.chain s.visible

omit [Vocabulary κ] in
theorem Binds.trans {block : ScopeId} {s s' s'' : Schedule κ} {a b : List String}
    (h : Binds block s s' a) (h' : Binds block s' s'' b) : Binds block s s'' (a ++ b) := by
  refine ⟨h.grows.trans h'.grows, ?_, ?_⟩
  · rw [h'.block_sees, h.block_sees, Names.bindAll_append]
  · rw [h'.visible_sees, h.visible_sees, Names.bindAll_append]

omit [Vocabulary κ] in
theorem Apart.read {block : ScopeId} {s : Schedule κ} (h : Apart block s)
    (nodes : List (Tree κ)) {i : ScopeId} (hi : i < s.scopes.size) :
    Apart block (s.read nodes i) :=
  ⟨h.toInRange.read nodes hi, h.not_mem⟩

section define

variable {block : ScopeId} {s : Schedule κ}

theorem Apart.define (h : Apart block s) (recursive : Bool) (d : Tree κ) :
    Apart block (s.define block recursive d) := by
  refine ⟨h.toInRange.define recursive d, ?_⟩
  cases ha : d.alias? with
  | none => rw [define_of_none ha]; exact h.not_mem
  | some name =>
    rw [define_of_some ha, scopes_read, visible_read,
      Scopes.chain_introduce_self h.visible_lt, List.mem_cons, not_or]
    exact ⟨Nat.ne_of_lt h.scope_lt, h.not_mem⟩

theorem binds_define (h : Apart block s) (recursive : Bool) (d : Tree κ) :
    Binds block s (s.define block recursive d) d.alias?.toList := by
  refine ⟨grows_define .., ?_, ?_⟩
  · rw [Names.bindAll_toList]
    cases ha : d.alias? with
    | none => rw [define_of_none ha]; rfl
    | some name =>
      rw [define_of_some ha, scopes_read, Scopes.sees_introduce_block h.scope_lt]
      rfl
  · rw [Names.bindAll_toList]
    cases ha : d.alias? with
    | none => rw [define_of_none ha]; rfl
    | some name =>
      rw [define_of_some ha, scopes_read, visible_read,
        Scopes.sees_introduce_self h.visible_lt h.not_mem]
      rfl

/-- The body of a definition is scheduled where it sees what was defined so far,
and itself in a recursive list. -/
theorem mentions_define {o : ExtractOptions} {recursive : Bool} {d : Tree κ}
    {t : Scopes (Tree κ)} (h : Apart block s)
    (ht : Scopes.Grows block (s.define block recursive d).scopes t) :
    (s.define block recursive d).mentions o t =
      s.mentions o t ++ d.bodyMentions o (if recursive then
        (s.scopes.sees s.visible).bind? d.alias? else s.scopes.sees s.visible) := by
  have hnew := h.define recursive d
  have hbinds := binds_define h recursive d
  have hafter := ht.sees_eq _ hnew.visible_lt hnew.not_mem
  have hbefore := (hbinds.grows.trans ht).sees_eq _ h.visible_lt h.not_mem
  rw [hbinds.visible_sees, Names.bindAll_toList] at hafter
  cases ha : d.alias? with
  | none =>
    rw [define_of_none ha, mentions_read, Tree.bodyMentions_eq, hbefore]
    show _ = s.mentions o t ++ _
    cases recursive <;> rfl
  | some name =>
    rw [define_of_some ha] at hafter ⊢
    rw [ha] at hafter
    rw [mentions_read, Tree.bodyMentions_eq]
    show s.mentions o t ++ _ = _
    cases recursive with
    | true =>
      rw [if_pos rfl, if_pos rfl]
      exact congrArg (fun v => s.mentions o t ++
        Tree.childMentions o v (fun _ => some .read) d.children) hafter
    | false => rw [if_neg Bool.false_ne_true, if_neg Bool.false_ne_true, hbefore]

end define

omit [Vocabulary κ] in
theorem binds_read {block : ScopeId} (s : Schedule κ) (nodes : List (Tree κ)) (i : ScopeId) :
    Binds block s (s.read nodes i) [] :=
  ⟨.refl .., rfl, rfl⟩

/-- Of a list, each definition sees those before it. -/
theorem binds_foldl_defineListed {o : ExtractOptions} {block : ScopeId} {recursive : Bool}
    {children : List (Tree κ)} {s : Schedule κ} (h : Apart block s) :
    Apart block (children.foldl (defineListed block recursive) s) ∧
    Binds block s (children.foldl (defineListed block recursive) s)
      (Tree.listedNames children) ∧
    ∀ t, Scopes.Grows block (children.foldl (defineListed block recursive) s).scopes t →
      (children.foldl (defineListed block recursive) s).mentions o t =
        s.mentions o t ++
          Tree.listMentions o recursive (s.scopes.sees s.visible) children := by
  induction children generalizing s with
  | nil => exact ⟨h, binds_read s [] block, fun t _ => (List.append_nil _).symm⟩
  | cons c cs ih =>
    by_cases hd : c.isDefinition = true
    · have hstep : defineListed block recursive s c = s.define block recursive c := if_pos hd
      have hbinds := binds_define h recursive c
      obtain ⟨hapart, hrest, hmentions⟩ := ih (h.define recursive c)
      rw [List.foldl_cons, hstep]
      refine ⟨hapart, ?_, fun t ht => ?_⟩
      · rw [Tree.listedNames_cons_of_definition hd]
        exact hbinds.trans hrest
      · rw [hmentions t ht, mentions_define h (hrest.grows.trans ht), hbinds.visible_sees,
          Names.bindAll_toList, Tree.listMentions, if_pos hd, List.append_assoc]
    · have hstep : defineListed block recursive s c = s.read [c] s.visible := if_neg hd
      obtain ⟨hapart, hrest, hmentions⟩ := ih (h.read [c] h.visible_lt)
      rw [List.foldl_cons, hstep]
      refine ⟨hapart, ?_, fun t ht => ?_⟩
      · rw [Tree.listedNames_cons_of_not hd]
        exact (binds_read s [c] s.visible).trans hrest
      · have hsees := (hrest.grows.trans ht).sees_eq _ h.visible_lt h.not_mem
        rw [hmentions t ht, mentions_read, hsees, Tree.listMentions, if_neg hd, scopes_read,
          visible_read, Tree.childMentions, Tree.childMentions, List.append_nil,
          List.append_assoc]
        rfl

theorem binds_defineAll {o : ExtractOptions} {block : ScopeId} {node : Tree κ}
    {s : Schedule κ} (hk : node.kind = .cteDef) (h : Apart block s) :
    Apart block (s.defineAll block node) ∧
    Binds block s (s.defineAll block node) node.definedNames ∧
    ∀ t, Scopes.Grows block (s.defineAll block node).scopes t →
      (s.defineAll block node).mentions o t =
        s.mentions o t ++ node.mentions o (s.scopes.sees s.visible) .read := by
  rw [Tree.mentions_cteDef hk]
  by_cases hl : node.children.any Tree.isDefinition = true
  · rw [defineAll_of_listing hl, if_pos hl, Tree.definedNames_of_listing hl]
    exact binds_foldl_defineListed h
  · rw [defineAll_of_single hl, if_neg hl, Tree.definedNames_of_single hl]
    refine ⟨h.define false node, binds_define h false node, fun t ht => ?_⟩
    rw [mentions_define h ht, if_neg Bool.false_ne_true]

/-- The main body of a block sees all of its definitions. -/
theorem binds_addBlockChildren (o : ExtractOptions) {block : ScopeId}
    (children : List (Tree κ)) {s : Schedule κ} (h : Apart block s) :
    Apart block (children.foldl (addBlockChild block) s) ∧
    Binds block s (children.foldl (addBlockChild block) s) (Tree.blockNames children) ∧
    ∀ t, Scopes.Grows block (children.foldl (addBlockChild block) s).scopes t →
      (children.foldl (addBlockChild block) s).mentions o t =
        s.mentions o t ++
          Tree.blockMentions o (t.sees block) (s.scopes.sees s.visible) children := by
  induction children generalizing s with
  | nil => exact ⟨h, binds_read s [] block, fun t _ => (List.append_nil _).symm⟩
  | cons c cs ih =>
    by_cases hk : c.kind = .cteDef
    · have hstep : addBlockChild block s c = s.defineAll block c := if_pos hk
      obtain ⟨hapart, hbinds, hmentions⟩ := binds_defineAll (o := o) hk h
      obtain ⟨hapart', hrest, hmentions'⟩ := ih hapart
      rw [List.foldl_cons, hstep]
      refine ⟨hapart', ?_, fun t ht => ?_⟩
      · rw [Tree.blockNames_cons_of_cteDef hk]
        exact hbinds.trans hrest
      · rw [hmentions' t ht, hmentions t (hrest.grows.trans ht), hbinds.visible_sees,
          Tree.blockMentions, if_pos hk, List.append_assoc]
    · have hstep : addBlockChild block s c = s.read [c] block := if_neg hk
      obtain ⟨hapart, hrest, hmentions⟩ := ih (h.read [c] h.scope_lt)
      rw [List.foldl_cons, hstep]
      refine ⟨hapart, ?_, fun t ht => ?_⟩
      · rw [Tree.blockNames_cons_of_ne hk]
        exact (binds_read s [c] block).trans hrest
      · rw [hmentions t ht, mentions_read, Tree.blockMentions, if_neg hk, Tree.childMentions,
          Tree.childMentions, List.append_nil, List.append_assoc]
        rfl

end Schedule
end Lineage
