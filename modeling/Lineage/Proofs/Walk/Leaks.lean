import Lineage.Proofs.Depth
import Lineage.Proofs.Walk.Range

/-
Definitions that get out of their block.

A `cteDef` node right below a query block binds in the block.  Any other one
binds in the scope that it is met in, and the bodies of its definitions start
from the scope around that one.  A body starts outside its own block, so such a
node in a body may bind in a scope that is older than the block.
-/

namespace Lineage
namespace Tree

variable {κ : Type} [Vocabulary κ]

/-- What a `cteDef` node binds outside if it is met outside. -/
def boundOutside (depth : Nat) (t : Tree κ) : List String :=
  if t.kind = .cteDef ∧ depth = 0 then t.definedNames else []

/-- How deep the parts of a node lie that is met at some depth. -/
def partDepth (depth : Nat) (t : Tree κ) : Nat := if t.kind = .cteDef then depth - 1 else depth

mutual

/-- The names that the parts of a tree bind outside, where `depth` scopes stand
between the parts and the outside. -/
def leaks (depth : Nat) (access : Access) : Tree κ → List String
  | node label text children =>
    match Vocabulary.kind label with
    | .select | .query => blockLeaks (depth + 1) depth children
    | .cteDef =>
      if children.any isDefinition then
        listLeaks (node label text children).isRecursive depth children
      else childLeaks depth (fun _ => some .read) children
    | _ => childLeaks depth (position? access (node label text children)) children

/-- The names that the children bind outside that have a position. -/
def childLeaks (depth : Nat) (position : Tree κ → Option Access) : List (Tree κ) → List String
  | [] => []
  | c :: cs =>
    (position c).elim []
      (fun access => c.boundOutside depth ++ c.leaks (c.partDepth depth) access) ++
      childLeaks depth position cs

/-- The same for the children of a query block.  Each definition adds a scope
for the bodies after it. -/
def blockLeaks (block visible : Nat) : List (Tree κ) → List String
  | [] => []
  | c :: cs =>
    if c.kind = .cteDef then
      c.leaks visible .read ++ blockLeaks block (visible + c.definedNames.length) cs
    else c.leaks block .read ++ blockLeaks block visible cs

def listLeaks (recursive : Bool) (visible : Nat) : List (Tree κ) → List String
  | [] => []
  | c :: cs =>
    if c.isDefinition then
      c.bodyLeaks (if recursive then visible + c.alias?.toList.length else visible) ++
        listLeaks recursive (visible + c.alias?.toList.length) cs
    else c.leaks visible .read ++ listLeaks recursive visible cs

def bodyLeaks (visible : Nat) : Tree κ → List String
  | node _ _ children => childLeaks visible (fun _ => some .read) children

end

theorem boundOutside_of_ne {t : Tree κ} (h : t.kind ≠ .cteDef) (depth : Nat) :
    t.boundOutside depth = [] := if_neg (fun hk => h hk.1)

theorem partDepth_of_ne {t : Tree κ} (h : t.kind ≠ .cteDef) (depth : Nat) :
    t.partDepth depth = depth := if_neg h

theorem leaks_block {t : Tree κ} (hb : t.kind.opensScope = true) (depth : Nat)
    (access : Access) : t.leaks depth access = blockLeaks (depth + 1) depth t.children := by
  obtain ⟨label, text, children⟩ := t
  have hb : (Vocabulary.kind label).opensScope = true := hb
  cases hk : Vocabulary.kind label with
  | select => simp only [leaks, hk]; rfl
  | query => simp only [leaks, hk]; rfl
  | _ => rw [hk] at hb; exact absurd hb Bool.false_ne_true

theorem leaks_cteDef {t : Tree κ} (hk : t.kind = .cteDef) (depth : Nat) (access : Access) :
    t.leaks depth access =
      if t.children.any isDefinition then listLeaks t.isRecursive depth t.children
      else t.bodyLeaks depth := by
  obtain ⟨label, text, children⟩ := t
  have hk : Vocabulary.kind label = .cteDef := hk
  simp only [leaks, hk]
  rfl

theorem leaks_plain {t : Tree κ} (hb : t.kind.opensScope = false) (hd : t.kind ≠ .cteDef)
    (depth : Nat) (access : Access) :
    t.leaks depth access = childLeaks depth (t.position? access) t.children := by
  obtain ⟨label, text, children⟩ := t
  have hb : (Vocabulary.kind label).opensScope = false := hb
  have hd : Vocabulary.kind label ≠ .cteDef := hd
  cases hk : Vocabulary.kind label with
  | cteDef => exact absurd hk hd
  | select => rw [hk] at hb; exact absurd hb Bool.noConfusion
  | query => rw [hk] at hb; exact absurd hb Bool.noConfusion
  | _ => simp only [leaks, hk]; rfl

theorem bodyLeaks_eq (depth : Nat) (t : Tree κ) :
    t.bodyLeaks depth = childLeaks depth (fun _ => some .read) t.children := by
  obtain ⟨label, text, children⟩ := t
  rfl

theorem childLeaks_single {c : Tree κ} (h : c.kind ≠ .cteDef) (depth : Nat) :
    childLeaks depth (fun _ => some .read) [c] = c.leaks depth .read := by
  rw [childLeaks, childLeaks, Option.elim_some, boundOutside_of_ne h, partDepth_of_ne h,
    List.nil_append, List.append_nil]

end Tree

namespace Step

variable {κ : Type} [Vocabulary κ]

/-- What a pending step binds outside. -/
def leaks (scopes : Scopes (Tree κ)) (s : Step κ) : List String :=
  s.node.boundOutside (scopes.depth s.scope) ++
    s.node.leaks (s.node.partDepth (scopes.depth s.scope)) s.access

def leaksAll (scopes : Scopes (Tree κ)) (steps : List (Step κ)) : List String :=
  steps.flatMap (leaks scopes)

theorem leaksAll_append (scopes : Scopes (Tree κ)) (a b : List (Step κ)) :
    leaksAll scopes (a ++ b) = leaksAll scopes a ++ leaksAll scopes b := List.flatMap_append ..

theorem leaksAll_extends {scopes scopes' : Scopes (Tree κ)} (h : Scopes.Extends scopes scopes')
    {steps : List (Step κ)} (hs : ∀ s ∈ steps, s.scope < scopes.size) :
    leaksAll scopes' steps = leaksAll scopes steps := by
  induction steps with
  | nil => rfl
  | cons s steps ih =>
    have hdepth := h.depth_eq (hs s List.mem_cons_self)
    have ih := ih (fun t ht => hs t (List.mem_cons_of_mem _ ht))
    simp only [leaksAll, List.flatMap_cons] at ih ⊢
    rw [ih, leaks, leaks, hdepth]

theorem leaksAll_childSteps (scopes : Scopes (Tree κ)) (position : Tree κ → Option Access)
    (scope : ScopeId) (children : List (Tree κ)) :
    leaksAll scopes (Walk.childSteps position scope children) =
      Tree.childLeaks (scopes.depth scope) position children := by
  induction children with
  | nil => rfl
  | cons c cs ih =>
    rw [Tree.childLeaks, ← ih, Walk.childSteps, List.filterMap_cons]
    cases position c <;> rfl

end Step

namespace Schedule

variable {κ : Type} [Vocabulary κ]

def leaks (scopes : Scopes (Tree κ)) (s : Schedule κ) : List String :=
  Step.leaksAll scopes s.steps.reverse

theorem leaks_read (scopes : Scopes (Tree κ)) (s : Schedule κ) (nodes : List (Tree κ))
    (scope : ScopeId) :
    (s.read nodes scope).leaks scopes =
      s.leaks scopes ++ Tree.childLeaks (scopes.depth scope) (fun _ => some .read) nodes := by
  rw [leaks, reverse_steps_read, Step.leaksAll_append, ← leaks, Step.leaksAll_childSteps]

/-- What must hold of a schedule for depths to count. -/
structure Grounded (block : ScopeId) (s : Schedule κ) : Prop extends InRange block s where
  rooted : s.scopes.Rooted

/-- Between two schedules of one block, some names were bound there, and the
definitions to come lie deeper by one scope a name. -/
structure Deepens (block : ScopeId) (s s' : Schedule κ) (names : List String) : Prop where
  older : Scopes.Extends s.scopes s'.scopes
  outside_eq : s'.scopes.outside =
    if block < 2 then s.scopes.outside.bindAll names else s.scopes.outside
  depth_eq : s'.scopes.depth s'.visible = s.scopes.depth s.visible + names.length

variable {block : ScopeId} {s : Schedule κ}

omit [Vocabulary κ] in
theorem Grounded.read (h : Grounded block s) (nodes : List (Tree κ)) {i : ScopeId}
    (hi : i < s.scopes.size) : Grounded block (s.read nodes i) :=
  ⟨h.toInRange.read nodes hi, h.rooted⟩

theorem Grounded.define (h : Grounded block s) (recursive : Bool) (d : Tree κ) :
    Grounded block (s.define block recursive d) := by
  refine ⟨h.toInRange.define recursive d, ?_⟩
  cases ha : d.alias? with
  | none =>
    rw [define_of_none ha]
    exact h.rooted
  | some name =>
    rw [define_of_some ha]
    exact h.rooted.introduce name d block s.visible

omit [Vocabulary κ] in
theorem deepens_read (block : ScopeId) (s : Schedule κ) (nodes : List (Tree κ)) (i : ScopeId) :
    Deepens block s (s.read nodes i) [] := by
  refine ⟨.refl _, ?_, rfl⟩
  split <;> rfl

omit [Vocabulary κ] in
theorem Deepens.trans {s' s'' : Schedule κ} {a b : List String} (h : Deepens block s s' a)
    (h' : Deepens block s' s'' b) : Deepens block s s'' (a ++ b) := by
  refine ⟨h.older.trans h'.older, ?_, ?_⟩
  · rw [h'.outside_eq, h.outside_eq]
    split
    · rw [Names.bindAll_append]
    · rfl
  · rw [h'.depth_eq, h.depth_eq, List.length_append, Nat.add_assoc]

theorem deepens_define (h : Grounded block s) (recursive : Bool) (d : Tree κ) :
    Deepens block s (s.define block recursive d) d.alias?.toList := by
  refine ⟨(grows_define ..).toExtends, ?_, ?_⟩
  · rw [Names.bindAll_toList]
    cases ha : d.alias? with
    | none =>
      rw [define_of_none ha]
      show s.scopes.outside = if block < 2 then s.scopes.outside else s.scopes.outside
      rw [ite_self]
    | some name =>
      rw [define_of_some ha, scopes_read, Scopes.outside_introduce h.rooted.two_le]
      rfl
  · cases ha : d.alias? with
    | none =>
      rw [define_of_none ha]
      rfl
    | some name =>
      rw [define_of_some ha, scopes_read, visible_read,
        Scopes.depth_introduce_self h.rooted.two_le h.visible_lt]
      rfl

/-- The body of a definition starts where the schedule stands, or below itself. -/
theorem leaks_define {recursive : Bool} {d : Tree κ} {t : Scopes (Tree κ)}
    (h : Grounded block s) (ht : Scopes.Extends (s.define block recursive d).scopes t) :
    (s.define block recursive d).leaks t =
      s.leaks t ++ d.bodyLeaks (if recursive then
        s.scopes.depth s.visible + d.alias?.toList.length else s.scopes.depth s.visible) := by
  have hnew := h.define recursive d
  have hdeepens := deepens_define h recursive d
  have hafter := ht.depth_eq hnew.visible_lt
  have hbefore := (hdeepens.older.trans ht).depth_eq h.visible_lt
  rw [hdeepens.depth_eq] at hafter
  cases ha : d.alias? with
  | none =>
    rw [define_of_none ha, leaks_read, Tree.bodyLeaks_eq, hbefore]
    show s.leaks t ++ _ = s.leaks t ++ _
    cases recursive <;> rfl
  | some name =>
    rw [define_of_some ha] at hafter ⊢
    rw [ha] at hafter
    rw [leaks_read, Tree.bodyLeaks_eq]
    show s.leaks t ++ _ = s.leaks t ++ _
    cases recursive with
    | true =>
      rw [if_pos rfl, if_pos rfl]
      exact congrArg (fun v => s.leaks t ++
        Tree.childLeaks v (fun _ => some .read) d.children) hafter
    | false => rw [if_neg Bool.false_ne_true, if_neg Bool.false_ne_true, hbefore]

/-- Of a list, each definition lies below those before it. -/
theorem leaks_foldl_defineListed {recursive : Bool} {children : List (Tree κ)}
    (h : Grounded block s) :
    Grounded block (children.foldl (defineListed block recursive) s) ∧
    Deepens block s (children.foldl (defineListed block recursive) s)
      (Tree.listedNames children) ∧
    ∀ t, Scopes.Extends (children.foldl (defineListed block recursive) s).scopes t →
      (children.foldl (defineListed block recursive) s).leaks t =
        s.leaks t ++ Tree.listLeaks recursive (s.scopes.depth s.visible) children := by
  induction children generalizing s with
  | nil => exact ⟨h, deepens_read block s [] block, fun t _ => (List.append_nil _).symm⟩
  | cons c cs ih =>
    by_cases hd : c.isDefinition = true
    · have hstep : defineListed block recursive s c = s.define block recursive c := if_pos hd
      have hdeepens := deepens_define h recursive c
      obtain ⟨hgrounded, hrest, hleaks⟩ := ih (h.define recursive c)
      rw [List.foldl_cons, hstep]
      refine ⟨hgrounded, ?_, fun t ht => ?_⟩
      · rw [Tree.listedNames_cons_of_definition hd]
        exact hdeepens.trans hrest
      · rw [hleaks t ht, leaks_define h (hrest.older.trans ht), hdeepens.depth_eq,
          Tree.listLeaks, if_pos hd, List.append_assoc]
    · have hstep : defineListed block recursive s c = s.read [c] s.visible := if_neg hd
      have hkind : c.kind ≠ .cteDef := fun hk => hd (by simp [Tree.isDefinition, hk])
      obtain ⟨hgrounded, hrest, hleaks⟩ := ih (h.read [c] h.visible_lt)
      rw [List.foldl_cons, hstep]
      refine ⟨hgrounded, ?_, fun t ht => ?_⟩
      · rw [Tree.listedNames_cons_of_not hd]
        exact (deepens_read block s [c] s.visible).trans hrest
      · have hdepth := (hrest.older.trans ht).depth_eq h.visible_lt
        rw [scopes_read] at hdepth
        rw [hleaks t ht, leaks_read, hdepth, Tree.listLeaks, if_neg hd,
          Tree.childLeaks_single hkind, scopes_read, visible_read, List.append_assoc]

theorem leaks_defineAll {node : Tree κ} (hk : node.kind = .cteDef) (h : Grounded block s) :
    Grounded block (s.defineAll block node) ∧
    Deepens block s (s.defineAll block node) node.definedNames ∧
    ∀ t, Scopes.Extends (s.defineAll block node).scopes t →
      (s.defineAll block node).leaks t =
        s.leaks t ++ node.leaks (s.scopes.depth s.visible) .read := by
  rw [Tree.leaks_cteDef hk]
  by_cases hl : node.children.any Tree.isDefinition = true
  · rw [defineAll_of_listing hl, if_pos hl, Tree.definedNames_of_listing hl]
    exact leaks_foldl_defineListed h
  · rw [defineAll_of_single hl, if_neg hl, Tree.definedNames_of_single hl]
    refine ⟨h.define false node, deepens_define h false node, fun t ht => ?_⟩
    rw [leaks_define h ht, if_neg Bool.false_ne_true]

/-- A block binds nothing outside itself; its parts may. -/
theorem leaks_addBlockChildren (children : List (Tree κ)) (h : Grounded block s) :
    Grounded block (children.foldl (addBlockChild block) s) ∧
    Deepens block s (children.foldl (addBlockChild block) s) (Tree.blockNames children) ∧
    ∀ t, Scopes.Extends (children.foldl (addBlockChild block) s).scopes t →
      (children.foldl (addBlockChild block) s).leaks t =
        s.leaks t ++
          Tree.blockLeaks (s.scopes.depth block) (s.scopes.depth s.visible) children := by
  induction children generalizing s with
  | nil => exact ⟨h, deepens_read block s [] block, fun t _ => (List.append_nil _).symm⟩
  | cons c cs ih =>
    by_cases hk : c.kind = .cteDef
    · have hstep : addBlockChild block s c = s.defineAll block c := if_pos hk
      obtain ⟨hgrounded, hdeepens, hleaks⟩ := leaks_defineAll hk h
      obtain ⟨hgrounded', hrest, hleaks'⟩ := ih hgrounded
      rw [List.foldl_cons, hstep]
      refine ⟨hgrounded', ?_, fun t ht => ?_⟩
      · rw [Tree.blockNames_cons_of_cteDef hk]
        exact hdeepens.trans hrest
      · rw [hleaks' t ht, hleaks t (hrest.older.trans ht), hdeepens.depth_eq,
          hdeepens.older.depth_eq h.scope_lt, Tree.blockLeaks, if_pos hk, List.append_assoc]
    · have hstep : addBlockChild block s c = s.read [c] block := if_neg hk
      obtain ⟨hgrounded, hrest, hleaks⟩ := ih (h.read [c] h.scope_lt)
      rw [List.foldl_cons, hstep]
      refine ⟨hgrounded, ?_, fun t ht => ?_⟩
      · rw [Tree.blockNames_cons_of_ne hk]
        exact (deepens_read block s [c] block).trans hrest
      · have hdepth := (hrest.older.trans ht).depth_eq h.scope_lt
        rw [scopes_read] at hdepth
        rw [hleaks t ht, leaks_read, hdepth, Tree.childLeaks_single hk, Tree.blockLeaks,
          if_neg hk, scopes_read, visible_read, List.append_assoc]

end Schedule

namespace Walk

variable {κ : Type} [Vocabulary κ] {o : ExtractOptions}

/-- A visit binds outside what the visited node binds there, and leaves the rest
to the parts. -/
theorem leaks_visitAlone {scopes : Scopes (Tree κ)} {s : Step κ} (ho : scopes.Ordered)
    (hr : scopes.Rooted) (hs : s.scope < scopes.size) :
    (visitAlone o scopes s).scopes.Rooted ∧
    (visitAlone o scopes s).scopes.outside =
      scopes.outside.bindAll (s.node.boundOutside (scopes.depth s.scope)) ∧
    Step.leaksAll (visitAlone o scopes s).scopes (visitAlone o scopes s).pending =
      s.node.leaks (s.node.partDepth (scopes.depth s.scope)) s.access := by
  by_cases hb : s.node.kind.opensScope = true
  · have hd : s.node.kind ≠ .cteDef := fun hd => by simp [hd, Kind.opensScope] at hb
    have hstart : Schedule.Grounded scopes.size
        (Schedule.mk (scopes.openIn s.scope).2 [] [] s.scope) :=
      ⟨inRange_openBlock ho hs, hr.openIn s.scope⟩
    obtain ⟨hgrounded, hdeepens, hleaks⟩ :=
      Schedule.leaks_addBlockChildren s.node.children hstart
    have hsteps := hleaks _ (.refl _)
    have houtside := hdeepens.outside_eq
    rw [if_neg (Nat.not_lt.2 hr.two_le)] at houtside
    rw [Scopes.depth_openIn_self hr.two_le hs,
      ((Scopes.Extends.refl scopes).openIn s.scope).depth_eq hs] at hsteps
    rw [visitAlone_block hb, Tree.boundOutside_of_ne hd, Tree.partDepth_of_ne hd,
      Tree.leaks_block hb, resume, List.reverseAux_eq, List.append_nil]
    refine ⟨hgrounded.rooted, ?_, hsteps⟩
    exact houtside.trans (Scopes.outside_openIn scopes s.scope)
  · by_cases hd : s.node.kind = .cteDef
    · have hstart : Schedule.Grounded s.scope
          (Schedule.mk scopes [] [] ((scopes.parent? s.scope).getD s.scope)) :=
        ⟨⟨ho, hs, around_lt ho hs, fun st hst => absurd hst List.not_mem_nil⟩, hr⟩
      obtain ⟨hgrounded, hdeepens, hleaks⟩ := Schedule.leaks_defineAll hd hstart
      have hsteps := hleaks _ (.refl _)
      rw [Scopes.depth_around ho hr hs] at hsteps
      have hpart : s.node.partDepth (scopes.depth s.scope) = scopes.depth s.scope - 1 := if_pos hd
      rw [visitAlone_cteDef hd, hpart, resume, List.reverseAux_eq, List.append_nil]
      refine ⟨hgrounded.rooted, ?_, ?_⟩
      · rw [hdeepens.outside_eq, Tree.boundOutside]
        by_cases h2 : s.scope < 2
        · rw [if_pos h2, if_pos ⟨hd, (Scopes.depth_eq_zero_iff hs).2 h2⟩]
        · rw [if_neg h2, if_neg (fun h => h2 ((Scopes.depth_eq_zero_iff hs).1 h.2))]
          rfl
      · rw [Tree.leaks_cteDef hd] at hsteps ⊢
        exact hsteps
    · have hplain := visitAlone_plain (Bool.eq_false_iff.2 hb) hd o scopes
      rw [hplain.scopes_eq, hplain.pending_eq, Step.leaksAll_childSteps,
        Tree.boundOutside_of_ne hd, Tree.partDepth_of_ne hd,
        Tree.leaks_plain (Bool.eq_false_iff.2 hb) hd]
      exact ⟨hr, rfl, rfl⟩

/-- A run binds outside what its pending steps bind there. -/
theorem outside_run {w : Walk κ} (hw : w.InRange) (hr : w.scopes.Rooted) :
    (run o w).scopes.outside = w.scopes.outside.bindAll (Step.leaksAll w.scopes w.pending) := by
  fun_induction run o w with
  | case1 scopes events => rfl
  | case2 scopes events s pending ih =>
    have hs := hw.pending_lt s List.mem_cons_self
    have hpending (st) (hst : st ∈ pending) : st.scope < scopes.size :=
      hw.pending_lt st (List.mem_cons_of_mem _ hst)
    obtain ⟨hrooted, houtside, hleaks⟩ := leaks_visitAlone (o := o) hw.ordered hr hs
    have holder := (grows_visitAlone o scopes s).toExtends
    rw [visit_eq_onto] at ih ⊢
    rw [ih hw.visit hrooted]
    let v := visitAlone o scopes s
    calc v.scopes.outside.bindAll (Step.leaksAll v.scopes (v.pending ++ pending))
        = (scopes.outside.bindAll (s.node.boundOutside (scopes.depth s.scope))).bindAll
            (s.node.leaks (s.node.partDepth (scopes.depth s.scope)) s.access ++
              Step.leaksAll scopes pending) := by
          rw [houtside, Step.leaksAll_append, hleaks, Step.leaksAll_extends holder hpending]
      _ = scopes.outside.bindAll (s.leaks scopes ++ Step.leaksAll scopes pending) := by
          rw [Step.leaks, List.append_assoc, ← Names.bindAll_append]
      _ = scopes.outside.bindAll (Step.leaksAll scopes (s :: pending)) := rfl

end Walk
end Lineage
