import Lineage.Proofs.Walk.Range

/-
Two walks in lockstep, one of them in scopes that were used before.

A walk that starts where another one ended finds its outermost two scopes, some
names in them, and further scopes that it never looks at.  It visits the same
nodes as a walk that starts afresh.  Only read names that are bound outside
already go missing.
-/

namespace Lineage

/-- The outermost two scopes keep their place, and the others move up. -/
def shift (k i : Nat) : Nat := if i < 2 then i else i + k

theorem shift_of_lt {k i : Nat} (h : i < 2) : shift k i = i := if_pos h

theorem shift_of_le {k i : Nat} (h : 2 ≤ i) : shift k i = i + k :=
  if_neg (Nat.not_lt.2 h)

theorem shift_lt_iff {k i j : Nat} : shift k i < shift k j ↔ i < j := by
  unfold shift
  split <;> split <;> omega

theorem shift_inj {k i j : Nat} : shift k i = shift k j ↔ i = j := by
  unfold shift
  split <;> split <;> omega

/-- `t` holds the scopes of `s` after a shift, and binds some names more. -/
structure Scopes.Shifted {β : Type} (k : Nat) (more : Names) (s t : Scopes β) : Prop where
  two_le : 2 ≤ s.size
  size_eq : t.size = s.size + k
  parent_eq : ∀ i, t.parent? (shift k i) = (s.parent? i).map (shift k)
  keeps : ∀ i key, (s.binding? i key).isSome = true → (t.binding? (shift k i) key).isSome = true
  adds : ∀ i key, (t.binding? (shift k i) key).isSome = true →
    (s.binding? i key).isSome = true ∨ more key = true

namespace Scopes.Shifted

variable {β : Type} {k : Nat} {more : Names} {s t : Scopes β}

theorem shift_size (h : Shifted k more s t) : shift k s.size = t.size := by
  rw [shift_of_le h.two_le, h.size_eq]

theorem shift_lt_size (h : Shifted k more s t) {i : ScopeId} :
    shift k i < t.size ↔ i < s.size := by
  rw [← h.shift_size, shift_lt_iff]

theorem chain_eq (h : Shifted k more s t) (i : ScopeId) :
    t.chain (shift k i) = (s.chain i).map (shift k) := by
  induction i using Nat.strongRecOn with
  | ind i ih =>
    by_cases hi : i < s.size
    · rw [chain_of_lt hi, chain_of_lt (h.shift_lt_size.2 hi), h.parent_eq]
      cases s.parent? i with
      | none => rfl
      | some p =>
        by_cases hp : p < i
        · simp only [Option.map_some, if_pos (shift_lt_iff.2 hp), if_pos hp, ih p hp,
            List.map_cons]
        · simp only [Option.map_some, if_neg (fun hlt => hp (shift_lt_iff.1 hlt)), if_neg hp,
            List.map_cons, List.map_nil]
    · rw [chain_of_not_lt hi, chain_of_not_lt (fun hlt => hi (h.shift_lt_size.1 hlt))]
      rfl

theorem sees_keeps (h : Shifted k more s t) {i : ScopeId} {key : String}
    (hs : s.sees i key = true) : t.sees (shift k i) key = true := by
  rw [sees_eq_true_iff] at hs ⊢
  obtain ⟨j, hj, hb⟩ := hs
  rw [h.chain_eq]
  exact ⟨shift k j, List.mem_map_of_mem hj, h.keeps j key hb⟩

theorem sees_adds (h : Shifted k more s t) {i : ScopeId} {key : String}
    (ht : t.sees (shift k i) key = true) : s.sees i key = true ∨ more key = true := by
  rw [sees_eq_true_iff, h.chain_eq] at ht
  obtain ⟨j, hj, hb⟩ := ht
  obtain ⟨i', hi', rfl⟩ := List.mem_map.1 hj
  rcases h.adds i' key hb with hb | hmore
  · exact .inl (sees_eq_true_iff.2 ⟨i', hi', hb⟩)
  · exact .inr hmore

theorem openIn (h : Shifted k more s t) (p : ScopeId) :
    Shifted k more (s.openIn p).2 (t.openIn (shift k p)).2 := by
  refine ⟨?_, ?_, fun i => ?_, fun i key hb => ?_, fun i key hb => ?_⟩
  · rw [size_openIn]
    exact Nat.le_succ_of_le h.two_le
  · rw [size_openIn, size_openIn, h.size_eq, Nat.add_right_comm]
  · rw [parent?_openIn, parent?_openIn, ← h.shift_size]
    by_cases hi : i = s.size
    · rw [if_pos (shift_inj.2 hi), if_pos hi]
      rfl
    · rw [if_neg (fun he => hi (shift_inj.1 he)), if_neg hi]
      exact h.parent_eq i
  · rw [binding?_openIn] at hb ⊢
    exact h.keeps i key hb
  · rw [binding?_openIn] at hb ⊢
    exact h.adds i key hb

theorem define (h : Shifted k more s t) (name : String) (body : β) (i : ScopeId) :
    Shifted k more (s.define name body i) (t.define name body (shift k i)) := by
  have hiff (j : ScopeId) (key : String) :
      (shift k i = shift k j ∧ shift k i < t.size ∧ key = foldCase name) ↔
        (i = j ∧ i < s.size ∧ key = foldCase name) := by
    rw [shift_inj, h.shift_lt_size]
  refine ⟨?_, ?_, fun j => ?_, fun j key hb => ?_, fun j key hb => ?_⟩
  · rw [size_define]
    exact h.two_le
  · rw [size_define, size_define]
    exact h.size_eq
  · rw [parent?_define, parent?_define]
    exact h.parent_eq j
  · rw [binding?_define] at hb ⊢
    by_cases hnew : i = j ∧ i < s.size ∧ key = foldCase name
    · rw [if_pos ((hiff j key).2 hnew)]
      rfl
    · rw [if_neg hnew] at hb
      rw [if_neg (fun hk => hnew ((hiff j key).1 hk))]
      exact h.keeps j key hb
  · rw [binding?_define] at hb ⊢
    by_cases hnew : i = j ∧ i < s.size ∧ key = foldCase name
    · rw [if_pos hnew]
      exact .inl rfl
    · rw [if_neg (fun hk => hnew ((hiff j key).1 hk))] at hb
      rw [if_neg hnew]
      exact h.adds j key hb

theorem introduce (h : Shifted k more s t) (name : String) (body : β) (block visible : ScopeId) :
    Shifted k more (s.introduce name body block visible)
      (t.introduce name body (shift k block) (shift k visible)) := by
  have hopen := ((h.define name body block).openIn visible).define name body s.size
  rw [h.shift_size] at hopen
  exact hopen

end Scopes.Shifted

/-! ## Mentions that go missing -/

/-- The second list lacks some of the elements of the first that have a property. -/
inductive Thins {α : Type} (p : α → Prop) : List α → List α → Prop where
  | nil : Thins p [] []
  | keep (a : α) {as bs : List α} (h : Thins p as bs) : Thins p (a :: as) (a :: bs)
  | drop {a : α} (ha : p a) {as bs : List α} (h : Thins p as bs) : Thins p (a :: as) bs

namespace Thins

variable {α : Type} {p : α → Prop}

theorem refl (as : List α) : Thins p as as := by
  induction as with
  | nil => exact .nil
  | cons a as ih => exact .keep a ih

theorem append {as bs cs ds : List α} (h : Thins p as bs) (h' : Thins p cs ds) :
    Thins p (as ++ cs) (bs ++ ds) := by
  induction h with
  | nil => exact h'
  | keep a _ ih => exact .keep a ih
  | drop ha _ ih => exact .drop ha ih

end Thins

/-- A mention that is not noted where its name is among further visible ones. -/
structure Hidden (o : ExtractOptions) (more : Names) (m : Mention) : Prop where
  emit_eq : o.emitCteNames = false
  access_eq : m.access = .read
  bound : more (foldCase m.name.text) = true

section mentions

variable {κ : Type} [Vocabulary κ] {o : ExtractOptions} {more visible visible' : Names}

omit [Vocabulary κ] in
theorem thins_mentionOf (hkeeps : ∀ key, visible key = true → visible' key = true)
    (hadds : ∀ key, visible' key = true → visible key = true ∨ more key = true)
    (access : Access) (name? : Option QualifiedName) :
    Thins (Hidden o more) (Tree.mentionOf o visible access name?)
      (Tree.mentionOf o visible' access name?) := by
  cases name? with
  | none => exact .nil
  | some name =>
    cases access with
    | write => exact .refl _
    | read =>
      simp only [Tree.mentionOf]
      by_cases hv : visible (foldCase name.text) = true
      · rw [hv, hkeeps _ hv]
        exact .refl _
      · by_cases hv' : visible' (foldCase name.text) = true
        · rw [Bool.eq_false_iff.2 hv, hv']
          cases ho : o.emitCteNames with
          | true => exact .refl _
          | false => exact .drop ⟨ho, rfl, (hadds _ hv').resolve_left hv⟩ .nil
        · rw [Bool.eq_false_iff.2 hv, Bool.eq_false_iff.2 hv']
          exact .refl _

theorem thins_ownMentions (hkeeps : ∀ key, visible key = true → visible' key = true)
    (hadds : ∀ key, visible' key = true → visible key = true ∨ more key = true)
    (access : Access) (t : Tree κ) :
    Thins (Hidden o more) (t.ownMentions o visible access) (t.ownMentions o visible' access) := by
  cases hk : t.kind with
  | destination | table | tableRef =>
    simp only [Tree.ownMentions, hk]
    exact thins_mentionOf hkeeps hadds ..
  | tableName =>
    simp only [Tree.ownMentions, hk]
    cases access with
    | read => exact .nil
    | write => exact thins_mentionOf hkeeps hadds ..
  | _ =>
    simp only [Tree.ownMentions, hk]
    exact .refl _

end mentions

/-! ## Schedules -/

variable {κ : Type}

def Step.shift (k : Nat) (s : Step κ) : Step κ := ⟨s.node, s.access, Lineage.shift k s.scope⟩

structure Schedule.Shifted (k : Nat) (more : Names) (s t : Schedule κ) : Prop where
  scopes : Scopes.Shifted k more s.scopes t.scopes
  steps_eq : t.steps = s.steps.map (Step.shift k)
  visible_eq : t.visible = shift k s.visible

namespace Schedule.Shifted

variable {k : Nat} {more : Names} {s t : Schedule κ}

theorem read (h : Shifted k more s t) (nodes : List (Tree κ)) (scope : ScopeId) :
    Shifted k more (s.read nodes scope) (t.read nodes (shift k scope)) := by
  refine ⟨h.scopes, ?_, h.visible_eq⟩
  rw [steps_read, steps_read, h.steps_eq, List.map_append, List.map_reverse, List.map_map]
  rfl

theorem foldl {f g : Schedule κ → Tree κ → Schedule κ}
    (hstep : ∀ n s t, Shifted k more s t → Shifted k more (f s n) (g t n))
    (h : Shifted k more s t) (nodes : List (Tree κ)) :
    Shifted k more (nodes.foldl f s) (nodes.foldl g t) := by
  induction nodes generalizing s t with
  | nil => exact h
  | cons n nodes ih => exact ih (hstep n s t h)

variable [Vocabulary κ]

theorem define (h : Shifted k more s t) (scope : ScopeId) (recursive : Bool) (d : Tree κ) :
    Shifted k more (s.define scope recursive d) (t.define (shift k scope) recursive d) := by
  cases ha : d.alias? with
  | none =>
    have hnoted : Shifted k more
        ⟨s.scopes, .malformed (.emptyName d.kind) :: s.events, s.steps, s.visible⟩
        ⟨t.scopes, .malformed (.emptyName d.kind) :: t.events, t.steps, t.visible⟩ :=
      ⟨h.scopes, h.steps_eq, h.visible_eq⟩
    have hread := hnoted.read d.children s.visible
    rw [← h.visible_eq] at hread
    rw [define_of_none ha, define_of_none ha]
    exact hread
  | some name =>
    have hafter : Shifted k more
        ⟨s.scopes.introduce name d scope s.visible, s.events, s.steps, s.scopes.size⟩
        ⟨t.scopes.introduce name d (shift k scope) (shift k s.visible), t.events, t.steps,
          t.scopes.size⟩ :=
      ⟨h.scopes.introduce name d scope s.visible, h.steps_eq, h.scopes.shift_size.symm⟩
    rw [define_of_some ha, define_of_some ha, h.visible_eq]
    cases recursive with
    | true =>
      have hread := hafter.read d.children s.scopes.size
      rw [h.scopes.shift_size] at hread
      exact hread
    | false => exact hafter.read d.children s.visible

theorem defineAll (h : Shifted k more s t) (scope : ScopeId) (node : Tree κ) :
    Shifted k more (s.defineAll scope node) (t.defineAll (shift k scope) node) := by
  by_cases hl : node.children.any Tree.isDefinition = true
  · rw [defineAll_of_listing hl, defineAll_of_listing hl]
    refine foldl (fun c s t h => ?_) h node.children
    unfold defineListed
    by_cases hd : c.isDefinition = true
    · rw [if_pos hd, if_pos hd]
      exact h.define scope _ c
    · rw [if_neg hd, if_neg hd, h.visible_eq]
      exact h.read [c] s.visible
  · rw [defineAll_of_single hl, defineAll_of_single hl]
    exact h.define scope false node

theorem addBlockChildren (h : Shifted k more s t) (block : ScopeId) (children : List (Tree κ)) :
    Shifted k more (children.foldl (addBlockChild block) s)
      (children.foldl (addBlockChild (shift k block)) t) := by
  refine foldl (fun c s t h => ?_) h children
  unfold addBlockChild
  by_cases hk : c.kind = .cteDef
  · rw [if_pos hk, if_pos hk]
    exact h.defineAll block c
  · rw [if_neg hk, if_neg hk]
    exact h.read [c] block

end Schedule.Shifted

/-! ## Walks -/

structure Walk.Shifted (o : ExtractOptions) (k : Nat) (more : Names) (w w' : Walk κ) : Prop where
  scopes : Scopes.Shifted k more w.scopes w'.scopes
  pending_eq : w'.pending = w.pending.map (Step.shift k)
  thins : Thins (Hidden o more) w.mentioned w'.mentioned

namespace Walk

variable [Vocabulary κ] {o : ExtractOptions} {k : Nat} {more : Names}

omit [Vocabulary κ] in
theorem shifted_resume {s t : Schedule κ} (h : s.Shifted k more t) (hs : s.Quiet) (ht : t.Quiet) :
    Shifted o k more (resume [] s) (resume [] t) := by
  refine ⟨h.scopes, ?_, ?_⟩
  · simp only [resume, List.reverseAux_eq, List.append_nil]
    rw [h.steps_eq, List.map_reverse]
  · have hs : (resume [] s).mentioned = [] := hs
    have ht : (resume [] t).mentioned = [] := ht
    rw [hs, ht]
    exact .nil

omit [Vocabulary κ] in
theorem childSteps_shift (k : Nat) (position : Tree κ → Option Access) (scope : ScopeId)
    (children : List (Tree κ)) :
    childSteps position (shift k scope) children =
      (childSteps position scope children).map (Step.shift k) := by
  rw [childSteps, childSteps, List.map_filterMap]
  congr 1
  funext c
  cases position c <;> rfl

theorem shifted_visitAlone {scopes scopes' : Scopes (Tree κ)}
    (h : Scopes.Shifted k more scopes scopes') (s : Step κ) :
    Shifted o k more (visitAlone o scopes s) (visitAlone o scopes' (s.shift k)) := by
  by_cases hb : s.node.kind.opensScope = true
  · have hstart : Schedule.Shifted k more
        ⟨(scopes.openIn s.scope).2, [], [], s.scope⟩
        ⟨(scopes'.openIn (shift k s.scope)).2, [], [], shift k s.scope⟩ :=
      ⟨h.openIn s.scope, rfl, rfl⟩
    have hblock := hstart.addBlockChildren scopes.size s.node.children
    rw [h.shift_size] at hblock
    rw [visitAlone_block hb, visitAlone_block (s := s.shift k) hb]
    exact shifted_resume hblock ((Schedule.quiet_fresh ..).addBlockChildren _)
      ((Schedule.quiet_fresh ..).addBlockChildren _)
  · by_cases hd : s.node.kind = .cteDef
    · have haround : (scopes'.parent? (shift k s.scope)).getD (shift k s.scope) =
          shift k ((scopes.parent? s.scope).getD s.scope) := by
        rw [h.parent_eq]
        cases scopes.parent? s.scope <;> rfl
      have hstart : Schedule.Shifted k more
          ⟨scopes, [], [], (scopes.parent? s.scope).getD s.scope⟩
          ⟨scopes', [], [], (scopes'.parent? (shift k s.scope)).getD (shift k s.scope)⟩ :=
        ⟨h, rfl, haround⟩
      rw [visitAlone_cteDef hd, visitAlone_cteDef (s := s.shift k) hd]
      exact shifted_resume (hstart.defineAll s.scope s.node)
        ((Schedule.quiet_fresh ..).defineAll _) ((Schedule.quiet_fresh ..).defineAll _)
    · have hplain := visitAlone_plain (Bool.eq_false_iff.2 hb) hd o scopes
      have hplain' : Plain scopes' _ _ (visitAlone o scopes' (s.shift k)) :=
        visitAlone_plain (s := s.shift k) (Bool.eq_false_iff.2 hb) hd o scopes'
      refine ⟨?_, ?_, ?_⟩
      · rw [hplain.scopes_eq, hplain'.scopes_eq]
        exact h
      · rw [hplain.pending_eq, hplain'.pending_eq]
        exact childSteps_shift ..
      · rw [hplain.mentions_eq, hplain'.mentions_eq]
        exact thins_ownMentions (fun _ => h.sees_keeps) (fun _ => h.sees_adds) s.access s.node

/-- Walks in lockstep stay in lockstep to their ends. -/
theorem shifted_run {w w' : Walk κ} (h : Shifted o k more w w') :
    Shifted o k more (run o w) (run o w') := by
  fun_induction run o w generalizing w' with
  | case1 scopes events =>
    obtain ⟨scopes', events', pending'⟩ := w'
    obtain rfl : pending' = [] := h.pending_eq
    rw [run_nil]
    exact h
  | case2 scopes events s pending ih =>
    obtain ⟨scopes', events', pending'⟩ := w'
    obtain rfl : pending' = (s :: pending).map (Step.shift k) := h.pending_eq
    have hvisit := shifted_visitAlone (o := o) h.scopes s
    rw [List.map_cons, run_cons]
    refine ih ?_
    rw [visit_eq_onto]
    refine ⟨hvisit.scopes, ?_, ?_⟩
    · show (visitAlone o scopes' (s.shift k)).pending ++ pending.map (Step.shift k) =
        ((visitAlone o scopes s).pending ++ pending).map (Step.shift k)
      rw [hvisit.pending_eq, List.map_append]
    · rw [mentioned_onto, mentioned_onto]
      exact Thins.append h.thins hvisit.thins

end Walk
end Lineage
