import Mathlib
import Lineage.Proofs.Walk.Bindings
import Lineage.Proofs.Walk.Isolation
import Lineage.Proofs.Walk.Renaming
import Lineage.Proofs.Walk.Scoping

/-
Definitions and their own names.

A definition is bound in the scope that its `cteDef` node belongs to, and its body
starts from the scope around that one.  So the body of a definition that is not
recursive does not see the name, and neither does anything in the body.

No scope lies around the root.  A body starts one scope further out than its
definition, so a definition in a body, and in no block there, may stand in the root
itself.  It is bound where its body is walked, and a table of its name in the body
stands for the definition.
-/

namespace Lineage

namespace Scopes

variable {β : Type} {s : Scopes β} {i : ScopeId}

/-- Every scope but the root was opened in another one. -/
def Joined (s : Scopes β) : Prop := ∀ i < s.size, i ≠ root → (s.parent? i).isSome = true

theorem Joined.root_mem_chain (h : s.Joined) (ho : s.Ordered) (hi : i < s.size) :
    root ∈ s.chain i := by
  induction i using Nat.strongRecOn with
  | ind i ih =>
    by_cases hroot : i = root
    · rw [hroot] at hi ⊢
      exact self_mem_chain hi
    · obtain ⟨p, hp⟩ := Option.isSome_iff_exists.1 (h i hi hroot)
      have hlt := ho i p hp
      rw [chain_of_lt hi, hp]
      simp only [if_pos hlt]
      exact List.mem_cons_of_mem _ (ih p hlt (Nat.lt_trans hlt hi))

end Scopes

variable {κ : Type} [Vocabulary κ]

/-! ## One definition of a name -/

namespace Tree

/-- The only definition of a tree under its name, in any case of the letters, and
in no recursive list. -/
structure SoleDefinition (t d : Tree κ) (name : String) : Prop where
  defines : t.Defines d name
  unique : ∀ d' name', t.Defines d' name' → foldCase name' = foldCase name → d' = d
  plain : ∀ node, t.Below node → node.kind = .cteDef → d ∈ node.children →
    node.isRecursive = false

namespace SoleDefinition

variable {t u d : Tree κ} {name : String}

theorem alias_eq (h : t.SoleDefinition d name) : d.alias? = some name := by
  obtain ⟨_, _, _, _, ha⟩ := h.defines
  exact ha

theorem avoids (h : t.SoleDefinition d name) (hu : t.Below u) (hd : ¬ u.Binds d) :
    u.Avoids (foldCase name) := by
  intro d' name' hd' ha hname
  rw [h.unique d' name' (hd'.defines hu ha) hname] at hd'
  exact hd hd'

/-- One check for a definition to be the only one of its name. -/
theorem of_all {t d : Tree (Numbered κ)} {name : String} (ht : t.numbers.Nodup)
    (hd : t.Defines d name)
    (hall : (t.parts.all fun node => node.kind ≠ .cteDef || !node.isRecursive &&
      node.definitions.all fun d' => d'.number = d.number ||
        d'.alias?.all fun name' => foldCase name' ≠ foldCase name) = true) :
    t.SoleDefinition d name := by
  have hcheck {node : Tree (Numbered κ)} (hn : t.Below node) (hk : node.kind = .cteDef) :
      node.isRecursive = false ∧ ∀ d' ∈ node.definitions, d'.number = d.number ∨
        ∀ name', d'.alias? = some name' → foldCase name' ≠ foldCase name := by
    have hnode := List.all_eq_true.1 hall node hn.mem_parts
    simpa [hk, Option.all_eq_true] using hnode
  refine ⟨hd, fun d' name' hd' hname => ?_, fun node hn hk _ => (hcheck hn hk).1⟩
  obtain ⟨node, hn, hk, hmem, ha⟩ := hd'
  obtain ⟨node', hn', hk', hmem', -⟩ := hd
  rcases (hcheck hn hk).2 d' hmem with hnumber | hother
  · exact Below.eq_of_number ht (hn.definition hmem) (hn'.definition hmem') hnumber
  · exact absurd hname (hother name' ha)

end SoleDefinition

end Tree

/-- The visit of a step binds the definition in the root scope. -/
structure Step.BindsAtRoot (s : Step κ) (d : Tree κ) : Prop where
  kind_eq : s.node.kind = .cteDef
  mem : d ∈ s.node.definitions
  scope_eq : s.scope = Scopes.root

/-- The walk over a tree binds the definition in the root scope. -/
def Tree.BoundAtRoot (t d : Tree κ) : Prop :=
  ∃ scopes s, Walk.Visits {} (Walk.start t) scopes s ∧ s.BindsAtRoot d

/-! ## Steps clear of a definition -/

/-- A step does not read the name of the definition inside the body, and does not
meet the definition again. -/
structure Step.Clear (key : String) (d : Tree (Numbered κ)) (scopes : Scopes (Tree (Numbered κ)))
    (st : Step (Numbered κ)) : Prop where
  outside : scopes.sees st.scope key = false ∨
    st.node.numbers.Disjoint (Tree.numbersAll d.children)
  not_mem : d.number ∉ st.node.numbers

namespace Step

variable {key : String} {d : Tree (Numbered κ)} {scopes scopes' : Scopes (Tree (Numbered κ))}
  {st : Step (Numbered κ)}

omit [Vocabulary κ] in
theorem clear_of_disjoint (h : st.node.numbers.Disjoint d.numbers) : st.Clear key d scopes := by
  refine ⟨.inr fun k hk hd => h hk (d.numbersAll_children_subset hd), fun hd => ?_⟩
  exact h hd d.number_mem_numbers

omit [Vocabulary κ] in
theorem Clear.spares (h : st.Clear key d scopes) (hs : Scopes.Spares key scopes scopes')
    (hlt : st.scope < scopes.size) : st.Clear key d scopes' := by
  refine ⟨?_, h.not_mem⟩
  rw [hs.sees_eq hlt]
  exact h.outside

end Step

namespace Schedule

variable {home : ScopeId} {key : String} {d : Tree (Numbered κ)} {taken : List Nat}
  {s : Schedule (Numbered κ)}

/-- The nodes with the numbers taken were dealt with.  The name is not bound yet;
or the definition is among them, and the steps so far are clear of it. -/
structure Settled (home : ScopeId) (key : String) (d : Tree (Numbered κ)) (taken : List Nat)
    (s : Schedule (Numbered κ)) : Prop extends Apart home s where
  steps_subset : ∀ st ∈ s.steps, st.node.numbers ⊆ taken
  settled : s.scopes.Unbound key ∨ d.numbers ⊆ taken ∧ ∀ st ∈ s.steps, st.Clear key d s.scopes

namespace Settled

omit [Vocabulary κ] in
theorem mono {taken' : List Nat} (h : Settled home key d taken s) (hsub : taken ⊆ taken') :
    Settled home key d taken' s := by
  refine ⟨h.toApart, fun st hst => List.Subset.trans (h.steps_subset st hst) hsub, ?_⟩
  rcases h.settled with hunbound | ⟨hd, hclear⟩
  · exact .inl hunbound
  · exact .inr ⟨List.Subset.trans hd hsub, hclear⟩

omit [Vocabulary κ] in
theorem read (h : Settled home key d taken s) {nodes : List (Tree (Numbered κ))}
    (hnodup : (taken ++ Tree.numbersAll nodes).Nodup) {i : ScopeId} (hi : i < s.scopes.size) :
    Settled home key d (taken ++ Tree.numbersAll nodes) (s.read nodes i) := by
  have hdisjoint := List.disjoint_of_nodup_append hnodup
  refine ⟨h.toApart.read nodes hi, fun st hst => ?_, ?_⟩
  · rcases mem_steps_read hst with hst | hst
    · exact fun k hk => List.mem_append_right _ (Tree.numbers_subset_of_mem hst hk)
    · exact fun k hk => List.mem_append_left _ (h.steps_subset st hst hk)
  · rcases h.settled with hunbound | ⟨hd, hclear⟩
    · exact .inl hunbound
    · refine .inr ⟨fun k hk => List.mem_append_left _ (hd hk), fun st hst => ?_⟩
      rcases mem_steps_read hst with hst | hst
      · exact Step.clear_of_disjoint fun k hk hkd =>
          hdisjoint (hd hkd) (Tree.numbers_subset_of_mem hst hk)
      · exact hclear st hst

theorem steps_subset_define (h : Settled home key d taken s) {d' : Tree (Numbered κ)}
    (recursive : Bool) : ∀ st ∈ (s.define home recursive d').steps,
      st.node.numbers ⊆ taken ++ d'.numbers := by
  intro st hst k hk
  rcases mem_steps_define hst with hst | hst
  · exact List.mem_append_right _
      (d'.numbersAll_children_subset (Tree.numbers_subset_of_mem hst hk))
  · exact List.mem_append_left _ (h.steps_subset st hst hk)

/-- Where the definition is bound, its body is scheduled in a scope that does not
see it: the scope that it is bound in is not on the chain of that one. -/
theorem define_self (h : Settled home key d taken s) (hnodup : (taken ++ d.numbers).Nodup)
    (hunbound : s.scopes.Unbound key) :
    Settled home key d (taken ++ d.numbers) (s.define home false d) := by
  have hdisjoint := List.disjoint_of_nodup_append hnodup
  have hbody := (List.nodup_cons.1 (d.numbers_eq ▸ (List.nodup_append.1 hnodup).2.1)).1
  have hgrows := grows_define home false s d
  refine ⟨h.toApart.define false d, h.steps_subset_define false,
    .inr ⟨List.subset_append_right .., fun st hst => ?_⟩⟩
  rcases mem_steps_define_iff.1 hst with ⟨n, hn, rfl⟩ | hst
  · refine ⟨.inl ?_, fun hmem => hbody (Tree.numbers_subset_of_mem hn hmem)⟩
    show (s.define home false d).scopes.sees s.visible key = false
    rw [hgrows.sees_eq _ h.visible_lt h.not_mem]
    exact hunbound.sees_eq _
  · exact Step.clear_of_disjoint fun k hk hkd => hdisjoint (h.steps_subset st hst hk) hkd

theorem define (h : Settled home key d taken s) {d' : Tree (Numbered κ)}
    (hnodup : (taken ++ d'.numbers).Nodup) {recursive : Bool}
    (honly : ∀ name, d'.alias? = some name → foldCase name = key → d' = d ∧ recursive = false) :
    Settled home key d (taken ++ d'.numbers) (s.define home recursive d') := by
  have hdisjoint := List.disjoint_of_nodup_append hnodup
  by_cases hkey : ∃ name, d'.alias? = some name ∧ foldCase name = key
  · obtain ⟨name, ha, hname⟩ := hkey
    obtain ⟨rfl, rfl⟩ := honly name ha hname
    rcases h.settled with hunbound | ⟨hd, -⟩
    · exact h.define_self hnodup hunbound
    · have hmem := d'.number_mem_numbers
      exact absurd hmem (hdisjoint (hd hmem))
  · have hspares := spares_define (fun name ha hname => hkey ⟨name, ha, hname⟩) home recursive s
    refine ⟨h.toApart.define recursive d', h.steps_subset_define recursive, ?_⟩
    rcases h.settled with hunbound | ⟨hd, hclear⟩
    · exact .inl (hspares.unbound hunbound)
    · refine .inr ⟨fun k hk => List.mem_append_left _ (hd hk), fun st hst => ?_⟩
      rcases mem_steps_define hst with hst | hst
      · exact Step.clear_of_disjoint fun k hk hkd => hdisjoint (hd hkd)
          (d'.numbersAll_children_subset (Tree.numbers_subset_of_mem hst hk))
      · exact (hclear st hst).spares hspares (h.steps_lt st hst)

omit [Vocabulary κ] in
theorem foldl {f : Schedule (Numbered κ) → Tree (Numbered κ) → Schedule (Numbered κ)}
    (nodes : List (Tree (Numbered κ)))
    (hstep : ∀ n ∈ nodes, ∀ taken s, (taken ++ n.numbers).Nodup → Settled home key d taken s →
      Settled home key d (taken ++ n.numbers) (f s n))
    (hnodup : (taken ++ Tree.numbersAll nodes).Nodup) (h : Settled home key d taken s) :
    Settled home key d (taken ++ Tree.numbersAll nodes) (nodes.foldl f s) := by
  induction nodes generalizing taken s with
  | nil => exact h.mono (List.subset_append_left ..)
  | cons n nodes ih =>
    rw [Tree.numbersAll_cons, ← List.append_assoc] at hnodup ⊢
    have hfirst := hstep n List.mem_cons_self taken s (List.nodup_append.1 hnodup).1 h
    exact ih (fun m hm => hstep m (List.mem_cons_of_mem _ hm)) hnodup hfirst

variable {t node : Tree (Numbered κ)} {name : String}

theorem defineAll (h : Settled home (foldCase name) d taken s) (ht : t.SoleDefinition d name)
    (hn : t.Below node) (hk : node.kind = .cteDef) (hnodup : (taken ++ node.numbers).Nodup) :
    Settled home (foldCase name) d (taken ++ node.numbers) (s.defineAll home node) := by
  have honly {d' : Tree (Numbered κ)} (hd' : d' ∈ node.definitions) {name' : String}
      (ha : d'.alias? = some name') (hname : foldCase name' = foldCase name) : d' = d :=
    ht.unique d' name' ⟨node, hn, hk, hd', ha⟩ hname
  by_cases hl : node.children.any Tree.isDefinition = true
  · have hchildren : (taken ++ Tree.numbersAll node.children).Nodup :=
      hnodup.sublist ((node.numbers_eq ▸ List.sublist_cons_self ..).append_left _)
    rw [defineAll_of_listing hl]
    refine mono (foldl _ (fun c hc taken s hnodup hs => ?_) hchildren h)
      (List.append_subset.2 ⟨List.subset_append_left .., fun k hk => ?_⟩)
    · unfold defineListed
      by_cases hd : c.isDefinition = true
      · rw [if_pos hd]
        refine hs.define hnodup (fun name' ha hname => ?_)
        have hmem : c ∈ node.definitions := by
          rw [Tree.definitions, if_pos hl]
          exact List.mem_filter.2 ⟨hc, hd⟩
        obtain rfl := honly hmem ha hname
        exact ⟨rfl, ht.plain node hn hk hc⟩
      · rw [if_neg hd, ← Tree.numbersAll_singleton]
        exact hs.read (by rwa [Tree.numbersAll_singleton]) hs.visible_lt
    · exact List.mem_append_right _ (node.numbersAll_children_subset hk)
  · rw [defineAll_of_single hl]
    refine h.define hnodup (fun name' ha hname => ⟨honly ?_ ha hname, rfl⟩)
    rw [Tree.definitions, if_neg hl]
    exact List.mem_singleton_self _

theorem addBlockChildren (h : Settled home (foldCase name) d taken s) (ht : t.SoleDefinition d name)
    {children : List (Tree (Numbered κ))} (hc : ∀ c ∈ children, t.Below c)
    (hnodup : (taken ++ Tree.numbersAll children).Nodup) :
    Settled home (foldCase name) d (taken ++ Tree.numbersAll children)
      (children.foldl (addBlockChild home) s) := by
  refine foldl children (fun c hmem taken s hnodup hs => ?_) hnodup h
  unfold addBlockChild
  by_cases hk : c.kind = .cteDef
  · rw [if_pos hk]
    exact hs.defineAll ht (hc c hmem) hk hnodup
  · rw [if_neg hk, ← Tree.numbersAll_singleton]
    exact hs.read (by rwa [Tree.numbersAll_singleton]) hs.scope_lt

end Settled

end Schedule

/-! ## Walks -/

namespace Walk

variable {o : ExtractOptions} {t d : Tree (Numbered κ)} {name : String}

/-- What holds of every walk that the walk over a numbered tree comes to. -/
structure Reached (o : ExtractOptions) (t : Tree (Numbered κ)) (w : Walk (Numbered κ)) : Prop where
  inRange : w.InRange
  rooted : w.scopes.Rooted
  older : Scopes.Extends (start t).scopes w.scopes
  within : w.Within t
  nodup : (Step.numbers w.pending).Nodup
  visits : ∀ scopes s, Visits o w scopes s → Visits o (start t) scopes s

theorem reached_start (ht : t.numbers.Nodup) : Reached o t (start t) := by
  refine ⟨inRange_start t, rooted_start t, .refl _, within_start t, ?_, fun _ _ hv => hv⟩
  rw [start, Step.numbers_cons]
  exact (List.append_nil t.numbers).symm ▸ ht

section visit

variable {scopes : Scopes (Tree (Numbered κ))} {events : List Event} {s : Step (Numbered κ)}
  {pending : List (Step (Numbered κ))}

theorem Reached.visit (h : Reached o t ⟨scopes, events, s :: pending⟩) :
    Reached o t (visit o ⟨scopes, events, pending⟩ s) := by
  have hs := h.inRange.pending_lt s List.mem_cons_self
  have hrange := h.inRange.visit (o := o)
  have hrooted := (leaks_visitAlone (o := o) h.inRange.ordered h.rooted hs).1
  have hgrows := grows_visitAlone o scopes s
  have hwithin := h.within.visit (o := o)
  have hnumbers := h.nodup.sublist (numbers_visit (o := o) scopes events s pending)
  rw [visit_eq_onto] at hwithin hnumbers ⊢
  refine ⟨hrange, hrooted, h.older.trans hgrows.toExtends, hwithin, (List.nodup_cons.1 hnumbers).2,
    fun _ _ hv => h.visits _ _ (.later ?_)⟩
  rw [visit_eq_onto]
  exact hv

theorem Reached.joined {w : Walk (Numbered κ)} (h : Reached o t w) : w.scopes.Joined := by
  intro i hi hroot
  by_cases h2 : 2 ≤ i
  · exact h.rooted.parent i hi h2
  · have hone : i = 1 := by
      have hne : i ≠ 0 := hroot
      omega
    have hparent : (start t).scopes.parent? 1 = some Scopes.root :=
      Scopes.parent?_openIn_self Scopes.initial Scopes.root
    rw [hone, h.older.parent_eq 1 (Nat.lt_succ_self 1), hparent]
    rfl

/-- The name is not bound yet, or the pending steps are clear of the definition. -/
def Settled (key : String) (d : Tree (Numbered κ)) (w : Walk (Numbered κ)) : Prop :=
  w.scopes.Unbound key ∨ ∀ st ∈ w.pending, st.Clear key d w.scopes

/-- The name is not bound yet; or the definition is among the nodes with the numbers
taken, and the pending steps are clear of it. -/
def SettledBy (key : String) (d : Tree (Numbered κ)) (taken : List Nat) (w : Walk (Numbered κ)) :
    Prop :=
  w.scopes.Unbound key ∨ d.numbers ⊆ taken ∧ ∀ st ∈ w.pending, st.Clear key d w.scopes

omit [Vocabulary κ] in
theorem settledBy_resume {home : ScopeId} {key : String} {taken : List Nat}
    {sched : Schedule (Numbered κ)} (h : sched.Settled home key d taken) :
    SettledBy key d taken (resume [] sched) := by
  rcases h.settled with hunbound | ⟨hd, hclear⟩
  · exact .inl hunbound
  · exact .inr ⟨hd, fun st hst => hclear st (mem_pending_resume.1 hst)⟩

/-- The visit that binds the definition leaves its own steps clear of it, unless it
is made in the root scope. -/
theorem settledBy_visitAlone (h : Reached o t ⟨scopes, events, s :: pending⟩)
    (ht : t.SoleDefinition d name) (hunbound : scopes.Unbound (foldCase name))
    (hroot : ¬ s.BindsAtRoot d) :
    SettledBy (foldCase name) d s.node.numbers (visitAlone o scopes s) := by
  have ho := h.inRange.ordered
  have hs := h.inRange.pending_lt s List.mem_cons_self
  have hbelow := h.within.below s List.mem_cons_self
  have hnodup : s.node.numbers.Nodup := by
    have hall := h.nodup
    rw [Step.numbers_cons] at hall
    exact (List.nodup_append.1 hall).1
  by_cases hbinds : s.node.Binds d
  · by_cases hb : s.node.kind.opensScope = true
    · have hspares := (Scopes.Spares.refl (foldCase name) scopes).openIn s.scope
      have hstart : Schedule.Settled scopes.size (foldCase name) d []
          ⟨(scopes.openIn s.scope).2, [], [], s.scope⟩ :=
        ⟨⟨inRange_openBlock ho hs, Scopes.not_mem_chain_of_lt hs⟩,
          fun st hst => absurd hst List.not_mem_nil, .inl (hspares.unbound hunbound)⟩
      have hchildren : (Tree.numbersAll s.node.children).Nodup :=
        hnodup.sublist (s.node.numbers_eq ▸ List.sublist_cons_self ..)
      have hblock := hstart.addBlockChildren ht (fun c hc => hbelow.children hc) hchildren
      rw [visitAlone_block hb]
      exact settledBy_resume (hblock.mono s.node.numbersAll_children_subset)
    · obtain ⟨node, rfl | ⟨hb', -⟩, hk, hd⟩ := hbinds
      · -- The scope is not the root, so there is one around it.
        have hne : s.scope ≠ Scopes.root := fun hscope => hroot ⟨hk, hd, hscope⟩
        obtain ⟨p, hp⟩ := Option.isSome_iff_exists.1 (h.joined s.scope hs hne)
        have hlt := ho s.scope p hp
        have hstart : Schedule.Settled s.scope (foldCase name) d [] ⟨scopes, [], [], p⟩ :=
          ⟨⟨⟨ho, hs, Nat.lt_trans hlt hs, fun st hst => absurd hst List.not_mem_nil⟩,
            Scopes.not_mem_chain_of_lt hlt⟩, fun st hst => absurd hst List.not_mem_nil,
            .inl hunbound⟩
        rw [visitAlone_cteDef hk, hp]
        exact settledBy_resume (hstart.defineAll ht hbelow hk hnodup)
      · exact absurd hb' hb
  · exact .inl ((spares_visitAlone (ht.avoids hbelow hbinds)).unbound hunbound)

/-- Steps that are clear of the definition do not bind it, and have clear steps
below them. -/
theorem clear_visit (h : Reached o t ⟨scopes, events, s :: pending⟩) (ht : t.SoleDefinition d name)
    (hclear : ∀ st ∈ s :: pending, st.Clear (foldCase name) d scopes) :
    ∀ st ∈ ((visitAlone o scopes s).onto events pending).pending,
      st.Clear (foldCase name) d (visitAlone o scopes s).scopes := by
  have hs := h.inRange.pending_lt s List.mem_cons_self
  have hbelow := h.within.below s List.mem_cons_self
  have hself := hclear s List.mem_cons_self
  have havoids : s.node.Avoids (foldCase name) := ht.avoids hbelow fun hbinds =>
    hself.not_mem (hbinds.below.numbers_sublist.subset d.number_mem_numbers)
  intro st hst
  rcases List.mem_append.1 hst with hst | hst
  · have hsub : st.node.numbers ⊆ s.node.numbers := fun k hk =>
      s.node.numbersAll_children_subset
        ((numbers_visitAlone o scopes s).subset (Step.numbers_subset_of_mem hst hk))
    refine ⟨?_, fun hd => hself.not_mem (hsub hd)⟩
    rcases hself.outside with hsees | hdisjoint
    · exact .inl (sees_visitAlone havoids h.inRange.ordered hs hsees st hst)
    · exact .inr fun k hk => hdisjoint (hsub hk)
  · have hlt := h.inRange.pending_lt st (List.mem_cons_of_mem _ hst)
    exact (hclear st (List.mem_cons_of_mem _ hst)).spares (spares_visitAlone havoids) hlt

theorem settled_visit (h : Reached {} t ⟨scopes, events, s :: pending⟩)
    (ht : t.SoleDefinition d name) (hroot : ¬ t.BoundAtRoot d)
    (hw : Settled (foldCase name) d ⟨scopes, events, s :: pending⟩) :
    Settled (foldCase name) d (visit {} ⟨scopes, events, pending⟩ s) := by
  rw [visit_eq_onto]
  rcases hw with hunbound | hclear
  · have hvisit := settledBy_visitAlone h ht hunbound
      (fun hs => hroot ⟨scopes, s, h.visits _ _ (.now ..), hs⟩)
    rcases hvisit with hunbound | ⟨hd, hclear⟩
    · exact .inl hunbound
    · -- What was pending before has no node in common with the definition.
      have hnodup := h.nodup
      rw [Step.numbers_cons] at hnodup
      refine .inr fun st hst => ?_
      rcases List.mem_append.1 hst with hst | hst
      · exact hclear st hst
      · exact Step.clear_of_disjoint fun k hk hkd =>
          List.disjoint_of_nodup_append hnodup (hd hkd) (Step.numbers_subset_of_mem hst hk)
  · exact .inr (clear_visit h ht hclear)

/-- The name is bound in the root scope, or a visit is still to bind it there. -/
def BindsRoot (key : String) (d : Tree (Numbered κ)) (w : Walk (Numbered κ)) : Prop :=
  (w.scopes.binding? Scopes.root key).isSome = true ∨
    ∃ scopes s, Visits {} w scopes s ∧ s.BindsAtRoot d

theorem bindsRoot_visit (h : Reached {} t ⟨scopes, events, s :: pending⟩)
    (ht : t.SoleDefinition d name)
    (hw : BindsRoot (foldCase name) d ⟨scopes, events, s :: pending⟩) :
    BindsRoot (foldCase name) d (visit {} ⟨scopes, events, pending⟩ s) := by
  have hbinds (hbound : ((visitAlone {} scopes s).scopes.binding? Scopes.root
      (foldCase name)).isSome = true) :
      BindsRoot (foldCase name) d (visit {} ⟨scopes, events, pending⟩ s) := by
    rw [visit_eq_onto]
    exact .inl hbound
  rcases hw with hbound | ⟨scopes', s', hv', hs'⟩
  · exact hbinds (isSome_binding?_visitAlone hbound s)
  · cases hv' with
    | now =>
      have hscope := h.inRange.pending_lt s List.mem_cons_self
      apply hbinds
      rw [visitAlone_cteDef hs'.kind_eq, ← hs'.scope_eq]
      exact Schedule.isSome_binding?_defineAll hs'.mem ht.alias_eq hscope
    | later hv' => exact .inr ⟨scopes', s', hv', hs'⟩

end visit

section visits

variable {scopes : Scopes (Tree (Numbered κ))} {s : Step (Numbered κ)}

/-- In the body of a definition, its name is not seen unless the definition was
bound in the root scope. -/
theorem sees_body (ht : t.numbers.Nodup) (hd : t.SoleDefinition d name)
    (hroot : ¬ t.BoundAtRoot d) (hv : Visits {} (start t) scopes s)
    (hbody : s.node.number ∈ Tree.numbersAll d.children) :
    scopes.sees s.scope (foldCase name) = false := by
  have hstart : Settled (foldCase name) d (start t) := .inl fun i => binding?_start t i _
  obtain ⟨events, pending, hreached, hsettled⟩ := hv.keeps
    (P := fun w => Reached {} t w ∧ Settled (foldCase name) d w)
    (fun scopes events s pending h => ⟨h.1.visit, settled_visit h.1 hd hroot h.2⟩)
    ⟨reached_start ht, hstart⟩
  rcases hsettled with hunbound | hclear
  · exact hunbound.sees_eq _
  · rcases (hclear s List.mem_cons_self).outside with hsees | hdisjoint
    · exact hsees
    · exact absurd hbody (hdisjoint s.node.number_mem_numbers)

/-- A definition that is bound in the root scope is bound before its body is
visited, and from then on every scope sees it. -/
theorem sees_body_of_boundAtRoot (ht : t.numbers.Nodup) (hd : t.SoleDefinition d name)
    (hroot : t.BoundAtRoot d) (hv : Visits {} (start t) scopes s)
    (hbody : s.node.number ∈ Tree.numbersAll d.children) :
    scopes.sees s.scope (foldCase name) = true := by
  obtain ⟨events, pending, hreached, hbinds⟩ := hv.keeps
    (P := fun w => Reached {} t w ∧ BindsRoot (foldCase name) d w)
    (fun scopes events s pending h => ⟨h.1.visit, bindsRoot_visit h.1 hd h.2⟩)
    ⟨reached_start ht, .inr hroot⟩
  rcases hbinds with hbound | ⟨scopes', s', hv', hs'⟩
  · have hlt := hreached.inRange.pending_lt s List.mem_cons_self
    exact Scopes.sees_eq_true_iff.2
      ⟨Scopes.root, hreached.joined.root_mem_chain hreached.inRange.ordered hlt, hbound⟩
  · -- The visited node is not below itself, nor below one that is still to be visited.
    have hmem : s.node.number ∈ Tree.numbersAll s'.node.children :=
      (Tree.binds_of_definition hs'.kind_eq hs'.mem).below.numbersAll_subset hbody
    cases hv' with
    | now =>
      have hnumbers := hreached.nodup
      rw [Step.numbers_cons, s.node.numbers_eq, List.cons_append, List.nodup_cons] at hnumbers
      exact absurd (List.mem_append_left _ hmem) hnumbers.1
    | later hv' =>
      have hnumbers := hreached.nodup.sublist (numbers_visit (o := {}) scopes events s pending)
      have hpending := hv'.numbers_subset (s'.node.numbersAll_children_subset hmem)
      exact absurd hpending (List.nodup_cons.1 hnumbers).1

end visits

end Walk

/-! ## Where definitions stand -/

namespace Schedule

variable {home : ScopeId} {s : Schedule κ}

/-- No scope in use is the root. -/
structure Inner (s : Schedule κ) : Prop where
  root_lt : Scopes.root < s.scopes.size
  visible_ne : s.visible ≠ Scopes.root
  steps_ne : ∀ st ∈ s.steps, st.scope ≠ Scopes.root

namespace Inner

omit [Vocabulary κ] in
theorem read (h : s.Inner) (nodes : List (Tree κ)) {i : ScopeId} (hi : i ≠ Scopes.root) :
    (s.read nodes i).Inner := by
  refine ⟨h.root_lt, h.visible_ne, fun st hst => ?_⟩
  rcases mem_steps_read_iff.1 hst with ⟨n, -, rfl⟩ | hst
  · exact hi
  · exact h.steps_ne st hst

theorem define (h : s.Inner) (recursive : Bool) (d : Tree κ) :
    (s.define home recursive d).Inner := by
  have hvisible : (s.define home recursive d).visible ≠ Scopes.root := by
    cases ha : d.alias? with
    | none =>
      rw [define_of_none ha]
      exact h.visible_ne
    | some name =>
      rw [define_of_some ha]
      exact Nat.ne_of_gt h.root_lt
  refine ⟨Nat.lt_of_lt_of_le h.root_lt (grows_define home recursive s d).size_le, hvisible,
    fun st hst => ?_⟩
  rcases mem_steps_define_iff.1 hst with ⟨n, -, rfl⟩ | hst
  · cases recursive with
    | true => exact hvisible
    | false => exact h.visible_ne
  · exact h.steps_ne st hst

end Inner

end Schedule

namespace Walk

variable {o : ExtractOptions} {scopes : Scopes (Tree κ)} {s : Step κ}

/-- Only the bodies of a `cteDef` node get into the root scope from another one. -/
theorem scope_ne_visitAlone (hd : s.node.kind ≠ .cteDef) (hs : s.scope < scopes.size)
    (hne : s.scope ≠ Scopes.root) :
    ∀ st ∈ (visitAlone o scopes s).pending, st.scope ≠ Scopes.root := by
  have hroot : Scopes.root < scopes.size := Nat.lt_of_le_of_lt (Nat.zero_le _) hs
  intro st hst
  by_cases hb : s.node.kind.opensScope = true
  · have hblock : scopes.size ≠ Scopes.root := Nat.ne_of_gt hroot
    have hstart : Schedule.Inner ⟨(scopes.openIn s.scope).2, [], [], s.scope⟩ := by
      refine ⟨?_, hne, fun st hst => absurd hst List.not_mem_nil⟩
      rw [Scopes.size_openIn]
      exact Nat.lt_succ_of_lt hroot
    have hinner : (s.node.children.foldl (Schedule.addBlockChild scopes.size)
        ⟨(scopes.openIn s.scope).2, [], [], s.scope⟩).Inner :=
      Schedule.addBlockChildren_keeps (fun _ _ _ recursive d _ _ hs => hs.define recursive d)
        (fun _ _ _ c _ _ _ hs => hs.read [c] hs.visible_ne)
        (fun c _ _ _ hs => hs.read [c] hblock) hstart
    rw [visitAlone_block hb] at hst
    exact hinner.steps_ne st (mem_pending_resume.1 hst)
  · rw [(visitAlone_plain (Bool.eq_false_iff.2 hb) hd o scopes).pending_eq] at hst
    rw [(of_mem_childSteps hst).2]
    exact hne

theorem placed_root_visit {t : Tree κ} {events : List Event} {pending : List (Step κ)}
    (hp : ∀ node, t.Below node → node.kind = .cteDef → node.definitionsPlaced 2 = true)
    (hrange : InRange ⟨scopes, events, s :: pending⟩) (hbelow : t.Below s.node)
    (h : ∀ st ∈ s :: pending, st.scope = Scopes.root → st.node.definitionsPlaced 0 = true) :
    ∀ st ∈ (visit o ⟨scopes, events, pending⟩ s).pending, st.scope = Scopes.root →
      st.node.definitionsPlaced 0 = true := by
  intro st hst hscope
  rw [visit_eq_onto] at hst
  rcases List.mem_append.1 hst with hst | hst
  · by_cases hroot : s.scope = Scopes.root
    · exact placed_visitAlone (h s List.mem_cons_self hroot) st hst
    · by_cases hd : s.node.kind = .cteDef
      · rw [visitAlone_cteDef hd] at hst
        exact Schedule.placed_defineAll hd (hp s.node hbelow hd)
          (fun _ hst => absurd hst List.not_mem_nil) st (mem_pending_resume.1 hst)
      · have hs := hrange.pending_lt s List.mem_cons_self
        exact absurd hscope (scope_ne_visitAlone hd hs hroot st hst)
  · exact h st (List.mem_cons_of_mem _ hst) hscope

end Walk

namespace Tree

/-- Where no body of a definition holds another one outside the blocks of the
body, no definition is bound in the root scope. -/
theorem not_boundAtRoot {t : Tree κ}
    (hp : ∀ node, t.Below node → node.kind = .cteDef → node.definitionsPlaced 2 = true)
    (d : Tree κ) : ¬ t.BoundAtRoot d := by
  rintro ⟨scopes, s, hv, hs⟩
  have hstart : ∀ st ∈ (Walk.start t).pending, st.scope = Scopes.root →
      st.node.definitionsPlaced 0 = true := by
    intro st hst hscope
    rw [List.mem_singleton.1 hst] at hscope
    exact absurd hscope Nat.one_ne_zero
  obtain ⟨events, pending, -, -, hplaced⟩ := hv.keeps
    (P := fun w => w.InRange ∧ w.Within t ∧ ∀ st ∈ w.pending, st.scope = Scopes.root →
      st.node.definitionsPlaced 0 = true)
    (fun scopes events s pending h => by
      have hrange := h.1.visit (o := {})
      rw [← Walk.visit_eq_onto] at hrange
      exact ⟨hrange, h.2.1.visit,
        Walk.placed_root_visit hp h.1 (h.2.1.below s List.mem_cons_self) h.2.2⟩)
    ⟨Walk.inRange_start t, Walk.within_start t, hstart⟩
  exact not_cteDef_of_placed (hplaced s List.mem_cons_self hs.scope_eq) hs.kind_eq

/-! ## Tables of the name in the body -/

/-- In the body of a definition that is the only one of its name, and not
recursive, a read table of that name is a source, unless the walk binds the
definition in the root scope.  There the table stands for the definition whose body
it is in. -/
theorem ownName_mem_sources {t : Tree κ} {d : Tree (Numbered κ)} {name : String}
    (hd : t.numbered.SoleDefinition d name) {scopes : Scopes (Tree (Numbered κ))}
    {s : Step (Numbered κ)} (hv : Walk.Visits {} (Walk.start t.numbered) scopes s)
    (hbody : ∃ c ∈ d.children, c.Below s.node) {n : QualifiedName} (hreads : s.Reads n)
    (hname : foldCase n.text = foldCase name) :
    (¬ t.numbered.BoundAtRoot d →
      scopes.resolve? n.text s.scope = none ∧ n ∈ (t.lineage {}).sources) ∧
    (t.numbered.BoundAtRoot d → scopes.resolve? n.text s.scope = some d) := by
  obtain ⟨c, hc, hbelow⟩ := hbody
  have hnumber : s.node.number ∈ numbersAll d.children :=
    numbers_subset_of_mem hc (hbelow.numbers_sublist.subset s.node.number_mem_numbers)
  have hsees : scopes.sees s.scope (foldCase name) = (scopes.resolve? n.text s.scope).isSome := by
    rw [← hname]
    rfl
  constructor
  · intro hroot
    have hunseen := Walk.sees_body t.nodup_numbered hd hroot hv hnumber
    rw [hsees, Option.isSome_eq_false_iff, Option.isNone_iff_eq_none] at hunseen
    refine ⟨hunseen, ?_⟩
    rw [← lineage_numbered t]
    exact (mem_sources_iff rfl).2 ⟨scopes, s, hv, hreads, hunseen⟩
  · intro hroot
    have hseen := Walk.sees_body_of_boundAtRoot t.nodup_numbered hd hroot hv hnumber
    rw [hsees] at hseen
    obtain ⟨d', hd'⟩ := Option.isSome_iff_exists.1 hseen
    obtain ⟨given, hdefines, hgiven⟩ := Walk.defines_of_resolve? hv hd'
    rw [hd', hd.unique d' given hdefines (hgiven.trans hname)]

/-- A root above a definition `a`, which holds a block with another one `b`.  The
body of `b` reads a table of that name. -/
def heldBlock : Tree Kind :=
  .branch .root [.node .cteDef (some "a") [
    .branch .query [.node .cteDef (some "b") [readOf ["B"]], readOf ["b"]]]]

theorem ownName_mem_sources_heldBlock :
    ∃ (d : Tree (Numbered Kind)) (scopes : Scopes (Tree (Numbered Kind)))
      (s : Step (Numbered Kind)) (n : QualifiedName),
      heldBlock.numbered.SoleDefinition d "b" ∧
      Walk.Visits {} (Walk.start heldBlock.numbered) scopes s ∧
      (∃ c ∈ d.children, c.Below s.node) ∧ s.Reads n ∧ foldCase n.text = foldCase "b" ∧
      ¬ heldBlock.numbered.BoundAtRoot d ∧ n ∈ (heldBlock.lineage {}).sources := by
  let body : Tree (Numbered Kind) := (readOf ["B"]).numberFrom 4
  let d : Tree (Numbered Kind) := (node .cteDef (some "b") [readOf ["B"]]).numberFrom 3
  have hbelow : heldBlock.numbered.Below d :=
    .child List.mem_cons_self (.child List.mem_cons_self (.child List.mem_cons_self (.self _)))
  have hd : heldBlock.numbered.Defines d "b" :=
    ⟨d, hbelow, rfl, List.mem_cons_self, by cbv⟩
  have hsole : heldBlock.numbered.SoleDefinition d "b" :=
    SoleDefinition.of_all heldBlock.nodup_numbered hd (by cbv)
  have hv : ∃ scopes, Walk.Visits {} (Walk.start heldBlock.numbered) scopes
      ⟨body, .read, 0⟩ := ⟨_, .later (.later (.later (.now _ _ _ _)))⟩
  obtain ⟨scopes, hv⟩ := hv
  have hbody : ∃ c ∈ d.children, c.Below body := ⟨body, List.mem_cons_self, .self _⟩
  have hreads : Step.Reads ⟨body, .read, 0⟩ ⟨"B", by decide⟩ := ⟨rfl, .inr rfl, by cbv⟩
  have hname : foldCase "B" = foldCase "b" := by cbv
  have hplaced : (heldBlock.numbered.parts.all fun node =>
      node.kind ≠ .cteDef || node.definitionsPlaced 2) = true := by cbv
  have hroot : ¬ heldBlock.numbered.BoundAtRoot d := by
    refine not_boundAtRoot (fun node hn hk => ?_) d
    have hnode := List.all_eq_true.1 hplaced node hn.mem_parts
    simpa [hk] using hnode
  exact ⟨d, scopes, _, _, hsole, hv, hbody, hreads, hname, hroot,
    ((ownName_mem_sources hsole hv hbody hreads hname).1 hroot).2⟩

/-- A root above a definition `a`, which holds another one `b` outside every block.
The body of `b` reads a table of that name. -/
def heldDefinition : Tree Kind :=
  .branch .root [.node .cteDef (some "a") [.branch .other [.node .cteDef (some "b") [readOf ["b"]]]]]

/-- The table stands for the definition, and is no source. -/
theorem not_forall_ownName_mem_sources :
    ¬ ∀ (t : Tree Kind) (d : Tree (Numbered Kind)) (name : String)
      (scopes : Scopes (Tree (Numbered Kind))) (s : Step (Numbered Kind)) (n : QualifiedName),
      t.numbered.SoleDefinition d name → Walk.Visits {} (Walk.start t.numbered) scopes s →
      (∃ c ∈ d.children, c.Below s.node) → s.node.kind = .tableRef → s.Reads n →
      foldCase n.text = foldCase name → n ∈ (t.lineage {}).sources := by
  intro h
  let body : Tree (Numbered Kind) := (readOf ["b"]).numberFrom 4
  let d : Tree (Numbered Kind) := (node .cteDef (some "b") [readOf ["b"]]).numberFrom 3
  have hbelow : heldDefinition.numbered.Below d :=
    .child List.mem_cons_self (.child List.mem_cons_self (.child List.mem_cons_self (.self _)))
  have hd : heldDefinition.numbered.Defines d "b" :=
    ⟨d, hbelow, rfl, List.mem_cons_self, by cbv⟩
  have hsole : heldDefinition.numbered.SoleDefinition d "b" :=
    SoleDefinition.of_all heldDefinition.nodup_numbered hd (by cbv)
  have hv : ∃ scopes, Walk.Visits {} (Walk.start heldDefinition.numbered) scopes
      ⟨body, .read, 0⟩ := ⟨_, .later (.later (.later (.later (.now _ _ _ _))))⟩
  obtain ⟨scopes, hv⟩ := hv
  have hsource := h heldDefinition d "b" scopes _ ⟨"b", by decide⟩ hsole hv
    ⟨body, List.mem_cons_self, .self _⟩ rfl ⟨rfl, .inr rfl, by cbv⟩ rfl
  have hsources : (heldDefinition.lineage {}).sources = [] := by cbv
  rw [hsources] at hsource
  exact absurd hsource List.not_mem_nil

end Tree
end Lineage
