import Mathlib
import Lineage.Proofs.Preorder
import Lineage.Proofs.Walk.Capture

/-
Trees whose nodes can be told apart.

Two nodes of a tree may hold the same.  To speak of one of them, the nodes are
numbered in preorder, and the number of a node becomes a part of its label.  A
walk does not look at it.

A visit schedules parts of the visited node, and none of them twice.  So a walk
visits a node of a numbered tree at most once, and what a visit leaves out below
its node is never visited.
-/

namespace Lineage

/-- A label of a numbered node. -/
structure Numbered (κ : Type) where
  label : κ
  number : Nat

instance {κ : Type} [Vocabulary κ] : Vocabulary (Numbered κ) := ⟨fun l => Vocabulary.kind l.label⟩

namespace Tree

variable {κ : Type}

mutual

/-- Number the nodes of a tree in preorder, from `n` on. -/
def numberFrom (n : Nat) : Tree κ → Tree (Numbered κ)
  | node label text children => node ⟨label, n⟩ text (numberAllFrom (n + 1) children)

def numberAllFrom (n : Nat) : List (Tree κ) → List (Tree (Numbered κ))
  | [] => []
  | t :: ts => t.numberFrom n :: numberAllFrom (n + t.size) ts

end

def numbered (t : Tree κ) : Tree (Numbered κ) := t.numberFrom 0

def number (t : Tree (Numbered κ)) : Nat := t.label.number

def numbers (t : Tree (Numbered κ)) : List Nat := t.parts.map number

def numbersAll (ts : List (Tree (Numbered κ))) : List Nat := (partsAll ts).map number

theorem numbers_eq (t : Tree (Numbered κ)) : t.numbers = t.number :: numbersAll t.children := by
  rw [numbers, parts_eq, List.map_cons, numbersAll]

theorem numbersAll_cons (t : Tree (Numbered κ)) (ts : List (Tree (Numbered κ))) :
    numbersAll (t :: ts) = t.numbers ++ numbersAll ts := by
  rw [numbersAll, partsAll, List.map_append, numbers, numbersAll]

theorem numbersAll_append (ts us : List (Tree (Numbered κ))) :
    numbersAll (ts ++ us) = numbersAll ts ++ numbersAll us := by
  rw [numbersAll, partsAll_append, List.map_append, numbersAll, numbersAll]

theorem numbersAll_singleton (t : Tree (Numbered κ)) : numbersAll [t] = t.numbers := by
  rw [numbersAll_cons]
  exact List.append_nil _

theorem number_mem_numbers (t : Tree (Numbered κ)) : t.number ∈ t.numbers := by
  rw [numbers_eq]
  exact List.mem_cons_self

mutual

theorem numbers_numberFrom (n : Nat) : ∀ t : Tree κ, (t.numberFrom n).numbers = List.range' n t.size
  | node label text children => by
    have hchildren := numbersAll_numberAllFrom (n + 1) children
    rw [numbers_eq, size_eq, List.range'_succ]
    exact congrArg (n :: ·) hchildren

theorem numbersAll_numberAllFrom (n : Nat) :
    ∀ ts : List (Tree κ), numbersAll (numberAllFrom n ts) = List.range' n (sizeList ts)
  | [] => rfl
  | t :: ts => by
    have ht := numbers_numberFrom n t
    have hts := numbersAll_numberAllFrom (n + t.size) ts
    rw [numberAllFrom, numbersAll_cons, ht, hts, sizeList_cons, List.range'_append_1]

end

/-- No number is given twice. -/
theorem nodup_numbered (t : Tree κ) : t.numbered.numbers.Nodup := by
  rw [numbered, numbers_numberFrom]
  exact List.nodup_range'

/-! ## Parts of a numbered tree -/

theorem Below.mem_parts {t u : Tree κ} (h : t.Below u) : u ∈ t.parts := by
  induction h with
  | self t =>
    rw [parts_eq]
    exact List.mem_cons_self
  | @child t c u hc _ ih =>
    obtain ⟨before, behind, hchildren⟩ := List.append_of_mem hc
    rw [parts_eq, hchildren, partsAll_append, partsAll]
    exact List.mem_cons_of_mem _ (List.mem_append_right _ (List.mem_append_left _ ih))

theorem Below.numbers_sublist {t u : Tree (Numbered κ)} (h : t.Below u) :
    u.numbers.Sublist t.numbers := by
  induction h with
  | self => exact .refl _
  | @child t c u hc _ ih =>
    obtain ⟨before, behind, hchildren⟩ := List.append_of_mem hc
    rw [numbers_eq t, hchildren, numbersAll_append, numbersAll_cons]
    apply List.Sublist.cons
    apply (ih.trans (List.sublist_append_left ..)).trans
    exact List.sublist_append_right ..

theorem numbers_subset_of_mem {t : Tree (Numbered κ)} {ts : List (Tree (Numbered κ))}
    (h : t ∈ ts) : t.numbers ⊆ numbersAll ts := by
  obtain ⟨before, behind, rfl⟩ := List.append_of_mem h
  rw [numbersAll_append, numbersAll_cons]
  exact fun k hk => List.mem_append_right _ (List.mem_append_left _ hk)

theorem numbersAll_children_subset (t : Tree (Numbered κ)) : numbersAll t.children ⊆ t.numbers := by
  rw [numbers_eq]
  exact List.subset_cons_self ..

theorem Below.numbersAll_subset {t u : Tree (Numbered κ)} (h : t.Below u) :
    numbersAll u.children ⊆ numbersAll t.children := by
  cases h with
  | self => exact List.Subset.refl _
  | child hc h =>
    exact fun k hk => numbers_subset_of_mem hc
      (h.numbers_sublist.subset (u.numbersAll_children_subset hk))

section

variable {t a b : Tree (Numbered κ)}

/-- A number belongs to one node. -/
theorem Below.eq_of_number (ht : t.numbers.Nodup) (ha : t.Below a) (hb : t.Below b)
    (h : a.number = b.number) : a = b :=
  List.inj_on_of_nodup_map ht ha.mem_parts hb.mem_parts h

def childNumbers (t : Tree (Numbered κ)) : List Nat := t.children.map number

mutual

/-- The nodes of a tree are its root and the children of its nodes. -/
theorem perm_numbers : ∀ t : Tree (Numbered κ),
    t.numbers.Perm (t.number :: t.parts.flatMap childNumbers)
  | node label text children => by
    have hchildren := perm_numbersAll children
    rw [numbers_eq, parts_eq, List.flatMap_cons]
    exact hchildren.cons _

theorem perm_numbersAll : ∀ ts : List (Tree (Numbered κ)),
    (numbersAll ts).Perm (ts.map number ++ (partsAll ts).flatMap childNumbers)
  | [] => .nil
  | t :: ts => by
    have happend := (perm_numbers t).append (perm_numbersAll ts)
    rw [numbersAll_cons, partsAll, List.flatMap_append, List.map_cons, List.cons_append]
    apply happend.trans
    rw [List.cons_append]
    exact (List.perm_append_comm_assoc ..).cons _

end

/-- So a node has one parent. -/
theorem Below.parent_eq (ht : t.numbers.Nodup) (ha : t.Below a) (hb : t.Below b)
    {c d : Tree (Numbered κ)} (hc : c ∈ a.children) (hd : d ∈ b.children)
    (h : c.number = d.number) : a = b := by
  have hparents : (t.parts.flatMap childNumbers).Nodup :=
    (List.nodup_cons.1 ((perm_numbers t).nodup_iff.1 ht)).2
  have hdisjoint := (List.nodup_flatMap.1 hparents).2
  have hsymm : Std.Symm (Function.onFun List.Disjoint (@childNumbers κ)) :=
    ⟨fun _ _ h => h.symm⟩
  by_contra hne
  apply hdisjoint.forall ha.mem_parts hb.mem_parts hne (List.mem_map_of_mem hc)
  rw [h]
  exact List.mem_map_of_mem hd

end

end Tree

/-! ## What a visit schedules -/

variable {κ : Type}

namespace Step

def numbers (steps : List (Step (Numbered κ))) : List Nat := Tree.numbersAll (steps.map (·.node))

theorem numbers_cons (s : Step (Numbered κ)) (steps : List (Step (Numbered κ))) :
    numbers (s :: steps) = s.node.numbers ++ numbers steps := Tree.numbersAll_cons ..

theorem numbers_append (a b : List (Step (Numbered κ))) :
    numbers (a ++ b) = numbers a ++ numbers b := by
  rw [numbers, List.map_append, Tree.numbersAll_append, numbers, numbers]

theorem numbers_subset_of_mem {s : Step (Numbered κ)} {steps : List (Step (Numbered κ))}
    (h : s ∈ steps) : s.node.numbers ⊆ numbers steps :=
  Tree.numbers_subset_of_mem (List.mem_map_of_mem h)

theorem numbers_childSteps (position : Tree (Numbered κ) → Option Access) (scope : ScopeId)
    (children : List (Tree (Numbered κ))) :
    (numbers (Walk.childSteps position scope children)).Sublist (Tree.numbersAll children) := by
  induction children with
  | nil => exact .refl _
  | cons c cs ih =>
    rw [Walk.childSteps, List.filterMap_cons, Tree.numbersAll_cons]
    cases position c with
    | none => exact ih.trans (List.sublist_append_right ..)
    | some access =>
      show (numbers (⟨c, access, scope⟩ :: Walk.childSteps position scope cs)).Sublist _
      rw [numbers_cons]
      exact ih.append_left _

end Step

namespace Schedule

variable {s : Schedule (Numbered κ)}

def numbers (s : Schedule (Numbered κ)) : List Nat := Step.numbers s.steps.reverse

theorem numbers_read (nodes : List (Tree (Numbered κ))) (scope : ScopeId) :
    (s.read nodes scope).numbers = s.numbers ++ Tree.numbersAll nodes := by
  have hnodes : (nodes.map fun n => Step.mk n .read scope).map (·.node) = nodes := by
    rw [List.map_map]
    exact List.map_id nodes
  rw [numbers, steps_read, List.reverse_append, List.reverse_reverse, Step.numbers_append, numbers,
    Step.numbers, Step.numbers, hnodes]

theorem numbers_foldl {f : Schedule (Numbered κ) → Tree (Numbered κ) → Schedule (Numbered κ)}
    (h : ∀ s t, (f s t).numbers.Sublist (s.numbers ++ t.numbers))
    (nodes : List (Tree (Numbered κ))) (s : Schedule (Numbered κ)) :
    (nodes.foldl f s).numbers.Sublist (s.numbers ++ Tree.numbersAll nodes) := by
  induction nodes generalizing s with
  | nil => exact List.sublist_append_left ..
  | cons n nodes ih =>
    rw [List.foldl_cons, Tree.numbersAll_cons, ← List.append_assoc]
    exact (ih (f s n)).trans ((h s n).append_right _)

variable [Vocabulary κ]

theorem numbers_define (scope : ScopeId) (recursive : Bool) (d : Tree (Numbered κ)) :
    (s.define scope recursive d).numbers = s.numbers ++ Tree.numbersAll d.children := by
  cases ha : d.alias? with
  | none =>
    rw [define_of_none ha, numbers_read]
    rfl
  | some name =>
    rw [define_of_some ha, numbers_read]
    rfl

theorem numbers_defineAll (scope : ScopeId) (node : Tree (Numbered κ)) :
    (s.defineAll scope node).numbers.Sublist (s.numbers ++ Tree.numbersAll node.children) := by
  by_cases hl : node.children.any Tree.isDefinition = true
  · rw [defineAll_of_listing hl]
    apply numbers_foldl
    intro s c
    unfold defineListed
    by_cases hd : c.isDefinition = true
    · rw [if_pos hd, numbers_define, c.numbers_eq]
      exact (List.sublist_cons_self ..).append_left _
    · rw [if_neg hd, numbers_read, Tree.numbersAll_singleton]
  · rw [defineAll_of_single hl, numbers_define]

theorem numbers_addBlockChild (block : ScopeId) (c : Tree (Numbered κ)) :
    (s.addBlockChild block c).numbers.Sublist (s.numbers ++ c.numbers) := by
  unfold addBlockChild
  by_cases hk : c.kind = .cteDef
  · rw [if_pos hk, c.numbers_eq]
    exact (numbers_defineAll block c).trans ((List.sublist_cons_self ..).append_left _)
  · rw [if_neg hk, numbers_read, Tree.numbersAll_singleton]

end Schedule

namespace Walk

variable [Vocabulary κ] {o : ExtractOptions}

/-- A visit schedules parts of the visited node from below it, and none of them
twice. -/
theorem numbers_visitAlone (o : ExtractOptions) (scopes : Scopes (Tree (Numbered κ)))
    (s : Step (Numbered κ)) :
    (Step.numbers (visitAlone o scopes s).pending).Sublist (Tree.numbersAll s.node.children) := by
  have hresume (sched : Schedule (Numbered κ)) :
      Step.numbers (resume [] sched).pending = sched.numbers := by
    rw [resume, List.reverseAux_eq, List.append_nil, Schedule.numbers]
  by_cases hb : s.node.kind.opensScope = true
  · rw [visitAlone_block hb, hresume]
    exact Schedule.numbers_foldl (fun _ _ => Schedule.numbers_addBlockChild ..) ..
  · by_cases hd : s.node.kind = .cteDef
    · rw [visitAlone_cteDef hd, hresume]
      exact Schedule.numbers_defineAll ..
    · rw [(visitAlone_plain (Bool.eq_false_iff.2 hb) hd o scopes).pending_eq]
      exact Step.numbers_childSteps ..

theorem numbers_visit (scopes : Scopes (Tree (Numbered κ))) (events : List Event)
    (s : Step (Numbered κ)) (pending : List (Step (Numbered κ))) :
    (s.node.number :: Step.numbers (visit o ⟨scopes, events, pending⟩ s).pending).Sublist
      (Step.numbers (s :: pending)) := by
  have hvisit := numbers_visitAlone o scopes s
  rw [visit_eq_onto, Step.numbers_cons, s.node.numbers_eq, onto, Step.numbers_append]
  exact (hvisit.append_right _).cons_cons _

/-- A visited node was pending with all of its parts. -/
theorem Visits.numbers_subset {w : Walk (Numbered κ)} {scopes : Scopes (Tree (Numbered κ))}
    {s : Step (Numbered κ)} (hv : Visits o w scopes s) :
    s.node.numbers ⊆ Step.numbers w.pending := by
  induction hv with
  | now =>
    rw [Step.numbers_cons]
    exact List.subset_append_left ..
  | later _ ih =>
    exact List.Subset.trans ih ((List.sublist_cons_self ..).trans (numbers_visit ..)).subset

/-- Of the parts of a visited node, only those are visited that its visit
schedules, apart from the node itself, which is visited once. -/
theorem Visits.eq_or_scheduled {w : Walk (Numbered κ)} (hw : (Step.numbers w.pending).Nodup)
    {scopes scopes' : Scopes (Tree (Numbered κ))} {s s' : Step (Numbered κ)}
    (hv : Visits o w scopes s) (hv' : Visits o w scopes' s')
    (hn : s'.node.number ∈ s.node.numbers) :
    (scopes' = scopes ∧ s' = s) ∨
      s'.node.number ∈ Step.numbers (visitAlone o scopes s).pending := by
  induction hv with
  | now scopes events s pending =>
    cases hv' with
    | now => exact .inl ⟨rfl, rfl⟩
    | later h =>
      -- Behind this visit, what it scheduled is pending and what was pending before.
      have hlater := h.numbers_subset s'.node.number_mem_numbers
      rw [visit_eq_onto, onto, Step.numbers_append] at hlater
      rcases List.mem_append.1 hlater with hlater | hlater
      · exact .inr hlater
      · rw [Step.numbers_cons] at hw
        exact absurd hlater ((List.disjoint_of_nodup_append hw) hn)
  | @later before _ events t _ pending h ih =>
    have hvisit := numbers_visit (o := o) before events t pending
    have hnodup := hw.sublist hvisit
    rw [List.nodup_cons] at hnodup
    cases hv' with
    -- The first visit takes its node away, so no later one has it among its parts.
    | now => exact absurd (h.numbers_subset hn) hnodup.1
    | later h' => exact ih hnodup.2 h' hn

section start

variable {t : Tree (Numbered κ)} {scopes scopes' : Scopes (Tree (Numbered κ))}
  {s s' : Step (Numbered κ)}

/-- Below a node whose visit schedules nothing, nothing is visited. -/
theorem Visits.eq_of_mem (ht : t.numbers.Nodup) (hv : Visits o (start t) scopes s)
    (hv' : Visits o (start t) scopes' s') (hn : s'.node.number ∈ s.node.numbers)
    (hnone : s'.node.number ∉ Step.numbers (visitAlone o scopes s).pending) :
    scopes' = scopes ∧ s' = s := by
  have hstart : (Step.numbers (start t).pending).Nodup := by
    rw [start, Step.numbers_cons]
    exact (List.append_nil t.numbers).symm ▸ ht
  rcases hv.eq_or_scheduled hstart hv' hn with h | h
  · exact h
  · exact absurd h hnone

/-- No node is visited twice. -/
theorem Visits.eq_of_number (ht : t.numbers.Nodup) (hv : Visits o (start t) scopes s)
    (hv' : Visits o (start t) scopes' s') (h : s'.node.number = s.node.number) :
    scopes' = scopes ∧ s' = s := by
  have hnumbers := ht.sublist ((within_start t).visits hv).2.numbers_sublist
  rw [s.node.numbers_eq, List.nodup_cons] at hnumbers
  apply hv.eq_of_mem ht hv'
  · rw [h]
    exact s.node.number_mem_numbers
  · rw [h]
    exact fun hmem => hnumbers.1 ((numbers_visitAlone o scopes s).subset hmem)

/-- A child is not visited if the visit of its parent schedules nothing. -/
theorem Visits.number_ne (ht : t.numbers.Nodup) (hv : Visits o (start t) scopes s)
    (hnone : (visitAlone o scopes s).pending = []) {c : Tree (Numbered κ)}
    (hc : c ∈ s.node.children) (hv' : Visits o (start t) scopes' s') :
    s'.node.number ≠ c.number := by
  intro h
  have hnumbers := ht.sublist ((within_start t).visits hv).2.numbers_sublist
  have hchild := Tree.numbers_subset_of_mem hc c.number_mem_numbers
  rw [s.node.numbers_eq, List.nodup_cons] at hnumbers
  have hsame : scopes' = scopes ∧ s' = s := by
    apply hv.eq_of_mem ht hv'
    · rw [h, s.node.numbers_eq]
      exact List.mem_cons_of_mem _ hchild
    · rw [hnone]
      exact List.not_mem_nil
  rw [hsame.2] at h
  rw [h] at hnumbers
  exact hnumbers.1 hchild

end start

end Walk
end Lineage
