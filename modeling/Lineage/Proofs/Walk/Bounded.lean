import Mathlib
import Lineage.Proofs.Walk.Checked
import Lineage.Proofs.Walk.Renaming

/-
How long a walk takes, and which scopes it asks for.

A visit takes its node away from what is pending and schedules parts of it, so the
nodes that are pending become fewer, although the pending steps may become more.
What holds of every state follows from one visit: the visits so far and the nodes
still pending are no more than the nodes of the tree, and the scope of every pending
step is there.
-/

namespace Lineage
namespace Walk

variable {κ : Type} [Vocabulary κ] {o : ExtractOptions}

/-- So many visits lead from one state of a walk to the other. -/
inductive Reaches (o : ExtractOptions) : Nat → Walk κ → Walk κ → Prop where
  | stay (w : Walk κ) : Reaches o 0 w w
  | visit {n : Nat} {scopes : Scopes (Tree κ)} {events : List Event} {s : Step κ}
    {pending : List (Step κ)} {w : Walk κ}
    (h : Reaches o n (visit o ⟨scopes, events, pending⟩ s) w) :
    Reaches o (n + 1) ⟨scopes, events, s :: pending⟩ w

theorem Reaches.add_total_le {n : Nat} {w w' : Walk κ} (h : Reaches o n w w') :
    n + Step.total w'.pending ≤ Step.total w.pending := by
  induction h with
  | stay w => omega
  | @visit n scopes events s pending w _ ih =>
    have hless : Step.total (Walk.visit o ⟨scopes, events, pending⟩ s).pending <
        Step.total (s :: pending) := total_visit_lt o ⟨scopes, events, pending⟩ s
    show n + 1 + Step.total w.pending ≤ Step.total (s :: pending)
    omega

theorem Reaches.inRange {n : Nat} {w w' : Walk κ} (h : Reaches o n w w') (hw : w.InRange) :
    w'.InRange := by
  induction h with
  | stay w => exact hw
  | visit _ ih =>
    apply ih
    rw [visit_eq_onto]
    exact hw.visit

/-! ## What a walk schedules -/

/-- The steps that are scheduled at some time: those pending already, and those that
the visits of the walk schedule. -/
def scheduled (o : ExtractOptions) (w : Walk κ) : List (Step κ) :=
  w.pending ++ (visits o w).flatMap fun v => (visitAlone o v.1 v.2).pending

theorem scheduled_cons (scopes : Scopes (Tree κ)) (events : List Event) (s : Step κ)
    (pending : List (Step κ)) :
    (scheduled o ⟨scopes, events, s :: pending⟩).Perm
      (s :: scheduled o (visit o ⟨scopes, events, pending⟩ s)) := by
  have hvisit : (visit o ⟨scopes, events, pending⟩ s).pending =
      (visitAlone o scopes s).pending ++ pending := by
    rw [visit_eq_onto]
    rfl
  rw [scheduled, visits, List.flatMap_cons, scheduled, hvisit, List.append_assoc]
  exact (List.perm_append_comm_assoc ..).cons s

/-- What is scheduled is what is visited. -/
theorem perm_scheduled (o : ExtractOptions) (w : Walk κ) :
    (scheduled o w).Perm ((visits o w).map (·.2)) := by
  fun_induction visits o w with
  | case1 scopes events => rw [scheduled, visits]; exact .refl _
  | case2 scopes events s pending ih => exact (scheduled_cons ..).trans (ih.cons s)

/-- The visited nodes are different parts of what was pending. -/
theorem numbers_visits (o : ExtractOptions) (w : Walk (Numbered κ)) :
    ((visits o w).map (·.2.node.number)).Sublist (Step.numbers w.pending) := by
  fun_induction visits o w with
  | case1 scopes events => exact List.nil_sublist _
  | case2 scopes events s pending ih => exact (ih.cons_cons _).trans (numbers_visit ..)

theorem nodup_scheduled {t : Tree (Numbered κ)} (ht : t.numbers.Nodup) :
    ((scheduled o (start t)).map (·.node.number)).Nodup := by
  have hvisits := numbers_visits o (start t)
  have hstart : Step.numbers (start t).pending = t.numbers := Tree.numbersAll_singleton t
  have hperm := (perm_scheduled o (start t)).map (·.node.number)
  rw [List.map_map] at hperm
  rw [hstart] at hvisits
  exact hperm.nodup_iff.2 (ht.sublist hvisits)

section

variable {r : Rewriting} {rekey : Tree (Numbered κ) → String → String} {more : Names}

/-- Walks in lockstep schedule the same. -/
theorem scheduled_rewritten {w : Walk (Numbered κ)} {w' : Walk κ}
    (hvisit : ∀ scopes (scopes' : Scopes (Tree κ)) s, Visits o w scopes s →
      Scopes.Rekeyed rekey more scopes scopes' →
      Rewritten r rekey more (visitAlone o scopes s) (visitAlone o scopes' (s.rewrite r)))
    (h : Rewritten r rekey more w w') :
    scheduled o w' = (scheduled o w).map (Step.rewrite r) := by
  have hlater : ((visits o w').flatMap fun v => (visitAlone o v.1 v.2).pending) =
      ((visits o w).flatMap fun v => (visitAlone o v.1 v.2).pending).map (Step.rewrite r) := by
    fun_induction visits o w generalizing w' with
    | case1 scopes events =>
      obtain ⟨scopes', events', pending'⟩ := w'
      obtain rfl : pending' = [] := h.pending_eq
      rw [visits]
      rfl
    | case2 scopes events s pending ih =>
      obtain ⟨scopes', events', pending'⟩ := w'
      obtain rfl : pending' = (s :: pending).map (Step.rewrite r) := h.pending_eq
      have hfirst := hvisit scopes scopes' s (.now ..) h.scopes
      have hnext : Rewritten r rekey more (visit o ⟨scopes, events, pending⟩ s)
          (visit o ⟨scopes', events', pending.map (Step.rewrite r)⟩ (s.rewrite r)) := by
        rw [visit_eq_onto, visit_eq_onto]
        exact hfirst.onto h.mentioned_eq pending
      rw [List.map_cons, visits, List.flatMap_cons, List.flatMap_cons, List.map_append,
        hfirst.pending_eq, ih (fun _ _ _ hv => hvisit _ _ _ (.later hv)) hnext]
  rw [scheduled, scheduled, List.map_append, h.pending_eq, hlater]

end

/-- A walk schedules the same nodes if they are numbered. -/
theorem scheduled_numbered (o : ExtractOptions) (t : Tree κ) :
    scheduled o (start t) = (scheduled o (start t.numbered)).map (Step.rewrite .trivial) := by
  have hr := Tree.respects_trivial o t.numbered
  have hstart : Rewritten .trivial (fun _ key => key) Names.none (start t.numbered)
      (start (t.numbered.rewrite .trivial)) := rewritten_start t.numbered
  rw [Tree.numbered, Tree.rewrite_trivial_numberFrom, ← Tree.numbered] at hstart
  apply scheduled_rewritten _ hstart
  intro scopes scopes' s hv hscopes
  exact rewritten_visitAlone hr hscopes ((within_start t.numbered).visits hv).2
    (fun _ => Tree.carries_trivial s.node) hv

/-- A walk over a tree makes at most as many visits as the tree has nodes, and every
scope that it asks for is there: the run that gives up where one is missing, or after
so many visits, ends like the run.  Whatever state is reached, the scopes of all
pending steps exist.  Nodes that are told apart by numbers are scheduled once at
most, and the numbers change nothing. -/
theorem run_bounded (o : ExtractOptions) (t : Tree κ) :
    ((start? t).bind fun w => runWithin? o t.size w) = some (run o (start t)) ∧
    (∀ n w, Reaches o n (start t) w →
      n ≤ t.size ∧ ∀ s ∈ w.pending, s.scope < w.scopes.size) ∧
    scheduled o (start t) = (scheduled o (start t.numbered)).map (Step.rewrite .trivial) ∧
    ((scheduled o (start t.numbered)).map (·.node.number)).Nodup := by
  have hstart : start? t = some (start t) := by
    have hopen := Scopes.openIn?_eq (s := (Scopes.initial : Scopes (Tree κ)))
      (p := Scopes.root) Nat.zero_lt_one
    simp only [start?, hopen, Option.bind_eq_bind, Option.bind_some]
    rfl
  have htotal : Step.total (start t).pending = t.size := Step.total_cons ..
  refine ⟨?_, fun n w h => ⟨?_, (h.inRange (inRange_start t)).pending_lt⟩,
    scheduled_numbered o t, nodup_scheduled t.nodup_numbered⟩
  · rw [hstart, Option.bind_some]
    exact runWithin?_eq (inRange_start t) (Nat.le_of_eq htotal)
  · have hbound := h.add_total_le
    omega

end Walk
end Lineage
