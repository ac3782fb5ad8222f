import Mathlib
import Lineage.Proofs.Walk.Range
import Lineage.Proofs.Walk.Scoping

/-
A walk collects what the tree mentions.

Where every `cteDef` node stands in a query block, the pending steps of a walk
mention together what is left to be noted, and each visit keeps this.
-/

namespace Lineage

namespace Schedule

variable {κ : Type} [Vocabulary κ]

/-- The bodies that a placed `cteDef` node has scheduled hold no definition of
their own outside query blocks. -/
theorem placed_defineAll {block : ScopeId} {node : Tree κ} {s : Schedule κ}
    (hk : node.kind = .cteDef) (hp : node.definitionsPlaced 2 = true)
    (hs : ∀ st ∈ s.steps, st.node.definitionsPlaced 0 = true) :
    ∀ st ∈ (s.defineAll block node).steps, st.node.definitionsPlaced 0 = true := by
  refine defineAll_keeps (P := fun s' => ∀ st ∈ s'.steps, st.node.definitionsPlaced 0 = true)
    (fun recursive d hd s' hs' st hst => ?_) (fun c hc hnd s' hs' st hst => ?_) hs
  · rcases mem_steps_define hst with hst | hst
    · exact Tree.placed_body hk hp hd _ hst
    · exact hs' st hst
  · rcases mem_steps_read hst with hst | hst
    · rw [List.mem_singleton] at hst
      rw [hst]
      exact Tree.placed_of_not_cteDef (fun hck => hnd (by simp [Tree.isDefinition, hck]))
        (Tree.placed_children_cteDef hk hp c hc)
    · exact hs' st hst

end Schedule

namespace Walk

variable {κ : Type} [Vocabulary κ]

/-- A visit schedules no `cteDef` node of a tree that has them in blocks. -/
theorem placed_visitAlone {o : ExtractOptions} {scopes : Scopes (Tree κ)} {s : Step κ}
    (h : s.node.definitionsPlaced 0 = true) :
    ∀ st ∈ (visitAlone o scopes s).pending, st.node.definitionsPlaced 0 = true := by
  have hd := Tree.not_cteDef_of_placed h
  by_cases hb : s.node.kind.opensScope = true
  · have hchildren := Tree.placed_children_block hb h
    rw [visitAlone_block hb]
    intro st hst
    rw [mem_pending_resume] at hst
    revert st
    refine Schedule.foldl_keeps (P := fun s' => ∀ st ∈ s'.steps, st.node.definitionsPlaced 0 = true)
      s.node.children (fun c hc s' hs' => ?_) (fun st hst => absurd hst List.not_mem_nil)
    unfold Schedule.addBlockChild
    by_cases hk : c.kind = .cteDef
    · rw [if_pos hk]
      exact Schedule.placed_defineAll hk (hchildren c hc) hs'
    · rw [if_neg hk]
      intro st hst
      rcases Schedule.mem_steps_read hst with hst | hst
      · rw [List.mem_singleton] at hst
        rw [hst]
        exact Tree.placed_of_not_cteDef hk (hchildren c hc)
      · exact hs' st hst
  · have hplain := visitAlone_plain (Bool.eq_false_iff.2 hb) hd o scopes
    have hchildren := Tree.placed_children_plain (Bool.eq_false_iff.2 hb) hd h
    rw [hplain.pending_eq]
    intro st hst
    exact hchildren st.node (of_mem_childSteps hst).1

/-- A visit hands down what the visited node mentions. -/
theorem mentions_visitAlone {o : ExtractOptions} {scopes : Scopes (Tree κ)} {s : Step κ}
    (ho : scopes.Ordered) (hs : s.scope < scopes.size)
    (hp : s.node.definitionsPlaced 0 = true) :
    (visitAlone o scopes s).mentioned ++
        Step.mentionsAll o (visitAlone o scopes s).scopes (visitAlone o scopes s).pending =
      s.mentions o scopes := by
  by_cases hb : s.node.kind.opensScope = true
  · have hlt : s.scope < (scopes.openIn s.scope).2.size := by
      rw [Scopes.size_openIn]
      exact Nat.lt_succ_of_lt hs
    have hapart : Schedule.Apart scopes.size
        (Schedule.mk (scopes.openIn s.scope).2 [] [] s.scope) :=
      ⟨inRange_openBlock ho hs, Scopes.not_mem_chain_of_lt hs⟩
    obtain ⟨-, hbinds, hmentions⟩ := Schedule.binds_addBlockChildren o s.node.children hapart
    have hquiet := Schedule.quiet_fresh (scopes.openIn s.scope).2 [] s.scope
    have hsteps := hmentions _ (.refl ..)
    rw [hbinds.block_sees, Scopes.sees_openIn_self hs] at hsteps
    rw [visitAlone_block hb, Step.mentions, Tree.mentions_block hb, mentioned, resume,
      hquiet.addBlockChildren s.node.children, List.reverseAux_eq, List.append_nil]
    refine hsteps.trans ?_
    rw [Scopes.sees_openIn_of_lt s.scope hs]
    rfl
  · have hd := Tree.not_cteDef_of_placed hp
    have hplain := visitAlone_plain (Bool.eq_false_iff.2 hb) hd o scopes
    rw [hplain.mentions_eq, hplain.scopes_eq, hplain.pending_eq, Step.mentionsAll_childSteps,
      Step.mentions, Tree.mentions_plain (Bool.eq_false_iff.2 hb) hd]

/-- A run notes what its pending steps mention. -/
theorem mentioned_run {o : ExtractOptions} {w : Walk κ} (hr : w.InRange)
    (hp : ∀ s ∈ w.pending, s.node.definitionsPlaced 0 = true) :
    (run o w).mentioned = w.mentioned ++ Step.mentionsAll o w.scopes w.pending := by
  fun_induction run o w with
  | case1 scopes events => exact (List.append_nil _).symm
  | case2 scopes events s pending ih =>
    have hs := hr.pending_lt s List.mem_cons_self
    have hpending (st) (hst : st ∈ pending) : st.scope < scopes.size :=
      hr.pending_lt st (List.mem_cons_of_mem _ hst)
    have hplaced := hp s List.mem_cons_self
    have hgrows := grows_visitAlone o scopes s
    rw [if_neg (Tree.not_cteDef_of_placed hplaced)] at hgrows
    rw [visit_eq_onto] at ih ⊢
    rw [ih hr.visit (fun st hst => ?_)]
    · have hkeep : Step.mentionsAll o (visitAlone o scopes s).scopes pending =
          Step.mentionsAll o scopes pending :=
        Step.mentionsAll_congr (fun st hst => hgrows.sees_eq _ (hpending st hst)
          (Scopes.not_mem_chain_of_lt (hpending st hst)))
      let v := visitAlone o scopes s
      have hvisit : v.mentioned ++ Step.mentionsAll o v.scopes v.pending = s.mentions o scopes :=
        mentions_visitAlone hr.ordered hs hplaced
      calc (v.onto events pending).mentioned ++ Step.mentionsAll o v.scopes (v.pending ++ pending)
          = Event.mentionsOf events ++ (v.mentioned ++ Step.mentionsAll o v.scopes v.pending) ++
              Step.mentionsAll o v.scopes pending := by
            rw [mentioned_onto, Step.mentionsAll_append]
            simp only [List.append_assoc]
        _ = Event.mentionsOf events ++ (s.mentions o scopes ++ Step.mentionsAll o scopes pending) := by
            rw [hvisit, hkeep, List.append_assoc]
        _ = Event.mentionsOf events ++ Step.mentionsAll o scopes (s :: pending) := rfl
    · rcases List.mem_append.1 hst with hst | hst
      · exact placed_visitAlone hplaced st hst
      · exact hp st (List.mem_cons_of_mem _ hst)

end Walk

namespace Tree

variable {κ : Type} [Vocabulary κ] {o : ExtractOptions} {t : Tree κ}

theorem lineage_eq_ofMentions_run (o : ExtractOptions) (t : Tree κ) :
    t.lineage o = .ofMentions ((Walk.start t).run o).mentioned := by
  rw [lineage, Record.ofEvents_eq_ofMentions]
  rfl

theorem mentioned_run_start (h : t.definitionsPlaced 0 = true) :
    ((Walk.start t).run o).mentioned = t.mentions o Names.none .read := by
  rw [Walk.mentioned_run (Walk.inRange_start t) (by simpa [Walk.start] using h)]
  show [] ++ [Step.mentions o (Walk.start t).scopes ⟨t, .read, 1⟩].flatten = _
  rw [List.nil_append, List.flatten_singleton, Step.mentions, Walk.sees_start]

/-- Where definitions stand in query blocks, a walk over pending steps and shared
scopes records what the recursion over the tree mentions. -/
theorem lineage_eq_ofMentions (h : t.definitionsPlaced 0 = true) :
    t.lineage o = .ofMentions (t.mentions o Names.none .read) := by
  rw [lineage_eq_ofMentions_run, mentioned_run_start h]

/-- A read table, by the parts of its name. -/
def readOf (parts : List String) : Tree Kind :=
  .branch .tableRef [.branch .tableName (parts.map (.leaf .other))]

/-- A write whose source defines `a` by itself and `t`, and `b` by `a`. -/
def recursiveList : Tree Kind :=
  .branch .insert [readOf ["out"], .branch .query [
    .node .cteDef (some recursiveMarker) [
      .node .cteDef (some "a") [readOf ["A"], readOf ["t"]],
      .node .subqueryAlias (some "b") [readOf ["a"]]],
    readOf ["B"], readOf ["db", "a"], .branch .union [readOf ["out"]]]]

theorem lineage_recursiveList :
    recursiveList.definitionsPlaced 0 = true ∧
    recursiveList.lineage {} = .ofMentions (recursiveList.mentions {} Names.none .read) ∧
    (recursiveList.lineage {}).targets.map (·.text) = ["out"] ∧
    (recursiveList.lineage {}).sources.map (·.text) = ["t", "db.a", "out"] := by
  have h : recursiveList.definitionsPlaced 0 = true := by decide
  exact ⟨h, lineage_eq_ofMentions h, by cbv, by cbv⟩

end Tree
end Lineage
