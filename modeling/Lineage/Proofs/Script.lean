import Lineage.Script
import Lineage.Proofs.Plan.Placed

/-
A script is read statement by statement or as one plan.

One walk over the whole script shares its scopes and its collector between the
statements.  No plan of a statement binds a name outside its blocks, so each is met
with nothing visible, and what was collected before is merged with the rest.
-/

namespace Lineage

namespace Record

/-- Merging records one by one is noting what they mention one after the other. -/
theorem foldl_merge_ofMentions (runs : List (List Mention)) (before : List Mention) :
    (runs.map ofMentions).foldl merge (ofMentions before) = ofMentions (before ++ runs.flatten) := by
  induction runs generalizing before with
  | nil => rw [List.map_nil, List.foldl_nil, List.flatten_nil, List.append_nil]
  | cons run runs ih =>
    rw [List.map_cons, List.foldl_cons, merge_ofMentions, ih, List.flatten_cons, List.append_assoc]

theorem mergeAll_map_ofMentions (runs : List (List Mention)) :
    mergeAll (runs.map ofMentions) = ofMentions runs.flatten :=
  foldl_merge_ofMentions runs []

end Record

namespace Tree

variable {κ : Type} [Vocabulary κ] {o : ExtractOptions} {root : κ}

/-- Trees below one root, each with its definitions in blocks, are walked as if each
were walked alone. -/
theorem lineage_root (hroot : Vocabulary.kind root = .root) {ts : List (Tree κ)}
    (h : allPlaced 0 ts = true) :
    (branch root ts).lineage o = .mergeAll (ts.map (·.lineage o)) := by
  have hplaced : (branch root ts).definitionsPlaced 0 = true := by
    simp only [branch, definitionsPlaced, hroot]
    exact h
  have hgroup : (branch root ts).kind ∈ [.root, .other, .subqueryAlias, .join, .union] := by
    have hkind : (branch root ts).kind = .root := hroot
    rw [hkind]
    exact List.mem_cons_self
  have htogether : (branch root ts).mentions o Names.none .read =
      (ts.map fun t => t.mentions o Names.none .read).flatten := by
    rw [mentions_group hgroup, childMentions_eq_flatMap]
    exact List.flatMap_def
  have halone : ts.map (·.lineage o) =
      (ts.map fun t => t.mentions o Names.none .read).map Record.ofMentions := by
    rw [List.map_map]
    refine List.map_congr_left (fun t ht => ?_)
    rw [lineage_eq_ofMentions_run, mentioned_run_start (allPlaced_iff.1 h t ht)]
    rfl
  rw [halone, Record.mergeAll_map_ofMentions, lineage_eq_ofMentions_run,
    mentioned_run_start hplaced, htogether]

end Tree

namespace Script

theorem records_lineage (o : ExtractOptions) (statements : List Sql.Statement) :
    (lineage o statements).map (·.record) = (statements.map Plan.lower).map (·.lineage o) := by
  have hindexed : (lineage o statements).map (·.record) =
      (statements.zipIdx.map Prod.fst).map fun statement => (Plan.lower statement).lineage o := by
    rw [lineage, List.map_map, List.map_map]
    rfl
  rw [hindexed, List.zipIdx_map_fst, List.map_map]
  rfl

/-- The plan of a whole script has the lineage that its statements have one by one. -/
theorem lineage_script (o : ExtractOptions) (statements : List Sql.Statement) :
    (Plan.script statements).lineage o = summary (lineage o statements) := by
  have hplaced : Tree.allPlaced 0 (statements.map Plan.lower) = true :=
    Tree.allPlaced_map (Plan.placed_lower 0) statements
  rw [summary, records_lineage]
  exact Tree.lineage_root rfl hplaced

end Script
end Lineage
