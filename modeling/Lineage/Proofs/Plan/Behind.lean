import Lineage.Proofs.Plan.Tables

/-
Writes behind a `WITH` list.

An `INSERT` behind a `WITH` list is lowered like one that stands alone.  Of an
`UPDATE`, `DELETE` or `MERGE` in that place only the mentioned tables are kept, all of
them as read.
-/

namespace Lineage
namespace Sql

def Statement.isWrite : Statement → Bool
  | .insert _ | .update _ | .delete _ | .merge _ => true
  | _ => false

def Statement.isInsert : Statement → Bool
  | .insert _ => true
  | _ => false

def SetExpr.ofWrite (w : Statement) : SetExpr := if w.isInsert then .insert w else .write w

/-- A write with a `WITH` list in front. -/
def Statement.behind (definitions : With) (w : Statement) : Statement :=
  .query ⟨some definitions, .ofWrite w, [], []⟩

/-- No `INSERT` inside the query writes a table. -/
def Query.isReadOnly (q : Query) : Bool := q.uses.all (·.access = .read)

/-- The tables that are read by a write or by the definitions in front of it. -/
def readAround (definitions : With) (w : Statement) : List QualifiedName :=
  (tablesUsed .read (cteUses definitions.ctes ++ w.uses)).filterMap ObjectName.qualifiedName?

theorem uses_behind (definitions : With) (w : Statement) :
    (w.behind definitions).uses = cteUses definitions.ctes ++ (SetExpr.ofWrite w).uses := by
  obtain ⟨recursive, ctes⟩ := definitions
  have hquery : (w.behind ⟨recursive, ctes⟩).uses =
      cteUses ctes ++ ((SetExpr.ofWrite w).uses ++ []) := rfl
  rw [hquery, List.append_nil]

theorem written_of_isReadOnly {ctes : List Cte} (h : ∀ cte ∈ ctes, cte.query.isReadOnly = true) :
    tablesUsed .write (cteUses ctes) = [] := by
  induction ctes with
  | nil => rfl
  | cons cte ctes ih =>
    obtain ⟨aka, query⟩ := cte
    have hquery : tablesUsed .write query.uses = [] := by
      rw [tablesUsed, List.map_eq_nil_iff, List.filter_eq_nil_iff]
      intro u hu hw
      have hr := List.all_eq_true.1 (h ⟨aka, query⟩ List.mem_cons_self) u hu
      rw [of_decide_eq_true hw] at hr
      exact Access.noConfusion (of_decide_eq_true hr)
    rw [cteUses, tablesUsed_append, hquery, ih (fun c hc => h c (List.mem_cons_of_mem _ hc)),
      List.append_nil]

/-- Behind definitions that only read, an `INSERT` writes what it writes alone, and
another write writes nothing. -/
theorem written_behind {definitions : With}
    (h : ∀ cte ∈ definitions.ctes, cte.query.isReadOnly = true) (w : Statement) :
    (w.behind definitions).written = if w.isInsert then w.written else [] := by
  rw [Statement.written, uses_behind, tablesUsed_append, written_of_isReadOnly h,
    List.nil_append, SetExpr.ofWrite]
  split
  · rfl
  · exact tablesUsed_usesAs_of_ne Access.noConfusion w.relations

end Sql

namespace Plan

open Sql

variable {o : ExtractOptions}

theorem mem_sources_behind_insert {definitions : With} {w : Statement} (hw : w.isInsert = true)
    {n : QualifiedName} (hn : n ∈ ((lower (w.behind definitions)).lineage o).sources) :
    n ∈ readAround definitions w := by
  rw [Tree.lineage_eq_ofMentions_run, Record.mem_sources_ofMentions] at hn
  have hread := mem_read_of_run_lower hn
  rw [uses_behind, SetExpr.ofWrite, if_pos hw] at hread
  exact hread

/-- Which writes stay what they are behind definitions that only read: those that
are an `INSERT`, and those without targets. -/
theorem behind_keeps_iff {definitions : With}
    (hread : ∀ cte ∈ definitions.ctes, cte.query.isReadOnly = true) (w : Statement) :
    (((lower (w.behind definitions)).lineage o).targets = ((lower w).lineage o).targets ∧
      ∀ n ∈ ((lower w).lineage o).targets, n ∉ readAround definitions w →
        n ∉ ((lower (w.behind definitions)).lineage o).sources) ↔
      w.isInsert = true ∨ ((lower w).lineage o).targets = [] := by
  have hbehind := targets_eq_written o (w.behind definitions)
  rw [written_behind hread] at hbehind
  by_cases hw : w.isInsert = true
  · -- lowered as if nothing stood in front of it
    rw [if_pos hw, ← targets_eq_written o w] at hbehind
    have hsources : ∀ n ∈ ((lower w).lineage o).targets, n ∉ readAround definitions w →
        n ∉ ((lower (w.behind definitions)).lineage o).sources :=
      fun n _ hn hsource => hn (mem_sources_behind_insert hw hsource)
    exact iff_of_true ⟨hbehind, hsources⟩ (.inl hw)
  · -- only a list of read tables is left
    rw [if_neg hw] at hbehind
    have hnone : ((lower (w.behind definitions)).lineage o).targets = [] := hbehind
    rw [hnone]
    constructor
    · exact fun h => .inr h.1.symm
    · rintro (h | h)
      · exact absurd h hw
      · rw [h]
        exact ⟨rfl, fun n hn => absurd hn List.not_mem_nil⟩

/-- `WITH c AS (SELECT * FROM base)` -/
def stagedBase : With := ⟨false, [⟨⟨⟨"c", none⟩, []⟩, selectFrom [⟨named ["base"], []⟩] []⟩]⟩

/-- `INSERT INTO t SELECT * FROM c` -/
def insertStaged : Statement :=
  .insert ⟨.table ⟨[⟨"t", none⟩]⟩, some (selectFrom [⟨named ["c"], []⟩] []), []⟩

theorem behind_keeps_insertStaged :
    stagedBase.ctes ≠ [] ∧ (∀ cte ∈ stagedBase.ctes, cte.query.isReadOnly = true) ∧
    insertStaged.isInsert = true ∧
    ((lower (insertStaged.behind stagedBase)).lineage {}).targets =
      ((lower insertStaged).lineage {}).targets ∧
    ((lower insertStaged).lineage {}).targets.map (·.text) = ["t"] ∧
    ((lower (insertStaged.behind stagedBase)).lineage {}).sources.map (·.text) = ["base"] := by
  have hread : ∀ cte ∈ stagedBase.ctes, cte.query.isReadOnly = true := by decide
  have hkept := (behind_keeps_iff (o := {}) hread insertStaged).2 (.inl rfl)
  exact ⟨List.cons_ne_nil _ _, hread, rfl, hkept.1, by cbv, by cbv⟩

/-- `UPDATE t SET x = 1 WHERE i IN (SELECT * FROM c)` -/
def updateStaged : Statement :=
  .update ⟨⟨named ["t"], []⟩, [.literal "1"], [],
    [.form "IN" [.column [⟨"i", none⟩], .subquery (selectFrom [⟨named ["c"], []⟩] [])]], []⟩

theorem not_forall_behind_keeps :
    ¬ ∀ (o : ExtractOptions) (definitions : With) (w : Statement), definitions.ctes ≠ [] →
      (∀ cte ∈ definitions.ctes, cte.query.isReadOnly = true) → w.isWrite = true →
      ((lower (w.behind definitions)).lineage o).targets = ((lower w).lineage o).targets ∧
      ∀ n ∈ ((lower w).lineage o).targets, n ∉ readAround definitions w →
        n ∉ ((lower (w.behind definitions)).lineage o).sources := by
  intro h
  have hkept := (h {} stagedBase updateStaged (List.cons_ne_nil _ _) (by decide) rfl).1
  have hbehind : ((lower (updateStaged.behind stagedBase)).lineage {}).targets.map (·.text) =
      [] := by cbv
  have halone : ((lower updateStaged).lineage {}).targets.map (·.text) = ["t"] := by cbv
  rw [hkept, halone] at hbehind
  exact absurd hbehind (List.cons_ne_nil _ _)

end Plan
end Lineage
