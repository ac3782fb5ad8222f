import Lineage.Plan.Lower
import Lineage.Proofs.Walk.Refinement

/-
Plans hold their definitions in query blocks.

The proof goes through the statement as lowering does.  No plan but a `WITH`
definition is a `cteDef` node itself, so the others may stand at any level.
-/

namespace Lineage

namespace Tree

variable {κ : Type} [Vocabulary κ]

theorem allPlaced_append {levels : Nat} {a b : List (Tree κ)} :
    allPlaced levels (a ++ b) = true ↔ allPlaced levels a = true ∧ allPlaced levels b = true := by
  simp only [allPlaced_iff, List.mem_append, or_imp, forall_and]

theorem allPlaced_cons {levels : Nat} {t : Tree κ} {ts : List (Tree κ)} :
    allPlaced levels (t :: ts) = true ↔
      t.definitionsPlaced levels = true ∧ allPlaced levels ts = true := by
  rw [allPlaced, Bool.and_eq_true]

theorem allPlaced_map {α : Type} {f : α → Tree κ} {levels : Nat}
    (h : ∀ a, (f a).definitionsPlaced levels = true) (as : List α) :
    allPlaced levels (as.map f) = true := by
  rw [allPlaced_iff]
  intro t ht
  obtain ⟨a, _, rfl⟩ := List.mem_map.1 ht
  exact h a

end Tree

namespace Plan

open Sql

theorem placed_objectName (levels : Nat) (name : ObjectName) :
    (objectName name).definitionsPlaced levels = true :=
  Tree.allPlaced_map (fun _ => rfl) name.parts

theorem placed_insertTarget (levels : Nat) (name : ObjectName) :
    (insertTarget name).definitionsPlaced levels = true := by
  have h := placed_objectName 0 name
  have htable : (Tree.branch Node.targetTable [objectName name]).definitionsPlaced 0 = true :=
    Tree.allPlaced_cons.2 ⟨h, rfl⟩
  exact Tree.allPlaced_cons.2 ⟨htable, rfl⟩

theorem placed_relations (levels : Nat) (names : List ObjectName) :
    Tree.allPlaced levels (relations names) = true := by
  refine Tree.allPlaced_map (fun name => ?_) names
  exact Tree.allPlaced_cons.2 ⟨placed_objectName 0 name, rfl⟩

theorem placed_aliasLeaf (levels : Nat) (aka : Option Alias) :
    Tree.allPlaced levels (aliasLeaf aka) = true := by
  cases aka <;> rfl

theorem placed_joined {levels : Nat} {relation : PlanTree} {constraint : List PlanTree}
    (hr : ∀ levels, relation.definitionsPlaced levels = true)
    (hc : Tree.allPlaced 0 constraint = true) :
    (joined relation constraint).definitionsPlaced levels = true := by
  unfold joined
  split
  · exact hr levels
  · exact Tree.allPlaced_cons.2 ⟨hr 0, hc⟩

theorem placed_single {levels : Nat} {t : PlanTree} (h : t.definitionsPlaced levels = true) :
    Tree.allPlaced levels [t] = true :=
  Tree.allPlaced_cons.2 ⟨h, rfl⟩

theorem placed_targets (name : ObjectName) : Tree.allPlaced 0 [insertTarget name] = true :=
  placed_single (placed_insertTarget 0 name)

/-- What a write reads stands below one child. -/
theorem placed_reads {reads : List PlanTree} (h : Tree.allPlaced 0 reads = true) :
    Tree.allPlaced 0 [Tree.branch Node.other reads] = true :=
  placed_single h

mutual

theorem placed_subqueries (levels : Nat) : (e : Expr) →
    Tree.allPlaced levels (subqueries e) = true
  | .column _ | .literal _ => rfl
  | .call _ operands | .form _ operands => placed_subqueriesIn levels operands
  | .subquery query => by
    have h : (Tree.branch Node.expr [lowerQuery query]).definitionsPlaced levels = true :=
      Tree.allPlaced_cons.2 ⟨placed_lowerQuery 0 query, rfl⟩
    exact Tree.allPlaced_cons.2 ⟨h, rfl⟩

theorem placed_subqueriesIn (levels : Nat) : (es : List Expr) →
    Tree.allPlaced levels (subqueriesIn es) = true
  | [] => rfl
  | e :: es => Tree.allPlaced_append.2 ⟨placed_subqueries levels e, placed_subqueriesIn levels es⟩

theorem placed_lowerQuery (levels : Nat) : (q : Query) →
    (lowerQuery q).definitionsPlaced levels = true
  | ⟨none, body, orderBy, _⟩ =>
    Tree.allPlaced_cons.2 ⟨placed_lowerBody 2 body, placed_subqueriesIn 2 orderBy⟩
  | ⟨some ⟨false, ctes⟩, body, orderBy, _⟩ =>
    Tree.allPlaced_append.2 ⟨placed_lowerCtes 1 ctes,
      Tree.allPlaced_cons.2 ⟨placed_lowerBody 2 body, placed_subqueriesIn 2 orderBy⟩⟩
  | ⟨some ⟨true, ctes⟩, body, orderBy, _⟩ => by
    have h : (Tree.node Node.recursiveWith (some Tree.recursiveMarker)
        (lowerCtes ctes)).definitionsPlaced 2 = true := placed_lowerCtes 0 ctes
    exact Tree.allPlaced_cons.2 ⟨h,
      Tree.allPlaced_cons.2 ⟨placed_lowerBody 2 body, placed_subqueriesIn 2 orderBy⟩⟩

theorem placed_lowerCtes (levels : Nat) : (ctes : List Cte) →
    Tree.allPlaced (levels + 1) (lowerCtes ctes) = true
  | [] => rfl
  | ⟨aka, query⟩ :: ctes => by
    have h : (Tree.node Node.cte (some aka.name.value)
        [lowerQuery query]).definitionsPlaced (levels + 1) = true :=
      Tree.allPlaced_cons.2 ⟨placed_lowerQuery levels query, rfl⟩
    exact Tree.allPlaced_cons.2 ⟨h, placed_lowerCtes levels ctes⟩

theorem placed_lowerBody (levels : Nat) : (body : SetExpr) →
    (lowerBody body).definitionsPlaced levels = true
  | .select block => placed_lowerSelect levels block
  | .query query => placed_lowerQuery levels query
  | .setOperation _ left right =>
    Tree.allPlaced_cons.2 ⟨placed_lowerBody 0 left,
      Tree.allPlaced_cons.2 ⟨placed_lowerBody 0 right, rfl⟩⟩
  | .insert statement => placed_lower levels statement
  | .values rows => placed_subqueriesIn 0 rows
  | .table _ => rfl
  | .write statement => placed_relations 0 statement.relations

theorem placed_lowerSelect (levels : Nat) : (block : Select) →
    (lowerSelect block).definitionsPlaced levels = true
  | ⟨_, projection, tables, _, _, selection, groupBy, _, having, _, qualify, _⟩ => by
    have hreads : Tree.allPlaced 2 (lowerTables tables ++ subqueriesIn projection ++
        subqueriesIn selection ++ subqueriesIn groupBy ++ subqueriesIn having ++
        subqueriesIn qualify) = true := by
      simp only [Tree.allPlaced_append, placed_lowerTables 2 tables,
        placed_subqueriesIn 2 projection, placed_subqueriesIn 2 selection,
        placed_subqueriesIn 2 groupBy, placed_subqueriesIn 2 having,
        placed_subqueriesIn 2 qualify, and_self]
    exact hreads

theorem placed_lowerTables (levels : Nat) : (tables : List TableWithJoins) →
    Tree.allPlaced levels (lowerTables tables) = true
  | [] => rfl
  | t :: ts => Tree.allPlaced_cons.2 ⟨placed_lowerTable levels t, placed_lowerTables levels ts⟩

theorem placed_lowerTable (levels : Nat) : (t : TableWithJoins) →
    (lowerTable t).definitionsPlaced levels = true
  | ⟨relation, []⟩ => placed_lowerFactor levels relation
  | ⟨relation, j :: joins⟩ =>
    Tree.allPlaced_cons.2 ⟨placed_lowerFactor 0 relation, placed_lowerJoins 0 (j :: joins)⟩

theorem placed_lowerJoins (levels : Nat) : (joins : List Join) →
    Tree.allPlaced levels (lowerJoins joins) = true
  | [] => rfl
  | ⟨relation, constraint⟩ :: joins =>
    Tree.allPlaced_cons.2 ⟨placed_joined (fun levels => placed_lowerFactor levels relation)
      (placed_subqueriesIn 0 constraint), placed_lowerJoins levels joins⟩

theorem placed_lowerFactor (levels : Nat) : (factor : TableFactor) →
    (lowerFactor factor).definitionsPlaced levels = true
  | .table name aka _ =>
    Tree.allPlaced_cons.2 ⟨placed_objectName 0 name, placed_aliasLeaf 0 aka⟩
  | .derived query aka _ =>
    Tree.allPlaced_cons.2 ⟨placed_lowerQuery 0 query, placed_aliasLeaf 0 aka⟩
  | .nested tables _ => placed_lowerTable levels tables
  | .other head inner operands aka =>
    placed_relations 0 (TableFactor.other head inner operands aka).relations

theorem placed_deleteAll (levels : Nat) : (tables : List TableWithJoins) →
    Tree.allPlaced levels (deleteAll tables).1 = true ∧
      Tree.allPlaced levels (deleteAll tables).2 = true
  | [] => ⟨rfl, rfl⟩
  | ⟨relation, joins⟩ :: ts => by
    obtain ⟨hwritten, hread⟩ := placed_deleteAll levels ts
    have hreads := Tree.allPlaced_append.2 ⟨placed_lowerJoins levels joins, hread⟩
    have hfactor := placed_lowerFactor levels relation
    cases relation with
    | table name =>
      exact ⟨Tree.allPlaced_cons.2 ⟨placed_insertTarget levels name, hwritten⟩, hreads⟩
    | _ => exact ⟨hwritten, Tree.allPlaced_cons.2 ⟨hfactor, hreads⟩⟩

theorem placed_deleteListed (levels : Nat) (listed : List ObjectName) :
    (tables : List TableWithJoins) → Tree.allPlaced levels (deleteListed listed tables) = true
  | [] => rfl
  | ⟨relation, joins⟩ :: ts => by
    have hrelation : Tree.allPlaced levels
        (if isDeleted listed relation then [] else [lowerFactor relation]) = true := by
      split
      · rfl
      · exact Tree.allPlaced_cons.2 ⟨placed_lowerFactor levels relation, rfl⟩
    have hjoins := placed_deleteListedJoins levels listed joins
    exact Tree.allPlaced_append.2 ⟨Tree.allPlaced_append.2 ⟨hrelation, hjoins⟩,
      placed_deleteListed levels listed ts⟩

theorem placed_deleteListedJoins (levels : Nat) (listed : List ObjectName) :
    (joins : List Join) → Tree.allPlaced levels (deleteListedJoins listed joins) = true
  | [] => rfl
  | ⟨relation, constraint⟩ :: joins => by
    have hjoin : Tree.allPlaced levels (if isDeleted listed relation then subqueriesIn constraint
        else [joined (lowerFactor relation) (subqueriesIn constraint)]) = true := by
      split
      · exact placed_subqueriesIn levels constraint
      · exact Tree.allPlaced_cons.2
          ⟨placed_joined (fun levels => placed_lowerFactor levels relation)
            (placed_subqueriesIn 0 constraint), rfl⟩
    exact Tree.allPlaced_append.2 ⟨hjoin, placed_deleteListedJoins levels listed joins⟩

theorem placed_lower (levels : Nat) : (s : Statement) → (lower s).definitionsPlaced levels = true
  | .query query => placed_lowerQuery levels query
  | .insert ⟨.table name, none, _⟩ => Tree.allPlaced_append.2 ⟨placed_targets name, rfl⟩
  | .insert ⟨.table name, some source, _⟩ =>
    Tree.allPlaced_append.2 ⟨placed_targets name, placed_single (placed_lowerQuery 0 source)⟩
  | .insert ⟨.function _, none, _⟩ => rfl
  | .insert ⟨.function _, some source, _⟩ => placed_single (placed_lowerQuery 0 source)
  | .update ⟨⟨relation, joins⟩, assignments, tables, selection, _⟩ => by
    have hreads : Tree.allPlaced 0 (lowerJoins joins ++ lowerTables tables ++
        subqueriesIn assignments ++ subqueriesIn selection) = true := by
      simp only [Tree.allPlaced_append, placed_lowerJoins 0 joins, placed_lowerTables 0 tables,
        placed_subqueriesIn 0 assignments, placed_subqueriesIn 0 selection, and_self]
    have hfactor := placed_lowerFactor 0 relation
    cases relation with
    | table name => exact Tree.allPlaced_append.2 ⟨placed_targets name, placed_reads hreads⟩
    | _ => exact placed_reads (Tree.allPlaced_cons.2 ⟨hfactor, hreads⟩)
  | .delete ⟨listed, tables, usingTables, selection, _, orderBy, _⟩ => by
    have hreads : Tree.allPlaced 0 (lowerTables usingTables ++ subqueriesIn selection ++
        subqueriesIn orderBy) = true := by
      simp only [Tree.allPlaced_append, placed_lowerTables 0 usingTables,
        placed_subqueriesIn 0 selection, placed_subqueriesIn 0 orderBy, and_self]
    obtain ⟨hwritten, hread⟩ := placed_deleteAll 0 tables
    have hlisted := placed_deleteListed 0 listed tables
    simp only [lower]
    split
    · have hall := Tree.allPlaced_append.2 ⟨hread, hreads⟩
      exact Tree.allPlaced_append.2 ⟨hwritten, placed_reads hall⟩
    · have htargets := Tree.allPlaced_map
        (fun name => placed_insertTarget 0 (deletionTarget tables name)) listed
      have hall := Tree.allPlaced_append.2 ⟨hlisted, hreads⟩
      exact Tree.allPlaced_append.2 ⟨htargets, placed_reads hall⟩
  | .merge ⟨table, source, condition, clauses, _⟩ => by
    have hreads : Tree.allPlaced 0 (lowerFactor source :: subqueries condition ++
        subqueriesIn clauses) = true := by
      simp only [Tree.allPlaced_append, Tree.allPlaced_cons, placed_lowerFactor 0 source,
        placed_subqueries 0 condition, placed_subqueriesIn 0 clauses, and_self]
    have hfactor := placed_lowerFactor 0 table
    cases table with
    | table name => exact Tree.allPlaced_append.2 ⟨placed_targets name, placed_reads hreads⟩
    | _ => exact placed_reads (Tree.allPlaced_cons.2 ⟨hfactor, hreads⟩)
  | .createTable ⟨name, _, none⟩ => Tree.allPlaced_append.2 ⟨placed_targets name, rfl⟩
  | .createTable ⟨name, _, some query⟩ =>
    Tree.allPlaced_append.2 ⟨placed_targets name, placed_single (placed_lowerQuery 0 query)⟩
  | .createView ⟨name, query⟩ =>
    Tree.allPlaced_append.2 ⟨placed_targets name, placed_single (placed_lowerQuery 0 query)⟩
  | .other head parts => placed_relations 0 (Statement.other head parts).relations

end

end Plan
end Lineage
