import Lineage.Proofs.Plan.Sources
import Lineage.Proofs.Plan.Uses
import Lineage.Proofs.Walk.Isolation

/-
What stands where in a plan.

A plan lists the tables that its statement uses.  Written tables stand right below
a write node; what the write only reads stands below a node that is not taken for a
table.  The proof that lowering builds such plans goes through the syntax once, and
whatever holds of every listing holds of every plan.
-/

namespace Lineage

/-! ## Read positions -/

namespace Tree

variable {κ : Type} [Vocabulary κ] {o : ExtractOptions}

/-- What trees mention that are all read, each with some names visible to it. -/
inductive ReadAs (o : ExtractOptions) : List (Tree κ) → List Mention → Prop where
  | nil : ReadAs o [] []
  | cons (t : Tree κ) (visible : Names) {ts : List (Tree κ)} {ms : List Mention}
    (h : ReadAs o ts ms) : ReadAs o (t :: ts) (t.mentions o visible .read ++ ms)

namespace ReadAs

theorem single {t : Tree κ} {ms : List Mention} (h : ReadAs o [t] ms) :
    ∃ visible, ms = t.mentions o visible .read := by
  cases h with
  | cons t visible h =>
    cases h with
    | nil => exact ⟨visible, List.append_nil _⟩

theorem split {a b : List (Tree κ)} {ms : List Mention} (h : ReadAs o (a ++ b) ms) :
    ∃ ms₁ ms₂, ms = ms₁ ++ ms₂ ∧ ReadAs o a ms₁ ∧ ReadAs o b ms₂ := by
  induction a generalizing ms with
  | nil => exact ⟨[], ms, rfl, .nil, h⟩
  | cons t a ih =>
    cases h with
    | cons t visible h =>
      obtain ⟨ms₁, ms₂, rfl, h₁, h₂⟩ := ih h
      exact ⟨t.mentions o visible .read ++ ms₁, ms₂, (List.append_assoc ..).symm,
        .cons t visible h₁, h₂⟩

end ReadAs

theorem readAs_childMentions (visible : Names) (ts : List (Tree κ)) :
    ReadAs o ts (childMentions o visible (fun _ => some .read) ts) := by
  induction ts with
  | nil => exact .nil
  | cons t ts ih => exact .cons t visible ih

/-- The main body of a block and its definitions see different names. -/
theorem readAs_blockMentions (main visible : Names) (ts : List (Tree κ)) :
    ReadAs o ts (blockMentions o main visible ts) := by
  induction ts generalizing visible with
  | nil => exact .nil
  | cons t ts ih =>
    rw [blockMentions]
    split
    · exact .cons t visible (ih _)
    · exact .cons t main (ih _)

/-- A `cteDef` node that is one definition and not a list of them. -/
def IsSingle (t : Tree κ) : Prop := t.kind = .cteDef ∧ ¬ t.children.any isDefinition = true

theorem IsSingle.isDefinition {t : Tree κ} (h : t.IsSingle) : t.isDefinition = true := by
  simp only [Tree.isDefinition, h.1]
  rfl

theorem IsSingle.mentions_eq {t : Tree κ} (h : t.IsSingle) (visible : Names) :
    t.mentions o visible .read = t.bodyMentions o visible := by
  rw [mentions_cteDef h.1, if_neg h.2]

theorem readAs_listMentions (recursive : Bool) (visible : Names) {ts : List (Tree κ)}
    (h : ∀ t ∈ ts, t.IsSingle) : ReadAs o ts (listMentions o recursive visible ts) := by
  induction ts generalizing visible with
  | nil => exact .nil
  | cons t ts ih =>
    have ht := h t List.mem_cons_self
    rw [listMentions, if_pos ht.isDefinition, ← ht.mentions_eq]
    exact .cons t _ (ih _ (fun t ht => h t (List.mem_cons_of_mem _ ht)))

end Tree

namespace Plan

open Sql

/-! ## Listings -/

/-- Plans side by side list the tables used in them, in preorder. -/
inductive Lists : List PlanTree → List Use → Prop where
  | nil : Lists [] []
  | append {a b : List PlanTree} {us vs : List Use} (ha : Lists a us) (hb : Lists b vs) :
    Lists (a ++ b) (us ++ vs)
  | relation (name : ObjectName) (aka : Option Alias) :
    Lists [.branch .relation (objectName name :: aliasLeaf aka)] [⟨.read, name⟩]
  | aliasLeaf (aka : Option Alias) : Lists (aliasLeaf aka) []
  | group {label : Node} {ts : List PlanTree} {us : List Use}
    (hl : label ∈ [.other, .values, .expr, .statement, .setOperation, .join, .derived])
    (h : Lists ts us) : Lists [.branch label ts] us
  | block {label : Node} {ts : List PlanTree} {us : List Use}
    (hl : label ∈ [.query, .select]) (h : Lists ts us) : Lists [.branch label ts] us
  | definition {name : String} {t : PlanTree} {us : List Use} (ht : t.kind = .query)
    (h : Lists [t] us) : Lists [.node .cte (some name) [t]] us
  | definitions {text : Option String} {ts : List PlanTree} {us : List Use}
    (ht : ∀ t ∈ ts, t.IsSingle) (h : Lists ts us) : Lists [.node .recursiveWith text ts] us
  | write {label : Node} {names : List ObjectName} {ts : List PlanTree} {us : List Use}
    (hl : Vocabulary.kind label = .insert) (ht : ∀ t ∈ ts, ¬ t.isWritten = true)
    (h : Lists ts us) :
    Lists [.branch label (names.map insertTarget ++ ts)] (usesAs .write names ++ us)

section shape

variable {label : Node}

theorem kind_group
    (hl : label ∈ [.other, .values, .expr, .statement, .setOperation, .join, .derived])
    (ts : List PlanTree) :
    (Tree.branch label ts).kind ∈ [.root, .other, .subqueryAlias, .join, .union] := by
  show Vocabulary.kind label ∈ _
  revert hl
  cases label <;> decide

theorem kind_block (hl : label ∈ [.query, .select]) (ts : List PlanTree) :
    (Tree.branch label ts).kind.opensScope = true := by
  show (Vocabulary.kind label).opensScope = true
  revert hl
  cases label <;> decide

theorem isSingle_definition (name : String) {t : PlanTree} (ht : t.kind = .query) :
    (Tree.node Node.cte (some name) [t]).IsSingle := by
  refine ⟨rfl, ?_⟩
  show ¬ [t].any Tree.isDefinition = true
  simp [Tree.isDefinition, ht]

end shape

namespace Lists

theorem cons {t : PlanTree} {ts : List PlanTree} {us vs : List Use} (h : Lists [t] us)
    (hs : Lists ts vs) : Lists (t :: ts) (us ++ vs) := append h hs

theorem relations (names : List ObjectName) : Lists (relations names) (usesAs .read names) := by
  induction names with
  | nil => exact .nil
  | cons name names ih => exact cons (.relation name none) ih

theorem joined {t : PlanTree} {ts : List PlanTree} {us vs : List Use} (h : Lists [t] us)
    (hs : Lists ts vs) : Lists [joined t ts] (us ++ vs) := by
  have hall := h.cons hs
  unfold Plan.joined
  split
  · next hempty =>
    rw [List.isEmpty_iff.1 hempty] at hall
    exact hall
  · exact .group (by decide) hall

theorem writeOnly (label : Node) (hl : Vocabulary.kind label = .insert)
    (names : List ObjectName) :
    Lists [.branch label (names.map insertTarget)] (usesAs .write names) := by
  have h : Lists [.branch label (names.map insertTarget ++ [])] (usesAs .write names ++ []) :=
    .write hl (fun t ht => absurd ht List.not_mem_nil) .nil
  rwa [List.append_nil, List.append_nil] at h

/-- A write of some tables whose reads are gathered below one child. -/
theorem writeOther (label : Node) (hl : Vocabulary.kind label = .insert)
    (names : List ObjectName) {ts : List PlanTree} {us : List Use} (h : Lists ts us) :
    Lists [.branch label (names.map insertTarget ++ [.branch .other ts])]
      (usesAs .write names ++ us) :=
  .write hl (not_written_other ts) (.group (by decide) h)

theorem writeQuery (label : Node) (hl : Vocabulary.kind label = .insert)
    (names : List ObjectName) {query : Query} {us : List Use} (h : Lists [lowerQuery query] us) :
    Lists [.branch label (names.map insertTarget ++ [lowerQuery query])]
      (usesAs .write names ++ us) :=
  .write hl (not_written_query query) h

/-- A write of a factor reads the factor unless it is a named table. -/
theorem writeFactor (label : Node) (hl : Vocabulary.kind label = .insert) {factor : TableFactor}
    (hfactor : Lists [lowerFactor factor] factor.uses) {ts : List PlanTree} {us : List Use}
    (h : Lists ts us) :
    Lists [.branch label (factor.written.map insertTarget ++
        [.branch .other ((if factor.isNamed then [] else [lowerFactor factor]) ++ ts)])]
      (usesAs .write factor.written ++ ((if factor.isNamed then [] else factor.uses) ++ us)) := by
  refine writeOther label hl factor.written (append ?_ h)
  split
  · exact .nil
  · exact hfactor

end Lists

/-! ## Lowering lists uses -/

theorem isSingle_lowerCtes (ctes : List Cte) : ∀ t ∈ lowerCtes ctes, t.IsSingle := by
  induction ctes with
  | nil => exact fun t ht => absurd ht List.not_mem_nil
  | cons cte ctes ih =>
    obtain ⟨aka, query⟩ := cte
    intro t ht
    rcases List.mem_cons.1 ht with rfl | ht
    · exact ⟨rfl, not_listing_cteNode aka query⟩
    · exact ih t ht

/-- The named tables of a plain `DELETE` come first. -/
theorem written_deleteAll (tables : List TableWithJoins) :
    (deleteAll tables).1 = (tables.flatMap (·.relation.written)).map insertTarget := by
  induction tables with
  | nil => rfl
  | cons t tables ih =>
    obtain ⟨relation, joins⟩ := t
    cases relation with
    | table name => exact congrArg (insertTarget name :: ·) ih
    | _ => exact ih

mutual

theorem lists_subqueries : (e : Expr) → Lists (subqueries e) e.uses
  | .column _ | .literal _ => .nil
  | .call _ operands | .form _ operands => lists_subqueriesIn operands
  | .subquery query => .group (by decide) (lists_lowerQuery query)

theorem lists_subqueriesIn : (es : List Expr) → Lists (subqueriesIn es) (exprUses es)
  | [] => .nil
  | e :: es => .append (lists_subqueries e) (lists_subqueriesIn es)

theorem lists_lowerQuery : (q : Query) → Lists [lowerQuery q] q.uses
  | ⟨none, body, orderBy, _⟩ =>
    .block (by decide) ((lists_lowerBody body).cons (lists_subqueriesIn orderBy))
  | ⟨some ⟨false, ctes⟩, body, orderBy, _⟩ => by
    have hmain := (lists_lowerBody body).cons (lists_subqueriesIn orderBy)
    exact .block (by decide) ((lists_lowerCtes ctes).append hmain)
  | ⟨some ⟨true, ctes⟩, body, orderBy, _⟩ => by
    have hmain := (lists_lowerBody body).cons (lists_subqueriesIn orderBy)
    have hctes : Lists [recursiveNode ctes] (cteUses ctes) :=
      .definitions (isSingle_lowerCtes ctes) (lists_lowerCtes ctes)
    exact .block (by decide) (hctes.cons hmain)

theorem lists_lowerCtes : (ctes : List Cte) → Lists (lowerCtes ctes) (cteUses ctes)
  | [] => .nil
  | ⟨aka, query⟩ :: ctes => by
    have hcte : Lists [cteNode aka query] query.uses :=
      .definition (kind_lowerQuery query) (lists_lowerQuery query)
    exact hcte.cons (lists_lowerCtes ctes)

theorem lists_lowerBody : (body : SetExpr) → Lists [lowerBody body] body.uses
  | .select block => lists_lowerSelect block
  | .query query => lists_lowerQuery query
  | .setOperation _ left right => by
    have hboth := (lists_lowerBody left).cons (lists_lowerBody right)
    exact .group (by decide) hboth
  | .insert statement => lists_lower statement
  | .values rows => .group (by decide) (lists_subqueriesIn rows)
  | .table _ => .group (by decide) .nil
  | .write statement => .group (by decide) (.relations statement.relations)

theorem lists_lowerSelect : (block : Select) → Lists [lowerSelect block] block.uses
  | ⟨_, projection, tables, _, _, selection, groupBy, _, having, _, qualify, _⟩ =>
    .block (by decide) <|
      .append (.append (.append (.append (.append (lists_lowerTables tables)
        (lists_subqueriesIn projection)) (lists_subqueriesIn selection))
        (lists_subqueriesIn groupBy)) (lists_subqueriesIn having)) (lists_subqueriesIn qualify)

theorem lists_lowerTables : (tables : List TableWithJoins) →
    Lists (lowerTables tables) (tablesUses tables)
  | [] => .nil
  | t :: ts => (lists_lowerTable t).cons (lists_lowerTables ts)

theorem lists_lowerTable : (t : TableWithJoins) → Lists [lowerTable t] t.uses
  | ⟨relation, []⟩ => by
    rw [TableWithJoins.uses, joinUses, List.append_nil]
    exact lists_lowerFactor relation
  | ⟨relation, j :: joins⟩ =>
    .group (by decide) ((lists_lowerFactor relation).cons (lists_lowerJoins (j :: joins)))

theorem lists_lowerJoins : (joins : List Join) → Lists (lowerJoins joins) (joinUses joins)
  | [] => .nil
  | ⟨relation, constraint⟩ :: joins => by
    have hjoin := (lists_lowerFactor relation).joined (lists_subqueriesIn constraint)
    exact hjoin.cons (lists_lowerJoins joins)

theorem lists_lowerFactor : (factor : TableFactor) → Lists [lowerFactor factor] factor.uses
  | .table name aka _ => .relation name aka
  | .derived query aka _ => by
    have hall := (lists_lowerQuery query).cons (.aliasLeaf aka)
    rw [List.append_nil] at hall
    exact .group (by decide) hall
  | .nested tables _ => lists_lowerTable tables
  | .other head inner operands aka =>
    .group (by decide) (.relations (TableFactor.other head inner operands aka).relations)

theorem lists_deleteAll : (tables : List TableWithJoins) →
    Lists (deleteAll tables).2 (deletionUses TableFactor.isNamed (fun _ => false) tables)
  | [] => .nil
  | ⟨relation, joins⟩ :: ts => by
    have hfactor := lists_lowerFactor relation
    have hjoins := lists_lowerJoins joins
    -- without a list of tables, no joined table is deleted
    rw [← deletionJoinUses_none] at hjoins
    have hreads := hjoins.append (lists_deleteAll ts)
    rw [deletionUses, List.append_assoc]
    cases relation with
    | table name => exact hreads
    | _ => exact hfactor.cons hreads

theorem lists_deleteListed (listed : List ObjectName) : (tables : List TableWithJoins) →
    Lists (deleteListed listed tables) (deletionUses (isDeleted listed) (isDeleted listed) tables)
  | [] => .nil
  | ⟨relation, joins⟩ :: ts => by
    have hrelation : Lists (if isDeleted listed relation then [] else [lowerFactor relation])
        (if isDeleted listed relation then [] else relation.uses) := by
      split
      · exact .nil
      · exact lists_lowerFactor relation
    exact (hrelation.append (lists_deleteListedJoins listed joins)).append
      (lists_deleteListed listed ts)

theorem lists_deleteListedJoins (listed : List ObjectName) : (joins : List Join) →
    Lists (deleteListedJoins listed joins) (deletionJoinUses (isDeleted listed) joins)
  | [] => .nil
  | ⟨relation, constraint⟩ :: joins => by
    have hconstraint := lists_subqueriesIn constraint
    have hjoin : Lists (if isDeleted listed relation then subqueriesIn constraint
        else [joined (lowerFactor relation) (subqueriesIn constraint)])
        ((if isDeleted listed relation then [] else relation.uses) ++ exprUses constraint) := by
      split
      · exact hconstraint
      · exact (lists_lowerFactor relation).joined hconstraint
    exact hjoin.append (lists_deleteListedJoins listed joins)

theorem lists_lower : (s : Statement) → Lists [lower s] s.uses
  | .query query => lists_lowerQuery query
  | .insert ⟨.table name, none, _⟩ => .writeOnly .insert rfl [name]
  | .insert ⟨.table name, some source, _⟩ => .writeQuery .insert rfl [name] (lists_lowerQuery source)
  | .insert ⟨.function _, none, _⟩ => .writeOnly .insert rfl []
  | .insert ⟨.function _, some source, _⟩ => .writeQuery .insert rfl [] (lists_lowerQuery source)
  | .update ⟨⟨relation, joins⟩, assignments, tables, selection, _⟩ => by
    have hfactor := lists_lowerFactor relation
    have hreads := (((lists_lowerJoins joins).append (lists_lowerTables tables)).append
      (lists_subqueriesIn assignments)).append (lists_subqueriesIn selection)
    have hwrite := Lists.writeFactor .update rfl hfactor hreads
    -- only a named table is written and not read
    cases relation <;> exact hwrite
  | .delete ⟨[], tables, usingTables, selection, _, orderBy, _⟩ => by
    have hreads := ((lists_lowerTables usingTables).append (lists_subqueriesIn selection)).append
      (lists_subqueriesIn orderBy)
    have hdelete := Lists.writeOther .delete rfl (tables.flatMap (·.relation.written))
      ((lists_deleteAll tables).append hreads)
    rw [← written_deleteAll] at hdelete
    exact hdelete
  | .delete ⟨name :: names, tables, usingTables, selection, _, orderBy, _⟩ => by
    have hreads := ((lists_lowerTables usingTables).append (lists_subqueriesIn selection)).append
      (lists_subqueriesIn orderBy)
    have hdelete := Lists.writeOther .delete rfl
      ((name :: names).map (deletionTarget tables))
      ((lists_deleteListed (name :: names) tables).append hreads)
    rw [List.map_map] at hdelete
    exact hdelete
  | .merge ⟨table, source, condition, clauses, _⟩ => by
    have hfactor := lists_lowerFactor table
    have hreads := ((lists_lowerFactor source).cons (lists_subqueries condition)).append
      (lists_subqueriesIn clauses)
    have hwrite := Lists.writeFactor .merge rfl hfactor hreads
    cases table <;> exact hwrite
  | .createTable ⟨name, _, none⟩ => .writeOnly .createTableAs rfl [name]
  | .createTable ⟨name, _, some query⟩ =>
    .writeQuery .createTableAs rfl [name] (lists_lowerQuery query)
  | .createView ⟨name, query⟩ => .writeQuery .createView rfl [name] (lists_lowerQuery query)
  | .other head parts => .group (by decide) (.relations (Statement.other head parts).relations)

end

end Plan
end Lineage
