import Mathlib
import Lineage.Proofs.Plan.MadeRecursive
import Lineage.Proofs.Walk.Unblocked

/-
What a recursive `WITH` list hides.

The plans of related statements differ in how they keep the lists that were made
recursive.  Definitions of such a list see themselves, and nothing else changes: a
plan mentions what it mentioned before, less the tables that a definition reads under
its own name.
-/

namespace Lineage

namespace Thins

variable {α : Type} {p q : α → Prop} {as bs cs : List α}

theorem mono (h : Thins p as bs) (hpq : ∀ a, p a → q a) : Thins q as bs := by
  induction h with
  | nil => exact .nil
  | keep a _ ih => exact .keep a ih
  | drop ha _ ih => exact .drop (hpq _ ha) ih

theorem trans (h : Thins p as bs) (h' : Thins p bs cs) : Thins p as cs := by
  induction h generalizing cs with
  | nil => exact h'
  | keep a _ ih =>
    cases h' with
    | keep _ h' => exact .keep a (ih h')
    | drop ha h' => exact .drop ha (ih h')
  | drop ha _ ih => exact .drop ha (ih h')

theorem mem_or (h : Thins p as bs) {a : α} (ha : a ∈ as) : a ∈ bs ∨ p a := by
  induction h with
  | nil => exact .inl ha
  | keep b _ ih =>
    rcases List.mem_cons.1 ha with rfl | ha
    · exact .inl List.mem_cons_self
    · exact (ih ha).imp_left (List.mem_cons_of_mem _)
  | drop hb _ ih =>
    rcases List.mem_cons.1 ha with rfl | ha
    · exact .inr hb
    · exact ih ha

end Thins

namespace Tree

variable {κ : Type} [Vocabulary κ] {o : ExtractOptions} {more : Names}

/-- What trees mention side by side where they are read. -/
def readMentions (o : ExtractOptions) (visible : Names) (ts : List (Tree κ)) : List Mention :=
  childMentions o visible (fun _ => some .read) ts

theorem readMentions_append (visible : Names) (a b : List (Tree κ)) :
    readMentions o visible (a ++ b) = readMentions o visible a ++ readMentions o visible b := by
  simp only [readMentions, childMentions_eq_flatMap, List.flatMap_append]

theorem readMentions_single (visible : Names) (t : Tree κ) :
    readMentions o visible [t] = t.mentions o visible .read := List.append_nil _

/-- A block without definitions mentions what its children mention. -/
theorem readMentions_block {t : Tree κ} (hb : t.kind.opensScope = true)
    (h : ∀ c ∈ t.children, c.kind ≠ .cteDef) (visible : Names) :
    readMentions o visible [t] = readMentions o visible t.children := by
  rw [readMentions_single, mentions_block hb, blockNames_of_plain h, blockMentions_of_plain _ _ _ h]
  rfl

/-- The second trees mention what the first ones mention, less some of the tables
that are read under `more` names. -/
def Loses (o : ExtractOptions) (more : Names) (ts ts' : List (Tree κ)) : Prop :=
  ∀ visible, Thins (Hidden o more) (readMentions o visible ts) (readMentions o visible ts')

theorem Loses.refl (ts : List (Tree κ)) : Loses o more ts ts := fun _ => .refl _

theorem Loses.append {a a' b b' : List (Tree κ)} (ha : Loses o more a a')
    (hb : Loses o more b b') : Loses o more (a ++ b) (a' ++ b') := by
  intro visible
  rw [readMentions_append, readMentions_append]
  exact (ha visible).append (hb visible)

theorem Loses.cons {t t' : Tree κ} {ts ts' : List (Tree κ)} (h : Loses o more [t] [t'])
    (hs : Loses o more ts ts') : Loses o more (t :: ts) (t' :: ts') := h.append hs

/-- One more visible name hides the tables that are read under it. -/
theorem thins_mentions_bind {name : String} (hname : more (foldCase name) = true)
    (visible : Names) (t : Tree κ) :
    Thins (Hidden o more) (t.mentions o visible .read) (t.mentions o (visible.bind name) .read) := by
  have hbind : visible.bind name = (Names.none.bind name).union visible := by
    funext key
    simp [Names.bind, Names.union, Names.none]
  rw [hbind, mentions_union]
  refine (thins_keep (Names.none.bind name) (t.mentions o visible .read)).mono ?_
  rintro m ⟨-, hm⟩
  simp only [Names.hides, Names.bind, Names.none, Bool.and_eq_true, Bool.not_eq_true',
    decide_eq_true_eq, Bool.or_false] at hm
  obtain ⟨⟨hemit, haccess⟩, hbound⟩ := hm
  exact ⟨hemit, haccess, by rw [hbound]; exact hname⟩

end Tree

namespace Plan

open Sql

variable {o : ExtractOptions} {more : Names}

/-! ## Nodes -/

theorem loses_group {label : Node} {ts ts' : List PlanTree}
    (hl : label ∈ [.other, .values, .expr, .statement, .setOperation, .join, .derived])
    (h : Tree.Loses o more ts ts') :
    Tree.Loses o more [.branch label ts] [.branch label ts'] := by
  intro visible
  rw [Tree.readMentions_single, Tree.readMentions_single, Tree.mentions_group (kind_group hl ts),
    Tree.mentions_group (kind_group hl ts')]
  exact h visible

theorem loses_block {label : Node} {ts ts' : List PlanTree} (hl : label ∈ [.query, .select])
    (ht : ∀ t ∈ ts, t.kind ≠ .cteDef) (ht' : ∀ t ∈ ts', t.kind ≠ .cteDef)
    (h : Tree.Loses o more ts ts') :
    Tree.Loses o more [.branch label ts] [.branch label ts'] := by
  intro visible
  rw [Tree.readMentions_block (kind_block hl ts) ht, Tree.readMentions_block (kind_block hl ts') ht']
  exact h visible

theorem loses_write {label : Node} (hl : Vocabulary.kind label = .insert) (written : List ObjectName)
    {ts ts' : List PlanTree} (ht : ∀ t ∈ ts, ¬ t.isWritten = true)
    (ht' : ∀ t ∈ ts', ¬ t.isWritten = true) (h : Tree.Loses o more ts ts') :
    Tree.Loses o more [.branch label (written.map insertTarget ++ ts)]
      [.branch label (written.map insertTarget ++ ts')] := by
  intro visible
  rw [Tree.readMentions_single, Tree.readMentions_single, mentions_write hl visible written ht,
    mentions_write hl visible written ht']
  exact (Thins.refl _).append (h visible)

/-- A write whose reads are gathered below one child. -/
theorem loses_writeOther {label : Node} (hl : Vocabulary.kind label = .insert)
    (written : List ObjectName) {ts ts' : List PlanTree} (h : Tree.Loses o more ts ts') :
    Tree.Loses o more [.branch label (written.map insertTarget ++ [.branch .other ts])]
      [.branch label (written.map insertTarget ++ [.branch .other ts'])] :=
  loses_write hl written (not_written_other ts) (not_written_other ts')
    (loses_group (by decide) h)

theorem loses_writeQuery {label : Node} (hl : Vocabulary.kind label = .insert)
    (written : List ObjectName) {q q' : Query}
    (h : Tree.Loses o more [lowerQuery q] [lowerQuery q']) :
    Tree.Loses o more [.branch label (written.map insertTarget ++ [lowerQuery q])]
      [.branch label (written.map insertTarget ++ [lowerQuery q'])] :=
  loses_write hl written (not_written_query q) (not_written_query q') h

theorem readMentions_joined (visible : Names) (relation : PlanTree) (constraint : List PlanTree) :
    Tree.readMentions o visible [joined relation constraint] =
      Tree.readMentions o visible (relation :: constraint) := by
  unfold joined
  split
  · next h => rw [List.isEmpty_iff.1 h]
  · rw [Tree.readMentions_single, Tree.mentions_group (kind_group (by decide) _)]
    rfl

theorem loses_joined {relation relation' : PlanTree} {constraint constraint' : List PlanTree}
    (hr : Tree.Loses o more [relation] [relation'])
    (hc : Tree.Loses o more constraint constraint') :
    Tree.Loses o more [joined relation constraint] [joined relation' constraint'] := by
  intro visible
  rw [readMentions_joined, readMentions_joined]
  exact hr.cons hc visible

/-! ## Lists of definitions -/

/-- A definition mentions what its query mentions, where it may see itself. -/
theorem listMentions_lowerCtes_cons (recursive : Bool) (visible : Names) (aka : Alias)
    (query : Query) (ctes : List Cte) :
    Tree.listMentions o recursive visible (lowerCtes (⟨aka, query⟩ :: ctes)) =
      (lowerQuery query).mentions o
          (if recursive then visible.bind? (Cte.name? ⟨aka, query⟩) else visible) .read ++
        Tree.listMentions o recursive (visible.bind? (Cte.name? ⟨aka, query⟩)) (lowerCtes ctes) := by
  have hdefinition : (cteNode aka query).isDefinition = true := rfl
  show Tree.listMentions o recursive visible (cteNode aka query :: lowerCtes ctes) = _
  rw [Tree.listMentions, if_pos hdefinition, alias?_cteNode, Tree.bodyMentions_eq]
  exact congrArg (· ++ _) (List.append_nil _)

/-- Definitions that stand in a block by themselves form a list that is not recursive. -/
theorem blockMentions_lowerCtes (main visible : Names) (ctes : List Cte) :
    Tree.blockMentions o main visible (lowerCtes ctes) =
      Tree.listMentions o false visible (lowerCtes ctes) := by
  induction ctes generalizing visible with
  | nil => rfl
  | cons cte ctes ih =>
    obtain ⟨aka, query⟩ := cte
    have hkind : (cteNode aka query).kind = .cteDef := rfl
    have hsingle : (cteNode aka query).mentions o visible .read =
        (lowerQuery query).mentions o visible .read := by
      rw [Tree.mentions_cteDef hkind, if_neg (not_listing_cteNode aka query), Tree.bodyMentions_eq]
      exact List.append_nil _
    rw [listMentions_lowerCtes_cons, ← ih]
    show Tree.blockMentions o main visible (cteNode aka query :: lowerCtes ctes) = _
    rw [Tree.blockMentions, if_pos hkind, hsingle, definedNames_cteNode, Names.bindAll_toList]
    rfl

theorem kind_lowerCtes (ctes : List Cte) : ∀ t ∈ lowerCtes ctes, t.kind = .cteDef :=
  fun t ht => (isSingle_lowerCtes ctes t ht).1

/-- A query whose definitions stand below one node. -/
theorem readMentions_led {d : PlanTree} (hd : d.kind = .cteDef) {main : List PlanTree}
    (hmain : ∀ t ∈ main, t.kind ≠ .cteDef) (visible : Names) :
    Tree.readMentions o visible [.branch .query (d :: main)] =
      d.mentions o visible .read ++ Tree.readMentions o (visible.bindAll d.definedNames) main := by
  have hnames : Tree.blockNames (d :: main) = d.definedNames := by
    rw [Tree.blockNames_cons_of_cteDef hd, Tree.blockNames_of_plain hmain, List.append_nil]
  rw [Tree.readMentions_single, Tree.mentions_block rfl]
  show Tree.blockMentions o (visible.bindAll (Tree.blockNames (d :: main))) visible (d :: main) = _
  rw [hnames, Tree.blockMentions, if_pos hd, Tree.blockMentions_of_plain _ _ _ hmain]
  rfl

/-- A query mentions what its definitions mention, and behind them what its main body
mentions where it sees them.  A recursive list has to define something. -/
theorem readMentions_listed {recursive : Bool} {ctes : List Cte} (hne : recursive = true → ctes ≠ [])
    (visible : Names) (body : SetExpr) (orderBy bounds : List Expr) :
    Tree.readMentions o visible [lowerQuery ⟨some ⟨recursive, ctes⟩, body, orderBy, bounds⟩] =
      Tree.listMentions o recursive visible (lowerCtes ctes) ++
        Tree.readMentions o (visible.bindAll (cteNames ctes))
          (lowerBody body :: subqueriesIn orderBy) := by
  have hplain := plain_main body orderBy
  cases recursive with
  | false =>
    have hquery : lowerQuery ⟨some ⟨false, ctes⟩, body, orderBy, bounds⟩ =
      .branch .query (lowerCtes ctes ++ (lowerBody body :: subqueriesIn orderBy)) := rfl
    have hnames : Tree.blockNames (lowerCtes ctes ++ (lowerBody body :: subqueriesIn orderBy)) =
        cteNames ctes := by
      rw [Tree.blockNames_append, blockNames_lowerCtes, Tree.blockNames_of_plain hplain,
        List.append_nil]
    rw [hquery, Tree.readMentions_single, Tree.mentions_block rfl]
    show Tree.blockMentions o (visible.bindAll (Tree.blockNames (lowerCtes ctes ++ _))) visible
      (lowerCtes ctes ++ _) = _
    rw [hnames, Tree.blockMentions_definitions _ _ (kind_lowerCtes ctes), blockMentions_lowerCtes,
      Tree.blockMentions_of_plain _ _ _ hplain]
    rfl
  | true =>
    have hne := hne rfl
    have hkind : (recursiveNode ctes).kind = .cteDef := rfl
    have hlist : (recursiveNode ctes).mentions o visible .read =
        Tree.listMentions o true visible (lowerCtes ctes) := by
      rw [Tree.mentions_cteDef hkind, if_pos (listing_recursiveNode hne), isRecursive_recursiveNode]
      rfl
    have hled := readMentions_led (o := o) hkind hplain visible
    rw [hlist, definedNames_recursiveNode hne] at hled
    exact hled

theorem loses_listed {recursive recursive' : Bool} {ctes ctes' : List Cte} {body body' : SetExpr}
    {orderBy orderBy' : List Expr} (bounds bounds' : List Expr)
    (hne : recursive = true → ctes ≠ []) (hne' : recursive' = true → ctes' ≠ [])
    (hnames : cteNames ctes = cteNames ctes')
    (hctes : ∀ visible, Thins (Hidden o more)
      (Tree.listMentions o recursive visible (lowerCtes ctes))
      (Tree.listMentions o recursive' visible (lowerCtes ctes')))
    (hmain : Tree.Loses o more (lowerBody body :: subqueriesIn orderBy)
      (lowerBody body' :: subqueriesIn orderBy')) :
    Tree.Loses o more [lowerQuery ⟨some ⟨recursive, ctes⟩, body, orderBy, bounds⟩]
      [lowerQuery ⟨some ⟨recursive', ctes'⟩, body', orderBy', bounds'⟩] := by
  intro visible
  rw [readMentions_listed hne, readMentions_listed hne', ← hnames]
  exact (hctes visible).append (hmain _)

/-- A list that defines nothing, even one with the keyword in front. -/
theorem loses_unlisted {body body' : SetExpr} {orderBy orderBy' : List Expr}
    (bounds bounds' : List Expr)
    (hmain : Tree.Loses o more (lowerBody body :: subqueriesIn orderBy)
      (lowerBody body' :: subqueriesIn orderBy')) :
    Tree.Loses o more [lowerQuery ⟨some ⟨true, []⟩, body, orderBy, bounds⟩]
      [lowerQuery ⟨some ⟨true, []⟩, body', orderBy', bounds'⟩] := by
  intro visible
  have hkind : (recursiveNode []).kind = .cteDef := rfl
  show Thins _ (Tree.readMentions o visible [.branch .query (recursiveNode [] :: _)])
    (Tree.readMentions o visible [.branch .query (recursiveNode [] :: _)])
  rw [readMentions_led hkind (plain_main body orderBy), readMentions_led hkind (plain_main body' orderBy')]
  exact (Thins.refl _).append (hmain _)

/-- Definitions that see themselves lose what they read under their own names. -/
theorem thins_listMentions {ctes : List Cte} (hnames : ∀ name ∈ cteNames ctes, more (foldCase name) = true)
    (visible : Names) :
    Thins (Hidden o more) (Tree.listMentions o false visible (lowerCtes ctes))
      (Tree.listMentions o true visible (lowerCtes ctes)) := by
  induction ctes generalizing visible with
  | nil => exact .nil
  | cons cte ctes ih =>
    obtain ⟨aka, query⟩ := cte
    rw [cteNames_cons] at hnames
    have hrest := ih (fun name hname => hnames name (List.mem_append_right _ hname))
    rw [listMentions_lowerCtes_cons, listMentions_lowerCtes_cons]
    refine Thins.append ?_ (hrest _)
    cases hname : Cte.name? ⟨aka, query⟩ with
    | none => exact .refl _
    | some name =>
      refine Tree.thins_mentions_bind (hnames name (List.mem_append_left _ ?_)) visible _
      rw [hname]
      exact List.mem_singleton_self name

/-! ## Related statements -/

/-- Factors that are related are deleted together. -/
theorem deletedTable?_of_related {names : List String} {t t' : TableFactor}
    (h : TableFactor.MadeRecursive names t t') (listed : ObjectName) :
    deletedTable? t listed = deletedTable? t' listed := by
  cases h <;> rfl

theorem isDeleted_of_related {names : List String} {t t' : TableFactor}
    (h : TableFactor.MadeRecursive names t t') (listed : List ObjectName) :
    isDeleted listed t = isDeleted listed t' := by
  simp only [isDeleted, deletedTable?_of_related h]

theorem findSome?_joins {names : List String} {joins joins' : List Join}
    (h : JoinsMadeRecursive names joins joins') (listed : ObjectName) :
    (joins.map (·.relation)).findSome? (deletedTable? · listed) =
      (joins'.map (·.relation)).findSome? (deletedTable? · listed) := by
  induction joins generalizing joins' with
  | nil => cases h; rfl
  | cons join joins ih =>
    cases h with
    | refl => rfl
    | cons hrelation _ hs =>
      simp only [List.map_cons, List.findSome?_cons, deletedTable?_of_related hrelation, ih hs]

theorem deletionTarget_of_related {names : List String} {tables tables' : List TableWithJoins}
    (h : TablesMadeRecursive names tables tables') (listed : ObjectName) :
    deletionTarget tables listed = deletionTarget tables' listed := by
  have hfactors : (factors tables).findSome? (deletedTable? · listed) =
      (factors tables').findSome? (deletedTable? · listed) := by
    induction tables generalizing tables' with
    | nil => cases h; rfl
    | cons table tables ih =>
      cases h with
      | refl => rfl
      | cons h hs =>
        obtain ⟨hrelation, hjoins⟩ := h
        have ih := ih hs
        unfold factors at ih ⊢
        simp only [List.flatMap_cons, List.cons_append, List.findSome?_cons, List.findSome?_append,
          deletedTable?_of_related hrelation, findSome?_joins hjoins, ih]
  rw [deletionTarget, deletionTarget, hfactors]

theorem cteNames_of_related {names : List String} {ctes ctes' : List Cte}
    (h : CtesMadeRecursive names ctes ctes') : cteNames ctes = cteNames ctes' := by
  induction ctes generalizing ctes' with
  | nil => cases h; rfl
  | cons cte ctes ih =>
    cases h with
    | refl => rfl
    | cons aka _ hs =>
      rw [cteNames_cons, cteNames_cons, ih hs]
      rfl

theorem ne_nil_of_related {names : List String} {ctes ctes' : List Cte}
    (h : CtesMadeRecursive names ctes ctes') (hne : ctes ≠ []) : ctes' ≠ [] := by
  cases h with
  | refl => exact hne
  | cons => exact List.cons_ne_nil _ _

variable {names : List String}

/-- The names of the lists that were made recursive, in folded case. -/
def foldedNames (names : List String) : Names := Names.none.bindAll names

theorem foldedNames_of_mem {name : String} (h : name ∈ names) :
    foldedNames names (foldCase name) = true :=
  Names.mem_bindAll.2 (.inr (List.mem_map_of_mem h))

/-- Lists that are recursive both or neither. -/
theorem loses_alike (recursive : Bool) {ctes ctes' : List Cte} {body body' : SetExpr}
    {orderBy orderBy' : List Expr} (bounds bounds' : List Expr)
    (h : CtesMadeRecursive names ctes ctes')
    (hctes : ∀ visible, Thins (Hidden o more)
      (Tree.listMentions o recursive visible (lowerCtes ctes))
      (Tree.listMentions o recursive visible (lowerCtes ctes')))
    (hmain : Tree.Loses o more (lowerBody body :: subqueriesIn orderBy)
      (lowerBody body' :: subqueriesIn orderBy')) :
    Tree.Loses o more [lowerQuery ⟨some ⟨recursive, ctes⟩, body, orderBy, bounds⟩]
      [lowerQuery ⟨some ⟨recursive, ctes'⟩, body', orderBy', bounds'⟩] := by
  have hnames := cteNames_of_related h
  cases recursive with
  | false => exact loses_listed bounds bounds' nofun nofun hnames hctes hmain
  | true =>
    by_cases hne : ctes = []
    · subst hne
      cases h
      exact loses_unlisted bounds bounds' hmain
    · exact loses_listed bounds bounds' (fun _ => hne) (fun _ => ne_nil_of_related h hne) hnames
        hctes hmain

/-- What stands below a block of tables and expressions defines nothing. -/
theorem plain_select (tables : List TableWithJoins)
    (projection selection groupBy having qualify : List Expr) :
    ∀ t ∈ lowerTables tables ++ subqueriesIn projection ++ subqueriesIn selection ++
      subqueriesIn groupBy ++ subqueriesIn having ++ subqueriesIn qualify, t.kind ≠ .cteDef := by
  refine Tree.not_cteDef_of_allPlaced ?_
  simp only [Tree.allPlaced_append, placed_lowerTables, placed_subqueriesIn, and_self]

theorem written_of_related {t t' : TableFactor} (h : TableFactor.MadeRecursive names t t') :
    t.written = t'.written := by
  cases h <;> rfl

theorem isNamed_of_related {t t' : TableFactor} (h : TableFactor.MadeRecursive names t t') :
    t.isNamed = t'.isNamed := by
  cases h <;> rfl

/-- What is read of a factor that is written if it is a named table. -/
def readUnnamed (t : TableFactor) : List PlanTree := if t.isNamed then [] else [lowerFactor t]

theorem loses_readUnnamed {t t' : TableFactor} (h : TableFactor.MadeRecursive names t t')
    (hfactor : Tree.Loses o more [lowerFactor t] [lowerFactor t']) :
    Tree.Loses o more (readUnnamed t) (readUnnamed t') := by
  unfold readUnnamed
  rw [isNamed_of_related h]
  split
  · exact .refl _
  · exact hfactor

theorem lower_update (relation : TableFactor) (joins : List Join) (assignments : List Expr)
    (tables : List TableWithJoins) (selection operands : List Expr) :
    lower (.update ⟨⟨relation, joins⟩, assignments, tables, selection, operands⟩) =
      .branch .update (relation.written.map insertTarget ++
        [.branch .other (readUnnamed relation ++ (lowerJoins joins ++ lowerTables tables ++
          subqueriesIn assignments ++ subqueriesIn selection))]) := by
  cases relation <;> rfl

theorem lower_merge (table source : TableFactor) (condition : Expr) (clauses output : List Expr) :
    lower (.merge ⟨table, source, condition, clauses, output⟩) =
      .branch .merge (table.written.map insertTarget ++
        [.branch .other (readUnnamed table ++ (lowerFactor source :: subqueries condition ++
          subqueriesIn clauses))]) := by
  cases table <;> rfl

theorem read_deleteAll (relation : TableFactor) (joins : List Join) (ts : List TableWithJoins) :
    (deleteAll (⟨relation, joins⟩ :: ts)).2 =
      readUnnamed relation ++ (lowerJoins joins ++ (deleteAll ts).2) := by
  cases relation <;> rfl

/-- A `DELETE` that lists no tables. -/
theorem lower_deleteAll (tables usingTables : List TableWithJoins)
    (selection returning orderBy limit : List Expr) :
    lower (.delete ⟨[], tables, usingTables, selection, returning, orderBy, limit⟩) =
      .branch .delete ((tables.flatMap (·.relation.written)).map insertTarget ++
        [.branch .other ((deleteAll tables).2 ++ (lowerTables usingTables ++
          subqueriesIn selection ++ subqueriesIn orderBy))]) := by
  rw [← written_deleteAll]
  rfl

theorem lower_deleteListed (name : ObjectName) (more : List ObjectName)
    (tables usingTables : List TableWithJoins) (selection returning orderBy limit : List Expr) :
    lower (.delete ⟨name :: more, tables, usingTables, selection, returning, orderBy, limit⟩) =
      .branch .delete (((name :: more).map (deletionTarget tables)).map insertTarget ++
        [.branch .other (deleteListed (name :: more) tables ++ (lowerTables usingTables ++
          subqueriesIn selection ++ subqueriesIn orderBy))]) := by
  rw [List.map_map]
  rfl

theorem written_tables_of_related {tables tables' : List TableWithJoins}
    (h : TablesMadeRecursive names tables tables') :
    tables.flatMap (·.relation.written) = tables'.flatMap (·.relation.written) := by
  induction tables generalizing tables' with
  | nil => cases h; rfl
  | cons table tables ih =>
    cases h with
    | refl => rfl
    | cons h hs =>
      obtain ⟨hrelation, -⟩ := h
      rw [List.flatMap_cons, List.flatMap_cons, ih hs]
      exact congrArg (· ++ _) (written_of_related hrelation)

mutual

/-- The plans of related expressions, which are the subqueries in them. -/
theorem loses_subqueries (o : ExtractOptions) : ∀ {e e' : Expr}, Expr.MadeRecursive names e e' →
    Tree.Loses o (foldedNames names) (subqueries e) (subqueries e')
  | _, _, .refl _ => .refl _
  | _, _, .call _ h | _, _, .form _ h => loses_subqueriesIn o h
  | _, _, .subquery h => loses_group (by decide) (loses_lowerQuery o h)

theorem loses_subqueriesIn (o : ExtractOptions) : ∀ {es es' : List Expr},
    ExprsMadeRecursive names es es' →
    Tree.Loses o (foldedNames names) (subqueriesIn es) (subqueriesIn es')
  | _, _, .refl _ => .refl _
  | _, _, .cons h hs => (loses_subqueries o h).append (loses_subqueriesIn o hs)

theorem loses_lowerQuery (o : ExtractOptions) : ∀ {q q' : Query}, Query.MadeRecursive names q q' →
    Tree.Loses o (foldedNames names) [lowerQuery q] [lowerQuery q']
  | _, _, .refl _ => .refl _
  | _, _, .unlisted hbody horder _ =>
    loses_block (by decide) (plain_main _ _) (plain_main _ _)
      ((loses_lowerBody o hbody).cons (loses_subqueriesIn o horder))
  | _, _, .listed recursive hctes hbody horder _ =>
    loses_alike recursive _ _ hctes (loses_lowerCtes o recursive hctes)
      ((loses_lowerBody o hbody).cons (loses_subqueriesIn o horder))
  | _, _, .turned hne hnames hctes hbody horder _ =>
    -- first the list is made recursive, then its definitions are exchanged
    loses_listed _ _ nofun (fun _ => ne_nil_of_related hctes hne) (cteNames_of_related hctes)
      (fun visible => (thins_listMentions
        (fun name hname => foldedNames_of_mem (hnames name hname)) visible).trans
          (loses_lowerCtes o true hctes visible))
      ((loses_lowerBody o hbody).cons (loses_subqueriesIn o horder))

theorem loses_lowerCtes (o : ExtractOptions) (recursive : Bool) : ∀ {ctes ctes' : List Cte},
    CtesMadeRecursive names ctes ctes' → ∀ visible,
    Thins (Hidden o (foldedNames names))
      (Tree.listMentions o recursive visible (lowerCtes ctes))
      (Tree.listMentions o recursive visible (lowerCtes ctes'))
  | _, _, .refl _ => fun _ => .refl _
  | _, _, .cons aka h hs => fun visible => by
    rw [listMentions_lowerCtes_cons, listMentions_lowerCtes_cons, ← Tree.readMentions_single,
      ← Tree.readMentions_single]
    exact (loses_lowerQuery o h _).append (loses_lowerCtes o recursive hs _)

theorem loses_lowerBody (o : ExtractOptions) : ∀ {b b' : SetExpr}, SetExpr.MadeRecursive names b b' →
    Tree.Loses o (foldedNames names) [lowerBody b] [lowerBody b']
  | _, _, .refl _ => .refl _
  | _, _, .select h => loses_lowerSelect o h
  | _, _, .query h => loses_lowerQuery o h
  | _, _, .setOperation _ hleft hright =>
    loses_group (by decide) ((loses_lowerBody o hleft).cons (loses_lowerBody o hright))
  | _, _, .values h => loses_group (by decide) (loses_subqueriesIn o h)
  | _, _, .insert h => loses_lower o h
  | _, _, .write h => by
    have hrelations := h.relations
    rw [lowerBody, lowerBody, Statement.relations, Statement.relations, hrelations]
    exact .refl _

theorem loses_lowerSelect (o : ExtractOptions) : ∀ {b b' : Select}, Select.MadeRecursive names b b' →
    Tree.Loses o (foldedNames names) [lowerSelect b] [lowerSelect b']
  | _, _, .parts _ hprojection htables _ _ hselection hgroup _ hhaving _ hqualify _ =>
    loses_block (by decide) (plain_select _ _ _ _ _ _) (plain_select _ _ _ _ _ _)
      (((((loses_lowerTables o htables).append (loses_subqueriesIn o hprojection)).append
        (loses_subqueriesIn o hselection)).append (loses_subqueriesIn o hgroup)).append
        (loses_subqueriesIn o hhaving) |>.append (loses_subqueriesIn o hqualify))

theorem loses_lowerTables (o : ExtractOptions) : ∀ {ts ts' : List TableWithJoins},
    TablesMadeRecursive names ts ts' →
    Tree.Loses o (foldedNames names) (lowerTables ts) (lowerTables ts')
  | _, _, .refl _ => .refl _
  | _, _, .cons h hs => (loses_lowerTable o h).cons (loses_lowerTables o hs)

theorem loses_lowerTable (o : ExtractOptions) : ∀ {t t' : TableWithJoins},
    TableWithJoins.MadeRecursive names t t' →
    Tree.Loses o (foldedNames names) [lowerTable t] [lowerTable t']
  | _, _, .parts hrelation (.refl []) => loses_lowerFactor o hrelation
  | _, _, .parts hrelation (.refl (_ :: _)) =>
    loses_group (by decide) ((loses_lowerFactor o hrelation).cons (.refl _))
  | _, _, .parts hrelation (.cons hjoin hconstraint hs) =>
    loses_group (by decide) ((loses_lowerFactor o hrelation).cons
      ((loses_joined (loses_lowerFactor o hjoin) (loses_subqueriesIn o hconstraint)).cons
        (loses_lowerJoins o hs)))

theorem loses_lowerJoins (o : ExtractOptions) : ∀ {js js' : List Join},
    JoinsMadeRecursive names js js' →
    Tree.Loses o (foldedNames names) (lowerJoins js) (lowerJoins js')
  | _, _, .refl _ => .refl _
  | _, _, .cons hrelation hconstraint hs =>
    (loses_joined (loses_lowerFactor o hrelation) (loses_subqueriesIn o hconstraint)).cons
      (loses_lowerJoins o hs)

theorem loses_lowerFactor (o : ExtractOptions) : ∀ {t t' : TableFactor},
    TableFactor.MadeRecursive names t t' →
    Tree.Loses o (foldedNames names) [lowerFactor t] [lowerFactor t']
  | _, _, .refl _ => .refl _
  | _, _, .table _ _ _ => .refl _
  | _, _, .derived _ hquery _ =>
    loses_group (by decide) ((loses_lowerQuery o hquery).cons (.refl _))
  | _, _, .nested _ h => loses_lowerTable o h
  | _, _, .other head aka hinner hoperands => by
    have hrelations := (TableFactor.MadeRecursive.other head aka hinner hoperands).relations
    rw [lowerFactor, lowerFactor, TableFactor.relations, TableFactor.relations, hrelations]
    exact .refl _

/-- What a plain `DELETE` reads. -/
theorem loses_deleteAll (o : ExtractOptions) : ∀ {ts ts' : List TableWithJoins},
    TablesMadeRecursive names ts ts' →
    Tree.Loses o (foldedNames names) (deleteAll ts).2 (deleteAll ts').2
  | _, _, .refl _ => .refl _
  | _, _, .cons (.parts hrelation hjoins) hs => by
    rw [read_deleteAll, read_deleteAll]
    exact (loses_readUnnamed hrelation (loses_lowerFactor o hrelation)).append
      ((loses_lowerJoins o hjoins).append (loses_deleteAll o hs))

theorem loses_deleteListed (o : ExtractOptions) (listed : List ObjectName) :
    ∀ {ts ts' : List TableWithJoins}, TablesMadeRecursive names ts ts' →
    Tree.Loses o (foldedNames names) (deleteListed listed ts) (deleteListed listed ts')
  | _, _, .refl _ => .refl _
  | _, _, .cons (.parts hrelation hjoins) hs => by
    have hfactor := loses_lowerFactor o hrelation
    have hrest := (loses_deleteListedJoins o listed hjoins).append (loses_deleteListed o listed hs)
    rw [deleteListed, deleteListed, isDeleted_of_related hrelation, List.append_assoc,
      List.append_assoc]
    refine Tree.Loses.append ?_ hrest
    split
    · exact .refl _
    · exact hfactor

theorem loses_deleteListedJoins (o : ExtractOptions) (listed : List ObjectName) :
    ∀ {js js' : List Join}, JoinsMadeRecursive names js js' →
    Tree.Loses o (foldedNames names) (deleteListedJoins listed js) (deleteListedJoins listed js')
  | _, _, .refl _ => .refl _
  | _, _, .cons hrelation hconstraint hs => by
    have hjoin := loses_joined (loses_lowerFactor o hrelation) (loses_subqueriesIn o hconstraint)
    have hsubqueries := loses_subqueriesIn o hconstraint
    rw [deleteListedJoins, deleteListedJoins, isDeleted_of_related hrelation]
    refine Tree.Loses.append ?_ (loses_deleteListedJoins o listed hs)
    split
    · exact hsubqueries
    · exact hjoin

/-- The plans of related statements. -/
theorem loses_lower (o : ExtractOptions) : ∀ {s s' : Statement}, Statement.MadeRecursive names s s' →
    Tree.Loses o (foldedNames names) [lower s] [lower s']
  | _, _, .refl _ => .refl _
  | _, _, .query h => loses_lowerQuery o h
  | _, _, .insertOnly (.refl target) _ => by
    cases target <;> exact .refl _
  | _, _, .insertOnly (.function _) _ => .refl _
  | _, _, .insert (.refl target) hsource _ => by
    have hquery := loses_lowerQuery o hsource
    cases target with
    | table name => exact loses_writeQuery rfl [name] hquery
    | function => exact loses_writeQuery rfl [] hquery
  | _, _, .insert (.function _) hsource _ =>
    loses_writeQuery rfl [] (loses_lowerQuery o hsource)
  | _, _, .update (.parts hrelation hjoins) hassignments htables hselection _ => by
    have hreads := (((loses_lowerJoins o hjoins).append (loses_lowerTables o htables)).append
      (loses_subqueriesIn o hassignments)).append (loses_subqueriesIn o hselection)
    have hall := (loses_readUnnamed hrelation (loses_lowerFactor o hrelation)).append hreads
    rw [lower_update, lower_update, written_of_related hrelation]
    exact loses_writeOther rfl _ hall
  | _, _, .delete [] htables husing hselection _ horder _ => by
    have hreads := ((loses_lowerTables o husing).append (loses_subqueriesIn o hselection)).append
      (loses_subqueriesIn o horder)
    have hall := (loses_deleteAll o htables).append hreads
    rw [lower_deleteAll, lower_deleteAll, written_tables_of_related htables]
    exact loses_writeOther rfl _ hall
  | _, _, .delete (name :: more) htables husing hselection _ horder _ => by
    have hreads := ((loses_lowerTables o husing).append (loses_subqueriesIn o hselection)).append
      (loses_subqueriesIn o horder)
    have hall := (loses_deleteListed o (name :: more) htables).append hreads
    rw [lower_deleteListed, lower_deleteListed, funext (deletionTarget_of_related htables)]
    exact loses_writeOther rfl _ hall
  | _, _, .merge htable hsource hcondition hclauses _ => by
    have hreads := ((loses_lowerFactor o hsource).cons (loses_subqueries o hcondition)).append
      (loses_subqueriesIn o hclauses)
    have hall := (loses_readUnnamed htable (loses_lowerFactor o htable)).append hreads
    rw [lower_merge, lower_merge, written_of_related htable]
    exact loses_writeOther rfl _ hall
  | _, _, .createEmpty _ _ => .refl _
  | _, _, .createTable name _ hquery => loses_writeQuery rfl [name] (loses_lowerQuery o hquery)
  | _, _, .createView name h => loses_writeQuery rfl [name] (loses_lowerQuery o h)
  | _, _, .other head h => by
    have hrelations := (Statement.MadeRecursive.other head h).relations
    rw [lower, lower, Statement.relations, Statement.relations, hrelations]
    exact .refl _

end

/-- Related statements mention the same, up to tables that are read under the names of
the lists that were made recursive. -/
theorem thins_run_related (o : ExtractOptions) {s s' : Statement}
    (h : Statement.MadeRecursive names s s') :
    Thins (Hidden o (foldedNames names)) ((Walk.start (lower s)).run o).mentioned
      ((Walk.start (lower s')).run o).mentioned := by
  have hloses := loses_lower o h Names.none
  rw [Tree.readMentions_single, Tree.readMentions_single] at hloses
  rw [Tree.mentioned_run_start (placed_lower 0 s), Tree.mentioned_run_start (placed_lower 0 s')]
  exact hloses

/-- What making `WITH` lists recursive does to the record of a statement.  The targets
stay.  With definitions recorded by name, nothing changes.  Without, no source is new,
and one that is lost has the name of a definition in one of these lists. -/
theorem lineage_madeRecursive {names : List String} {s s' : Statement}
    (h : Statement.MadeRecursive names s s') (o : ExtractOptions) :
    ((lower s').lineage o).targets = ((lower s).lineage o).targets ∧
    (o.emitCteNames = true → (lower s').lineage o = (lower s).lineage o) ∧
    (o.emitCteNames = false →
      (∀ n ∈ ((lower s').lineage o).sources, n ∈ ((lower s).lineage o).sources) ∧
      ∀ n ∈ ((lower s).lineage o).sources, n ∉ ((lower s').lineage o).sources →
        ∃ name ∈ names, foldCase n.text = foldCase name) := by
  have hthins := thins_run_related o h
  simp only [Tree.lineage_eq_ofMentions_run, Record.mem_sources_ofMentions]
  refine ⟨?_, fun ho => ?_, fun _ => ⟨fun n hn => hthins.subset _ hn, fun n hn hlost => ?_⟩⟩
  · have hwritten := Record.names_write_of_thins hthins (fun _ hm => hm.access_eq)
    exact congrArg List.eraseDups hwritten.symm
  · have hnone : ∀ m, ¬ Hidden o (foldedNames names) m := fun m hm =>
      Bool.false_ne_true (hm.emit_eq.symm.trans ho)
    rw [hthins.eq_of_none hnone]
  · have hhidden := (hthins.mem_or hn).resolve_left hlost
    have hfolded := (Names.mem_bindAll.1 hhidden.bound).resolve_left Bool.false_ne_true
    obtain ⟨name, hname, heq⟩ := List.mem_map.1 hfolded
    exact ⟨name, hname, heq.symm⟩

/-- `WITH b AS (WITH a AS (SELECT * FROM A, t) SELECT * FROM a) SELECT * FROM b, t.a`,
with the inner list recursive or not. -/
def selfNamed (recursive : Bool) : Statement :=
  .query ⟨some ⟨false, [⟨⟨⟨"b", none⟩, []⟩,
      ⟨some ⟨recursive, [⟨⟨⟨"a", none⟩, []⟩,
          selectFrom [⟨named ["A"], []⟩, ⟨named ["t"], []⟩] []⟩]⟩,
        (selectFrom [⟨named ["a"], []⟩] []).body, [], []⟩⟩]⟩,
    (selectFrom [⟨named ["b"], []⟩, ⟨named ["t", "a"], []⟩] []).body, [], []⟩

theorem madeRecursive_selfNamed :
    Statement.MadeRecursive ["a"] (selfNamed false) (selfNamed true) :=
  .query (.listed false (.cons _ (.turned (List.cons_ne_nil _ _) (by decide) (.refl _) (.refl _)
    (.refl _) (.refl _)) (.refl _)) (.refl _) (.refl _) (.refl _))

theorem lineage_madeRecursive_selfNamed :
    Statement.MadeRecursive ["a"] (selfNamed false) (selfNamed true) ∧
    ((lower (selfNamed true)).lineage {}).targets = ((lower (selfNamed false)).lineage {}).targets ∧
    ((lower (selfNamed false)).lineage {}).sources.map (·.text) = ["A", "t", "t.a"] ∧
    ((lower (selfNamed true)).lineage {}).sources.map (·.text) = ["t", "t.a"] :=
  ⟨madeRecursive_selfNamed, (lineage_madeRecursive madeRecursive_selfNamed {}).1, by cbv, by cbv⟩

end Plan
end Lineage
