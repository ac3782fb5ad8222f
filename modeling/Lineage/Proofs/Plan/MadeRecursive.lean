import Mathlib
import Lineage.Proofs.Plan.Overlooked

/-
Statements in which `WITH` lists are made recursive.

Two statements are related if they differ in the keyword only, in front of any
number of lists that define something.  The relation goes through the syntax along
with it: each construct relates its parts, and any part may be left as it is.
-/

namespace Lineage
namespace Sql

mutual

/-- The second expression is the first one with some `WITH` lists made recursive, all
of whose definitions are among `names`. -/
inductive Expr.MadeRecursive (names : List String) : Expr → Expr → Prop where
  | refl (e : Expr) : Expr.MadeRecursive names e e
  | call (function : ObjectName) {operands operands' : List Expr}
    (h : ExprsMadeRecursive names operands operands') :
    Expr.MadeRecursive names (.call function operands) (.call function operands')
  | form (head : String) {operands operands' : List Expr}
    (h : ExprsMadeRecursive names operands operands') :
    Expr.MadeRecursive names (.form head operands) (.form head operands')
  | subquery {query query' : Query} (h : Query.MadeRecursive names query query') :
    Expr.MadeRecursive names (.subquery query) (.subquery query')

inductive ExprsMadeRecursive (names : List String) : List Expr → List Expr → Prop where
  | refl (es : List Expr) : ExprsMadeRecursive names es es
  | cons {e e' : Expr} {es es' : List Expr} (h : Expr.MadeRecursive names e e')
    (hs : ExprsMadeRecursive names es es') : ExprsMadeRecursive names (e :: es) (e' :: es')

inductive Query.MadeRecursive (names : List String) : Query → Query → Prop where
  | refl (query : Query) : Query.MadeRecursive names query query
  | unlisted {body body' : SetExpr} {orderBy orderBy' bounds bounds' : List Expr}
    (hbody : SetExpr.MadeRecursive names body body')
    (horder : ExprsMadeRecursive names orderBy orderBy')
    (hbounds : ExprsMadeRecursive names bounds bounds') :
    Query.MadeRecursive names ⟨none, body, orderBy, bounds⟩ ⟨none, body', orderBy', bounds'⟩
  | listed (recursive : Bool) {ctes ctes' : List Cte} {body body' : SetExpr}
    {orderBy orderBy' bounds bounds' : List Expr} (hctes : CtesMadeRecursive names ctes ctes')
    (hbody : SetExpr.MadeRecursive names body body')
    (horder : ExprsMadeRecursive names orderBy orderBy')
    (hbounds : ExprsMadeRecursive names bounds bounds') :
    Query.MadeRecursive names ⟨some ⟨recursive, ctes⟩, body, orderBy, bounds⟩
      ⟨some ⟨recursive, ctes'⟩, body', orderBy', bounds'⟩
  /-- The keyword is put in front of a list that is not empty. -/
  | turned {ctes ctes' : List Cte} {body body' : SetExpr}
    {orderBy orderBy' bounds bounds' : List Expr} (hne : ctes ≠ [])
    (hnames : ∀ name ∈ cteNames ctes, name ∈ names) (hctes : CtesMadeRecursive names ctes ctes')
    (hbody : SetExpr.MadeRecursive names body body')
    (horder : ExprsMadeRecursive names orderBy orderBy')
    (hbounds : ExprsMadeRecursive names bounds bounds') :
    Query.MadeRecursive names ⟨some ⟨false, ctes⟩, body, orderBy, bounds⟩
      ⟨some ⟨true, ctes'⟩, body', orderBy', bounds'⟩

inductive CtesMadeRecursive (names : List String) : List Cte → List Cte → Prop where
  | refl (ctes : List Cte) : CtesMadeRecursive names ctes ctes
  | cons (aka : Alias) {query query' : Query} {ctes ctes' : List Cte}
    (h : Query.MadeRecursive names query query') (hs : CtesMadeRecursive names ctes ctes') :
    CtesMadeRecursive names (⟨aka, query⟩ :: ctes) (⟨aka, query'⟩ :: ctes')

inductive SetExpr.MadeRecursive (names : List String) : SetExpr → SetExpr → Prop where
  | refl (body : SetExpr) : SetExpr.MadeRecursive names body body
  | select {block block' : Select} (h : Select.MadeRecursive names block block') :
    SetExpr.MadeRecursive names (.select block) (.select block')
  | query {query query' : Query} (h : Query.MadeRecursive names query query') :
    SetExpr.MadeRecursive names (.query query) (.query query')
  | setOperation (operator : SetOperator) {left left' right right' : SetExpr}
    (hleft : SetExpr.MadeRecursive names left left')
    (hright : SetExpr.MadeRecursive names right right') :
    SetExpr.MadeRecursive names (.setOperation operator left right)
      (.setOperation operator left' right')
  | values {rows rows' : List Expr} (h : ExprsMadeRecursive names rows rows') :
    SetExpr.MadeRecursive names (.values rows) (.values rows')
  | insert {s s' : Statement} (h : Statement.MadeRecursive names s s') :
    SetExpr.MadeRecursive names (.insert s) (.insert s')
  | write {s s' : Statement} (h : Statement.MadeRecursive names s s') :
    SetExpr.MadeRecursive names (.write s) (.write s')

inductive Select.MadeRecursive (names : List String) : Select → Select → Prop where
  | parts {leading leading' projection projection' : List Expr}
    {tables tables' : List TableWithJoins} {lateralViews lateralViews' prewhere prewhere' selection
      selection' groupBy groupBy' placement placement' having having' windows windows' qualify
      qualify' connectBy connectBy' : List Expr}
    (hleading : ExprsMadeRecursive names leading leading')
    (hprojection : ExprsMadeRecursive names projection projection')
    (htables : TablesMadeRecursive names tables tables')
    (hlateral : ExprsMadeRecursive names lateralViews lateralViews')
    (hprewhere : ExprsMadeRecursive names prewhere prewhere')
    (hselection : ExprsMadeRecursive names selection selection')
    (hgroup : ExprsMadeRecursive names groupBy groupBy')
    (hplacement : ExprsMadeRecursive names placement placement')
    (hhaving : ExprsMadeRecursive names having having')
    (hwindows : ExprsMadeRecursive names windows windows')
    (hqualify : ExprsMadeRecursive names qualify qualify')
    (hconnect : ExprsMadeRecursive names connectBy connectBy') :
    Select.MadeRecursive names
      ⟨leading, projection, tables, lateralViews, prewhere, selection, groupBy, placement, having,
        windows, qualify, connectBy⟩
      ⟨leading', projection', tables', lateralViews', prewhere', selection', groupBy', placement',
        having', windows', qualify', connectBy'⟩

inductive TableFactor.MadeRecursive (names : List String) : TableFactor → TableFactor → Prop where
  | refl (factor : TableFactor) : TableFactor.MadeRecursive names factor factor
  | table (name : ObjectName) (aka : Option Alias) {operands operands' : List Expr}
    (h : ExprsMadeRecursive names operands operands') :
    TableFactor.MadeRecursive names (.table name aka operands) (.table name aka operands')
  | derived {query query' : Query} (aka : Option Alias) {sample sample' : List Expr}
    (hquery : Query.MadeRecursive names query query')
    (hsample : ExprsMadeRecursive names sample sample') :
    TableFactor.MadeRecursive names (.derived query aka sample) (.derived query' aka sample')
  | nested {tables tables' : TableWithJoins} (aka : Option Alias)
    (h : TableWithJoins.MadeRecursive names tables tables') :
    TableFactor.MadeRecursive names (.nested tables aka) (.nested tables' aka)
  | other (head : String) {inner inner' : List TableFactor} {operands operands' : List Expr}
    (aka : Option Alias) (hinner : FactorsMadeRecursive names inner inner')
    (hoperands : ExprsMadeRecursive names operands operands') :
    TableFactor.MadeRecursive names (.other head inner operands aka)
      (.other head inner' operands' aka)

inductive FactorsMadeRecursive (names : List String) : List TableFactor → List TableFactor → Prop where
  | refl (factors : List TableFactor) : FactorsMadeRecursive names factors factors
  | cons {factor factor' : TableFactor} {factors factors' : List TableFactor}
    (h : TableFactor.MadeRecursive names factor factor')
    (hs : FactorsMadeRecursive names factors factors') :
    FactorsMadeRecursive names (factor :: factors) (factor' :: factors')

inductive TableWithJoins.MadeRecursive (names : List String) :
    TableWithJoins → TableWithJoins → Prop where
  | parts {relation relation' : TableFactor} {joins joins' : List Join}
    (hrelation : TableFactor.MadeRecursive names relation relation')
    (hjoins : JoinsMadeRecursive names joins joins') :
    TableWithJoins.MadeRecursive names ⟨relation, joins⟩ ⟨relation', joins'⟩

inductive TablesMadeRecursive (names : List String) :
    List TableWithJoins → List TableWithJoins → Prop where
  | refl (tables : List TableWithJoins) : TablesMadeRecursive names tables tables
  | cons {table table' : TableWithJoins} {tables tables' : List TableWithJoins}
    (h : TableWithJoins.MadeRecursive names table table')
    (hs : TablesMadeRecursive names tables tables') :
    TablesMadeRecursive names (table :: tables) (table' :: tables')

inductive JoinsMadeRecursive (names : List String) : List Join → List Join → Prop where
  | refl (joins : List Join) : JoinsMadeRecursive names joins joins
  | cons {relation relation' : TableFactor} {constraint constraint' : List Expr}
    {joins joins' : List Join} (hrelation : TableFactor.MadeRecursive names relation relation')
    (hconstraint : ExprsMadeRecursive names constraint constraint')
    (hs : JoinsMadeRecursive names joins joins') :
    JoinsMadeRecursive names (⟨relation, constraint⟩ :: joins) (⟨relation', constraint'⟩ :: joins')

inductive Statement.MadeRecursive (names : List String) : Statement → Statement → Prop where
  | refl (s : Statement) : Statement.MadeRecursive names s s
  | query {query query' : Query} (h : Query.MadeRecursive names query query') :
    Statement.MadeRecursive names (.query query) (.query query')
  | insertOnly {target target' : InsertTarget} {operands operands' : List Expr}
    (htarget : InsertTarget.MadeRecursive names target target')
    (hoperands : ExprsMadeRecursive names operands operands') :
    Statement.MadeRecursive names (.insert ⟨target, none, operands⟩)
      (.insert ⟨target', none, operands'⟩)
  | insert {target target' : InsertTarget} {source source' : Query}
    {operands operands' : List Expr} (htarget : InsertTarget.MadeRecursive names target target')
    (hsource : Query.MadeRecursive names source source')
    (hoperands : ExprsMadeRecursive names operands operands') :
    Statement.MadeRecursive names (.insert ⟨target, some source, operands⟩)
      (.insert ⟨target', some source', operands'⟩)
  | update {table table' : TableWithJoins} {assignments assignments' : List Expr}
    {tables tables' : List TableWithJoins} {selection selection' operands operands' : List Expr}
    (htable : TableWithJoins.MadeRecursive names table table')
    (hassignments : ExprsMadeRecursive names assignments assignments')
    (htables : TablesMadeRecursive names tables tables')
    (hselection : ExprsMadeRecursive names selection selection')
    (hoperands : ExprsMadeRecursive names operands operands') :
    Statement.MadeRecursive names (.update ⟨table, assignments, tables, selection, operands⟩)
      (.update ⟨table', assignments', tables', selection', operands'⟩)
  | delete (listed : List ObjectName) {tables tables' usingTables usingTables' : List TableWithJoins}
    {selection selection' returning returning' orderBy orderBy' limit limit' : List Expr}
    (htables : TablesMadeRecursive names tables tables')
    (husing : TablesMadeRecursive names usingTables usingTables')
    (hselection : ExprsMadeRecursive names selection selection')
    (hreturning : ExprsMadeRecursive names returning returning')
    (horder : ExprsMadeRecursive names orderBy orderBy')
    (hlimit : ExprsMadeRecursive names limit limit') :
    Statement.MadeRecursive names
      (.delete ⟨listed, tables, usingTables, selection, returning, orderBy, limit⟩)
      (.delete ⟨listed, tables', usingTables', selection', returning', orderBy', limit'⟩)
  | merge {table table' source source' : TableFactor} {condition condition' : Expr}
    {clauses clauses' output output' : List Expr}
    (htable : TableFactor.MadeRecursive names table table')
    (hsource : TableFactor.MadeRecursive names source source')
    (hcondition : Expr.MadeRecursive names condition condition')
    (hclauses : ExprsMadeRecursive names clauses clauses')
    (houtput : ExprsMadeRecursive names output output') :
    Statement.MadeRecursive names (.merge ⟨table, source, condition, clauses, output⟩)
      (.merge ⟨table', source', condition', clauses', output'⟩)
  | createEmpty (name : ObjectName) {columns columns' : List Expr}
    (h : ExprsMadeRecursive names columns columns') :
    Statement.MadeRecursive names (.createTable ⟨name, columns, none⟩)
      (.createTable ⟨name, columns', none⟩)
  | createTable (name : ObjectName) {columns columns' : List Expr} {query query' : Query}
    (hcolumns : ExprsMadeRecursive names columns columns')
    (hquery : Query.MadeRecursive names query query') :
    Statement.MadeRecursive names (.createTable ⟨name, columns, some query⟩)
      (.createTable ⟨name, columns', some query'⟩)
  | createView (name : ObjectName) {query query' : Query}
    (h : Query.MadeRecursive names query query') :
    Statement.MadeRecursive names (.createView ⟨name, query⟩) (.createView ⟨name, query'⟩)
  | other (head : String) {parts parts' : List Part} (h : PartsMadeRecursive names parts parts') :
    Statement.MadeRecursive names (.other head parts) (.other head parts')

inductive InsertTarget.MadeRecursive (names : List String) : InsertTarget → InsertTarget → Prop where
  | refl (target : InsertTarget) : InsertTarget.MadeRecursive names target target
  | function {call call' : Expr} (h : Expr.MadeRecursive names call call') :
    InsertTarget.MadeRecursive names (.function call) (.function call')

inductive PartsMadeRecursive (names : List String) : List Part → List Part → Prop where
  | refl (parts : List Part) : PartsMadeRecursive names parts parts
  | relation (name : ObjectName) {parts parts' : List Part}
    (hs : PartsMadeRecursive names parts parts') :
    PartsMadeRecursive names (.relation name :: parts) (.relation name :: parts')
  | expr {e e' : Expr} {parts parts' : List Part} (h : Expr.MadeRecursive names e e')
    (hs : PartsMadeRecursive names parts parts') :
    PartsMadeRecursive names (.expr e :: parts) (.expr e' :: parts')
  | statement {s s' : Statement} {parts parts' : List Part}
    (h : Statement.MadeRecursive names s s') (hs : PartsMadeRecursive names parts parts') :
    PartsMadeRecursive names (.statement s :: parts) (.statement s' :: parts')

end

/-! ## The tables that are mentioned -/

section relations

theorem relationsIn_relation (name : ObjectName) (visits : List Visit) :
    relationsIn (.relation name :: visits) = name :: relationsIn visits := rfl

theorem relationsIn_enter (query : Query) (visits : List Visit) :
    relationsIn (.enter query :: visits) = relationsIn visits := rfl

end relations

variable {names : List String}

mutual

/-- Making lists recursive moves no table. -/
theorem Expr.MadeRecursive.relations : ∀ {e e' : Expr}, Expr.MadeRecursive names e e' →
    relationsIn e.visits = relationsIn e'.visits
  | _, _, .refl _ => rfl
  | _, _, .call _ h | _, _, .form _ h => h.relations
  | _, _, .subquery h => h.relations

theorem ExprsMadeRecursive.relations : ∀ {es es' : List Expr}, ExprsMadeRecursive names es es' →
    relationsIn (exprVisits es) = relationsIn (exprVisits es')
  | _, _, .refl _ => rfl
  | _, _, .cons h hs => by
    rw [exprVisits, exprVisits, relationsIn_append, relationsIn_append, h.relations, hs.relations]

theorem Query.MadeRecursive.relations : ∀ {q q' : Query}, Query.MadeRecursive names q q' →
    relationsIn q.visits = relationsIn q'.visits
  | _, _, .refl _ => rfl
  | _, _, .unlisted hbody horder hbounds => by
    simp only [Query.visits, relationsIn_enter, relationsIn_append, hbody.relations,
      horder.relations, hbounds.relations]
  | _, _, .listed _ hctes hbody horder hbounds | _, _, .turned _ _ hctes hbody horder hbounds => by
    simp only [Query.visits, With.visits, relationsIn_enter, relationsIn_append, hctes.relations,
      hbody.relations, horder.relations, hbounds.relations]

theorem CtesMadeRecursive.relations : ∀ {ctes ctes' : List Cte}, CtesMadeRecursive names ctes ctes' →
    relationsIn (cteVisits ctes) = relationsIn (cteVisits ctes')
  | _, _, .refl _ => rfl
  | _, _, .cons _ h hs => by
    rw [cteVisits, cteVisits, relationsIn_append, relationsIn_append, h.relations, hs.relations]

theorem SetExpr.MadeRecursive.relations : ∀ {b b' : SetExpr}, SetExpr.MadeRecursive names b b' →
    relationsIn b.visits = relationsIn b'.visits
  | _, _, .refl _ => rfl
  | _, _, .select h => h.relations
  | _, _, .query h => h.relations
  | _, _, .setOperation _ hleft hright => by
    rw [SetExpr.visits, SetExpr.visits, relationsIn_append, relationsIn_append, hleft.relations,
      hright.relations]
  | _, _, .values h => h.relations
  | _, _, .insert h | _, _, .write h => h.relations

theorem Select.MadeRecursive.relations : ∀ {b b' : Select}, Select.MadeRecursive names b b' →
    relationsIn b.visits = relationsIn b'.visits
  | _, _, .parts hleading hprojection htables hlateral hprewhere hselection hgroup hplacement
      hhaving hwindows hqualify hconnect => by
    simp only [Select.visits, relationsIn_append, hleading.relations, hprojection.relations,
      htables.relations, hlateral.relations, hprewhere.relations, hselection.relations,
      hgroup.relations, hplacement.relations, hhaving.relations, hwindows.relations,
      hqualify.relations, hconnect.relations]

theorem TableFactor.MadeRecursive.relations : ∀ {t t' : TableFactor},
    TableFactor.MadeRecursive names t t' → relationsIn t.visits = relationsIn t'.visits
  | _, _, .refl _ => rfl
  | _, _, .table name _ h => congrArg (name :: ·) h.relations
  | _, _, .derived _ hquery hsample => by
    simp only [TableFactor.visits, relationsIn_append, hquery.relations, hsample.relations]
  | _, _, .nested _ h => h.relations
  | _, _, .other _ _ hinner hoperands => by
    simp only [TableFactor.visits, relationsIn_append, hinner.relations, hoperands.relations]

theorem FactorsMadeRecursive.relations : ∀ {ts ts' : List TableFactor},
    FactorsMadeRecursive names ts ts' → relationsIn (factorVisits ts) = relationsIn (factorVisits ts')
  | _, _, .refl _ => rfl
  | _, _, .cons h hs => by
    rw [factorVisits, factorVisits, relationsIn_append, relationsIn_append, h.relations,
      hs.relations]

theorem TableWithJoins.MadeRecursive.relations : ∀ {t t' : TableWithJoins},
    TableWithJoins.MadeRecursive names t t' → relationsIn t.visits = relationsIn t'.visits
  | _, _, .parts hrelation hjoins => by
    simp only [TableWithJoins.visits, relationsIn_append, hrelation.relations, hjoins.relations]

theorem TablesMadeRecursive.relations : ∀ {ts ts' : List TableWithJoins},
    TablesMadeRecursive names ts ts' → relationsIn (tablesVisits ts) = relationsIn (tablesVisits ts')
  | _, _, .refl _ => rfl
  | _, _, .cons h hs => by
    rw [tablesVisits, tablesVisits, relationsIn_append, relationsIn_append, h.relations,
      hs.relations]

theorem JoinsMadeRecursive.relations : ∀ {js js' : List Join}, JoinsMadeRecursive names js js' →
    relationsIn (joinVisits js) = relationsIn (joinVisits js')
  | _, _, .refl _ => rfl
  | _, _, .cons hrelation hconstraint hs => by
    simp only [joinVisits, relationsIn_append, hrelation.relations, hconstraint.relations,
      hs.relations]

theorem Statement.MadeRecursive.relations : ∀ {s s' : Statement},
    Statement.MadeRecursive names s s' → relationsIn s.visits = relationsIn s'.visits
  | _, _, .refl _ => rfl
  | _, _, .query h => h.relations
  | _, _, .insertOnly htarget hoperands => by
    simp only [Statement.visits, relationsIn_append, htarget.relations, hoperands.relations]
  | _, _, .insert htarget hsource hoperands => by
    simp only [Statement.visits, relationsIn_append, htarget.relations, hsource.relations,
      hoperands.relations]
  | _, _, .update htable hassignments htables hselection hoperands => by
    simp only [Statement.visits, relationsIn_append, htable.relations, hassignments.relations,
      htables.relations, hselection.relations, hoperands.relations]
  | _, _, .delete _ htables husing hselection hreturning horder hlimit => by
    simp only [Statement.visits, relationsIn_append, htables.relations, husing.relations,
      hselection.relations, hreturning.relations, horder.relations, hlimit.relations]
  | _, _, .merge htable hsource hcondition hclauses houtput => by
    simp only [Statement.visits, relationsIn_append, htable.relations, hsource.relations,
      hcondition.relations, hclauses.relations, houtput.relations]
  | _, _, .createEmpty name h => congrArg (name :: ·) h.relations
  | _, _, .createTable name hcolumns hquery => by
    simp only [Statement.visits, relationsIn_relation, relationsIn_append, hcolumns.relations,
      hquery.relations]
  | _, _, .createView _ h => h.relations
  | _, _, .other _ h => h.relations

theorem InsertTarget.MadeRecursive.relations : ∀ {t t' : InsertTarget},
    InsertTarget.MadeRecursive names t t' → relationsIn t.visits = relationsIn t'.visits
  | _, _, .refl _ => rfl
  | _, _, .function h => h.relations

theorem PartsMadeRecursive.relations : ∀ {ps ps' : List Part}, PartsMadeRecursive names ps ps' →
    relationsIn (partVisits ps) = relationsIn (partVisits ps')
  | _, _, .refl _ => rfl
  | _, _, .relation name hs => congrArg (name :: ·) hs.relations
  | _, _, .expr h hs => by
    simp only [partVisits, relationsIn_append, h.relations, hs.relations]
  | _, _, .statement h hs => by
    simp only [partVisits, relationsIn_append, h.relations, hs.relations]

end

end Sql
end Lineage
