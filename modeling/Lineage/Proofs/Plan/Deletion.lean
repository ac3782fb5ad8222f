import Lineage.Proofs.Plan.Tables

/-
What a `DELETE` reads that lists the tables it deletes from.

Two searches go over the tables in `FROM`.  One takes the first table that a listed
name refers to and makes it a target.  The other one drops every table that any
listed name refers to from what is read.  A table that only the second search finds
is in neither place, unless something else in the statement reads it.
-/

namespace Lineage
namespace Sql

mutual

/-- The named tables of a factor with their aliases, at any depth of parentheses. -/
def TableFactor.occurrences : TableFactor → List (ObjectName × Option Alias)
  | .table name aka _ => [(name, aka)]
  | .derived .. => []
  | .nested tables _ => tables.occurrences
  | .other _ inner _ _ => factorOccurrences inner

def factorOccurrences : List TableFactor → List (ObjectName × Option Alias)
  | [] => []
  | t :: ts => t.occurrences ++ factorOccurrences ts

def TableWithJoins.occurrences : TableWithJoins → List (ObjectName × Option Alias)
  | ⟨relation, joins⟩ => relation.occurrences ++ joinOccurrences joins

def joinOccurrences : List Join → List (ObjectName × Option Alias)
  | [] => []
  | ⟨relation, _⟩ :: joins => relation.occurrences ++ joinOccurrences joins

end

theorem mem_relationsIn {name : ObjectName} {visits : List Visit} :
    name ∈ relationsIn visits ↔ .relation name ∈ visits := by
  rw [relationsIn, List.mem_filterMap]
  constructor
  · rintro ⟨v, hv, h⟩
    cases v with
    | relation given =>
      obtain rfl : given = name := Option.some.inj h
      exact hv
    | _ => exact absurd h (by simp)
  · exact fun h => ⟨_, h, rfl⟩

mutual

/-- An occurrence is met by whoever looks for table names. -/
theorem TableFactor.visits_of_occurrence {name : ObjectName} {aka : Option Alias} :
    (f : TableFactor) → (name, aka) ∈ f.occurrences → .relation name ∈ f.visits
  | .table given _ _, h => by
    obtain ⟨rfl, -⟩ := Prod.mk.inj (List.mem_singleton.1 h)
    exact List.mem_cons_self
  | .derived .., h => absurd h List.not_mem_nil
  | .nested tables _, h => TableWithJoins.visits_of_occurrence tables h
  | .other _ inner _ _, h => List.mem_append_left _ (factorVisits_of_occurrence inner h)

theorem factorVisits_of_occurrence {name : ObjectName} {aka : Option Alias} :
    (ts : List TableFactor) → (name, aka) ∈ factorOccurrences ts → .relation name ∈ factorVisits ts
  | [], h => absurd h List.not_mem_nil
  | t :: ts, h => by
    rcases List.mem_append.1 h with h | h
    · exact List.mem_append_left _ (t.visits_of_occurrence h)
    · exact List.mem_append_right _ (factorVisits_of_occurrence ts h)

theorem TableWithJoins.visits_of_occurrence {name : ObjectName} {aka : Option Alias} :
    (t : TableWithJoins) → (name, aka) ∈ t.occurrences → .relation name ∈ t.visits
  | ⟨relation, joins⟩, h => by
    rcases List.mem_append.1 h with h | h
    · exact List.mem_append_left _ (relation.visits_of_occurrence h)
    · exact List.mem_append_right _ (joinVisits_of_occurrence joins h)

theorem joinVisits_of_occurrence {name : ObjectName} {aka : Option Alias} :
    (joins : List Join) → (name, aka) ∈ joinOccurrences joins → .relation name ∈ joinVisits joins
  | [], h => absurd h List.not_mem_nil
  | ⟨relation, constraint⟩ :: joins, h => by
    rcases List.mem_append.1 h with h | h
    · exact List.mem_append_left _ (List.mem_append_left _ (relation.visits_of_occurrence h))
    · exact List.mem_append_right _ (joinVisits_of_occurrence joins h)

end

end Sql

namespace Plan

open Sql

variable {o : ExtractOptions}

/-! ## What plans read where nothing is visible -/

/-- Some of the plans reads a table, where no definition is visible. -/
def ReadIn (o : ExtractOptions) (ts : List PlanTree) (n : QualifiedName) : Prop :=
  ∃ t ∈ ts, ⟨.read, n⟩ ∈ t.mentions o Names.none .read

theorem readIn_iff_mem_childMentions {ts : List PlanTree} {n : QualifiedName} :
    ReadIn o ts n ↔ ⟨.read, n⟩ ∈ Tree.childMentions o Names.none (fun _ => some .read) ts := by
  rw [Tree.childMentions_eq_flatMap, List.mem_flatMap]
  rfl

theorem readIn_nil {n : QualifiedName} : ¬ ReadIn o [] n := by
  rintro ⟨t, ht, -⟩
  exact absurd ht List.not_mem_nil

theorem readIn_append {a b : List PlanTree} {n : QualifiedName} :
    ReadIn o (a ++ b) n ↔ ReadIn o a n ∨ ReadIn o b n := by
  simp only [ReadIn, List.mem_append, or_and_right, exists_or]

theorem readIn_cons {t : PlanTree} {ts : List PlanTree} {n : QualifiedName} :
    ReadIn o (t :: ts) n ↔ ReadIn o [t] n ∨ ReadIn o ts n :=
  readIn_append (a := [t])

/-- A node that only groups plans reads what they read. -/
theorem readIn_group {label : Node}
    (hl : label ∈ [.other, .values, .expr, .statement, .setOperation, .join, .derived])
    {ts : List PlanTree} {n : QualifiedName} : ReadIn o [.branch label ts] n ↔ ReadIn o ts n := by
  rw [@readIn_iff_mem_childMentions o ts]
  simp only [ReadIn, List.mem_singleton, exists_eq_left]
  rw [Tree.mentions_group (kind_group hl ts)]
  rfl

theorem readIn_joined {relation : PlanTree} {constraint : List PlanTree} {n : QualifiedName} :
    ReadIn o [joined relation constraint] n ↔ ReadIn o [relation] n ∨ ReadIn o constraint n := by
  unfold joined
  split
  · next h => rw [List.isEmpty_iff.1 h, or_iff_left readIn_nil]
  · rw [readIn_group (by decide), readIn_cons]

/-- A named table is read under its name. -/
theorem readIn_relation {name : ObjectName} (aka : Option Alias) {n : QualifiedName}
    (hn : name.qualifiedName? = some n) :
    ReadIn o [.branch .relation (objectName name :: aliasLeaf aka)] n := by
  refine ⟨_, List.mem_singleton_self _, ?_⟩
  rw [mentions_relation, hn]
  exact List.mem_singleton_self _

theorem readIn_relations {names : List ObjectName} {name : ObjectName} (h : name ∈ names)
    {n : QualifiedName} (hn : name.qualifiedName? = some n) : ReadIn o (relations names) n := by
  obtain ⟨t, ht, hread⟩ := readIn_relation (o := o) none hn
  exact ⟨t, List.mem_singleton.1 ht ▸ List.mem_map_of_mem h, hread⟩

/-- A write reads what stands behind its written tables. -/
theorem readIn_write {label : Node} (hl : Vocabulary.kind label = .insert) {names : List ObjectName}
    {ts : List PlanTree} (ht : ∀ t ∈ ts, ¬ t.isWritten = true) {n : QualifiedName} :
    ReadIn o [.branch label (names.map insertTarget ++ ts)] n ↔ ReadIn o ts n := by
  rw [@readIn_iff_mem_childMentions o ts]
  simp only [ReadIn, List.mem_singleton, exists_eq_left]
  rw [mentions_write hl _ names ht, List.mem_append]
  refine or_iff_right (fun h => ?_)
  obtain ⟨u, hu, hm⟩ := List.mem_filterMap.1 h
  obtain ⟨name, -, rfl⟩ := List.mem_map.1 hu
  obtain ⟨m, -, hm⟩ := Option.map_eq_some_iff.1 hm
  exact Access.noConfusion (congrArg Mention.access hm)

theorem sources_of_placed {t : PlanTree} (ht : t.definitionsPlaced 0 = true) {n : QualifiedName} :
    n ∈ (t.lineage o).sources ↔ ReadIn o [t] n := by
  rw [Tree.lineage_eq_ofMentions ht, Record.mem_sources_ofMentions]
  simp only [ReadIn, List.mem_singleton, exists_eq_left]

mutual

/-- What stands in `FROM` is read under its name at any depth. -/
theorem readIn_lowerFactor {name : ObjectName} {aka : Option Alias} {n : QualifiedName}
    (hn : name.qualifiedName? = some n) :
    (f : TableFactor) → (name, aka) ∈ f.occurrences → ReadIn o [lowerFactor f] n
  | .table given given? _, h => by
    obtain ⟨rfl, rfl⟩ := Prod.mk.inj (List.mem_singleton.1 h)
    exact readIn_relation aka hn
  | .derived .., h => absurd h List.not_mem_nil
  | .nested tables _, h => readIn_lowerTable hn tables h
  | .other head inner operands outer, h => by
    have hvisit := TableFactor.visits_of_occurrence (.other head inner operands outer) h
    exact (readIn_group (by decide)).2 (readIn_relations (mem_relationsIn.2 hvisit) hn)

theorem readIn_lowerTable {name : ObjectName} {aka : Option Alias} {n : QualifiedName}
    (hn : name.qualifiedName? = some n) :
    (t : TableWithJoins) → (name, aka) ∈ t.occurrences → ReadIn o [lowerTable t] n
  | ⟨relation, []⟩, h => by
    rcases List.mem_append.1 h with h | h
    · exact readIn_lowerFactor hn relation h
    · exact absurd h List.not_mem_nil
  | ⟨relation, j :: joins⟩, h => by
    refine (readIn_group (by decide)).2 (readIn_cons.2 ?_)
    rcases List.mem_append.1 h with h | h
    · exact .inl (readIn_lowerFactor hn relation h)
    · exact .inr (readIn_lowerJoins hn (j :: joins) h)

theorem readIn_lowerJoins {name : ObjectName} {aka : Option Alias} {n : QualifiedName}
    (hn : name.qualifiedName? = some n) :
    (joins : List Join) → (name, aka) ∈ joinOccurrences joins → ReadIn o (lowerJoins joins) n
  | [], h => absurd h List.not_mem_nil
  | ⟨relation, constraint⟩ :: joins, h => by
    refine readIn_cons.2 ?_
    rcases List.mem_append.1 h with h | h
    · exact .inl (readIn_joined.2 (.inl (readIn_lowerFactor hn relation h)))
    · exact .inr (readIn_lowerJoins hn joins h)

end

theorem readIn_lowerTables {tables : List TableWithJoins} {t : TableWithJoins} (ht : t ∈ tables)
    {name : ObjectName} {aka : Option Alias} (h : (name, aka) ∈ t.occurrences) {n : QualifiedName}
    (hn : name.qualifiedName? = some n) : ReadIn o (lowerTables tables) n := by
  induction tables with
  | nil => exact absurd ht List.not_mem_nil
  | cons u tables ih =>
    refine readIn_cons.2 ?_
    rcases List.mem_cons.1 ht with rfl | ht
    · exact .inl (readIn_lowerTable hn t h)
    · exact .inr (ih ht)

/-! ## The two searches -/

theorem subqueriesIn_append (a b : List Expr) :
    subqueriesIn (a ++ b) = subqueriesIn a ++ subqueriesIn b := by
  induction a with
  | nil => rfl
  | cons e a ih => rw [List.cons_append, subqueriesIn, subqueriesIn, ih, List.append_assoc]

theorem deletedTable?_eq_some_iff {f : TableFactor} {listed name : ObjectName} :
    deletedTable? f listed = some name ↔ ∃ aka operands, f = .table name aka operands ∧
      (name = listed ∨ ∃ part given, listed = ⟨[part]⟩ ∧ aka = some given ∧
        part.value = given.name.value) := by
  cases f with
  | table found aka operands =>
    have hiff : deletedTable? (.table found aka operands) listed = some name ↔
        found = name ∧ (found = listed ∨ ∃ part given, listed = ⟨[part]⟩ ∧ aka = some given ∧
          part.value = given.name.value) := by
      unfold deletedTable?
      rw [Option.ite_none_right_eq_some, Option.some.injEq, and_comm, Bool.or_eq_true,
        decide_eq_true_eq]
      refine and_congr_right fun _ => or_congr_right ?_
      obtain ⟨parts⟩ := listed
      rcases aka with _ | given
      · simp
      · rcases parts with _ | ⟨part, _ | ⟨second, parts⟩⟩ <;> simp
    rw [hiff]
    constructor
    · rintro ⟨rfl, h⟩
      exact ⟨aka, operands, rfl, h⟩
    · rintro ⟨aka, operands, he, h⟩
      obtain ⟨rfl, rfl, rfl⟩ := TableFactor.table.inj he
      exact ⟨rfl, h⟩
  | _ =>
    constructor
    · exact fun h => absurd h (by simp [deletedTable?])
    · rintro ⟨_, _, he, -⟩
      exact TableFactor.noConfusion he

theorem isDeleted_iff {listed : List ObjectName} {f : TableFactor} :
    isDeleted listed f = true ↔ ∃ l ∈ listed, ∃ name, deletedTable? f l = some name := by
  simp only [isDeleted, List.any_eq_true, Option.isSome_iff_exists]

/-- A listed name refers to a factor, and to none before it. -/
def IsResolved (listed : List ObjectName) (before : List TableFactor) (f : TableFactor) : Prop :=
  ∃ l ∈ listed, (deletedTable? f l).isSome = true ∧ ∀ g ∈ before, deletedTable? g l = none

/-- The first factor that a listed name refers to is what it stands for. -/
theorem deletionTarget_of_first {tables : List TableWithJoins} {before after : List TableFactor}
    {f : TableFactor} (hf : factors tables = before ++ f :: after) {listed name : ObjectName}
    (hname : deletedTable? f listed = some name) (hbefore : ∀ g ∈ before, deletedTable? g listed = none) :
    deletionTarget tables listed = name := by
  have hfound : (factors tables).findSome? (deletedTable? · listed) = some name :=
    List.findSome?_eq_some_iff.2 ⟨before, f, after, hf, hname, hbefore⟩
  rw [deletionTarget, hfound, Option.getD_some]

/-- The constraints of all joins. -/
def constraints (tables : List TableWithJoins) : List Expr :=
  tables.flatMap fun t => t.joins.flatMap (·.constraint)

theorem readIn_deleteListedJoins (listed : List ObjectName) (joins : List Join) {n : QualifiedName} :
    ReadIn o (deleteListedJoins listed joins) n ↔
      (∃ f ∈ joins.map (·.relation), isDeleted listed f = false ∧ ReadIn o [lowerFactor f] n) ∨
        ReadIn o (subqueriesIn (joins.flatMap (·.constraint))) n := by
  induction joins with
  | nil => simp [deleteListedJoins, subqueriesIn, readIn_nil]
  | cons j joins ih =>
    obtain ⟨relation, constraint⟩ := j
    rw [deleteListedJoins, readIn_append, ih, List.flatMap_cons, subqueriesIn_append, readIn_append,
      List.map_cons, List.exists_mem_cons_iff]
    by_cases hd : isDeleted listed relation = true
    · rw [if_pos hd, hd]
      simp only [Bool.true_eq_false, false_and, false_or, or_left_comm]
    · rw [if_neg hd, readIn_joined]
      simp only [Bool.eq_false_iff.2 hd, true_and]
      rw [or_assoc, or_assoc, or_left_comm (a := ReadIn o (subqueriesIn constraint) n)]

/-- Of the factors, those are read that no listed name refers to. -/
theorem readIn_deleteListed (listed : List ObjectName) (tables : List TableWithJoins)
    {n : QualifiedName} :
    ReadIn o (deleteListed listed tables) n ↔
      (∃ f ∈ factors tables, isDeleted listed f = false ∧ ReadIn o [lowerFactor f] n) ∨
        ReadIn o (subqueriesIn (constraints tables)) n := by
  induction tables with
  | nil => simp [deleteListed, factors, constraints, subqueriesIn, readIn_nil]
  | cons t tables ih =>
    obtain ⟨relation, joins⟩ := t
    have hfactors : factors (⟨relation, joins⟩ :: tables) =
        relation :: (joins.map (·.relation) ++ factors tables) := by
      rw [factors, List.flatMap_cons, List.cons_append, ← factors]
    have hconstraints : constraints (⟨relation, joins⟩ :: tables) =
        joins.flatMap (·.constraint) ++ constraints tables := List.flatMap_cons ..
    have hrelation : ReadIn o (if isDeleted listed relation then [] else [lowerFactor relation]) n ↔
        isDeleted listed relation = false ∧ ReadIn o [lowerFactor relation] n := by
      by_cases hd : isDeleted listed relation = true
      · simp [hd, readIn_nil]
      · simp [Bool.eq_false_iff.2 hd]
    rw [deleteListed, readIn_append, readIn_append, hrelation, readIn_deleteListedJoins, ih,
      hfactors, hconstraints, subqueriesIn_append, readIn_append, List.exists_mem_cons_iff]
    simp only [List.mem_append, or_and_right, exists_or]
    rw [or_assoc, or_assoc, or_assoc, or_left_comm (a := ReadIn o (subqueriesIn _) n), or_assoc]

/-! ## The statement -/

/-- What a `DELETE` reads besides its factors in `FROM`. -/
def readBeside (d : Delete) : List PlanTree :=
  subqueriesIn (constraints d.tables) ++
    (lowerTables d.usingTables ++ subqueriesIn d.selection ++ subqueriesIn d.orderBy)

theorem placed_readBeside (d : Delete) : (Tree.branch Node.other (readBeside d)).definitionsPlaced 0 =
    true := by
  show Tree.allPlaced 0 (readBeside d) = true
  rw [readBeside, Tree.allPlaced_append, Tree.allPlaced_append, Tree.allPlaced_append]
  exact ⟨placed_subqueriesIn 0 _, ⟨placed_lowerTables 0 _, placed_subqueriesIn 0 _⟩,
    placed_subqueriesIn 0 _⟩

theorem lower_delete {d : Delete} (hd : d.listed ≠ []) :
    lower (.delete d) = .branch .delete ((d.listed.map (deletionTarget d.tables)).map insertTarget ++
      [.branch .other (deleteListed d.listed d.tables ++
        (lowerTables d.usingTables ++ subqueriesIn d.selection ++ subqueriesIn d.orderBy))]) := by
  obtain ⟨listed, tables, usingTables, selection, returning, orderBy, limit⟩ := d
  have hempty : ¬ listed.isEmpty = true := fun h => hd (List.isEmpty_iff.1 h)
  rw [lower, if_neg hempty, List.map_map]
  rfl

/-- The sources of a `DELETE` with listed names: what its factors read that no listed
name refers to, and what its other clauses read. -/
theorem mem_sources_delete_iff {d : Delete} (hd : d.listed ≠ []) {n : QualifiedName} :
    n ∈ ((lower (.delete d)).lineage o).sources ↔
      (∃ f ∈ factors d.tables, isDeleted d.listed f = false ∧
        n ∈ ((lowerFactor f).lineage o).sources) ∨
      n ∈ ((Tree.branch Node.other (readBeside d)).lineage o).sources := by
  have hall : n ∈ ((lower (.delete d)).lineage o).sources ↔
      ReadIn o (deleteListed d.listed d.tables ++
        (lowerTables d.usingTables ++ subqueriesIn d.selection ++ subqueriesIn d.orderBy)) n := by
    rw [sources_of_placed (placed_lower 0 _), lower_delete hd, readIn_write rfl (not_written_other _),
      readIn_group (by decide)]
  have hfactor (f : TableFactor) : n ∈ ((lowerFactor f).lineage o).sources ↔
      ReadIn o [lowerFactor f] n := sources_of_placed (placed_lowerFactor 0 f)
  simp only [hfactor]
  rw [hall, sources_of_placed (placed_readBeside d), readIn_group (by decide), readIn_append,
    readIn_deleteListed, readBeside, readIn_append (a := subqueriesIn _), or_assoc]

/-- A listed name that was resolved to an occurrence makes its table a target. -/
theorem mem_targets_of_isResolved {d : Delete} (hd : d.listed ≠ []) {before after : List TableFactor}
    {f : TableFactor} (hf : factors d.tables = before ++ f :: after)
    (hr : IsResolved d.listed before f) {name : ObjectName} {aka : Option Alias}
    (hname : (name, aka) ∈ f.occurrences) {n : QualifiedName} (hn : name.qualifiedName? = some n) :
    n ∈ ((lower (.delete d)).lineage o).targets := by
  obtain ⟨l, hl, hfound, hbefore⟩ := hr
  obtain ⟨found, hfound⟩ := Option.isSome_iff_exists.1 hfound
  have htarget := deletionTarget_of_first hf hfound hbefore
  obtain ⟨_, _, rfl, -⟩ := deletedTable?_eq_some_iff.1 hfound
  obtain ⟨rfl, -⟩ := Prod.mk.inj (List.mem_singleton.1 hname)
  obtain ⟨listed, tables, usingTables, selection, returning, orderBy, limit⟩ := d
  obtain ⟨first, others, rfl⟩ := List.exists_cons_of_ne_nil hd
  rw [targets_eq_written, List.mem_eraseDups]
  refine List.mem_filterMap.2 ⟨name, ?_, hn⟩
  rw [Statement.written, Statement.uses, tablesUsed_append, tablesUsed_usesAs]
  exact List.mem_append_left _ (htarget ▸ List.mem_map_of_mem hl)

/-- When a `DELETE` with listed names records every named table in `FROM`, either as
the target that a listed name was resolved to or as a source.  What stands in `USING`
is always read.  A table in `FROM` goes missing where a listed name refers to it that
refers to an earlier one, too, and nothing else reads it. -/
theorem deletion_covers_iff {d : Delete} (hd : d.listed ≠ []) :
    (∀ t ∈ d.usingTables, ∀ name aka, (name, aka) ∈ t.occurrences →
      ∀ n, name.qualifiedName? = some n → n ∈ ((lower (.delete d)).lineage o).sources) ∧
    ((∀ before f after, factors d.tables = before ++ f :: after →
        ∀ name aka, (name, aka) ∈ f.occurrences → ∀ n, name.qualifiedName? = some n →
          (IsResolved d.listed before f ∧ n ∈ ((lower (.delete d)).lineage o).targets) ∨
            n ∈ ((lower (.delete d)).lineage o).sources) ↔
      ∀ before name aka operands after,
        factors d.tables = before ++ .table name aka operands :: after →
        isDeleted d.listed (.table name aka operands) = true →
        ¬ IsResolved d.listed before (.table name aka operands) →
        ∀ n, name.qualifiedName? = some n →
          (∃ f ∈ factors d.tables, isDeleted d.listed f = false ∧
            n ∈ ((lowerFactor f).lineage o).sources) ∨
          n ∈ ((Tree.branch Node.other (readBeside d)).lineage o).sources) := by
  refine ⟨fun t ht name aka hname n hn => ?_, fun h => ?_, fun h => ?_⟩
  · have husing : ReadIn o (lowerTables d.usingTables) n := readIn_lowerTables ht hname hn
    have hbeside : ReadIn o (readBeside d) n :=
      readIn_append.2 (.inr (readIn_append.2 (.inl (readIn_append.2 (.inl husing)))))
    refine (mem_sources_delete_iff hd).2 (.inr ?_)
    exact (sources_of_placed (placed_readBeside d)).2 ((readIn_group (by decide)).2 hbeside)
  · intro before name aka operands after hf _ hnot n hn
    rcases h before _ after hf name aka (List.mem_singleton_self _) n hn with ⟨hr, -⟩ | hsource
    · exact absurd hr hnot
    · exact (mem_sources_delete_iff hd).1 hsource
  · intro before f after hf name aka hname n hn
    by_cases hdeleted : isDeleted d.listed f = true
    · by_cases hr : IsResolved d.listed before f
      · exact .inl ⟨hr, mem_targets_of_isResolved hd hf hr hname hn⟩
      · -- only a named table can be referred to
        obtain ⟨l, -, found, hfound⟩ := isDeleted_iff.1 hdeleted
        obtain ⟨given, operands, rfl, -⟩ := deletedTable?_eq_some_iff.1 hfound
        obtain ⟨rfl, rfl⟩ := Prod.mk.inj (List.mem_singleton.1 hname)
        exact .inr ((mem_sources_delete_iff hd).2 (h before _ _ _ after hf hdeleted hr n hn))
    · have hread : ReadIn o [lowerFactor f] n := readIn_lowerFactor hn f hname
      have hmem : f ∈ factors d.tables := hf ▸ List.mem_append_right _ List.mem_cons_self
      exact .inr ((mem_sources_delete_iff hd).2 (.inl ⟨f, hmem, Bool.eq_false_iff.2 hdeleted,
        (sources_of_placed (placed_lowerFactor 0 f)).2 hread⟩))

/-- A table under an alias. -/
def aliased (name aka : String) : TableFactor :=
  .table ⟨[⟨name, none⟩]⟩ (some ⟨⟨aka, none⟩, []⟩) []

/-- `DELETE x FROM t AS x JOIN t AS y USING s` -/
def deleteSelfJoin : Delete :=
  ⟨[⟨[⟨"x", none⟩]⟩], [⟨aliased "t" "x", [⟨aliased "t" "y", []⟩]⟩], [⟨named ["s"], []⟩],
    [], [], [], []⟩

/-- The second occurrence of `t` is read, and so is `s`. -/
theorem deletion_covers_selfJoin :
    deleteSelfJoin.listed ≠ [] ∧
    ((lower (.delete deleteSelfJoin)).lineage {}).targets.map (·.text) = ["t"] ∧
    ((lower (.delete deleteSelfJoin)).lineage {}).sources.map (·.text) = ["t", "s"] ∧
    ∀ before f after, factors deleteSelfJoin.tables = before ++ f :: after →
      ∀ name aka, (name, aka) ∈ f.occurrences → ∀ n, name.qualifiedName? = some n →
        (IsResolved deleteSelfJoin.listed before f ∧
            n ∈ ((lower (.delete deleteSelfJoin)).lineage {}).targets) ∨
          n ∈ ((lower (.delete deleteSelfJoin)).lineage {}).sources := by
  have hd : deleteSelfJoin.listed ≠ [] := List.cons_ne_nil _ _
  refine ⟨hd, by cbv, by cbv, (deletion_covers_iff hd).2.2 ?_⟩
  intro before name aka operands after hf hdeleted hnot
  have hfactors : factors deleteSelfJoin.tables = [aliased "t" "x", aliased "t" "y"] := rfl
  rw [hfactors] at hf
  rcases before with _ | ⟨first, _ | ⟨second, rest⟩⟩
  · obtain ⟨hf, -⟩ := List.cons.inj hf
    refine absurd ⟨_, List.mem_singleton_self _, ?_, fun g hg => absurd hg List.not_mem_nil⟩ hnot
    rw [← hf]
    rfl
  · obtain ⟨hf, -⟩ := List.cons.inj (List.cons.inj hf).2
    rw [← hf] at hdeleted
    exact absurd hdeleted (by decide)
  · have hlength := congrArg List.length hf
    simp at hlength

/-- `DELETE t FROM a AS t, t AS u` -/
def deleteShadowed : Delete :=
  ⟨[⟨[⟨"t", none⟩]⟩], [⟨aliased "a" "t", []⟩, ⟨aliased "t" "u", []⟩], [], [], [], [], []⟩

/-- The name `t` is the alias of `a`, and the table `t` is lost. -/
theorem not_forall_deletion_covers :
    ¬ ∀ (o : ExtractOptions) (d : Delete), d.listed ≠ [] →
      ∀ before f after, factors d.tables = before ++ f :: after →
        ∀ name aka, (name, aka) ∈ f.occurrences → ∀ n, name.qualifiedName? = some n →
          (IsResolved d.listed before f ∧ n ∈ ((lower (.delete d)).lineage o).targets) ∨
            n ∈ ((lower (.delete d)).lineage o).sources := by
  intro h
  have htargets : ((lower (.delete deleteShadowed)).lineage {}).targets.map (·.text) = ["a"] := by
    cbv
  have hsources : ((lower (.delete deleteShadowed)).lineage {}).sources.map (·.text) = [] := by cbv
  rcases h {} deleteShadowed (List.cons_ne_nil _ _) [aliased "a" "t"] (aliased "t" "u") [] rfl _ _
    (List.mem_singleton_self _) ⟨"t", by decide⟩ (by decide) with ⟨-, htarget⟩ | hsource
  · have htext := List.mem_map_of_mem (f := (·.text)) htarget
    rw [htargets] at htext
    exact absurd htext (by decide)
  · have htext := List.mem_map_of_mem (f := (·.text)) hsource
    rw [hsources] at htext
    exact absurd htext List.not_mem_nil

end Plan
end Lineage
