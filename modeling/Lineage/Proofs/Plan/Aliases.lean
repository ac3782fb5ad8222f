import Lineage.Proofs.Plan.Deletion

/-
Aliases among the names that a `DELETE` lists.

A listed name of one part is looked for among the tables that stand in no
parentheses, under their names and under their aliases alike.  Where it is an alias,
it stands for the aliased table only if the search comes to that table, and comes to
it before any table that bears the alias as its name.
-/

namespace Lineage
namespace Plan

open Sql

variable {o : ExtractOptions}

/-- The aliases of the named tables in `FROM`, at any depth of parentheses. -/
def aliasesIn (tables : List TableWithJoins) : List String :=
  ((factors tables).flatMap (·.occurrences)).filterMap (·.2.map (·.name.value))

/-- Distinct aliases tell the tables under them apart. -/
theorem eq_of_alias {tables : List TableWithJoins} (haliases : (aliasesIn tables).Nodup)
    {name name' : ObjectName} {aka aka' : Alias}
    (h : (name, some aka) ∈ (factors tables).flatMap (·.occurrences))
    (h' : (name', some aka') ∈ (factors tables).flatMap (·.occurrences))
    (hvalue : aka.name.value = aka'.name.value) : name' = name ∧ aka' = aka := by
  by_contra hne
  have hpair : (name', some aka') ≠ (name, some aka) := by
    intro he
    obtain ⟨hname, haka⟩ := Prod.mk.inj he
    exact hne ⟨hname, Option.some.inj haka⟩
  have : Std.Symm fun p q : ObjectName × Option Alias => ∀ v, p.2.map (·.name.value) = some v →
      ∀ w, q.2.map (·.name.value) = some w → v ≠ w :=
    ⟨fun p q hpq v hv w hw he => hpq w hw v hv he.symm⟩
  exact (List.pairwise_filterMap.1 haliases).forall h' h hpair _ rfl _ rfl hvalue.symm

section search

variable {tables : List TableWithJoins} {part : Ident} {name : ObjectName} {aka : Alias}

/-- A table that a name of one part refers to bears it as its name, or is the one
table under this alias. -/
theorem eq_or_eq_of_deletedTable? (haliases : (aliasesIn tables).Nodup)
    (h : (name, some aka) ∈ (factors tables).flatMap (·.occurrences))
    (hpart : part.value = aka.name.value) {f : TableFactor} (hf : f ∈ factors tables)
    {found : ObjectName} (hfound : deletedTable? f ⟨[part]⟩ = some found) :
    (∃ given operands, f = .table ⟨[part]⟩ given operands ∧ found = ⟨[part]⟩) ∨
      ∃ operands, f = .table name (some aka) operands ∧ found = name := by
  obtain ⟨given, operands, rfl, rfl | ⟨part', aka', hlisted, rfl, hvalue⟩⟩ :=
    deletedTable?_eq_some_iff.1 hfound
  · exact .inl ⟨given, operands, rfl, rfl⟩
  · obtain rfl : part = part' := List.head_eq_of_cons_eq (ObjectName.mk.inj hlisted)
    have hoccurrence : (found, some aka') ∈ (factors tables).flatMap (·.occurrences) :=
      List.mem_flatMap.2 ⟨_, hf, List.mem_singleton_self _⟩
    obtain ⟨rfl, rfl⟩ := eq_of_alias haliases h hoccurrence (hpart.symm.trans hvalue)
    exact .inr ⟨operands, rfl, rfl⟩

/-- The table of an alias is found where it is not in parentheses and no earlier table
bears the alias as its name. -/
theorem deletionTarget_of_alias (haliases : (aliasesIn tables).Nodup)
    (hpart : part.value = aka.name.value) {before after : List TableFactor} {operands : List Expr}
    (hf : factors tables = before ++ .table name (some aka) operands :: after)
    (hbefore : ∀ given operands, .table ⟨[part]⟩ given operands ∉ before) :
    deletionTarget tables ⟨[part]⟩ = name := by
  have hmem : TableFactor.table name (some aka) operands ∈ factors tables :=
    hf ▸ List.mem_append_right _ List.mem_cons_self
  have h : (name, some aka) ∈ (factors tables).flatMap (·.occurrences) :=
    List.mem_flatMap.2 ⟨_, hmem, List.mem_singleton_self _⟩
  have hself : deletedTable? (.table name (some aka) operands) ⟨[part]⟩ = some name :=
    deletedTable?_eq_some_iff.2 ⟨_, _, rfl, .inr ⟨part, aka, rfl, rfl, hpart⟩⟩
  have hfound : (factors tables).findSome? (deletedTable? · ⟨[part]⟩) = some name := by
    rw [hf, List.findSome?_append, List.findSome?_cons, hself]
    cases hfirst : before.findSome? (deletedTable? · ⟨[part]⟩) with
    | none => rfl
    | some found =>
      obtain ⟨g, hg, hfound⟩ := List.exists_of_findSome?_eq_some hfirst
      have hg' : g ∈ factors tables := hf ▸ List.mem_append_left _ hg
      rcases eq_or_eq_of_deletedTable? haliases h hpart hg' hfound with
        ⟨given, operands, rfl, -⟩ | ⟨operands, rfl, rfl⟩
      · exact absurd hg (hbefore given operands)
      · rfl
  rw [deletionTarget, hfound, Option.getD_some]

/-- A listed alias stands for its table, or it stands for itself. -/
theorem deletionTarget_alias_cases (haliases : (aliasesIn tables).Nodup)
    (h : (name, some aka) ∈ (factors tables).flatMap (·.occurrences))
    (hpart : part.value = aka.name.value) :
    (∃ before operands after, factors tables = before ++ .table name (some aka) operands :: after ∧
      ∀ given operands, .table ⟨[part]⟩ given operands ∉ before) ∨
    deletionTarget tables ⟨[part]⟩ = ⟨[part]⟩ := by
  cases hsearch : (factors tables).findSome? (deletedTable? · ⟨[part]⟩) with
  | none =>
    refine .inr ?_
    rw [deletionTarget, hsearch, Option.getD_none]
  | some found =>
    obtain ⟨before, f, after, hf, hfound, hbefore⟩ := List.findSome?_eq_some_iff.1 hsearch
    have hmem : f ∈ factors tables := hf ▸ List.mem_append_right _ List.mem_cons_self
    rcases eq_or_eq_of_deletedTable? haliases h hpart hmem hfound with
      ⟨given, operands, rfl, rfl⟩ | ⟨operands, rfl, rfl⟩
    · exact .inr (deletionTarget_of_first hf hfound hbefore)
    · refine .inl ⟨before, operands, after, hf, fun given operands hg => ?_⟩
      have hnamed : deletedTable? (.table ⟨[part]⟩ given operands) ⟨[part]⟩ = some ⟨[part]⟩ :=
        deletedTable?_eq_some_iff.2 ⟨_, _, rfl, .inl rfl⟩
      rw [hbefore _ hg] at hnamed
      exact absurd hnamed (by simp)

end search

theorem targets_delete {d : Delete} (hd : d.listed ≠ []) :
    ∃ further, ((lower (.delete d)).lineage o).targets =
      ((d.listed.map (deletionTarget d.tables) ++ further).filterMap
        ObjectName.qualifiedName?).eraseDups := by
  obtain ⟨listed, tables, usingTables, selection, returning, orderBy, limit⟩ := d
  obtain ⟨first, others, rfl⟩ := List.exists_cons_of_ne_nil hd
  rw [targets_eq_written, Statement.written, Statement.uses, tablesUsed_append, tablesUsed_usesAs]
  exact ⟨_, rfl⟩

/-- When a listed alias is resolved.  The first targets are the tables that the listed
names stand for.  If the aliases in `FROM` are distinct, a listed alias stands for its
table exactly if the table stands in no parentheses and behind no table with the alias
as its name, unless both are recorded alike. -/
theorem deletionTarget_alias_iff {d : Delete} (hd : d.listed ≠ [])
    (haliases : (aliasesIn d.tables).Nodup) :
    (∃ further, ((lower (.delete d)).lineage o).targets =
      ((d.listed.map (deletionTarget d.tables) ++ further).filterMap
        ObjectName.qualifiedName?).eraseDups) ∧
    ∀ part, ⟨[part]⟩ ∈ d.listed → ∀ name aka,
      (name, some aka) ∈ (factors d.tables).flatMap (·.occurrences) →
      part.value = aka.name.value →
        ((deletionTarget d.tables ⟨[part]⟩).qualifiedName? = name.qualifiedName? ↔
          (∃ before operands after,
            factors d.tables = before ++ .table name (some aka) operands :: after ∧
            ∀ given operands, .table ⟨[part]⟩ given operands ∉ before) ∨
          name.qualifiedName? = ObjectName.qualifiedName? ⟨[part]⟩) := by
  refine ⟨targets_delete hd, fun part _ name aka h hpart => ⟨fun heq => ?_, ?_⟩⟩
  · rcases deletionTarget_alias_cases haliases h hpart with hfirst | hself
    · exact .inl hfirst
    · rw [hself] at heq
      exact .inr heq.symm
  · rintro (⟨before, operands, after, hf, hbefore⟩ | hsame)
    · rw [deletionTarget_of_alias haliases hpart hf hbefore]
    · rcases deletionTarget_alias_cases haliases h hpart with
        ⟨before, operands, after, hf, hbefore⟩ | hself
      · rw [deletionTarget_of_alias haliases hpart hf hbefore]
      · rw [hself, hsame]

/-- `DELETE b FROM t AS a JOIN u AS b, (v AS c)` -/
def deleteJoined : Delete :=
  ⟨[⟨[⟨"b", none⟩]⟩], [⟨aliased "t" "a", [⟨aliased "u" "b", []⟩]⟩,
    ⟨.nested ⟨aliased "v" "c", []⟩ none, []⟩], [], [], [], [], []⟩

theorem deletionTarget_alias_deleteJoined :
    deleteJoined.listed ≠ [] ∧ (aliasesIn deleteJoined.tables).Nodup ∧
    ((lower (.delete deleteJoined)).lineage {}).targets.map (·.text) = ["u"] ∧
    (deletionTarget deleteJoined.tables ⟨[⟨"b", none⟩]⟩).qualifiedName? =
      ObjectName.qualifiedName? ⟨[⟨"u", none⟩]⟩ := by
  have hd : deleteJoined.listed ≠ [] := List.cons_ne_nil _ _
  have haliases : (aliasesIn deleteJoined.tables).Nodup := by decide
  have hiff := (deletionTarget_alias_iff (o := {}) hd haliases).2 ⟨"b", none⟩
    (List.mem_singleton_self _) ⟨[⟨"u", none⟩]⟩ ⟨⟨"b", none⟩, []⟩ (by decide) rfl
  refine ⟨hd, haliases, by cbv, hiff.2 (.inl ⟨[aliased "t" "a"], [], _, rfl, ?_⟩)⟩
  intro given operands hg
  have hname := (TableFactor.table.inj (List.mem_singleton.1 hg)).1
  exact absurd hname (by decide)

/-- `DELETE a FROM (t AS a JOIN u AS b)` -/
def deleteParenthesized : Delete :=
  ⟨[⟨[⟨"a", none⟩]⟩], [⟨.nested ⟨aliased "t" "a", [⟨aliased "u" "b", []⟩]⟩ none, []⟩],
    [], [], [], [], []⟩

/-- The alias itself becomes the target. -/
theorem not_forall_deletionTarget_alias :
    ¬ ∀ (o : ExtractOptions) (d : Delete), d.listed ≠ [] → (aliasesIn d.tables).Nodup →
      ∀ part, ⟨[part]⟩ ∈ d.listed → ∀ name aka,
        (name, some aka) ∈ (factors d.tables).flatMap (·.occurrences) →
        part.value = aka.name.value → ∀ n, name.qualifiedName? = some n →
          n ∈ ((lower (.delete d)).lineage o).targets := by
  intro h
  have htarget := h {} deleteParenthesized (List.cons_ne_nil _ _) (by decide) ⟨"a", none⟩
    (List.mem_singleton_self _) ⟨[⟨"t", none⟩]⟩ ⟨⟨"a", none⟩, []⟩ (by decide) rfl ⟨"t", by decide⟩
    (by decide)
  have htargets : ((lower (.delete deleteParenthesized)).lineage {}).targets.map (·.text) =
      ["a"] := by cbv
  have htext := List.mem_map_of_mem (f := (·.text)) htarget
  rw [htargets] at htext
  exact absurd htext (by decide)

end Plan
end Lineage
