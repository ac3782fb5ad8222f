import Mathlib
import Lineage.Script
import Lineage.Proofs.Json.Records
import Lineage.Proofs.Record

/-
Which records there can be.

Whatever collects names keeps each of them once, and so does whatever merges records.
A record that is read from text is the exception: its lists are taken as they are
written.  So a record repeats a name only where it was read with the repeat, and
nothing was done with it since.
-/

namespace Lineage

theorem NameSet.toList_insertAll_of_nodup {s : NameSet} {names : List QualifiedName}
    (h : (s.toList ++ names).Nodup) : (s.insertAll names).toList = s.toList ++ names := by
  induction names generalizing s with
  | nil => exact (List.append_nil _).symm
  | cons n names ih =>
    have hnew : n ∉ s.toList := by
      intro hmem
      exact (List.nodup_append.1 h).2.2 n hmem n List.mem_cons_self rfl
    have hinsert : (s.insert n).toList = s.toList ++ [n] := by rw [toList_insert, if_neg hnew]
    have hnext : ((s.insert n).toList ++ names).Nodup := by
      rw [hinsert, List.append_assoc]
      exact h
    show ((s.insert n).insertAll names).toList = _
    rw [ih hnext, hinsert, List.append_assoc]
    rfl

namespace Collector

inductive Filled : Collector → Prop where
  | empty : Filled .empty
  | target {c : Collector} (n : QualifiedName) (h : Filled c) : Filled (c.addTarget n).2
  | source {c : Collector} (n : QualifiedName) (h : Filled c) : Filled (c.addSource n).2

theorem Filled.targets {c : Collector} (h : Filled c) (names : List QualifiedName) :
    Filled { c with targets := c.targets.insertAll names } := by
  induction names generalizing c with
  | nil => exact h
  | cons n names ih => exact ih (h.target n)

theorem Filled.sources {c : Collector} (h : Filled c) (names : List QualifiedName) :
    Filled { c with sources := c.sources.insertAll names } := by
  induction names generalizing c with
  | nil => exact h
  | cons n names ih => exact ih (h.source n)

end Collector

namespace Record

/-- Neither list of the record repeats a name. -/
def Unique (r : Record) : Prop := r.targets.Nodup ∧ r.sources.Nodup

/-- The records that can be had where no texts but the given ones are read. -/
inductive Obtained (texts : Set String) : Record → Prop where
  | empty : Obtained texts .empty
  | collected {c : Collector} (h : c.Filled) : Obtained texts c.record
  | extracted {κ : Type} [Vocabulary κ] (o : ExtractOptions) (t : Tree κ) :
    Obtained texts (t.lineage o)
  | merged {a b : Record} (ha : Obtained texts a) (hb : Obtained texts b) :
    Obtained texts (a.merge b)
  | summarized (statements : List Script.StatementLineage)
    (h : ∀ s ∈ statements, Obtained texts s.record) : Obtained texts (Script.summary statements)
  | read {text : String} {r : Record} (htext : text ∈ texts) (h : ofJson text = .ok r) :
    Obtained texts r

theorem unique_empty : empty.Unique := ⟨List.nodup_nil, List.nodup_nil⟩

theorem unique_record (c : Collector) : c.record.Unique := ⟨c.targets.nodup, c.sources.nodup⟩

theorem unique_merge (a b : Record) : (a.merge b).Unique :=
  ⟨(NameSet.ofList (a.targets ++ b.targets)).nodup, (NameSet.ofList (a.sources ++ b.sources)).nodup⟩

theorem unique_mergeAll (records : List Record) : (mergeAll records).Unique := by
  have hfold (r : Record) (h : r.Unique) : (records.foldl merge r).Unique := by
    induction records generalizing r with
    | nil => exact h
    | cons next records ih => exact ih (r.merge next) (unique_merge r next)
  exact hfold empty unique_empty

/-- Names that are not repeated are collected one by one. -/
theorem Unique.obtained {r : Record} (h : r.Unique) (texts : Set String) : Obtained texts r := by
  have hnames {names : List QualifiedName} (hnodup : names.Nodup) :
      (NameSet.empty.insertAll names).toList = names :=
    NameSet.toList_insertAll_of_nodup hnodup
  have hfilled := (Collector.Filled.empty.targets r.targets).sources r.sources
  have hrecord : Collector.record
      ⟨NameSet.empty.insertAll r.targets, NameSet.empty.insertAll r.sources⟩ = r := by
    rw [Collector.record, hnames h.1, hnames h.2]
  rw [← hrecord]
  exact .collected hfilled

/-- Every way to have a record but reading one leaves no repeats. -/
theorem Obtained.unique_or_read {texts : Set String} {r : Record} (h : Obtained texts r) :
    r.Unique ∨ ∃ text ∈ texts, ofJson text = .ok r := by
  cases h with
  | empty => exact .inl unique_empty
  | collected _ => exact .inl (unique_record _)
  | extracted o t => exact .inl (unique_record _)
  | merged _ _ => exact .inl (unique_merge _ _)
  | summarized statements _ => exact .inl (unique_mergeAll _)
  | read htext hread => exact .inr ⟨_, htext, hread⟩

/-- A record is obtained if it repeats no name, or is read as it is: reading keeps the
repeats of a text, whatever they are.  No name is ever empty, and a text with an empty
one is refused. -/
theorem obtained_iff (texts : Set String) (r : Record) :
    (Obtained texts r ↔ r.Unique ∨ ∃ text ∈ texts, ofJson text = .ok r) ∧
    (∀ n ∈ r.targets ++ r.sources, n.text ≠ "") ∧
    ofJson r.toJson.compact = .ok r ∧
    ∀ targets sources : List String, "" ∈ targets ++ sources →
      ∃ place, ofJson (Json.recordOf targets sources).compact = .error ⟨.emptyName, place⟩ := by
  refine ⟨⟨fun h => h.unique_or_read, ?_⟩, fun n _ => n.text_ne, ofJson_compact r,
    fun targets sources h => ofJson_of_empty h⟩
  rintro (hunique | ⟨text, htext, hread⟩)
  · exact hunique.obtained texts
  · exact .read htext hread

def twice : Record := ⟨[⟨"a", by decide⟩, ⟨"a", by decide⟩], []⟩

theorem not_forall_obtained_unique :
    ¬ ∀ (texts : Set String) (r : Record), Obtained texts r → r.Unique := by
  intro hall
  have htext : twice.toJson.compact = "\x7b\"targets\":[\"a\",\"a\"],\"sources\":[]\x7d" := by cbv
  have hread : ofJson "\x7b\"targets\":[\"a\",\"a\"],\"sources\":[]\x7d" = .ok twice := by
    rw [← htext]
    exact ofJson_compact twice
  have hunique := hall Set.univ twice (.read (Set.mem_univ _) hread)
  exact absurd hunique.1 (by decide)

end Record
end Lineage
