import Lineage.Proofs.Record.Obtained

/-
The algebra of records.

Merging joins two records list by list and keeps each name at its first occurrence.
Names that repeat may be dropped early or late, so it does not matter how a merge is
bracketed.  The empty record takes the repeats of a record away, and changes nothing
else.
-/

namespace Lineage

/-- The names of two lists, each once, in the order in which they first occur. -/
structure OrderedUnion (a b merged : List QualifiedName) : Prop where
  mem_iff : ∀ n, n ∈ merged ↔ n ∈ a ∨ n ∈ b
  nodup : merged.Nodup
  first : ∃ own new, merged = own ++ new ∧ (∀ n ∈ own, n ∈ a) ∧ ∀ n ∈ new, n ∉ a
  ordered : merged.Pairwise fun n m => (a ++ b).idxOf n < (a ++ b).idxOf m

section names

variable {a b : List QualifiedName}

theorem eraseDups_eq_self_iff {names : List QualifiedName} :
    names.eraseDups = names ↔ names.Nodup := by
  constructor
  · intro h
    rw [← h]
    exact Record.nodup_eraseDups names
  · intro h
    have hinsert : (NameSet.empty.insertAll names).toList = names :=
      NameSet.toList_insertAll_of_nodup h
    rw [← NameSet.toList_ofList]
    exact hinsert

theorem eraseDups_eraseDups (names : List QualifiedName) :
    names.eraseDups.eraseDups = names.eraseDups :=
  eraseDups_eq_self_iff.2 (Record.nodup_eraseDups names)

theorem eraseDups_append_left (a b : List QualifiedName) :
    (a.eraseDups ++ b).eraseDups = (a ++ b).eraseDups := by
  rw [← Record.eraseDups_eraseDups_append, eraseDups_eraseDups,
    Record.eraseDups_eraseDups_append]

theorem eraseDups_append_right (a b : List QualifiedName) :
    (a ++ b.eraseDups).eraseDups = (a ++ b).eraseDups := by
  rw [← Record.eraseDups_eraseDups_append, eraseDups_eraseDups,
    Record.eraseDups_eraseDups_append]

theorem mem_removeAll {names more : List QualifiedName} {n : QualifiedName} :
    n ∈ names.removeAll more ↔ n ∈ names ∧ n ∉ more := by
  simp [List.removeAll]

/-- Names that are there already add nothing. -/
theorem eraseDups_append_of_subset (h : b ⊆ a) : (a ++ b).eraseDups = a.eraseDups := by
  have hnone : b.removeAll a = [] := by
    rw [List.eq_nil_iff_forall_not_mem]
    intro n hn
    obtain ⟨hb, ha⟩ := mem_removeAll.1 hn
    exact ha (h hb)
  rw [List.eraseDups_append, hnone]
  exact List.append_nil _

/-- Names that are kept stand in the order of their first occurrences. -/
theorem pairwise_idxOf_eraseDups (names : List QualifiedName) :
    names.eraseDups.Pairwise fun n m => names.idxOf n < names.idxOf m := by
  induction names using List.reverseRecOn with
  | nil => exact List.Pairwise.nil
  | append_singleton names last ih =>
    have hsame {n : QualifiedName} (h : n ∈ names.eraseDups) :
        (names ++ [last]).idxOf n = names.idxOf n :=
      List.idxOf_append_of_mem (List.mem_eraseDups.1 h)
    have hnames : names.eraseDups.Pairwise fun n m =>
        (names ++ [last]).idxOf n < (names ++ [last]).idxOf m := by
      refine ih.imp_of_mem (fun hn hm h => ?_)
      rw [hsame hn, hsame hm]
      exact h
    by_cases hlast : last ∈ names
    · have hsubset : [last] ⊆ names := fun n hn => List.mem_singleton.1 hn ▸ hlast
      rw [eraseDups_append_of_subset hsubset]
      exact hnames
    · have hremove : [last].removeAll names = [last] := by
        simp [List.removeAll, hlast]
      have hsingle : [last].eraseDups = [last] :=
        eraseDups_eq_self_iff.2 (List.nodup_singleton last)
      rw [List.eraseDups_append, hremove, hsingle, List.pairwise_append]
      refine ⟨hnames, List.pairwise_singleton .., fun n hn m hm => ?_⟩
      obtain rfl := List.mem_singleton.1 hm
      have hlt : names.idxOf n < names.length :=
        List.idxOf_lt_length_of_mem (List.mem_eraseDups.1 hn)
      have hm : (names ++ [m]).idxOf m = names.length + [m].idxOf m :=
        List.idxOf_append_of_notMem hlast
      rw [hsame hn, hm]
      omega

theorem orderedUnion_eraseDups (a b : List QualifiedName) :
    OrderedUnion a b (a ++ b).eraseDups := by
  refine ⟨fun n => ?_, Record.nodup_eraseDups _, ?_, pairwise_idxOf_eraseDups _⟩
  · rw [List.mem_eraseDups, List.mem_append]
  · refine ⟨a.eraseDups, (b.removeAll a).eraseDups, List.eraseDups_append, ?_, ?_⟩
    · exact fun n hn => List.mem_eraseDups.1 hn
    · exact fun n hn => (mem_removeAll.1 (List.mem_eraseDups.1 hn)).2

end names

namespace Record

/-- A record with each name at its first occurrence only. -/
def distinct (r : Record) : Record := ⟨r.targets.eraseDups, r.sources.eraseDups⟩

theorem merge_eq (a b : Record) :
    a.merge b = ⟨(a.targets ++ b.targets).eraseDups, (a.sources ++ b.sources).eraseDups⟩ := by
  rw [merge, NameSet.toList_ofList, NameSet.toList_ofList]

theorem merge_assoc (a b c : Record) : (a.merge b).merge c = a.merge (b.merge c) := by
  simp only [merge_eq, eraseDups_append_left, eraseDups_append_right, List.append_assoc]

theorem merge_empty (r : Record) : r.merge empty = r.distinct := by
  simp only [merge_eq, empty, List.append_nil, distinct]

theorem empty_merge (r : Record) : empty.merge r = r.distinct := by
  simp only [merge_eq, empty, List.nil_append, distinct]

theorem distinct_eq_self_iff {r : Record} : r.distinct = r ↔ r.Unique := by
  obtain ⟨targets, sources⟩ := r
  rw [distinct, Record.mk.injEq, eraseDups_eq_self_iff, eraseDups_eq_self_iff, Unique]

theorem merge_merge_self (a b : Record) : (a.merge b).merge b = a.merge b := by
  have hagain (x y : List QualifiedName) : (x ++ y ++ y).eraseDups = (x ++ y).eraseDups :=
    eraseDups_append_of_subset (List.subset_append_right x y)
  simp only [merge_eq, eraseDups_append_left, hagain]

/-- Records merged one by one behind a merge are merged behind its second part. -/
theorem foldl_merge (a b : Record) (records : List Record) :
    records.foldl merge (a.merge b) = a.merge (records.foldl merge b) := by
  induction records generalizing b with
  | nil => rfl
  | cons r records ih => rw [List.foldl_cons, List.foldl_cons, merge_assoc, ih]

theorem mergeAll_append (xs ys : List Record) :
    mergeAll (xs ++ ys) = (mergeAll xs).merge (mergeAll ys) := by
  have hunit : (mergeAll xs).merge empty = mergeAll xs := by
    rw [merge_empty, distinct_eq_self_iff]
    exact unique_mergeAll xs
  calc mergeAll (xs ++ ys)
      = ys.foldl merge (mergeAll xs) := List.foldl_append ..
    _ = ys.foldl merge ((mergeAll xs).merge empty) := by rw [hunit]
    _ = (mergeAll xs).merge (mergeAll ys) := foldl_merge ..

/-- Merging is an ordered union.  It is associative, and the empty record takes away
repeats and nothing else; a record that was merged already adds nothing.  So the
summary of a script is that of its parts. -/
theorem merge_laws (a b c : Record) (xs ys : List Script.StatementLineage) :
    (a.merge b).merge c = a.merge (b.merge c) ∧
    OrderedUnion a.targets b.targets (a.merge b).targets ∧
    OrderedUnion a.sources b.sources (a.merge b).sources ∧
    a.merge empty = a.distinct ∧ empty.merge a = a.distinct ∧
    (a.merge empty = a ↔ a.Unique) ∧ (empty.merge a = a ↔ a.Unique) ∧
    (a.merge b).merge b = a.merge b ∧
    Script.summary (xs ++ ys) = (Script.summary xs).merge (Script.summary ys) := by
  have hsummary : Script.summary (xs ++ ys) =
      (Script.summary xs).merge (Script.summary ys) := by
    rw [Script.summary, List.map_append, mergeAll_append]
    rfl
  refine ⟨merge_assoc a b c, ?_, ?_, merge_empty a, empty_merge a, ?_, ?_,
    merge_merge_self a b, hsummary⟩
  · rw [merge_eq]
    exact orderedUnion_eraseDups ..
  · rw [merge_eq]
    exact orderedUnion_eraseDups ..
  · rw [merge_empty, distinct_eq_self_iff]
  · rw [empty_merge, distinct_eq_self_iff]

end Record
end Lineage
