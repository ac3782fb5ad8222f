import Lineage.Walk

/-
Records as first occurrences.

A record holds each name that was met once, in the order of the first meeting.
Putting two runs of names one behind the other is therefore the same as merging
their records.
-/

namespace Lineage

namespace NameSet

theorem insertAll_append (s : NameSet) (a b : List QualifiedName) :
    s.insertAll (a ++ b) = (s.insertAll a).insertAll b := List.foldl_append ..

theorem insert_of_mem {s : NameSet} {n : QualifiedName} (h : n ∈ s.toList) :
    s.insert n = s := by
  rw [insert, dif_pos h]

theorem mem_toList_insertAll {s : NameSet} {names : List QualifiedName} {n : QualifiedName} :
    n ∈ (s.insertAll names).toList ↔ n ∈ s.toList ∨ n ∈ names := by
  induction names generalizing s with
  | nil => simp [insertAll]
  | cons m names ih =>
    rw [insertAll, List.foldl_cons, ← insertAll, ih, mem_toList_insert, List.mem_cons, or_assoc]

theorem mem_toList_ofList {names : List QualifiedName} {n : QualifiedName} :
    n ∈ (ofList names).toList ↔ n ∈ names := by
  rw [ofList, mem_toList_insertAll]
  simp [empty]

/-- What is put in goes behind, each new name at its first occurrence. -/
theorem toList_insertAll (s : NameSet) (names : List QualifiedName) :
    (s.insertAll names).toList = s.toList ++ (names.removeAll s.toList).eraseDups := by
  induction names generalizing s with
  | nil => simp [insertAll, List.removeAll]
  | cons n names ih =>
    rw [insertAll, List.foldl_cons, ← insertAll, ih, toList_insert, List.cons_removeAll]
    by_cases hn : n ∈ s.toList
    · simp [hn]
    · have hfilter : names.removeAll (s.toList ++ [n]) =
          (names.removeAll s.toList).filter (!· == n) := by
        simp only [List.removeAll, List.filter_filter]
        refine List.filter_congr (fun m _ => ?_)
        have hne : (!m == n) = !decide (m = n) := rfl
        rw [hne, Bool.and_comm (!decide (m = n))]
        simp
      simp [hn, hfilter, List.eraseDups_cons]

/-- The names of a list are kept at their first occurrences. -/
theorem toList_ofList (names : List QualifiedName) :
    (ofList names).toList = names.eraseDups := by
  rw [ofList, toList_insertAll, empty, List.removeAll_nil, List.nil_append]

theorem insertAll_filter_ne {s : NameSet} {n : QualifiedName} (h : n ∈ s.toList)
    (names : List QualifiedName) : s.insertAll (names.filter (!· == n)) = s.insertAll names := by
  induction names generalizing s with
  | nil => rfl
  | cons m names ih =>
    by_cases hm : m = n
    · subst hm
      simp only [List.filter_cons, BEq.rfl, Bool.not_true, Bool.false_eq_true, if_false]
      rw [ih h, insertAll, insertAll, List.foldl_cons, insert_of_mem h]
    · have hne : (!m == n) = true := by simp [hm]
      rw [List.filter_cons, if_pos hne, insertAll, insertAll, List.foldl_cons, List.foldl_cons]
      exact ih (mem_toList_insert.2 (.inl h))

/-- Repeats among the names put in make no difference. -/
theorem insertAll_eraseDups (s : NameSet) (names : List QualifiedName) :
    s.insertAll names.eraseDups = s.insertAll names := by
  obtain ⟨k, hk⟩ : ∃ k, names.length = k := ⟨_, rfl⟩
  induction k using Nat.strongRecOn generalizing s names with
  | ind k ih =>
    cases names with
    | nil => rfl
    | cons n names =>
      have hn : n ∈ (s.insert n).toList := mem_toList_insert.2 (.inr rfl)
      have hle := List.length_filter_le (!· == n) names
      rw [List.length_cons] at hk
      rw [List.eraseDups_cons, insertAll, List.foldl_cons, ← insertAll,
        ih _ (by omega) _ _ rfl, insertAll_filter_ne hn]
      rfl

theorem ofList_append (a b : List QualifiedName) :
    ofList (a ++ b) = (ofList a).insertAll b := insertAll_append ..

end NameSet

/-- A table met by the walk, written or read. -/
structure Mention where
  access : Access
  name : QualifiedName
  deriving DecidableEq

namespace Mention

/-- The names met with one access. -/
def names (access : Access) (mentions : List Mention) : List QualifiedName :=
  mentions.filterMap fun m => if m.access = access then some m.name else none

theorem names_append (access : Access) (a b : List Mention) :
    names access (a ++ b) = names access a ++ names access b := List.filterMap_append ..

theorem names_cons (access : Access) (m : Mention) (ms : List Mention) :
    names access (m :: ms) = if m.access = access then m.name :: names access ms
      else names access ms := by
  rw [names, List.filterMap_cons]
  by_cases h : m.access = access
  · simp only [if_pos h]
    rfl
  · simp only [if_neg h]
    rfl

theorem mem_names {access : Access} {mentions : List Mention} {n : QualifiedName} :
    n ∈ names access mentions ↔ ⟨access, n⟩ ∈ mentions := by
  rw [names, List.mem_filterMap]
  constructor
  · rintro ⟨⟨a, m⟩, hm, h⟩
    by_cases ha : a = access
    · rw [if_pos ha, Option.some.injEq] at h
      rw [← ha, ← h]
      exact hm
    · rw [if_neg ha] at h
      exact absurd h (by simp)
  · intro h
    exact ⟨⟨access, n⟩, h, if_pos rfl⟩

end Mention

namespace Event

/-- What an event adds to a record. -/
def mention? : Event → Option Mention
  | target n => some ⟨.write, n⟩
  | source n | emitted n | resolved n => some ⟨.read, n⟩
  | suppressed _ | noTable | malformed _ => none

/-- What events mention, the latest event first. -/
def mentionsOf (events : List Event) : List Mention := events.reverse.filterMap mention?

theorem mentionsOf_append (a b : List Event) :
    mentionsOf (a ++ b) = mentionsOf b ++ mentionsOf a := by
  rw [mentionsOf, List.reverse_append, List.filterMap_append, ← mentionsOf, ← mentionsOf]

end Event

namespace Record

/-- The record that keeps each name at its first occurrence. -/
def ofMentions (mentions : List Mention) : Record :=
  ⟨(Mention.names .write mentions).eraseDups, (Mention.names .read mentions).eraseDups⟩

theorem foldl_collect (events : List Event) (c : Collector) :
    events.foldl Event.collect c =
      ⟨c.targets.insertAll (Mention.names .write (events.filterMap Event.mention?)),
        c.sources.insertAll (Mention.names .read (events.filterMap Event.mention?))⟩ := by
  induction events generalizing c with
  | nil => rfl
  | cons e events ih =>
    rw [List.foldl_cons, ih]
    cases e <;> rfl

theorem ofEvents_eq_ofMentions (events : List Event) :
    ofEvents events = ofMentions (events.filterMap Event.mention?) := by
  rw [ofEvents, foldl_collect, ofMentions, ← NameSet.toList_ofList, ← NameSet.toList_ofList]
  rfl

theorem mem_targets_ofMentions {mentions : List Mention} {n : QualifiedName} :
    n ∈ (ofMentions mentions).targets ↔ ⟨.write, n⟩ ∈ mentions := by
  rw [ofMentions, List.mem_eraseDups, Mention.mem_names]

theorem mem_sources_ofMentions {mentions : List Mention} {n : QualifiedName} :
    n ∈ (ofMentions mentions).sources ↔ ⟨.read, n⟩ ∈ mentions := by
  rw [ofMentions, List.mem_eraseDups, Mention.mem_names]

theorem nodup_eraseDups (names : List QualifiedName) : names.eraseDups.Nodup := by
  rw [← NameSet.toList_ofList]
  exact (NameSet.ofList names).nodup

theorem eraseDups_eraseDups_append (a b : List QualifiedName) :
    (a.eraseDups ++ b.eraseDups).eraseDups = (a ++ b).eraseDups := by
  rw [← NameSet.toList_ofList (a ++ b), NameSet.ofList_append, NameSet.ofList,
    ← NameSet.insertAll_eraseDups _ a, ← NameSet.insertAll_eraseDups _ b,
    ← NameSet.insertAll_append, ← NameSet.ofList, NameSet.toList_ofList]

/-- Merging records is walking on. -/
theorem merge_ofMentions (a b : List Mention) :
    (ofMentions a).merge (ofMentions b) = ofMentions (a ++ b) := by
  simp only [merge, ofMentions, NameSet.toList_ofList, eraseDups_eraseDups_append,
    Mention.names_append]

end Record
end Lineage
