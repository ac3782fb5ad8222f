import Lineage.QualifiedName

/-
What a statement writes and what it reads.
-/

namespace Lineage

/-- Names in the order of their first occurrence, none of them twice. -/
structure NameSet where
  toList : List QualifiedName
  nodup : toList.Nodup
  deriving DecidableEq

namespace NameSet

def empty : NameSet := ⟨[], List.nodup_nil⟩

instance : Membership QualifiedName NameSet := ⟨fun s n => n ∈ s.toList⟩

instance (n : QualifiedName) (s : NameSet) : Decidable (n ∈ s) :=
  inferInstanceAs (Decidable (n ∈ s.toList))

def insert (s : NameSet) (n : QualifiedName) : NameSet :=
  if h : n ∈ s.toList then s
  else ⟨s.toList ++ [n], by
    rw [List.nodup_append]
    exact ⟨s.nodup, by simp, fun a ha b hb => by
      rintro rfl; exact h (List.mem_singleton.1 hb ▸ ha)⟩⟩

def insertAll (s : NameSet) (names : List QualifiedName) : NameSet := names.foldl insert s

def ofList (names : List QualifiedName) : NameSet := empty.insertAll names

theorem toList_insert (s : NameSet) (n : QualifiedName) :
    (s.insert n).toList = if n ∈ s.toList then s.toList else s.toList ++ [n] := by
  unfold insert; split <;> simp_all

theorem mem_toList_insert {s : NameSet} {n m : QualifiedName} :
    m ∈ (s.insert n).toList ↔ m ∈ s.toList ∨ m = n := by
  rw [toList_insert]; split
  · next h => exact ⟨.inl, fun o => o.elim id (· ▸ h)⟩
  · simp

end NameSet

/-- The tables that a statement writes and reads.  A name may be in both lists.
A record that was read from text may repeat a name. -/
structure Record where
  targets : List QualifiedName
  sources : List QualifiedName
  deriving DecidableEq

namespace Record

def empty : Record := ⟨[], []⟩

def isEmpty (r : Record) : Bool := r.targets.isEmpty && r.sources.isEmpty

/-- Ordered union: the names of the first record, then those that only the
second has. -/
def merge (a b : Record) : Record :=
  ⟨(NameSet.ofList (a.targets ++ b.targets)).toList,
   (NameSet.ofList (a.sources ++ b.sources)).toList⟩

def mergeAll (records : List Record) : Record := records.foldl merge empty

end Record

structure Collector where
  targets : NameSet
  sources : NameSet

namespace Collector

def empty : Collector := ⟨.empty, .empty⟩

/-- Collect a written table, and tell whether its name is new. -/
def addTarget (c : Collector) (n : QualifiedName) : Bool × Collector :=
  (n ∉ c.targets, { c with targets := c.targets.insert n })

def addSource (c : Collector) (n : QualifiedName) : Bool × Collector :=
  (n ∉ c.sources, { c with sources := c.sources.insert n })

def record (c : Collector) : Record := ⟨c.targets.toList, c.sources.toList⟩

end Collector
end Lineage
