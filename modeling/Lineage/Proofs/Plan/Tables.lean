import Lineage.Proofs.Plan.Listing

/-
What a walk over a plan mentions.

A plan lists its tables before any scope is known.  The walk mentions them in the
same order, written ones always and read ones unless they stand for a definition.
-/

namespace Lineage

/-- A read name may go unrecorded where definitions are not recorded by name. -/
structure Suppressible (o : ExtractOptions) (m : Mention) : Prop where
  emit_eq : o.emitCteNames = false
  access_eq : m.access = .read

namespace Thins

variable {α : Type} {p : α → Prop} {as bs : List α}

theorem subset (h : Thins p as bs) : ∀ b ∈ bs, b ∈ as := by
  induction h with
  | nil => exact fun b hb => hb
  | keep a _ ih =>
    intro b hb
    rcases List.mem_cons.1 hb with rfl | hb
    · exact List.mem_cons_self
    · exact List.mem_cons_of_mem _ (ih b hb)
  | drop _ _ ih => exact fun b hb => List.mem_cons_of_mem _ (ih b hb)

theorem eq_of_none (h : Thins p as bs) (hp : ∀ a, ¬ p a) : as = bs := by
  induction h with
  | nil => rfl
  | keep a _ ih => rw [ih]
  | drop ha _ _ => exact absurd ha (hp _)

end Thins

namespace Plan

open Sql

variable {o : ExtractOptions}

theorem qualifiedName?_objectName (name : ObjectName) :
    (objectName name).qualifiedName? = name.qualifiedName? := by
  rw [Tree.qualifiedName?, dottedName_objectName, ObjectName.qualifiedName?]

/-! ## Single tables -/

theorem mentions_relation (visible : Names) (name : ObjectName) (aka : Option Alias) :
    (Tree.branch Node.relation (objectName name :: aliasLeaf aka)).mentions o visible .read =
      Tree.mentionOf o visible .read name.qualifiedName? := by
  rw [← qualifiedName?_objectName]
  cases aka <;> exact List.append_nil _

theorem mentions_insertTarget (visible : Names) (access : Access) (name : ObjectName) :
    (insertTarget name).mentions o visible access = (Use.mention? ⟨.write, name⟩).toList := by
  have hheld : (insertTarget name).mentions o visible access =
      Tree.mentionOf o visible .write (objectName name).qualifiedName? :=
    Tree.mentions_destination rfl o visible access
  rw [hheld, qualifiedName?_objectName, Use.mention?]
  cases name.qualifiedName? <;> rfl

theorem thins_mentionOf_read (visible : Names) (name : ObjectName) :
    Thins (Suppressible o) ([⟨.read, name⟩].filterMap Use.mention?)
      (Tree.mentionOf o visible .read name.qualifiedName?) := by
  have huse : [⟨.read, name⟩].filterMap Use.mention? =
      name.qualifiedName?.toList.map (⟨.read, ·⟩) := by
    rw [List.filterMap_eq_flatMap_toList, List.flatMap_singleton, Use.mention?,
      Option.toList_map]
  rw [huse]
  cases name.qualifiedName? with
  | none => exact .nil
  | some n =>
    by_cases hsuppressed : (visible (foldCase n.text) && !o.emitCteNames) = true
    · have hemit : o.emitCteNames = false := by
        rw [Bool.and_eq_true, Bool.not_eq_true'] at hsuppressed
        exact hsuppressed.2
      rw [Tree.mentionOf, if_pos hsuppressed]
      exact .drop ⟨hemit, rfl⟩ .nil
    · rw [Tree.mentionOf, if_neg hsuppressed]
      exact .refl _

/-- A write mentions its written tables, then what the rest reads. -/
theorem mentions_write {label : Node} (hl : Vocabulary.kind label = .insert) (visible : Names)
    (names : List ObjectName) {ts : List PlanTree} (ht : ∀ t ∈ ts, ¬ t.isWritten = true) :
    (Tree.branch label (names.map insertTarget ++ ts)).mentions o visible .read =
      (usesAs .write names).filterMap Use.mention? ++
        Tree.childMentions o visible (fun _ => some .read) ts := by
  let position (c : PlanTree) : Access := if c.isWritten then .write else .read
  have hwritten : (names.map insertTarget).flatMap (fun c => c.mentions o visible (position c)) =
      (usesAs .write names).filterMap Use.mention? := by
    rw [List.filterMap_eq_flatMap_toList, usesAs, List.flatMap_map, List.flatMap_map]
    exact List.flatMap_congr (fun name _ => mentions_insertTarget visible _ name)
  have hreads : ts.flatMap (fun c => c.mentions o visible (position c)) =
      Tree.childMentions o visible (fun _ => some .read) ts := by
    rw [Tree.childMentions_eq_flatMap]
    refine List.flatMap_congr (fun t h => ?_)
    have hread : position t = .read := if_neg (ht t h)
    rw [hread]
    rfl
  have hkind : (Tree.branch label (names.map insertTarget ++ ts)).kind = .insert := hl
  rw [Tree.mentions_insert hkind, ← hwritten, ← hreads]
  exact List.flatMap_append

/-! ## Listings -/

/-- Wherever plans are read, their tables are mentioned in order, up to read names
that may be suppressed. -/
theorem Lists.thins {ts : List PlanTree} {us : List Use} (h : Lists ts us) {ms : List Mention}
    (hm : Tree.ReadAs o ts ms) : Thins (Suppressible o) (us.filterMap Use.mention?) ms := by
  induction h generalizing ms with
  | nil =>
    cases hm
    exact .nil
  | append _ _ iha ihb =>
    obtain ⟨ms₁, ms₂, rfl, h₁, h₂⟩ := hm.split
    rw [List.filterMap_append]
    exact (iha h₁).append (ihb h₂)
  | relation name aka =>
    obtain ⟨visible, rfl⟩ := hm.single
    rw [mentions_relation]
    exact thins_mentionOf_read visible name
  | aliasLeaf aka =>
    cases aka with
    | none =>
      cases hm
      exact .nil
    | some aka =>
      obtain ⟨visible, rfl⟩ := hm.single
      exact .nil
  | @group label ts _ hl _ ih =>
    obtain ⟨visible, rfl⟩ := hm.single
    rw [Tree.mentions_group (kind_group hl ts)]
    exact ih (Tree.readAs_childMentions visible ts)
  | @block label ts _ hl _ ih =>
    -- what is visible changes from child to child, which `ReadAs` leaves open
    obtain ⟨visible, rfl⟩ := hm.single
    rw [Tree.mentions_block (kind_block hl ts)]
    exact ih (Tree.readAs_blockMentions _ visible ts)
  | @definition name t _ ht _ ih =>
    obtain ⟨visible, rfl⟩ := hm.single
    rw [(isSingle_definition name ht).mentions_eq, Tree.bodyMentions_eq]
    exact ih (Tree.readAs_childMentions visible [t])
  | @definitions text ts _ ht _ ih =>
    obtain ⟨visible, rfl⟩ := hm.single
    rw [Tree.mentions_cteDef rfl]
    split
    · exact ih (Tree.readAs_listMentions _ visible ht)
    · rw [Tree.bodyMentions_eq]
      exact ih (Tree.readAs_childMentions visible ts)
  | @write label names ts _ hl ht _ ih =>
    obtain ⟨visible, rfl⟩ := hm.single
    rw [mentions_write hl visible names ht, List.filterMap_append]
    exact (Thins.refl _).append (ih (Tree.readAs_childMentions visible ts))

/-! ## Runs -/

theorem thins_run_lower (o : ExtractOptions) (s : Statement) :
    Thins (Suppressible o) (s.uses.filterMap Use.mention?)
      ((Walk.start (lower s)).run o).mentioned := by
  have hread : Tree.ReadAs o [lower s] ((lower s).mentions o Names.none .read ++ []) :=
    .cons (lower s) Names.none .nil
  rw [List.append_nil] at hread
  rw [Tree.mentioned_run_start (placed_lower 0 s)]
  exact (lists_lower s).thins hread

/-- The written tables of a statement are all met as written ones, and nothing else
is. -/
theorem names_write_run_lower (o : ExtractOptions) (s : Statement) :
    Mention.names .write ((Walk.start (lower s)).run o).mentioned =
      s.written.filterMap ObjectName.qualifiedName? := by
  rw [← Record.names_write_of_thins (thins_run_lower o s) (fun _ hm => hm.access_eq),
    names_filterMap_mention?]
  rfl

theorem targets_eq_written (o : ExtractOptions) (s : Statement) :
    ((lower s).lineage o).targets = (s.written.filterMap ObjectName.qualifiedName?).eraseDups := by
  rw [Tree.lineage_eq_ofMentions_run, ← names_write_run_lower o s]
  rfl

theorem mem_read_of_run_lower {s : Statement} {n : QualifiedName}
    (h : ⟨.read, n⟩ ∈ ((Walk.start (lower s)).run o).mentioned) :
    n ∈ (tablesUsed .read s.uses).filterMap ObjectName.qualifiedName? := by
  rw [← names_filterMap_mention?, Mention.mem_names]
  exact (thins_run_lower o s).subset _ h

/-- With definitions recorded by name, every used table is recorded. -/
theorem run_lower_of_emit (ho : o.emitCteNames = true) (s : Statement) :
    ((Walk.start (lower s)).run o).mentioned = s.uses.filterMap Use.mention? := by
  have hnone : ∀ m, ¬ Suppressible o m := by
    intro m hm
    rw [hm.emit_eq] at ho
    exact Bool.false_ne_true ho
  exact ((thins_run_lower o s).eq_of_none hnone).symm

end Plan
end Lineage
