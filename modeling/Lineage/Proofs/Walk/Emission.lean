import Lineage.Proofs.Walk.Capture

/-
Walks that record references to definitions, and walks that do not.

No visit looks at what was noted before.  So the option to record definitions
changes neither the scopes nor the steps of a walk, and two walks over one tree
visit the same nodes in the same scopes, whatever their options are.  They note
the same written tables.  Where their sources differ, a visit met a reference to
a definition: one that resolves right then, or one that the grammar resolved.
-/

namespace Lineage

/-- The visit of a step meets a reference that the grammar resolved. -/
structure Step.Refers {κ : Type} [Vocabulary κ] (s : Step κ) (n : QualifiedName) : Prop where
  kind_eq : s.node.kind = .cteRef
  text_eq : s.node.text = some n.text

namespace Tree

variable {κ : Type} {o o' : ExtractOptions}

theorem names_write_mentionOf (visible : Names) (access : Access)
    (name? : Option QualifiedName) :
    Mention.names .write (mentionOf o visible access name?) =
      Mention.names .write (mentionOf o' visible access name?) := by
  have hread (o : ExtractOptions) (n : QualifiedName) :
      Mention.names .write (mentionOf o visible .read (some n)) = [] := by
    simp only [mentionOf]
    split <;> rfl
  cases name? with
  | none => rfl
  | some n =>
    cases access with
    | write => rfl
    | read => rw [hread, hread]

theorem names_write_mentionOfText (o : ExtractOptions) (text : Option String) :
    Mention.names .write (mentionOfText o text) = [] := by
  unfold mentionOfText
  split
  · cases text.bind QualifiedName.ofString? <;> rfl
  · rfl

variable [Vocabulary κ]

/-- What a node writes is the same under all options. -/
theorem names_write_ownMentions (visible : Names) (access : Access) (t : Tree κ) :
    Mention.names .write (t.ownMentions o visible access) =
      Mention.names .write (t.ownMentions o' visible access) := by
  cases hk : t.kind with
  | destination | table | tableRef =>
    simp only [ownMentions, hk]
    apply names_write_mentionOf
  | tableName =>
    simp only [ownMentions, hk]
    cases access with
    | read => rfl
    | write => apply names_write_mentionOf
  | cteRef =>
    simp only [ownMentions, hk]
    rw [names_write_mentionOfText, names_write_mentionOfText]
  | _ => simp only [ownMentions, hk]

end Tree

namespace Walk

variable {κ : Type} [Vocabulary κ] {o o' : ExtractOptions}

/-- Two walks have the same steps before them in the same scopes, and they noted
the same written tables. -/
structure Alike (w w' : Walk κ) : Prop where
  scopes_eq : w.scopes = w'.scopes
  pending_eq : w.pending = w'.pending
  writes_eq : Mention.names .write w.mentioned = Mention.names .write w'.mentioned

theorem alike_visitAlone (o o' : ExtractOptions) (scopes : Scopes (Tree κ)) (s : Step κ) :
    Alike (visitAlone o scopes s) (visitAlone o' scopes s) := by
  have hwrites : Mention.names .write (visitAlone o scopes s).mentioned =
      Mention.names .write (visitAlone o' scopes s).mentioned := by
    rw [mentioned_visitAlone, mentioned_visitAlone]
    apply Tree.names_write_ownMentions
  by_cases hb : s.node.kind.opensScope = true
  · have hsame : visitAlone o scopes s = visitAlone o' scopes s := by
      rw [visitAlone_block hb, visitAlone_block hb]
    exact ⟨congrArg Walk.scopes hsame, congrArg Walk.pending hsame, hwrites⟩
  · by_cases hd : s.node.kind = .cteDef
    · have hsame : visitAlone o scopes s = visitAlone o' scopes s := by
        rw [visitAlone_cteDef hd, visitAlone_cteDef hd]
      exact ⟨congrArg Walk.scopes hsame, congrArg Walk.pending hsame, hwrites⟩
    · have hplain := visitAlone_plain (Bool.eq_false_iff.2 hb) hd o scopes
      have hplain' := visitAlone_plain (Bool.eq_false_iff.2 hb) hd o' scopes
      refine ⟨?_, ?_, hwrites⟩
      · rw [hplain.scopes_eq, hplain'.scopes_eq]
      · rw [hplain.pending_eq, hplain'.pending_eq]

/-- Alike walks stay alike when both make their next visit. -/
theorem alike_visit (o o' : ExtractOptions) {scopes scopes' : Scopes (Tree κ)} {events events' : List Event} {s s' : Step κ}
    {pending pending' : List (Step κ)}
    (h : Alike ⟨scopes, events, s :: pending⟩ ⟨scopes', events', s' :: pending'⟩) :
    scopes = scopes' ∧ s = s' ∧
      Alike (visit o ⟨scopes, events, pending⟩ s) (visit o' ⟨scopes', events', pending'⟩ s') := by
  obtain ⟨rfl, hpending, hwrites⟩ := h
  obtain ⟨rfl, rfl⟩ := List.cons.inj hpending
  have hvisit := alike_visitAlone o o' scopes s
  refine ⟨rfl, rfl, ?_⟩
  rw [visit_eq_onto, visit_eq_onto]
  refine ⟨hvisit.scopes_eq, ?_, ?_⟩
  · show (visitAlone o scopes s).pending ++ pending = (visitAlone o' scopes s).pending ++ pending
    rw [hvisit.pending_eq]
  · have hbefore : Mention.names .write (Event.mentionsOf events) =
        Mention.names .write (Event.mentionsOf events') := hwrites
    rw [mentioned_onto, mentioned_onto, Mention.names_append, Mention.names_append, hbefore,
      hvisit.writes_eq]

theorem alike_run {w w' : Walk κ} (h : Alike w w') : Alike (run o w) (run o' w') := by
  fun_induction run o w generalizing w' with
  | case1 scopes events =>
    obtain ⟨scopes', events', pending'⟩ := w'
    obtain rfl : [] = pending' := h.pending_eq
    rw [run_nil]
    exact h
  | case2 scopes events s pending ih =>
    obtain ⟨scopes', events', pending'⟩ := w'
    cases pending' with
    | nil => exact absurd h.pending_eq (List.cons_ne_nil _ _)
    | cons s' pending' =>
      obtain ⟨-, -, hvisit⟩ := alike_visit o o' h
      rw [run]
      exact ih hvisit

/-- Alike walks make the same visits. -/
theorem visits_of_alike {w w' : Walk κ} {scopes : Scopes (Tree κ)} {s : Step κ} (h : Alike w w')
    (hv : Visits o w scopes s) : Visits o' w' scopes s := by
  induction hv generalizing w' with
  | now scopes events s pending =>
    obtain ⟨scopes', events', pending'⟩ := w'
    obtain rfl : s :: pending = pending' := h.pending_eq
    obtain rfl : scopes = scopes' := h.scopes_eq
    exact .now ..
  | @later scopes _ events s _ pending _ ih =>
    obtain ⟨scopes', events', pending'⟩ := w'
    obtain rfl : s :: pending = pending' := h.pending_eq
    obtain ⟨-, -, hvisit⟩ := alike_visit o o' h
    exact .later (ih hvisit)

theorem visits_start_iff (o o' : ExtractOptions) {t : Tree κ} {scopes : Scopes (Tree κ)}
    {s : Step κ} : Visits o (start t) scopes s ↔ Visits o' (start t) scopes s :=
  ⟨visits_of_alike ⟨rfl, rfl, rfl⟩, visits_of_alike ⟨rfl, rfl, rfl⟩⟩

omit [Vocabulary κ] in
theorem mem_mentionOf_read_of_emit (ho : o.emitCteNames = true) {visible : Names}
    {access : Access} {name? : Option QualifiedName} {n : QualifiedName} :
    ⟨.read, n⟩ ∈ Tree.mentionOf o visible access name? ↔ access = .read ∧ name? = some n := by
  cases name? with
  | none => simp [Tree.mentionOf]
  | some m => cases access <;> simp [Tree.mentionOf, ho, eq_comm]

omit [Vocabulary κ] in
theorem mem_mentionOfText_of_emit (ho : o.emitCteNames = true) {text : Option String}
    {n : QualifiedName} : ⟨.read, n⟩ ∈ Tree.mentionOfText o text ↔ text = some n.text := by
  simp only [Tree.mentionOfText, ho, if_true, List.mem_map, Option.mem_toList, Mention.mk.injEq,
    true_and, exists_eq_right, Option.bind_eq_some_iff, QualifiedName.ofString?_eq_some_iff]
  constructor
  · rintro ⟨given, h, he⟩
    rw [h, he]
  · intro h
    exact ⟨n.text, h, rfl⟩

/-- With the option, a visit notes every read name and every reference that the
grammar resolved. -/
theorem mem_read_visitAlone_of_emit (ho : o.emitCteNames = true) {scopes : Scopes (Tree κ)}
    {s : Step κ} {n : QualifiedName} :
    ⟨.read, n⟩ ∈ (visitAlone o scopes s).mentioned ↔ s.Reads n ∨ s.Refers n := by
  have hreads (hk : s.node.kind = .table ∨ s.node.kind = .tableRef) :
      s.Reads n ↔ s.access = .read ∧ s.node.heldName? = some n :=
    ⟨fun h => ⟨h.access_eq, h.held_eq⟩, fun h => ⟨h.1, hk, h.2⟩⟩
  have hrefers : s.Refers n ↔ s.node.kind = .cteRef ∧ s.node.text = some n.text :=
    ⟨fun h => ⟨h.kind_eq, h.text_eq⟩, fun h => ⟨h.1, h.2⟩⟩
  have hnever (hk : ¬ (s.node.kind = .table ∨ s.node.kind = .tableRef))
      (hk' : s.node.kind ≠ .cteRef) : ¬ (s.Reads n ∨ s.Refers n) := by
    rintro (h | h)
    · exact hk h.kind_mem
    · exact hk' h.kind_eq
  rw [mentioned_visitAlone]
  cases hk : s.node.kind with
  | table | tableRef =>
    have hno : ¬ s.Refers n := by rw [hrefers, hk]; simp
    simp only [Tree.ownMentions, hk, mem_mentionOf_read_of_emit ho]
    rw [hreads (by simp [hk]), or_iff_left hno]
  | cteRef =>
    have hno : ¬ s.Reads n := fun h => by simpa [hk] using h.kind_mem
    simp only [Tree.ownMentions, hk, mem_mentionOfText_of_emit ho]
    rw [or_iff_right hno, hrefers, hk]
    simp
  | destination =>
    simp only [Tree.ownMentions, hk, mem_mentionOf_read_of_emit ho]
    refine iff_of_false ?_ (hnever (by simp [hk]) (by simp [hk]))
    exact fun h => Access.noConfusion h.1
  | tableName =>
    simp only [Tree.ownMentions, hk]
    refine iff_of_false ?_ (hnever (by simp [hk]) (by simp [hk]))
    cases s.access with
    | read => exact List.not_mem_nil
    | write =>
      rw [mem_mentionOf_read_of_emit ho]
      exact fun h => Access.noConfusion h.1
  | _ =>
    simp only [Tree.ownMentions, hk]
    exact iff_of_false List.not_mem_nil (hnever (by simp [hk]) (by simp [hk]))

end Walk

namespace Tree

variable {κ : Type} [Vocabulary κ]

/-- With the option, the sources are the read names and the references that the
grammar resolved. -/
theorem mem_sources_of_emit_iff {o : ExtractOptions} (ho : o.emitCteNames = true) {t : Tree κ}
    {n : QualifiedName} :
    n ∈ (t.lineage o).sources ↔ ∃ scopes s, Walk.Visits o (Walk.start t) scopes s ∧
      (s.Reads n ∨ s.Refers n) := by
  rw [lineage_eq_ofMentions_run, Record.mem_sources_ofMentions, Walk.mem_mentioned_run]
  simp only [Walk.mem_read_visitAlone_of_emit ho]
  exact or_iff_right List.not_mem_nil

/-- What the option to record definitions adds to a record.  The targets stay as
they are and no source goes away.  A further source is a name that the grammar
resolved, or a read name that resolves when it is visited. -/
theorem lineage_emit (t : Tree κ) :
    (t.lineage ⟨true⟩).targets = (t.lineage ⟨false⟩).targets ∧
    (∀ n, n ∈ (t.lineage ⟨false⟩).sources → n ∈ (t.lineage ⟨true⟩).sources) ∧
    ∀ n, n ∉ (t.lineage ⟨false⟩).sources →
      (n ∈ (t.lineage ⟨true⟩).sources ↔
        ∃ scopes s, Walk.Visits ⟨true⟩ (Walk.start t) scopes s ∧
          (s.Refers n ∨ s.Reads n ∧ ∃ d, scopes.resolve? n.text s.scope = some d)) := by
  have hrun : Walk.Alike ((Walk.start t).run ⟨true⟩) ((Walk.start t).run ⟨false⟩) :=
    Walk.alike_run ⟨rfl, rfl, rfl⟩
  refine ⟨?_, ?_, ?_⟩
  · rw [lineage_eq_ofMentions_run, lineage_eq_ofMentions_run]
    exact congrArg List.eraseDups hrun.writes_eq
  · intro n hn
    obtain ⟨scopes, s, hv, hreads, -⟩ := (mem_sources_iff rfl).1 hn
    apply (mem_sources_of_emit_iff rfl).2
    exact ⟨scopes, s, (Walk.visits_start_iff _ _).1 hv, .inl hreads⟩
  · intro n hn
    rw [mem_sources_of_emit_iff rfl]
    constructor
    · rintro ⟨scopes, s, hv, hreads | hrefers⟩
      · cases hd : scopes.resolve? n.text s.scope with
        | some d => exact ⟨scopes, s, hv, .inr ⟨hreads, d, hd⟩⟩
        | none =>
          have hsource : n ∈ (t.lineage ⟨false⟩).sources :=
            (mem_sources_iff rfl).2 ⟨scopes, s, (Walk.visits_start_iff _ _).1 hv, hreads, hd⟩
          exact absurd hsource hn
      · exact ⟨scopes, s, hv, .inl hrefers⟩
    · rintro ⟨scopes, s, hv, hrefers | ⟨hreads, -⟩⟩
      · exact ⟨scopes, s, hv, .inr hrefers⟩
      · exact ⟨scopes, s, hv, .inl hreads⟩

/-- A block that reads its definition `a`, and behind it a table `a` and a
reference that the grammar resolved. -/
def twoReadings : Tree Kind :=
  .branch .root [
    .branch .query [.node .cteDef (some "a") [readOf ["t"]], readOf ["a"], readOf ["b"]],
    readOf ["a"], .leaf .cteRef "r"]

/-- The emitted name of the definition absorbs the table behind the block, and the
name `r` is new. -/
theorem lineage_emit_twoReadings :
    (twoReadings.lineage ⟨true⟩).targets = (twoReadings.lineage ⟨false⟩).targets ∧
    (twoReadings.lineage ⟨false⟩).sources.map (·.text) = ["t", "b", "a"] ∧
    (twoReadings.lineage ⟨true⟩).sources.map (·.text) = ["t", "a", "b", "r"] ∧
    ∃ scopes s, Walk.Visits ⟨true⟩ (Walk.start twoReadings) scopes s ∧
      (s.Refers ⟨"r", by decide⟩ ∨
        s.Reads ⟨"r", by decide⟩ ∧ ∃ d, scopes.resolve? "r" s.scope = some d) := by
  obtain ⟨htargets, -, hadded⟩ := lineage_emit twoReadings
  have hoff : (⟨"r", by decide⟩ : QualifiedName) ∉ (twoReadings.lineage ⟨false⟩).sources :=
    of_decide_eq_true (by cbv)
  have hon : (⟨"r", by decide⟩ : QualifiedName) ∈ (twoReadings.lineage ⟨true⟩).sources :=
    of_decide_eq_true (by cbv)
  exact ⟨htargets, by cbv, by cbv, (hadded _ hoff).1 hon⟩

end Tree
end Lineage
