import Lineage.Proofs.QualifiedName
import Lineage.Proofs.Walk.Refinement
import Lineage.Proofs.Walk.Visits

/-
Definitions that capture a name of several parts.

A reference is looked up under its joined name, so the number of its parts
matters to the lookup only as far as definitions have no dots in their names.  A
definition that was written with a dot, in quotes, captures the name.
-/

namespace Lineage

namespace Scopes

variable {β : Type} {s : Scopes β}

theorem exists_binding?_of_resolve? {name : String} {i : ScopeId} {d : β}
    (h : s.resolve? name i = some d) : ∃ j, s.binding? j (foldCase name) = some d := by
  rw [resolve?, find?_eq_findSome?] at h
  obtain ⟨j, _, hj⟩ := List.exists_of_findSome?_eq_some h
  exact ⟨j, hj⟩

end Scopes

variable {κ : Type} [Vocabulary κ]

/-- Every binding of some scopes is a definition of a tree. -/
def BoundIn (t : Tree κ) (scopes : Scopes (Tree κ)) : Prop :=
  ∀ i key d, scopes.binding? i key = some d → ∃ name, t.Defines d name ∧ foldCase name = key

theorem BoundIn.define {t d : Tree κ} {scopes : Scopes (Tree κ)} {name : String}
    (h : BoundIn t scopes) (hd : t.Defines d name) (i : ScopeId) :
    BoundIn t (scopes.define name d i) := by
  intro j key d' hb
  rw [Scopes.binding?_define] at hb
  split at hb
  · next hnew =>
    rw [Option.some.injEq] at hb
    exact ⟨name, hb ▸ hd, hnew.2.2.symm⟩
  · exact h j key d' hb

theorem BoundIn.openIn {t : Tree κ} {scopes : Scopes (Tree κ)} (h : BoundIn t scopes)
    (p : ScopeId) : BoundIn t (scopes.openIn p).2 := by
  intro i key d hb
  rw [Scopes.binding?_openIn] at hb
  exact h i key d hb

/-- A schedule works on parts of a tree. -/
structure Schedule.Within (t : Tree κ) (s : Schedule κ) : Prop where
  bound : BoundIn t s.scopes
  below : ∀ st ∈ s.steps, t.Below st.node

namespace Schedule.Within

variable {t : Tree κ} {s : Schedule κ}

theorem read (h : s.Within t) {nodes : List (Tree κ)} (hn : ∀ n ∈ nodes, t.Below n)
    (scope : ScopeId) : (s.read nodes scope).Within t := by
  refine ⟨h.bound, fun st hst => ?_⟩
  rcases mem_steps_read hst with hst | hst
  · exact hn _ hst
  · exact h.below st hst

theorem define (h : s.Within t) {node d : Tree κ} (hn : t.Below node) (hk : node.kind = .cteDef)
    (hd : d ∈ node.definitions) (scope : ScopeId) (recursive : Bool) :
    (s.define scope recursive d).Within t := by
  have hbody : ∀ c ∈ d.children, t.Below c := fun c hc => (hn.definition hd).children hc
  cases ha : d.alias? with
  | none =>
    have hnoted : (Schedule.mk s.scopes (.malformed (.emptyName d.kind) :: s.events) s.steps
        s.visible).Within t := ⟨h.bound, h.below⟩
    rw [define_of_none ha]
    exact hnoted.read hbody _
  | some name =>
    have hdefines : t.Defines d name := ⟨node, hn, hk, hd, ha⟩
    have hbound : (Schedule.mk (s.scopes.introduce name d scope s.visible) s.events s.steps
        s.scopes.size).Within t :=
      ⟨((h.bound.define hdefines scope).openIn s.visible).define hdefines _, h.below⟩
    rw [define_of_some ha]
    exact hbound.read hbody _

theorem defineAll (h : s.Within t) {node : Tree κ} (hn : t.Below node) (hk : node.kind = .cteDef)
    (scope : ScopeId) : (s.defineAll scope node).Within t := by
  refine defineAll_keeps (fun recursive d hd s hs => hs.define hn hk hd scope recursive)
    (fun c hc _ s hs => hs.read ?_ s.visible) h
  intro n hn'
  rw [List.mem_singleton.1 hn']
  exact hn.children hc

theorem addBlockChildren (h : s.Within t) {children : List (Tree κ)}
    (hc : ∀ c ∈ children, t.Below c) (block : ScopeId) :
    (children.foldl (addBlockChild block) s).Within t := by
  refine foldl_keeps children (fun c hmem s hs => ?_) h
  unfold addBlockChild
  by_cases hk : c.kind = .cteDef
  · rw [if_pos hk]
    exact hs.defineAll (hc c hmem) hk block
  · rw [if_neg hk]
    refine hs.read (fun n hn => ?_) block
    rw [List.mem_singleton.1 hn]
    exact hc c hmem

end Schedule.Within

/-- A walk works on parts of a tree. -/
structure Walk.Within (t : Tree κ) (w : Walk κ) : Prop where
  bound : BoundIn t w.scopes
  below : ∀ st ∈ w.pending, t.Below st.node

namespace Walk

variable {o : ExtractOptions} {t : Tree κ}

theorem within_resume {s : Schedule κ} (h : s.Within t) : (resume [] s).Within t := by
  exact ⟨h.bound, fun st hst => h.below st (mem_pending_resume.1 hst)⟩

theorem within_visitAlone {scopes : Scopes (Tree κ)} {s : Step κ} (h : BoundIn t scopes)
    (hs : t.Below s.node) : (visitAlone o scopes s).Within t := by
  by_cases hb : s.node.kind.opensScope = true
  · have hstart : (Schedule.mk (scopes.openIn s.scope).2 [] [] s.scope).Within t :=
      ⟨h.openIn s.scope, fun st hst => absurd hst List.not_mem_nil⟩
    rw [visitAlone_block hb]
    exact within_resume (hstart.addBlockChildren (fun c hc => hs.children hc) _)
  · by_cases hd : s.node.kind = .cteDef
    · have hstart : (Schedule.mk scopes [] [] ((scopes.parent? s.scope).getD s.scope)).Within t :=
        ⟨h, fun st hst => absurd hst List.not_mem_nil⟩
      rw [visitAlone_cteDef hd]
      exact within_resume (hstart.defineAll hs hd _)
    · have hplain := visitAlone_plain (Bool.eq_false_iff.2 hb) hd o scopes
      refine ⟨by rw [hplain.scopes_eq]; exact h, fun st hst => ?_⟩
      rw [hplain.pending_eq] at hst
      exact hs.children (of_mem_childSteps hst).1

theorem Within.visit {scopes : Scopes (Tree κ)} {events : List Event} {s : Step κ}
    {pending : List (Step κ)} (h : Within t ⟨scopes, events, s :: pending⟩) :
    (Walk.visit o ⟨scopes, events, pending⟩ s).Within t := by
  have hvisit : (visitAlone o scopes s).Within t :=
    within_visitAlone h.bound (h.below s List.mem_cons_self)
  rw [visit_eq_onto]
  refine ⟨hvisit.bound, fun st hst => ?_⟩
  rcases List.mem_append.1 hst with hst | hst
  · exact hvisit.below st hst
  · exact h.below st (List.mem_cons_of_mem _ hst)

/-- At every visit of a walk, the scopes bind definitions of the walked tree, and
the visited node is a part of it. -/
theorem Within.visits {w : Walk κ} {scopes : Scopes (Tree κ)} {s : Step κ} (h : w.Within t)
    (hv : Visits o w scopes s) : BoundIn t scopes ∧ t.Below s.node := by
  induction hv with
  | now => exact ⟨h.bound, h.below _ List.mem_cons_self⟩
  | later _ ih => exact ih h.visit

theorem within_start (t : Tree κ) : (start t).Within t := by
  refine ⟨fun i key d hb => ?_, fun st hst => ?_⟩
  · rw [binding?_start] at hb
    exact absurd hb (by simp)
  · rw [start, List.mem_singleton] at hst
    rw [hst]
    exact .self t

/-- What a name resolves to at a visit is a definition of the tree that goes by
the whole name. -/
theorem defines_of_resolve? {scopes : Scopes (Tree κ)} {s : Step κ} {name : String} {d : Tree κ}
    (hv : Visits o (start t) scopes s) (h : scopes.resolve? name s.scope = some d) :
    ∃ given, t.Defines d given ∧ foldCase given = foldCase name := by
  obtain ⟨i, hb⟩ := Scopes.exists_binding?_of_resolve? h
  exact ((within_start t).visits hv).1 i _ d hb

end Walk

namespace Tree

/-- The parts of a table name that say something. -/
def nameParts (t : Tree κ) : List String := (t.children.filterMap text).filter (· ≠ "")

variable {o : ExtractOptions} {t : Tree κ}

/-- A name is a source if some visit that reads it does not resolve it. -/
theorem mem_sources_iff (ho : o.emitCteNames = false) {n : QualifiedName} :
    n ∈ (t.lineage o).sources ↔ ∃ scopes s, Walk.Visits o (Walk.start t) scopes s ∧
      s.Reads n ∧ scopes.resolve? n.text s.scope = none := by
  rw [lineage_eq_ofMentions_run, Record.mem_sources_ofMentions, Walk.mem_mentioned_run]
  simp only [Walk.mem_read_visitAlone ho]
  constructor
  · rintro (h | h)
    · exact absurd h List.not_mem_nil
    · exact h
  · exact fun h => .inr h

omit [Vocabulary κ] in
/-- A name of several parts is there, and has a dot. -/
theorem qualifiedName?_of_parts {c : Tree κ} (h : 2 ≤ c.nameParts.length) :
    ∃ n, c.qualifiedName? = some n ∧ '.' ∈ n.text.toList := by
  have hdot : '.' ∈ c.dottedName.toList := QualifiedName.dot_mem_dotted h
  have hne : c.dottedName ≠ "" := by
    intro he
    rw [he] at hdot
    exact absurd hdot List.not_mem_nil
  exact ⟨⟨c.dottedName, hne⟩, dif_neg hne, hdot⟩

/-- Which names of several parts are reported.  A read table of such a name is a
source exactly if the name does not resolve at some visit that reads it; what it
resolves to is a definition with a dot in its own name, and in a tree without
such definitions the table is a source. -/
theorem qualified_mem_sources_iff (ho : o.emitCteNames = false) {scopes : Scopes (Tree κ)}
    {s : Step κ} (hv : Walk.Visits o (Walk.start t) scopes s) (hk : s.node.kind = .tableRef)
    (ha : s.access = .read) {c : Tree κ} (hc : s.node.childOfKind? .tableName = some c)
    (hparts : 2 ≤ c.nameParts.length) :
    ∃ n, c.qualifiedName? = some n ∧
      (n ∈ (t.lineage o).sources ↔ ∃ scopes' s', Walk.Visits o (Walk.start t) scopes' s' ∧
        s'.Reads n ∧ scopes'.resolve? n.text s'.scope = none) ∧
      (∀ scopes' s' d, Walk.Visits o (Walk.start t) scopes' s' →
        scopes'.resolve? n.text s'.scope = some d →
        ∃ name, t.Defines d name ∧ foldCase name = foldCase n.text ∧ '.' ∈ name.toList) ∧
      ((∀ d name, t.Defines d name → '.' ∉ name.toList) → n ∈ (t.lineage o).sources) := by
  obtain ⟨n, hn, hdot⟩ := qualifiedName?_of_parts hparts
  have hcapture : ∀ scopes' s' d, Walk.Visits o (Walk.start t) scopes' s' →
      scopes'.resolve? n.text s'.scope = some d →
      ∃ name, t.Defines d name ∧ foldCase name = foldCase n.text ∧ '.' ∈ name.toList := by
    intro scopes' s' d hv' hd
    obtain ⟨name, hdefines, hfold⟩ := Walk.defines_of_resolve? hv' hd
    refine ⟨name, hdefines, hfold, ?_⟩
    rw [← dot_mem_foldCase, hfold, dot_mem_foldCase]
    exact hdot
  refine ⟨n, hn, mem_sources_iff ho, hcapture, fun hundotted => ?_⟩
  have hheld : s.node.heldName? = some n := by
    rw [heldName?, hc]
    exact hn
  refine (mem_sources_iff ho).2 ⟨scopes, s, hv, ⟨ha, .inr hk, hheld⟩, ?_⟩
  cases hd : scopes.resolve? n.text s.scope with
  | none => rfl
  | some d =>
    obtain ⟨name, hdefines, -, hname⟩ := hcapture scopes s d hv hd
    exact absurd hname (hundotted d name hdefines)

/-- A block with one definition, which reads nothing, and one read table. -/
def oneDefinition (name : String) (parts : List String) : Tree Kind :=
  .branch .query [.leaf .cteDef name, readOf parts]

theorem eq_of_defines_oneDefinition {name given : String} {parts : List String}
    {d : Tree Kind} (h : (oneDefinition name parts).Defines d given) : given = name := by
  obtain ⟨node, hbelow, hk, hd, ha⟩ := h
  have hnode : node = .leaf .cteDef name := by
    simp only [oneDefinition, readOf, below_branch, below_leaf, List.mem_cons, List.not_mem_nil,
      or_false, exists_eq_or_imp, exists_eq_left, List.mem_map] at hbelow
    rcases hbelow with rfl | rfl | rfl | rfl | ⟨c, ⟨part, _, rfl⟩, hpart⟩
    · exact Kind.noConfusion hk
    · rfl
    · exact Kind.noConfusion hk
    · exact Kind.noConfusion hk
    · rw [below_leaf.1 hpart] at hk
      exact Kind.noConfusion hk
  have hdefinition : d = .leaf .cteDef name := by
    rw [hnode] at hd
    exact List.mem_singleton.1 hd
  rw [hdefinition] at ha
  by_cases hname : name = ""
  · simp [alias?, nonEmptyText?, leaf, text, children, hname] at ha
  · simp [alias?, nonEmptyText?, leaf, text, hname] at ha
    exact ha.1.symm

theorem db_a_mem_sources :
    ∃ scopes s c n, Walk.Visits {} (Walk.start (oneDefinition "a" ["db", "a"])) scopes s ∧
      s.node.kind = .tableRef ∧ s.access = .read ∧
      s.node.childOfKind? .tableName = some c ∧ 2 ≤ c.nameParts.length ∧
      c.qualifiedName? = some n ∧ n ∈ ((oneDefinition "a" ["db", "a"]).lineage {}).sources := by
  have hv : ∃ scopes, Walk.Visits {} (Walk.start (oneDefinition "a" ["db", "a"])) scopes
      ⟨readOf ["db", "a"], .read, 2⟩ := ⟨_, .later (.now _ _ _ _)⟩
  obtain ⟨scopes, hv⟩ := hv
  obtain ⟨n, hn, -, -, hsource⟩ := qualified_mem_sources_iff rfl hv (by decide) rfl rfl (by decide)
  have hundotted : ∀ d name, (oneDefinition "a" ["db", "a"]).Defines d name →
      '.' ∉ name.toList := by
    intro d name h
    rw [eq_of_defines_oneDefinition h]
    decide
  exact ⟨scopes, _, _, n, hv, by decide, rfl, rfl, by decide, hn, hsource hundotted⟩

/-- A definition in quotes captures a name of two parts. -/
theorem not_forall_qualified_mem_sources :
    ¬ ∀ (t : Tree Kind) (scopes : Scopes (Tree Kind)) (s : Step Kind) (c : Tree Kind),
      Walk.Visits {} (Walk.start t) scopes s → s.node.kind = .tableRef → s.access = .read →
      s.node.childOfKind? .tableName = some c → 2 ≤ c.nameParts.length →
      ∃ n, c.qualifiedName? = some n ∧ n ∈ (t.lineage {}).sources := by
  intro h
  have hv : ∃ scopes, Walk.Visits {} (Walk.start (oneDefinition "A.b" ["a", "b"])) scopes
      ⟨readOf ["a", "b"], .read, 2⟩ := ⟨_, .later (.now _ _ _ _)⟩
  obtain ⟨scopes, hv⟩ := hv
  obtain ⟨n, -, hn⟩ := h _ scopes _ _ hv (by decide) rfl rfl (by decide)
  have hsources : ((oneDefinition "A.b" ["a", "b"]).lineage {}).sources = [] := by cbv
  rw [hsources] at hn
  exact absurd hn List.not_mem_nil

end Tree
end Lineage
