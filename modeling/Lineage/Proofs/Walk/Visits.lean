import Lineage.Proofs.Walk.Range

/-
The visits of a walk.

Whatever a walk notes was noted by one of its visits.  This holds for every tree,
wherever its `cteDef` nodes stand.
-/

namespace Lineage

namespace Tree

variable {κ : Type}

/-- The parts of a tree: itself and what stands below it. -/
inductive Below : Tree κ → Tree κ → Prop where
  | self (t : Tree κ) : Below t t
  | child {t c u : Tree κ} (hc : c ∈ t.children) (h : Below c u) : Below t u

theorem Below.children {t u c : Tree κ} (h : Below t u) (hc : c ∈ u.children) : Below t c := by
  induction h with
  | self t => exact .child hc (.self c)
  | child hc' _ ih => exact .child hc' (ih hc)

theorem below_iff {t u : Tree κ} : t.Below u ↔ u = t ∨ ∃ c ∈ t.children, c.Below u := by
  constructor
  · intro h
    cases h with
    | self => exact .inl rfl
    | child hc h => exact .inr ⟨_, hc, h⟩
  · rintro (rfl | ⟨c, hc, h⟩)
    · exact .self u
    · exact .child hc h

theorem below_leaf {label : κ} {text : String} {u : Tree κ} :
    (leaf label text).Below u ↔ u = leaf label text := by
  rw [below_iff]
  show u = leaf label text ∨ (∃ c ∈ [], Below c u) ↔ _
  simp only [List.not_mem_nil, false_and, exists_false, or_false]

theorem below_branch {label : κ} {children : List (Tree κ)} {u : Tree κ} :
    (branch label children).Below u ↔
      u = branch label children ∨ ∃ c ∈ children, c.Below u := below_iff

variable [Vocabulary κ]

/-- A tree holds a definition under some name. -/
def Defines (t d : Tree κ) (name : String) : Prop :=
  ∃ node, t.Below node ∧ node.kind = .cteDef ∧ d ∈ node.definitions ∧ d.alias? = some name

theorem Below.definition {t node d : Tree κ} (h : Below t node) (hd : d ∈ node.definitions) :
    Below t d := by
  unfold definitions at hd
  split at hd
  · exact h.children (List.mem_filter.1 hd).1
  · rwa [List.mem_singleton.1 hd]

end Tree

namespace Walk

variable {κ : Type} [Vocabulary κ] {o : ExtractOptions}

/-- A walk comes to visit a step in some scopes. -/
inductive Visits (o : ExtractOptions) : Walk κ → Scopes (Tree κ) → Step κ → Prop where
  | now (scopes : Scopes (Tree κ)) (events : List Event) (s : Step κ) (pending : List (Step κ)) :
    Visits o ⟨scopes, events, s :: pending⟩ scopes s
  | later {scopes scopes' : Scopes (Tree κ)} {events : List Event} {s s' : Step κ}
    {pending : List (Step κ)} (h : Visits o (visit o ⟨scopes, events, pending⟩ s) scopes' s') :
    Visits o ⟨scopes, events, s :: pending⟩ scopes' s'

/-- The visits of a walk in order, each in its scopes. -/
def visits (o : ExtractOptions) : Walk κ → List (Scopes (Tree κ) × Step κ)
  | ⟨_, _, []⟩ => []
  | ⟨scopes, events, s :: pending⟩ => (scopes, s) :: visits o (visit o ⟨scopes, events, pending⟩ s)
termination_by w => Step.total w.pending
decreasing_by exact total_visit_lt o ⟨scopes, events, pending⟩ s

theorem mem_visits {w : Walk κ} {scopes : Scopes (Tree κ)} {s : Step κ} :
    (scopes, s) ∈ visits o w ↔ Visits o w scopes s := by
  fun_induction visits o w with
  | case1 scopes' events =>
    constructor
    · exact fun h => absurd h List.not_mem_nil
    · exact fun h => by cases h
  | case2 scopes' events t pending ih =>
    rw [List.mem_cons, ih]
    constructor
    · rintro (h | h)
      · obtain ⟨rfl, rfl⟩ := Prod.mk.inj h
        exact .now ..
      · exact .later h
    · intro h
      cases h with
      | now => exact .inl rfl
      | later h => exact .inr h

/-- What every visit keeps holds at every visit. -/
theorem Visits.keeps {P : Walk κ → Prop}
    (hstep : ∀ scopes events s pending, P ⟨scopes, events, s :: pending⟩ →
      P (visit o ⟨scopes, events, pending⟩ s))
    {w : Walk κ} (h : P w) {scopes : Scopes (Tree κ)} {s : Step κ} (hv : Visits o w scopes s) :
    ∃ events pending, P ⟨scopes, events, s :: pending⟩ := by
  induction hv with
  | now scopes events s pending => exact ⟨events, pending, h⟩
  | later _ ih => exact ih (hstep _ _ _ _ h)

theorem mem_mentioned_visit {m : Mention} {scopes : Scopes (Tree κ)} {events : List Event}
    {pending : List (Step κ)} {s : Step κ} :
    m ∈ (visit o ⟨scopes, events, pending⟩ s).mentioned ↔
      m ∈ Event.mentionsOf events ∨ m ∈ (visitAlone o scopes s).mentioned := by
  rw [visit_eq_onto, mentioned_onto, List.mem_append]

/-- A run notes what its visits note. -/
theorem mem_mentioned_run {m : Mention} {w : Walk κ} :
    m ∈ (run o w).mentioned ↔ m ∈ w.mentioned ∨
      ∃ scopes s, Visits o w scopes s ∧ m ∈ (visitAlone o scopes s).mentioned := by
  fun_induction run o w with
  | case1 scopes events =>
    constructor
    · exact fun h => .inl h
    · rintro (h | ⟨_, _, h, _⟩)
      · exact h
      · cases h
  | case2 scopes events s pending ih =>
    rw [ih, mem_mentioned_visit, or_assoc]
    have hvisits : (∃ scopes' s', Visits o ⟨scopes, events, s :: pending⟩ scopes' s' ∧
        m ∈ (visitAlone o scopes' s').mentioned) ↔
        m ∈ (visitAlone o scopes s).mentioned ∨
          ∃ scopes' s', Visits o (visit o ⟨scopes, events, pending⟩ s) scopes' s' ∧
            m ∈ (visitAlone o scopes' s').mentioned := by
      constructor
      · rintro ⟨scopes', s', h, hm⟩
        cases h with
        | now => exact .inl hm
        | later h => exact .inr ⟨scopes', s', h, hm⟩
      · rintro (hm | ⟨scopes', s', h, hm⟩)
        · exact ⟨scopes, s, .now .., hm⟩
        · exact ⟨scopes', s', .later h, hm⟩
    rw [hvisits]
    rfl

/-- A visit notes what the visited node mentions itself. -/
theorem mentioned_visitAlone (o : ExtractOptions) (scopes : Scopes (Tree κ)) (s : Step κ) :
    (visitAlone o scopes s).mentioned =
      s.node.ownMentions o (scopes.sees s.scope) s.access := by
  by_cases hb : s.node.kind.opensScope = true
  · rw [visitAlone_block hb]
    refine ((Schedule.quiet_fresh ..).addBlockChildren s.node.children).trans ?_
    cases hk : s.node.kind with
    | select => simp only [Tree.ownMentions, hk]
    | query => simp only [Tree.ownMentions, hk]
    | _ => rw [hk] at hb; exact absurd hb Bool.false_ne_true
  · by_cases hd : s.node.kind = .cteDef
    · rw [visitAlone_cteDef hd]
      refine ((Schedule.quiet_fresh ..).defineAll s.node).trans ?_
      simp only [Tree.ownMentions, hd]
    · exact (visitAlone_plain (Bool.eq_false_iff.2 hb) hd o scopes).mentions_eq

end Walk

/-- The visit of a step reads a table name. -/
structure Step.Reads {κ : Type} [Vocabulary κ] (s : Step κ) (n : QualifiedName) : Prop where
  access_eq : s.access = .read
  kind_mem : s.node.kind = .table ∨ s.node.kind = .tableRef
  held_eq : s.node.heldName? = some n

namespace Walk

variable {κ : Type} [Vocabulary κ] {o : ExtractOptions}

theorem mem_mentionOf_read (ho : o.emitCteNames = false) {visible : Names} {access : Access}
    {name? : Option QualifiedName} {n : QualifiedName} :
    ⟨.read, n⟩ ∈ Tree.mentionOf o visible access name? ↔
      access = .read ∧ name? = some n ∧ visible (foldCase n.text) = false := by
  cases name? with
  | none => simp [Tree.mentionOf]
  | some m =>
    cases access with
    | write => simp [Tree.mentionOf]
    | read =>
      simp only [Tree.mentionOf, ho, Bool.not_false, Bool.and_true, true_and, Option.some.injEq]
      by_cases hv : visible (foldCase m.text) = true
      · rw [if_pos hv]
        constructor
        · exact fun h => absurd h List.not_mem_nil
        · rintro ⟨rfl, h⟩
          exact absurd hv (Bool.eq_false_iff.1 h)
      · rw [if_neg hv, List.mem_singleton, Mention.mk.injEq]
        constructor
        · rintro ⟨-, rfl⟩
          exact ⟨rfl, Bool.eq_false_iff.2 hv⟩
        · rintro ⟨rfl, -⟩
          exact ⟨rfl, rfl⟩

/-- Without synthetic names, a visit notes a read name unless it resolves. -/
theorem mem_read_visitAlone (ho : o.emitCteNames = false) {scopes : Scopes (Tree κ)}
    {s : Step κ} {n : QualifiedName} :
    ⟨.read, n⟩ ∈ (visitAlone o scopes s).mentioned ↔
      s.Reads n ∧ scopes.resolve? n.text s.scope = none := by
  have hresolve : scopes.resolve? n.text s.scope = none ↔
      scopes.sees s.scope (foldCase n.text) = false := by
    show _ ↔ (scopes.resolve? n.text s.scope).isSome = false
    rw [Option.isSome_eq_false_iff, Option.isNone_iff_eq_none]
  rw [mentioned_visitAlone, hresolve]
  have hreads (access : Access) (name? : Option QualifiedName)
      (h : s.node.ownMentions o (scopes.sees s.scope) s.access =
        Tree.mentionOf o (scopes.sees s.scope) access name?)
      (hiff : s.Reads n ↔ access = .read ∧ name? = some n) :
      ⟨.read, n⟩ ∈ s.node.ownMentions o (scopes.sees s.scope) s.access ↔
        s.Reads n ∧ scopes.sees s.scope (foldCase n.text) = false := by
    rw [h, mem_mentionOf_read ho, hiff, and_assoc]
  have hnever (h : ⟨.read, n⟩ ∉ s.node.ownMentions o (scopes.sees s.scope) s.access)
      (hkind : ¬ (s.node.kind = .table ∨ s.node.kind = .tableRef)) :
      ⟨.read, n⟩ ∈ s.node.ownMentions o (scopes.sees s.scope) s.access ↔
        s.Reads n ∧ scopes.sees s.scope (foldCase n.text) = false :=
    ⟨fun hm => absurd hm h, fun hr => absurd hr.1.kind_mem hkind⟩
  cases hk : s.node.kind with
  | table | tableRef =>
    refine hreads s.access s.node.heldName? (by simp only [Tree.ownMentions, hk]) ?_
    exact ⟨fun h => ⟨h.access_eq, h.held_eq⟩, fun h => ⟨h.1, by simp [hk], h.2⟩⟩
  | destination =>
    refine hnever ?_ (by simp [hk])
    simp only [Tree.ownMentions, hk, mem_mentionOf_read ho]
    exact fun h => Access.noConfusion h.1
  | tableName =>
    refine hnever ?_ (by simp [hk])
    simp only [Tree.ownMentions, hk]
    cases s.access with
    | read => exact List.not_mem_nil
    | write =>
      rw [mem_mentionOf_read ho]
      exact fun h => Access.noConfusion h.1
  | cteRef =>
    refine hnever ?_ (by simp [hk])
    simp [Tree.ownMentions, hk, Tree.mentionOfText, ho]
  | _ => exact hnever (by simp [Tree.ownMentions, hk]) (by simp [hk])

end Walk
end Lineage
