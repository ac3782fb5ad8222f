import Lineage.Proofs.Walk.Isolation
import Lineage.Proofs.Walk.Visible

/-
Definitions that stand in no query block.

A block threads one chain of scopes through its definitions, so the body of each
sees the definitions before it.  Outside a block the walk visits the definitions
one by one and starts the chain of each afresh, in the scope around.  The trees
behind them see all of the names either way.  So two such walks differ in what
the bodies read: a body outside a block reads a table where a body of the block
reads an earlier definition.
-/

namespace Lineage

variable {κ : Type} [Vocabulary κ] {o : ExtractOptions}

namespace Walk

/-- Where definitions stand in query blocks, a run leaves the older scopes seeing
what they saw. -/
theorem sees_run {w : Walk κ} (hr : w.InRange)
    (hp : ∀ s ∈ w.pending, s.node.definitionsPlaced 0 = true) {i : ScopeId}
    (hi : i < w.scopes.size) : (run o w).scopes.sees i = w.scopes.sees i := by
  fun_induction run o w with
  | case1 scopes events => rfl
  | case2 scopes events s pending ih =>
    have hplaced := hp s List.mem_cons_self
    have hgrows := grows_visitAlone o scopes s
    rw [if_neg (Tree.not_cteDef_of_placed hplaced)] at hgrows
    rw [visit_eq_onto] at ih ⊢
    rw [ih hr.visit (fun st hst => ?_) (Nat.lt_of_lt_of_le hi hgrows.size_le)]
    · exact hgrows.sees_eq i hi (Scopes.not_mem_chain_of_lt hi)
    · rcases List.mem_append.1 hst with hst | hst
      · exact placed_visitAlone hplaced st hst
      · exact hp st (List.mem_cons_of_mem _ hst)

/-! ## Definitions one by one -/

/-- Scopes of a walk that is at the level where it started, and has seen
definitions of some names there.  The scope around sees none of them. -/
structure AtTop (scopes : Scopes (Tree κ)) (names : Names) : Prop where
  ordered : scopes.Ordered
  one_lt : 1 < scopes.size
  parent_eq : scopes.parent? 1 = some 0
  sees_zero : scopes.sees 0 = Names.none
  sees_one : scopes.sees 1 = names

omit [Vocabulary κ] in
theorem atTop_start (t : Tree κ) : AtTop (start t).scopes Names.none := by
  have hzero : (start t).scopes.sees 0 = Scopes.sees Scopes.initial 0 :=
    Scopes.sees_openIn_of_lt 0 Nat.zero_lt_one
  refine ⟨(inRange_start t).ordered, Nat.lt_succ_self 1, rfl, ?_, sees_start t⟩
  rw [hzero]
  funext key
  simp [Scopes.sees, Scopes.find?, Scopes.initial, Names.none]

/-- The chain of the bodies starts in the scope around, whatever was defined
before. -/
theorem AtTop.visitAlone_definition {scopes : Scopes (Tree κ)} {names : Names}
    (h : AtTop scopes names) {d : Tree κ} (hk : d.kind = .cteDef) :
    visitAlone o scopes ⟨d, .read, 1⟩ =
      resume [] (Schedule.defineAll 1 ⟨scopes, [], [], 0⟩ d) := by
  rw [visitAlone_cteDef hk]
  show resume [] (Schedule.defineAll 1 ⟨scopes, [], [], (scopes.parent? 1).getD 1⟩ d) = _
  rw [h.parent_eq]
  rfl

/-- The visit of a definition at the level where the walk started.  Its body is
scheduled where nothing is visible. -/
theorem AtTop.run_definition {scopes : Scopes (Tree κ)} {names : Names} (h : AtTop scopes names)
    {d : Tree κ} (hk : d.kind = .cteDef) (hp : d.definitionsPlaced 2 = true) :
    (run o ⟨scopes, [], [⟨d, .read, 1⟩]⟩).mentioned = d.mentions o Names.none .read ∧
    AtTop (run o ⟨scopes, [], [⟨d, .read, 1⟩]⟩).scopes (names.bindAll d.definedNames) := by
  have hzero : 0 < scopes.size := Nat.lt_of_succ_lt h.one_lt
  have hapart : Schedule.Apart 1 (Schedule.mk scopes [] [] 0) :=
    ⟨⟨h.ordered, h.one_lt, hzero, fun st hst => absurd hst List.not_mem_nil⟩,
      Scopes.not_mem_chain_of_lt Nat.zero_lt_one⟩
  have hquiet : (Schedule.defineAll 1 ⟨scopes, [], [], 0⟩ d).Quiet :=
    (Schedule.quiet_fresh scopes [] 0).defineAll d
  have hplaced : ∀ st ∈ (Schedule.defineAll 1 ⟨scopes, [], [], 0⟩ d).steps,
      st.node.definitionsPlaced 0 = true :=
    Schedule.placed_defineAll hk hp (fun st hst => absurd hst List.not_mem_nil)
  have hvisit := h.visitAlone_definition (o := o) hk
  obtain ⟨hnew, hbinds, hmentions⟩ := Schedule.binds_defineAll (o := o) hk hapart
  have hbody := hmentions _ (.refl ..)
  generalize Schedule.defineAll 1 ⟨scopes, [], [], 0⟩ d = s at hquiet hplaced hvisit hnew hbinds hbody
  have hrange := inRange_resume hnew.toInRange
  have hsteps : (resume [] s).pending = s.steps.reverse := by
    rw [resume, List.reverseAux_eq, List.append_nil]
  have hpending : ∀ st ∈ (resume [] s).pending, st.node.definitionsPlaced 0 = true := by
    intro st hst
    rw [hsteps, List.mem_reverse] at hst
    exact hplaced st hst
  have hextends : Scopes.Extends scopes (run o (resume [] s)).scopes :=
    hbinds.grows.toExtends.trans (extends_run o (resume [] s))
  have hsees {i : ScopeId} (hi : i < scopes.size) :
      (run o (resume [] s)).scopes.sees i = s.scopes.sees i :=
    sees_run hrange hpending (Nat.lt_of_lt_of_le hi hbinds.grows.size_le)
  have hwalk : (resume [] s).onto [] [] = resume [] s := by
    simp only [onto, List.append_nil]
  rw [run_cons, hvisit, hwalk]
  refine ⟨?_, (inRange_run hrange).ordered, Nat.lt_of_lt_of_le h.one_lt hextends.size_le, ?_, ?_, ?_⟩
  · rw [h.sees_zero] at hbody
    rw [mentioned_run hrange hpending, hsteps]
    exact (congrArg (· ++ _) hquiet).trans hbody
  · rw [hextends.parent_eq 1 h.one_lt, h.parent_eq]
  · rw [hsees hzero, hbinds.grows.sees_eq 0 hzero hapart.not_mem]
    exact h.sees_zero
  · rw [hsees h.one_lt, hbinds.block_sees, ← h.sees_one]

/-- The definitions before the rest.  No body sees a definition before it, and the
rest sees all of them. -/
theorem AtTop.run_definitions {scopes : Scopes (Tree κ)} {names : Names} (h : AtTop scopes names)
    {ds : List (Tree κ)} (hk : ∀ d ∈ ds, d.kind = .cteDef)
    (hp : ∀ d ∈ ds, d.definitionsPlaced 2 = true) :
    (run o ⟨scopes, [], ds.map (⟨·, .read, 1⟩)⟩).mentioned =
        ds.flatMap (·.mentions o Names.none .read) ∧
    AtTop (run o ⟨scopes, [], ds.map (⟨·, .read, 1⟩)⟩).scopes
      (names.bindAll (Tree.blockNames ds)) := by
  induction ds generalizing scopes names with
  | nil =>
    rw [List.map_nil, run_nil]
    exact ⟨rfl, h⟩
  | cons d ds ih =>
    have hd := hk d List.mem_cons_self
    obtain ⟨hmentions, hafter⟩ := h.run_definition (o := o) hd (hp d List.mem_cons_self)
    obtain ⟨hrest, htop⟩ := ih hafter (fun c hc => hk c (List.mem_cons_of_mem _ hc))
      (fun c hc => hp c (List.mem_cons_of_mem _ hc))
    have hsplit := run_append o scopes [⟨d, .read, 1⟩] (ds.map (⟨·, .read, 1⟩))
    -- the others start from the scopes that the first one leaves
    rw [List.map_cons, ← List.singleton_append, hsplit]
    refine ⟨?_, ?_⟩
    · rw [mentioned_onto, hrest, ← mentioned, hmentions, List.flatMap_cons]
    · rw [Tree.blockNames_cons_of_cteDef hd, Names.bindAll_append]
      exact htop

end Walk

namespace Tree

/-- What a root over definitions and one more tree mentions. -/
theorem mentioned_run_unblocked {root : κ} (hroot : Vocabulary.kind root = .root)
    {ds : List (Tree κ)} (hk : ∀ d ∈ ds, d.kind = .cteDef)
    (hp : ∀ d ∈ ds, d.definitionsPlaced 2 = true) {m : Tree κ}
    (hm : m.definitionsPlaced 0 = true) :
    ((Walk.start (branch root (ds ++ [m]))).run o).mentioned =
      ds.flatMap (·.mentions o Names.none .read) ++
        m.mentions o (Names.none.bindAll (blockNames ds)) .read := by
  obtain ⟨hmentions, htop⟩ := (Walk.atTop_start m).run_definitions (o := o) hk hp
  rw [Walk.run_start_root hroot, List.map_append, Walk.run_append, Walk.mentioned_onto,
    ← Walk.mentioned]
  refine (congrArg₂ (· ++ ·) hmentions ?_)
  have hrange : Walk.InRange ⟨(Walk.run o ⟨(Walk.start m).scopes, [],
      ds.map (⟨·, .read, 1⟩)⟩).scopes, [], [⟨m, .read, 1⟩]⟩ := by
    refine ⟨htop.ordered, fun s hs => ?_⟩
    rw [List.mem_singleton.1 hs]
    exact htop.one_lt
  refine (Walk.mentioned_run hrange (fun s hs => ?_)).trans ?_
  · rw [List.mem_singleton.1 hs]
    exact hm
  · show [] ++ [Step.mentions o _ ⟨m, .read, 1⟩].flatten = _
    rw [List.nil_append, List.flatten_singleton, Step.mentions, htop.sees_one]

/-! ## Definitions in a block -/

theorem blockMentions_definitions (main visible : Names) {ds : List (Tree κ)}
    (hk : ∀ d ∈ ds, d.kind = .cteDef) (rest : List (Tree κ)) :
    blockMentions o main visible (ds ++ rest) =
      blockMentions o main visible ds ++
        blockMentions o main (visible.bindAll (blockNames ds)) rest := by
  induction ds generalizing visible with
  | nil => rfl
  | cons d ds ih =>
    have hd := hk d List.mem_cons_self
    rw [List.cons_append, blockMentions, blockMentions, if_pos hd, if_pos hd,
      ih _ (fun c hc => hk c (List.mem_cons_of_mem _ hc)), blockNames_cons_of_cteDef hd,
      Names.bindAll_append, List.append_assoc]

/-- The names for the main body do not matter to definitions. -/
theorem blockMentions_main (main main' visible : Names) {ds : List (Tree κ)}
    (hk : ∀ d ∈ ds, d.kind = .cteDef) :
    blockMentions o main visible ds = blockMentions o main' visible ds := by
  induction ds generalizing visible with
  | nil => rfl
  | cons d ds ih =>
    have hd := hk d List.mem_cons_self
    rw [blockMentions, blockMentions, if_pos hd, if_pos hd,
      ih _ (fun c hc => hk c (List.mem_cons_of_mem _ hc))]

/-- The bodies of a block's definitions, where nothing is visible around. -/
theorem lineage_definitions {block : κ} (hblock : (Vocabulary.kind block).opensScope = true)
    {ds : List (Tree κ)} (hk : ∀ d ∈ ds, d.kind = .cteDef)
    (hp : ∀ d ∈ ds, d.definitionsPlaced 2 = true) :
    (branch block ds).lineage o = .ofMentions (blockMentions o Names.none Names.none ds) := by
  have hopens : (branch block ds).kind.opensScope = true := hblock
  rw [lineage_eq_ofMentions (placed_block hopens hp), mentions_block hopens]
  exact congrArg Record.ofMentions (blockMentions_main _ _ _ hk)

/-- Behind its definitions, a block reads one more tree. -/
theorem lineage_definitions_main {block : κ} (hblock : (Vocabulary.kind block).opensScope = true)
    {ds : List (Tree κ)} (hk : ∀ d ∈ ds, d.kind = .cteDef)
    (hp : ∀ d ∈ ds, d.definitionsPlaced 2 = true) {m : Tree κ}
    (hm : m.definitionsPlaced 0 = true) :
    (branch block (ds ++ [m])).lineage o =
      .ofMentions (blockMentions o Names.none Names.none ds ++
        m.mentions o (Names.none.bindAll (blockNames ds)) .read) := by
  have hopens : (branch block (ds ++ [m])).kind.opensScope = true := hblock
  have hmain := not_cteDef_of_placed hm
  have hnames : blockNames (ds ++ [m]) = blockNames ds := by
    rw [blockNames_append, blockNames_cons_of_ne hmain]
    exact List.append_nil _
  have hplaced : ∀ c ∈ ds ++ [m], c.definitionsPlaced 2 = true := by
    intro c hc
    rcases List.mem_append.1 hc with hc | hc
    · exact hp c hc
    · rw [List.mem_singleton.1 hc]
      exact placed_of_not_cteDef hmain hm
  rw [lineage_eq_ofMentions (placed_block hopens hplaced), mentions_block hopens]
  show Record.ofMentions (blockMentions o (Names.none.bindAll (blockNames (ds ++ [m])))
    Names.none (ds ++ [m])) = _
  rw [hnames, blockMentions_definitions _ _ hk, blockMentions_main _ Names.none _ hk, blockMentions,
    if_neg hmain, blockMentions, List.append_nil]

theorem thins_keep (more : Names) (mentions : List Mention) :
    Thins (fun m => m ∈ mentions ∧ more.hides o m = true) mentions (keep o more mentions) := by
  suffices h : ∀ as ⊆ mentions,
      Thins (fun m => m ∈ mentions ∧ more.hides o m = true) as (keep o more as) from h _ (fun _ h => h)
  intro as hsub
  induction as with
  | nil => exact .nil
  | cons m as ih =>
    have ih := ih (fun _ h => hsub (List.mem_cons_of_mem _ h))
    rw [keep, List.filter_cons]
    by_cases hm : more.hides o m = true
    · rw [if_neg (by simp [hm])]
      exact .drop ⟨hsub List.mem_cons_self, hm⟩ ih
    · rw [if_pos (by simp [hm])]
      exact .keep m ih

/-- Mentions of a definition that are hidden behind the definitions before it. -/
theorem hides_blockNames_iff {before : List (Tree κ)} {m : Mention} :
    (Names.none.bindAll (blockNames before)).hides o m = true ↔
      o.emitCteNames = false ∧ m.access = .read ∧
        foldCase m.name.text ∈ (blockNames before).map foldCase := by
  have hbound : Names.none.bindAll (blockNames before) (foldCase m.name.text) = true ↔
      foldCase m.name.text ∈ (blockNames before).map foldCase := by
    rw [Names.mem_bindAll]
    exact or_iff_right Bool.false_ne_true
  simp only [Names.hides, Bool.and_eq_true, Bool.not_eq_true', decide_eq_true_eq, hbound, and_assoc]

/-- Whether the tables that definitions read under the names of earlier ones were
read before. -/
def RereadsAll (o : ExtractOptions) (ds : List (Tree κ)) : Prop :=
  ∀ before d after, ds = before ++ d :: after → ∀ n,
    ⟨.read, n⟩ ∈ d.mentions o Names.none .read →
    foldCase n.text ∈ (blockNames before).map foldCase →
    ⟨.read, n⟩ ∈ blockMentions o Names.none Names.none before

/-- In terms of records: a definition alone, and the definitions before it in a block. -/
theorem rereadsAll_iff {block : κ} (hblock : (Vocabulary.kind block).opensScope = true)
    {ds : List (Tree κ)} (hk : ∀ d ∈ ds, d.kind = .cteDef)
    (hp : ∀ d ∈ ds, d.definitionsPlaced 2 = true) :
    RereadsAll o ds ↔ ∀ before d after, ds = before ++ d :: after →
      ∀ n ∈ ((branch block [d]).lineage o).sources,
        foldCase n.text ∈ (blockNames before).map foldCase →
          n ∈ ((branch block before).lineage o).sources := by
  have hrecords {before after : List (Tree κ)} {d : Tree κ} (hds : ds = before ++ d :: after)
      (n : QualifiedName) :
      (n ∈ ((branch block [d]).lineage o).sources ↔ ⟨.read, n⟩ ∈ d.mentions o Names.none .read) ∧
        (n ∈ ((branch block before).lineage o).sources ↔
          ⟨.read, n⟩ ∈ blockMentions o Names.none Names.none before) := by
    have hd : d ∈ ds := hds ▸ List.mem_append_right _ List.mem_cons_self
    have hbefore (c : Tree κ) (hc : c ∈ before) : c ∈ ds := hds ▸ List.mem_append_left _ hc
    have halone : (branch block [d]).lineage o = .ofMentions (d.mentions o Names.none .read) := by
      rw [lineage_definitions hblock (fun c hc => List.mem_singleton.1 hc ▸ hk d hd)
        (fun c hc => List.mem_singleton.1 hc ▸ hp d hd), blockMentions, if_pos (hk d hd),
        blockMentions, List.append_nil]
    rw [halone, lineage_definitions hblock (fun c hc => hk c (hbefore c hc))
      (fun c hc => hp c (hbefore c hc))]
    exact ⟨Record.mem_sources_ofMentions, Record.mem_sources_ofMentions⟩
  constructor
  · intro h before d after hds n hn hbound
    exact (hrecords hds n).2.2 (h before d after hds n ((hrecords hds n).1.1 hn) hbound)
  · intro h before d after hds n hn hbound
    exact (hrecords hds n).2.1 (h before d after hds n ((hrecords hds n).1.2 hn) hbound)

/-- In a block, a further definition mentions what it mentions alone, less what the
definitions before it hide. -/
theorem blockMentions_concat {before : List (Tree κ)} (hk : ∀ d ∈ before, d.kind = .cteDef)
    {d : Tree κ} (hd : d.kind = .cteDef) :
    blockMentions o Names.none Names.none (before ++ [d]) =
      blockMentions o Names.none Names.none before ++
        keep o (Names.none.bindAll (blockNames before)) (d.mentions o Names.none .read) := by
  rw [blockMentions_definitions _ _ hk, blockMentions, if_pos hd, blockMentions, List.append_nil,
    ← mentions_union, Names.union_none]

/-- What definitions mention outside a block makes up the same record as what they
mention in one, if whatever is hidden in the block was read before. -/
theorem ofMentions_definitions {before ds : List (Tree κ)}
    (hk : ∀ d ∈ before ++ ds, d.kind = .cteDef)
    (h : o.emitCteNames = true ∨ RereadsAll o (before ++ ds)) (rest : List Mention) :
    Record.ofMentions (blockMentions o Names.none Names.none before ++
        (ds.flatMap (·.mentions o Names.none .read) ++ rest)) =
      .ofMentions (blockMentions o Names.none Names.none (before ++ ds) ++ rest) := by
  -- the definitions pass from the walk into the block one by one
  induction ds generalizing before with
  | nil => rw [List.append_nil]; rfl
  | cons d ds ih =>
    have hsplit : before ++ d :: ds = (before ++ [d]) ++ ds := (List.append_cons ..)
    have hthins := (thins_keep (o := o) (Names.none.bindAll (blockNames before))
      (d.mentions o Names.none .read)).append (.refl (ds.flatMap (·.mentions o Names.none .read) ++ rest))
    have hd : d.kind = .cteDef := hk d (List.mem_append_right _ List.mem_cons_self)
    have hbefore (c : Tree κ) (hc : c ∈ before) : c.kind = .cteDef :=
      hk c (List.mem_append_left _ hc)
    have hread (m : Mention) (hm : m ∈ d.mentions o Names.none .read ∧
        (Names.none.bindAll (blockNames before)).hides o m = true) :
        m.access = .read ∧ ⟨.read, m.name⟩ ∈ blockMentions o Names.none Names.none before := by
      obtain ⟨hmem, hhides⟩ := hm
      obtain ⟨ho, haccess, hbound⟩ := hides_blockNames_iff.1 hhides
      have hreads := h.resolve_left (fun he => Bool.false_ne_true (ho.symm.trans he))
      have hm : m = ⟨.read, m.name⟩ := by rw [← haccess]
      exact ⟨haccess, hreads before d ds rfl m.name (hm ▸ hmem) hbound⟩
    calc Record.ofMentions (blockMentions o Names.none Names.none before ++
          ((d :: ds).flatMap (·.mentions o Names.none .read) ++ rest))
        = .ofMentions (blockMentions o Names.none Names.none before ++
            (d.mentions o Names.none .read ++
              (ds.flatMap (·.mentions o Names.none .read) ++ rest))) := by
          rw [List.flatMap_cons, List.append_assoc]
      _ = .ofMentions (blockMentions o Names.none Names.none (before ++ [d]) ++
            (ds.flatMap (·.mentions o Names.none .read) ++ rest)) := by
          rw [Record.ofMentions_append_of_thins hthins hread, blockMentions_concat hbefore hd,
            List.append_assoc]
      _ = .ofMentions (blockMentions o Names.none Names.none (before ++ d :: ds) ++ rest) := by
          rw [hsplit] at hk h ⊢
          exact ih hk h

/-- Behind some definitions, a block mentions nothing that they hide. -/
theorem mem_before_of_hides {before after : List (Tree κ)}
    (hk : ∀ d ∈ before ++ after, d.kind = .cteDef) {main : Tree κ} {m : Mention}
    (hm : (Names.none.bindAll (blockNames before)).hides o m = true)
    (h : m ∈ blockMentions o Names.none Names.none (before ++ after) ++
      main.mentions o (Names.none.bindAll (blockNames (before ++ after))) .read) :
    m ∈ blockMentions o Names.none Names.none before := by
  have hnot {mentions : List Mention} :
      m ∉ keep o (Names.none.bindAll (blockNames before)) mentions :=
    fun hmem => Bool.false_ne_true ((mem_keep.1 hmem).2.symm.trans hm)
  have hafter := blockMentions_main (o := o) Names.none (Names.none.bindAll (blockNames before))
    (Names.none.bindAll (blockNames before)) (fun d hd => hk d (List.mem_append_right _ hd))
  rw [blockMentions_definitions _ _ (fun d hd => hk d (List.mem_append_left _ hd)), hafter,
    List.append_assoc] at h
  -- what comes behind sees the names of `before`, so that it keeps no such mention
  rcases List.mem_append.1 h with h | h
  · exact h
  · rcases List.mem_append.1 h with h | h
    · rw [← Names.union_self (Names.none.bindAll _), blockMentions_union] at h
      exact absurd h hnot
    · rw [blockNames_append, Names.bindAll_append, ← Names.union_none (Names.none.bindAll _),
        Names.bindAll_union, mentions_union] at h
      exact absurd h hnot

/-- When definitions outside a query block record what they record in one.  With
synthetic names, they always do.  Without them, a table that a definition reads
under the name of an earlier one must be among the sources of those before it: in
the block it is that definition, and outside it is a table. -/
theorem lineage_unblocked_iff {root block : κ} (hroot : Vocabulary.kind root = .root)
    (hblock : (Vocabulary.kind block).opensScope = true) {ds : List (Tree κ)}
    (hk : ∀ d ∈ ds, d.kind = .cteDef) (hp : ∀ d ∈ ds, d.definitionsPlaced 2 = true)
    {m : Tree κ} (hm : m.definitionsPlaced 0 = true) :
    (branch root (ds ++ [m])).lineage o = (branch block (ds ++ [m])).lineage o ↔
      o.emitCteNames = true ∨ ∀ before d after, ds = before ++ d :: after →
        ∀ n ∈ ((branch block [d]).lineage o).sources,
          foldCase n.text ∈ (blockNames before).map foldCase →
            n ∈ ((branch block before).lineage o).sources := by
  rw [lineage_eq_ofMentions_run, mentioned_run_unblocked hroot hk hp hm,
    lineage_definitions_main hblock hk hp hm, ← rereadsAll_iff hblock hk hp]
  constructor
  · intro heq
    cases ho : o.emitCteNames with
    | true => exact .inl rfl
    | false =>
      refine .inr (fun before d after hds n hn hbound => ?_)
      have hhides : (Names.none.bindAll (blockNames before)).hides o ⟨.read, n⟩ = true :=
        hides_blockNames_iff.2 ⟨ho, rfl, hbound⟩
      have hmem : ⟨.read, n⟩ ∈ ds.flatMap (·.mentions o Names.none .read) :=
        List.mem_flatMap.2 ⟨d, hds ▸ List.mem_append_right _ List.mem_cons_self, hn⟩
      have hsource : n ∈ (Record.ofMentions (ds.flatMap (·.mentions o Names.none .read) ++
          m.mentions o (Names.none.bindAll (blockNames ds)) .read)).sources :=
        Record.mem_sources_ofMentions.2 (List.mem_append_left _ hmem)
      rw [heq, Record.mem_sources_ofMentions] at hsource
      rw [hds] at hk hsource
      exact mem_before_of_hides hk hhides hsource
  · intro h
    exact @ofMentions_definitions κ _ o [] ds hk h _

/-- A definition over a table of its own name, and one that reads this name, too. -/
def rereading : List (Tree Kind) :=
  [.node .cteDef (some "a") [readOf ["a"]], .node .cteDef (some "b") [readOf ["t"], readOf ["a"]]]

theorem lineage_unblocked_rereading :
    Vocabulary.kind Kind.root = .root ∧ (Vocabulary.kind Kind.query).opensScope = true ∧
    (∀ d ∈ rereading, d.kind = .cteDef) ∧
    (∀ d ∈ rereading, d.definitionsPlaced 2 = true) ∧
    (readOf ["b"]).definitionsPlaced 0 = true ∧
    (branch .root (rereading ++ [readOf ["b"]])).lineage {} =
      (branch .query (rereading ++ [readOf ["b"]])).lineage {} := by
  have hk : ∀ d ∈ rereading, d.kind = .cteDef := by decide
  have hp : ∀ d ∈ rereading, d.definitionsPlaced 2 = true := by decide
  have hm : (readOf ["b"]).definitionsPlaced 0 = true := by decide
  refine ⟨rfl, rfl, hk, hp, hm, (lineage_unblocked_iff rfl rfl hk hp hm).2 (.inr ?_)⟩
  intro before d after hds n hn hbound
  rcases before with _ | ⟨first, _ | ⟨second, rest⟩⟩
  · exact absurd hbound List.not_mem_nil
  · obtain ⟨rfl, rfl, rfl⟩ : _ ∧ _ ∧ [] = after := by simpa [rereading] using hds
    have hsecond : ((branch .query [.node .cteDef (some "b") [readOf ["t"], readOf ["a"]]]).lineage
        {}).sources = [⟨"t", by decide⟩, ⟨"a", by decide⟩] := of_decide_eq_true (by cbv)
    have hfirst : ((branch .query [.node .cteDef (some "a") [readOf ["a"]]]).lineage {}).sources =
        [⟨"a", by decide⟩] := of_decide_eq_true (by cbv)
    rw [hsecond] at hn
    rw [hfirst]
    rcases List.mem_cons.1 hn with rfl | hn
    · exact absurd hbound (of_decide_eq_false (by cbv))
    · exact hn
  · have hlength := congrArg List.length hds
    simp [rereading] at hlength

/-- A definition over `t`, and a second one over the first. -/
def chained : List (Tree Kind) :=
  [.node .cteDef (some "a") [readOf ["t"]], .node .cteDef (some "b") [readOf ["a"]]]

/-- Outside a block, the second definition reads a table `a`. -/
theorem not_forall_lineage_unblocked :
    ¬ ∀ (o : ExtractOptions) (ds : List (Tree Kind)) (m : Tree Kind),
      (∀ d ∈ ds, d.kind = .cteDef) → (∀ d ∈ ds, d.definitionsPlaced 2 = true) →
      m.definitionsPlaced 0 = true →
      (branch .root (ds ++ [m])).lineage o = (branch .query (ds ++ [m])).lineage o := by
  intro h
  have hsources := congrArg (fun record => record.sources.map (·.text))
    (h {} chained (readOf ["b"]) (by decide) (by decide) (by decide))
  have hroot : ((branch .root (chained ++ [readOf ["b"]])).lineage {}).sources.map (·.text) =
      ["t", "a"] := by cbv
  have hblock : ((branch .query (chained ++ [readOf ["b"]])).lineage {}).sources.map (·.text) =
      ["t"] := by cbv
  rw [hroot, hblock] at hsources
  exact absurd hsources (by decide)

end Tree
end Lineage
