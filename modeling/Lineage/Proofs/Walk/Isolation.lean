import Lineage.Proofs.QualifiedName
import Lineage.Proofs.Walk.Leaks
import Lineage.Proofs.Walk.Refinement
import Lineage.Proofs.Walk.Shift

/-
When a block does not change what is read behind it.

The second of two trees is walked in the scopes that the first one left.  It
starts where the first one started, so it finds there what the first one bound
outside its own block.
-/

namespace Lineage

namespace Record

variable {p : Mention → Prop} {as bs : List Mention}

theorem names_write_of_thins (h : Thins p as bs) (hp : ∀ m, p m → m.access = .read) :
    Mention.names .write as = Mention.names .write bs := by
  induction h with
  | nil => rfl
  | keep m _ ih => rw [Mention.names_cons, Mention.names_cons, ih]
  | @drop m hm _ _ _ ih =>
    have hread : m.access ≠ .write := by
      rw [hp m hm]
      exact Access.noConfusion
    rw [Mention.names_cons, if_neg hread, ih]

/-- Names that are in a set already may go missing. -/
theorem insertAll_of_thins (h : Thins p as bs) {s : NameSet}
    (hp : ∀ m, p m → m.access = .read ∧ m.name ∈ s.toList) :
    s.insertAll (Mention.names .read as) = s.insertAll (Mention.names .read bs) := by
  induction h generalizing s with
  | nil => rfl
  | keep m _ ih =>
    rw [Mention.names_cons, Mention.names_cons]
    by_cases hm : m.access = .read
    · rw [if_pos hm, if_pos hm]
      exact ih (fun m' hm' => ⟨(hp m' hm').1, NameSet.mem_toList_insert.2 (.inl (hp m' hm').2)⟩)
    · rw [if_neg hm, if_neg hm]
      exact ih hp
  | @drop m hm _ _ _ ih =>
    obtain ⟨haccess, hname⟩ := hp m hm
    rw [Mention.names_cons, if_pos haccess, NameSet.insertAll, List.foldl_cons,
      NameSet.insert_of_mem hname, ← NameSet.insertAll]
    exact ih hp

theorem ofMentions_append_of_thins {before : List Mention} (h : Thins p as bs)
    (hp : ∀ m, p m → m.access = .read ∧ ⟨.read, m.name⟩ ∈ before) :
    ofMentions (before ++ as) = ofMentions (before ++ bs) := by
  have hwrite := names_write_of_thins h (fun m hm => (hp m hm).1)
  have hread : (NameSet.ofList (Mention.names .read before)).insertAll (Mention.names .read as) =
      (NameSet.ofList (Mention.names .read before)).insertAll (Mention.names .read bs) := by
    refine insertAll_of_thins h (fun m hm => ⟨(hp m hm).1, ?_⟩)
    rw [NameSet.mem_toList_ofList, Mention.mem_names]
    exact (hp m hm).2
  simp only [ofMentions, Mention.names_append, hwrite, ← NameSet.toList_ofList,
    NameSet.ofList_append, hread]

end Record

variable {κ : Type} [Vocabulary κ] {o : ExtractOptions}

namespace Walk

omit [Vocabulary κ] in
theorem rooted_start (t : Tree κ) : (start t).scopes.Rooted := by
  refine ⟨Nat.le_refl 2, fun i hi h2 => ?_⟩
  exact absurd hi (Nat.not_lt.2 h2)

omit [Vocabulary κ] in
theorem chain_start (t : Tree κ) : (start t).scopes.chain 1 = [1, 0] := by
  have hroot : (Scopes.initial : Scopes (Tree κ)).chain 0 = [0] := Scopes.chain_of_lt Nat.zero_lt_one
  have hopen : (start t).scopes.chain 1 = 1 :: (Scopes.initial : Scopes (Tree κ)).chain 0 :=
    Scopes.chain_openIn_self Nat.zero_lt_one
  rw [hopen, hroot]

omit [Vocabulary κ] in
theorem outside_start (t : Tree κ) : (start t).scopes.outside = Names.none := by
  rw [← Scopes.sees_one (chain_start t), sees_start]

theorem extends_run_start (q r : Tree κ) :
    Scopes.Extends (start r).scopes ((start q).run o).scopes :=
  extends_run o (start q)

theorem sees_run_start (q : Tree κ) :
    ((start q).run o).scopes.sees 1 = ((start q).run o).scopes.outside := by
  refine Scopes.sees_one ?_
  rw [(extends_run_start q q).chain_eq (Nat.lt_succ_self 1), chain_start]

/-- Where a walk has ended, another one finds the outermost two scopes with what
was bound there, and nothing else that it could look into. -/
theorem shifted_scopes_start (q r : Tree κ) :
    Scopes.Shifted (((start q).run o).scopes.size - 2) ((start q).run o).scopes.outside
      (start r).scopes ((start q).run o).scopes := by
  have hextends := extends_run_start (o := o) q r
  have h2 : 2 ≤ ((start q).run o).scopes.size := hextends.size_le
  have hsize : ((start q).run o).scopes.size = 2 + (((start q).run o).scopes.size - 2) :=
    (Nat.add_sub_cancel' h2).symm
  have hnew {i : ScopeId} (hi : ¬ i < 2) :
      ¬ shift (((start q).run o).scopes.size - 2) i < ((start q).run o).scopes.size := by
    rw [shift_of_le (Nat.le_of_not_lt hi), Nat.not_lt]
    have := Nat.le_of_not_lt hi
    omega
  refine ⟨Nat.le_refl 2, hsize, fun i => ?_, fun i key hb => ?_, fun i key hb => ?_⟩
  · by_cases hi : i < 2
    · rw [shift_of_lt hi, hextends.parent_eq i hi]
      cases i with
      | zero => rfl
      | succ i =>
        obtain rfl : i = 0 := Nat.lt_one_iff.1 (Nat.lt_of_succ_lt_succ hi)
        rfl
    · have hout : ¬ i < (start r).scopes.size := hi
      rw [Scopes.parent?_of_not_lt (hnew hi), Scopes.parent?_of_not_lt hout]
      rfl
  · rw [binding?_start] at hb
    exact absurd hb Bool.false_ne_true
  · by_cases hi : i < 2
    · rw [shift_of_lt hi] at hb
      refine .inr (Bool.or_eq_true_iff.2 ?_)
      cases i with
      | zero => exact .inl hb
      | succ i =>
        obtain rfl : i = 0 := Nat.lt_one_iff.1 (Nat.lt_of_succ_lt_succ hi)
        exact .inr hb
    · rw [Scopes.binding?_of_not_lt (hnew hi)] at hb
      exact absurd hb Bool.false_ne_true

/-- What a walk of one block binds outside. -/
theorem outside_run_start {q : Tree κ} (hq : q.kind.opensScope = true) (key : String) :
    ((start q).run o).scopes.outside key = true ↔ key ∈ (q.leaks 0 .read).map foldCase := by
  have hd : q.kind ≠ .cteDef := fun hd => by simp [hd, Kind.opensScope] at hq
  have hsteps : Step.leaksAll (start q).scopes (start q).pending = q.leaks 0 .read := by
    have hdepth : (start q).scopes.depth 1 = 0 :=
      (Scopes.depth_eq_zero_iff (Nat.lt_succ_self 1)).2 (Nat.lt_succ_self 1)
    show [Step.leaks (start q).scopes ⟨q, .read, 1⟩].flatten = _
    rw [List.flatten_singleton, Step.leaks, hdepth, Tree.boundOutside_of_ne hd,
      Tree.partDepth_of_ne hd, List.nil_append]
  rw [outside_run (inRange_start q) (rooted_start q), hsteps, outside_start, Names.mem_bindAll]
  exact ⟨fun h => h.resolve_left Bool.false_ne_true, .inr⟩

/-- A walk over a root is a run over its children. -/
theorem run_start_root {root : κ} (hroot : Vocabulary.kind root = .root) (children : List (Tree κ)) :
    (start (.branch root children)).run o =
      run o ⟨(start (.branch root children)).scopes, [], children.map (⟨·, .read, 1⟩)⟩ := by
  have hvisit : visitAlone o (start (.branch root children)).scopes
      ⟨.branch root children, .read, 1⟩ =
      ⟨(start (.branch root children)).scopes, [], children.map (⟨·, .read, 1⟩)⟩ := by
    have hkind : (Tree.branch root children).kind = .root := hroot
    simp only [visitAlone, visit, hkind, push, List.append_nil]
    rfl
  show run o ⟨(start (.branch root children)).scopes, [], [⟨.branch root children, .read, 1⟩]⟩ = _
  rw [run_cons, hvisit]
  simp only [onto, List.append_nil]

/-- The second tree is walked from the scopes that the first one left. -/
theorem mentioned_run_branch {root : κ} (hroot : Vocabulary.kind root = .root) (q r : Tree κ) :
    ((start (.branch root [q, r])).run o).mentioned =
      ((start q).run o).mentioned ++
        (run o ⟨((start q).run o).scopes, [], [⟨r, .read, 1⟩]⟩).mentioned := by
  rw [run_start_root hroot]
  show (run o ⟨(start q).scopes, [], [⟨q, .read, 1⟩] ++ [⟨r, .read, 1⟩]⟩).mentioned = _
  rw [run_append, mentioned_onto]
  rfl

/-- Behind a block, a tree mentions what it would mention alone, apart from
names that the block bound outside. -/
theorem thins_run_behind (q r : Tree κ) :
    Thins (Hidden o ((start q).run o).scopes.outside) ((start r).run o).mentioned
      (run o ⟨((start q).run o).scopes, [], [⟨r, .read, 1⟩]⟩).mentioned := by
  have hstart : Shifted o (((start q).run o).scopes.size - 2) ((start q).run o).scopes.outside
      (start r) ⟨((start q).run o).scopes, [], [⟨r, .read, 1⟩]⟩ :=
    ⟨shifted_scopes_start q r, rfl, .nil⟩
  exact (shifted_run hstart).thins

/-- A tree that reads one table. -/
def tableOf (ref name : κ) (n : QualifiedName) : Tree κ :=
  .branch ref [.branch name [.leaf name n.text]]

theorem heldName?_tableOf (ref : κ) {name : κ} (hname : Vocabulary.kind name = .tableName)
    (n : QualifiedName) : (tableOf ref name n).heldName? = some n := by
  have hchild : (tableOf ref name n).childOfKind? .tableName =
      some (.branch name [.leaf name n.text]) := by
    have hkind : (Tree.branch name [Tree.leaf name n.text]).kind = .tableName := hname
    exact List.find?_cons_of_pos (decide_eq_true hkind)
  have hdotted : (Tree.branch name [Tree.leaf name n.text]).dottedName = n.text :=
    QualifiedName.dotted_singleton n.text_ne
  rw [Tree.heldName?, hchild, Option.bind_some, Tree.qualifiedName?, hdotted]
  exact QualifiedName.ofString?_eq_some_iff.2 rfl

/-- It mentions the table unless the name resolves. -/
theorem mentioned_run_tableOf {ref name : κ} (href : Vocabulary.kind ref = .tableRef)
    (hname : Vocabulary.kind name = .tableName) (scopes : Scopes (Tree κ)) (n : QualifiedName) :
    (run o ⟨scopes, [], [⟨tableOf ref name n, .read, 1⟩]⟩).mentioned =
      Tree.mentionOf o (scopes.sees 1) .read (some n) := by
  have hkind : (tableOf ref name n).kind = .tableRef := href
  have hb : (tableOf ref name n).kind.opensScope = false := by rw [hkind]; rfl
  have hd : (tableOf ref name n).kind ≠ .cteDef := by rw [hkind]; exact Kind.noConfusion
  have hplain := visitAlone_plain (s := ⟨tableOf ref name n, .read, 1⟩) hb hd o scopes
  have hown : (tableOf ref name n).ownMentions o (scopes.sees 1) .read =
      Tree.mentionOf o (scopes.sees 1) .read (some n) := by
    simp only [Tree.ownMentions, hkind, heldName?_tableOf ref hname n]
  have hsteps : childSteps ((tableOf ref name n).position? .read) 1
      (tableOf ref name n).children = [] := by
    have hnone : (tableOf ref name n).position? .read (.branch name [.leaf name n.text]) = none := by
      simp only [Tree.position?, hkind]
      exact if_pos hname
    show [Tree.branch name [Tree.leaf name n.text]].filterMap _ = []
    rw [List.filterMap_cons_none (by rw [hnone]; rfl), List.filterMap_nil]
  rw [run_cons]
  generalize visitAlone o scopes ⟨tableOf ref name n, .read, 1⟩ = w at hplain ⊢
  obtain ⟨scopes', events, pending⟩ := w
  obtain rfl : pending = [] := hplain.pending_eq.trans hsteps
  have hdone : (Walk.mk scopes' events []).onto [] [] = ⟨scopes', events, []⟩ := by
    simp only [onto, List.append_nil]
  rw [hdone, run_nil]
  exact hplain.mentions_eq.trans hown

end Walk

namespace Tree

/-- Which blocks leave alone what stands behind them.  With synthetic names, every
block does.  Without them, the names that the block binds outside must be among
its own sources. -/
theorem lineage_branch_iff {root ref name : κ} (hroot : Vocabulary.kind root = .root)
    (href : Vocabulary.kind ref = .tableRef) (hname : Vocabulary.kind name = .tableName)
    {q : Tree κ} (hq : q.kind.opensScope = true) :
    (∀ r, (branch root [q, r]).lineage o = (q.lineage o).merge (r.lineage o)) ↔
      o.emitCteNames = true ∨ ∀ n : QualifiedName,
        foldCase n.text ∈ (q.leaks 0 .read).map foldCase → n ∈ (q.lineage o).sources := by
  simp only [lineage_eq_ofMentions_run, Walk.mentioned_run_branch hroot, Record.merge_ofMentions,
    Record.mem_sources_ofMentions, ← Walk.outside_run_start (o := o) hq]
  constructor
  · intro h
    cases ho : o.emitCteNames with
    | true => exact .inl rfl
    | false =>
      refine .inr (fun n hn => ?_)
      have hr := h (Walk.tableOf ref name n)
      have halone : ((Walk.start (Walk.tableOf ref name n)).run o).mentioned = [⟨.read, n⟩] := by
        have hrun := Walk.mentioned_run_tableOf (o := o) href hname (Walk.start q).scopes n
        rw [Walk.sees_start] at hrun
        exact hrun
      have hbehind : (Walk.run o ⟨((Walk.start q).run o).scopes, [],
          [⟨Walk.tableOf ref name n, .read, 1⟩]⟩).mentioned = [] := by
        rw [Walk.mentioned_run_tableOf href hname, Walk.sees_run_start, mentionOf, hn, ho]
        rfl
      rw [halone, hbehind, List.append_nil] at hr
      rw [← Record.mem_sources_ofMentions, hr, Record.mem_sources_ofMentions]
      exact List.mem_append_right _ (List.mem_singleton_self _)
  · intro h r
    refine (Record.ofMentions_append_of_thins (Walk.thins_run_behind q r) (fun m hm => ?_)).symm
    rcases h with h | h
    · exact absurd (hm.emit_eq.symm.trans h) Bool.false_ne_true
    · exact ⟨hm.access_eq, h m.name hm.bound⟩

/-- A block whose definition `a` holds another one, which stands in no block. -/
def escaping : Tree Kind :=
  .branch .query [.node .cteDef (some "a") [.branch .other [.leaf .cteDef "b"], readOf ["t"]],
    readOf ["a"]]

example : escaping.leaks 0 .read = ["b"] := by decide

/-- The definition `b` hides a table of that name behind the block. -/
theorem not_forall_lineage_branch :
    ¬ ∀ (o : ExtractOptions) (q r : Tree Kind), q.kind.opensScope = true →
      (branch .root [q, r]).lineage o = (q.lineage o).merge (r.lineage o) := by
  intro h
  have hsources := congrArg (fun record => record.sources.map (·.text))
    (h {} escaping (readOf ["b"]) rfl)
  have htogether : ((branch .root [escaping, readOf ["b"]]).lineage {}).sources.map (·.text) =
      ["t"] := by cbv
  have hmerged : ((escaping.lineage {}).merge ((readOf ["b"]).lineage {})).sources.map (·.text) =
      ["t", "b"] := by cbv
  rw [htogether, hmerged] at hsources
  exact absurd hsources (by decide)

/-- A block whose definition `a` holds a block with a definition. -/
def nested : Tree Kind :=
  .branch .query [.node .cteDef (some "a") [.branch .query [.leaf .cteDef "b", readOf ["b"]]],
    readOf ["a"]]

theorem lineage_branch_nested :
    Vocabulary.kind Kind.root = .root ∧ Vocabulary.kind Kind.tableRef = .tableRef ∧
    Vocabulary.kind Kind.tableName = .tableName ∧ nested.kind.opensScope = true ∧
    ∀ r, (branch .root [nested, r]).lineage {} = (nested.lineage {}).merge (r.lineage {}) := by
  have hleaks : nested.leaks 0 .read = [] := by decide
  have hisolated : ∀ n : QualifiedName, foldCase n.text ∈ (nested.leaks 0 .read).map foldCase →
      n ∈ (nested.lineage {}).sources := by
    intro n hn
    rw [hleaks] at hn
    exact absurd hn List.not_mem_nil
  have hiff := @lineage_branch_iff Kind _ {} .root .tableRef .tableName rfl rfl rfl nested rfl
  exact ⟨rfl, rfl, rfl, rfl, hiff.2 (.inr hisolated)⟩

end Tree
end Lineage
