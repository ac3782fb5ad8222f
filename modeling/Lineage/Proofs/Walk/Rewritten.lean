import Mathlib
import Lineage.Proofs.Walk.Numbered

/-
Trees with some names rewritten, and walks over them in lockstep.

A rewriting puts a new name in the place of the text of one node, and of the
table names that some nodes hold.  The nodes are given by their numbers, and the
rewritten tree has none.  Walks over both trees go side by side: they open the
same scopes and schedule the same nodes, and bind what the rewriting leaves of a
definition where the other one binds the definition, perhaps under another name.
-/

namespace Lineage

/-- Where a new name is put. -/
structure Rewriting where
  name : String
  /-- The node that gets it as its text. -/
  giver? : Option Nat
  /-- The nodes whose first `tableName` child gets it as its only part. -/
  references : List Nat

/-- The rewriting that changes nothing but the labels. -/
def Rewriting.trivial : Rewriting := ⟨"", none, []⟩

namespace Tree

variable {κ : Type}

/-- Put a name of one part in the place of a table name. -/
def renameTable (name : String) (t : Tree κ) : Tree κ :=
  .node t.label t.text ((t.children.take 1).map fun part => .leaf part.label name)

variable [Vocabulary κ]

/-- Rename the first `tableName` among the children of a node. -/
def renameHeld (name : String) : List (Tree κ) → List (Tree κ)
  | [] => []
  | c :: cs => if c.kind = .tableName then c.renameTable name :: cs else c :: renameHeld name cs

mutual

def rewrite (r : Rewriting) : Tree (Numbered κ) → Tree κ
  | node label text children =>
    node label.label (if r.giver? = some label.number then some r.name else text)
      (if label.number ∈ r.references then renameHeld r.name (rewriteAll r children)
        else rewriteAll r children)

def rewriteAll (r : Rewriting) : List (Tree (Numbered κ)) → List (Tree κ)
  | [] => []
  | t :: ts => t.rewrite r :: rewriteAll r ts

end

section renameHeld

variable {name : String} {ts : List (Tree κ)}

theorem length_renameHeld : (renameHeld name ts).length = ts.length := by
  induction ts with
  | nil => rfl
  | cons c cs ih =>
    rw [renameHeld]
    by_cases hk : c.kind = .tableName
    · rw [if_pos hk]
      rfl
    · rw [if_neg hk, List.length_cons, List.length_cons, ih]

theorem find?_renameHeld :
    (renameHeld name ts).find? (·.kind = .tableName) =
      (ts.find? (·.kind = .tableName)).map (renameTable name) := by
  induction ts with
  | nil => rfl
  | cons c cs ih =>
    rw [renameHeld]
    by_cases hk : c.kind = .tableName
    · have hrenamed : (c.renameTable name).kind = .tableName := hk
      rw [if_pos hk, List.find?_cons_of_pos (by simpa using hrenamed),
        List.find?_cons_of_pos (by simpa using hk)]
      rfl
    · rw [if_neg hk, List.find?_cons_of_neg (by simpa using hk),
        List.find?_cons_of_neg (by simpa using hk), ih]

end renameHeld

section rewrite

variable {r : Rewriting} {t : Tree (Numbered κ)}

theorem rewriteAll_eq_map (r : Rewriting) (ts : List (Tree (Numbered κ))) :
    rewriteAll r ts = ts.map (rewrite r) := by
  induction ts with
  | nil => rfl
  | cons t ts ih => rw [rewriteAll, ih, List.map_cons]

theorem kind_rewrite (r : Rewriting) (t : Tree (Numbered κ)) : (t.rewrite r).kind = t.kind := by
  obtain ⟨label, text, children⟩ := t
  rfl

theorem text_rewrite (r : Rewriting) (t : Tree (Numbered κ)) :
    (t.rewrite r).text = if r.giver? = some t.number then some r.name else t.text := by
  obtain ⟨label, text, children⟩ := t
  rfl

theorem text_rewrite_of_ne (h : r.giver? ≠ some t.number) : (t.rewrite r).text = t.text := by
  rw [text_rewrite, if_neg h]

theorem children_rewrite (r : Rewriting) (t : Tree (Numbered κ)) :
    (t.rewrite r).children = if t.number ∈ r.references
      then renameHeld r.name (t.children.map (rewrite r)) else t.children.map (rewrite r) := by
  obtain ⟨label, text, children⟩ := t
  rw [← rewriteAll_eq_map]
  rfl

theorem children_rewrite_of_mem (h : t.number ∈ r.references) :
    (t.rewrite r).children = renameHeld r.name (t.children.map (rewrite r)) := by
  rw [children_rewrite, if_pos h]

theorem children_rewrite_of_not_mem (h : t.number ∉ r.references) :
    (t.rewrite r).children = t.children.map (rewrite r) := by
  rw [children_rewrite, if_neg h]

theorem isLeaf_rewrite (r : Rewriting) (t : Tree (Numbered κ)) :
    (t.rewrite r).isLeaf = t.isLeaf := by
  have hlength : (t.rewrite r).children.length = t.children.length := by
    by_cases h : t.number ∈ r.references
    · rw [children_rewrite_of_mem h, length_renameHeld, List.length_map]
    · rw [children_rewrite_of_not_mem h, List.length_map]
  rw [isLeaf, isLeaf, Bool.eq_iff_iff, List.isEmpty_iff_length_eq_zero,
    List.isEmpty_iff_length_eq_zero, hlength]

theorem isDefinition_rewrite (r : Rewriting) (t : Tree (Numbered κ)) :
    (t.rewrite r).isDefinition = t.isDefinition := by
  rw [isDefinition, isDefinition, kind_rewrite]

theorem any_isDefinition_rewrite (r : Rewriting) (ts : List (Tree (Numbered κ))) :
    (ts.map (rewrite r)).any isDefinition = ts.any isDefinition := by
  rw [List.any_map]
  congr 1
  funext t
  exact isDefinition_rewrite r t

theorem find?_kind_rewrite (r : Rewriting) (k : Kind) (ts : List (Tree (Numbered κ))) :
    (ts.map (rewrite r)).find? (·.kind = k) = (ts.find? (·.kind = k)).map (rewrite r) := by
  rw [List.find?_map]
  congr 2
  funext t
  exact congrArg (fun k' => decide (k' = k)) (kind_rewrite r t)

theorem childOfKind?_rewrite (h : t.number ∉ r.references) (k : Kind) :
    (t.rewrite r).childOfKind? k = (t.childOfKind? k).map (rewrite r) := by
  rw [childOfKind?, childOfKind?, children_rewrite_of_not_mem h, find?_kind_rewrite]

theorem aliasesTable_rewrite (h : t.number ∉ r.references) :
    (t.rewrite r).aliasesTable = t.aliasesTable := by
  have hfilter : (t.children.map (rewrite r)).filter (!·.isLeaf) =
      (t.children.filter (!·.isLeaf)).map (rewrite r) := by
    rw [List.filter_map]
    congr 2
    funext c
    exact congrArg (!·) (isLeaf_rewrite r c)
  rw [aliasesTable, aliasesTable, children_rewrite_of_not_mem h, hfilter]
  generalize t.children.filter (!·.isLeaf) = inner
  rcases inner with _ | ⟨c, _ | ⟨c', cs⟩⟩
  · rfl
  · show (decide ((c.rewrite r).kind = .tableRef) || decide ((c.rewrite r).kind = .table)) = _
    rw [kind_rewrite]
  · rfl

theorem isWritten_rewrite (h : t.kind = .subqueryAlias → t.number ∉ r.references) :
    (t.rewrite r).isWritten = t.isWritten := by
  unfold isWritten
  rw [kind_rewrite]
  cases hk : t.kind with
  | subqueryAlias => exact aliasesTable_rewrite (h hk)
  | _ => rfl

end rewrite

/-! ## Definitions of query blocks -/

/-- The node is a `cteDef` child of a query block of the tree. -/
def WithClause (t node : Tree κ) : Prop :=
  ∃ block, t.Below block ∧ block.kind.opensScope = true ∧ node ∈ block.children ∧
    node.kind = .cteDef

/-- The definition is bound in a query block of the tree. -/
def Introduces (t d : Tree κ) : Prop := ∃ node, t.WithClause node ∧ d ∈ node.definitions

theorem WithClause.kind_eq {t node : Tree κ} (h : t.WithClause node) : node.kind = .cteDef := by
  obtain ⟨_, _, _, _, hk⟩ := h
  exact hk

theorem WithClause.below {t node : Tree κ} (h : t.WithClause node) : t.Below node := by
  obtain ⟨block, hblock, -, hnode, -⟩ := h
  exact hblock.children hnode

theorem Introduces.below {t d : Tree κ} (h : t.Introduces d) : t.Below d := by
  obtain ⟨node, hnode, hd⟩ := h
  exact hnode.below.definition hd

theorem Introduces.kind_mem {t d : Tree κ} (h : t.Introduces d) :
    d.kind = .subqueryAlias ∨ d.kind = .cteDef := by
  obtain ⟨node, hnode, hd⟩ := h
  unfold definitions at hd
  split at hd
  · simpa [isDefinition] using (List.mem_filter.1 hd).2
  · rw [List.mem_singleton.1 hd]
    exact .inr hnode.kind_eq

end Tree

/-! ## Scopes with other names -/

/-- `s'` binds a body wherever `s` does, under a key that depends on the body of
`s`, and it binds no further keys than those in `more`. -/
structure Scopes.Rekeyed {β γ : Type} (rekey : β → String → String) (more : Names)
    (s : Scopes β) (s' : Scopes γ) : Prop where
  size_eq : s'.size = s.size
  parent_eq : ∀ i, s'.parent? i = s.parent? i
  keeps : ∀ i key b, s.binding? i key = some b → (s'.binding? i (rekey b key)).isSome = true
  adds : ∀ i key, (s'.binding? i key).isSome = true →
    (s.binding? i key).isSome = true ∨ more key = true

/-- The name of a definition may change so. -/
structure Renames {β : Type} (rekey : β → String → String) (more : Names) (b : β)
    (name name' : String) : Prop where
  fold_eq : foldCase name' = rekey b (foldCase name)
  fold_mem : foldCase name' = foldCase name ∨ more (foldCase name') = true

namespace Scopes.Rekeyed

variable {β γ : Type} {rekey : β → String → String} {more : Names} {s : Scopes β} {s' : Scopes γ}

theorem chain_eq (h : Rekeyed rekey more s s') (i : ScopeId) : s'.chain i = s.chain i :=
  chain_congr (fun _ _ => by rw [h.size_eq]) (fun _ _ => h.parent_eq _)

/-- What resolves, resolves under its other key. -/
theorem sees_keeps (h : Rekeyed rekey more s s') {i : ScopeId} {key : String} {b : β}
    (hb : s.find? key i = some b) : s'.sees i (rekey b key) = true := by
  rw [find?_eq_findSome?] at hb
  obtain ⟨j, hj, hb⟩ := List.exists_of_findSome?_eq_some hb
  rw [sees_eq_true_iff, h.chain_eq]
  exact ⟨j, hj, h.keeps j key b hb⟩

theorem sees_adds (h : Rekeyed rekey more s s') {i : ScopeId} {key : String}
    (hs : s'.sees i key = true) : s.sees i key = true ∨ more key = true := by
  rw [sees_eq_true_iff, h.chain_eq] at hs
  obtain ⟨j, hj, hb⟩ := hs
  rcases h.adds j key hb with hb | hmore
  · exact .inl (sees_eq_true_iff.2 ⟨j, hj, hb⟩)
  · exact .inr hmore

/-- A key that no body leaves and none comes to is seen as it was. -/
theorem sees_eq (h : Rekeyed rekey more s s') {i : ScopeId} {key : String}
    (hstays : ∀ b, s.find? key i = some b → rekey b key = key) (hmore : more key = false) :
    s'.sees i key = s.sees i key := by
  rw [Bool.eq_iff_iff]
  constructor
  · intro hs
    rcases h.sees_adds hs with hs | hs
    · exact hs
    · rw [hmore] at hs
      exact absurd hs Bool.false_ne_true
  · intro hs
    obtain ⟨b, hb⟩ := Option.isSome_iff_exists.1 hs
    have hkeeps := h.sees_keeps hb
    rwa [hstays b hb] at hkeeps

theorem openIn (h : Rekeyed rekey more s s') (p : ScopeId) :
    Rekeyed rekey more (s.openIn p).2 (s'.openIn p).2 := by
  refine ⟨?_, fun i => ?_, fun i key b hb => ?_, fun i key hb => ?_⟩
  · rw [size_openIn, size_openIn, h.size_eq]
  · rw [parent?_openIn, parent?_openIn, h.size_eq, h.parent_eq]
  · rw [binding?_openIn] at hb ⊢
    exact h.keeps i key b hb
  · rw [binding?_openIn] at hb ⊢
    exact h.adds i key hb

theorem define (h : Rekeyed rekey more s s') {name name' : String} {b : β}
    (hn : Renames rekey more b name name') (b' : γ) (i : ScopeId) :
    Rekeyed rekey more (s.define name b i) (s'.define name' b' i) := by
  refine ⟨?_, fun j => ?_, fun j key c hc => ?_, fun j key hb => ?_⟩
  · rw [size_define, size_define, h.size_eq]
  · rw [parent?_define, parent?_define, h.parent_eq]
  · rw [binding?_define] at hc
    by_cases hnew : i = j ∧ i < s.size ∧ key = foldCase name
    · obtain ⟨hij, hi, hkey⟩ := hnew
      rw [if_pos ⟨hij, hi, hkey⟩, Option.some.injEq] at hc
      rw [binding?_define, if_pos ⟨hij, by rwa [h.size_eq], by rw [← hc, hkey, hn.fold_eq]⟩]
      rfl
    · rw [if_neg hnew] at hc
      exact isSome_binding?_define name' b' i (h.keeps j key c hc)
  · rw [binding?_define] at hb ⊢
    by_cases hnew : i = j ∧ i < s'.size ∧ key = foldCase name'
    · obtain ⟨hij, hi, hkey⟩ := hnew
      rcases hn.fold_mem with hsame | hmore
      · rw [if_pos ⟨hij, by rwa [← h.size_eq], hkey.trans hsame⟩]
        exact .inl rfl
      · rw [hkey]
        exact .inr hmore
    · rw [if_neg hnew] at hb
      split
      · exact .inl rfl
      · exact h.adds j key hb

theorem introduce (h : Rekeyed rekey more s s') {name name' : String} {b : β}
    (hn : Renames rekey more b name name') (b' : γ) (block visible : ScopeId) :
    Rekeyed rekey more (s.introduce name b block visible) (s'.introduce name' b' block visible) := by
  have hopen := ((h.define hn b' block).openIn visible).define hn b' s.size
  rw [Scopes.introduce, Scopes.introduce, h.size_eq]
  exact hopen

end Scopes.Rekeyed

/-! ## Schedules -/

variable {κ : Type} [Vocabulary κ] {r : Rewriting}
  {rekey : Tree (Numbered κ) → String → String} {more : Names}

def Step.rewrite (r : Rewriting) (s : Step (Numbered κ)) : Step κ :=
  ⟨s.node.rewrite r, s.access, s.scope⟩

/-- The second schedule has the rewritten steps of the first. -/
structure Schedule.Rewritten (r : Rewriting) (rekey : Tree (Numbered κ) → String → String)
    (more : Names) (s : Schedule (Numbered κ)) (s' : Schedule κ) : Prop where
  scopes : Scopes.Rekeyed rekey more s.scopes s'.scopes
  steps_eq : s'.steps = s.steps.map (Step.rewrite r)
  visible_eq : s'.visible = s.visible

/-- What a walk asks of a rewriting.  Only tables are references, and lists of
definitions stay recursive or not.  Definitions may change their names, so far
as every visited node mentions what it mentioned. -/
structure Rewriting.Respects (o : ExtractOptions) (r : Rewriting) (t : Tree (Numbered κ))
    (rekey : Tree (Numbered κ) → String → String) (more : Names) : Prop where
  held : ∀ u, t.Below u → u.number ∈ r.references → u.kind = .table ∨ u.kind = .tableRef
  recursive : ∀ node, t.WithClause node → node.children.any Tree.isDefinition = true →
    (node.rewrite r).isRecursive = node.isRecursive
  renames : ∀ d, t.Introduces d → Option.Rel (Renames rekey more d) d.alias? (d.rewrite r).alias?
  own : ∀ scopes (scopes' : Scopes (Tree κ)) s, Walk.Visits o (Walk.start t) scopes s →
    Scopes.Rekeyed rekey more scopes scopes' →
    (s.node.rewrite r).ownMentions o (scopes'.sees s.scope) s.access =
      s.node.ownMentions o (scopes.sees s.scope) s.access

/-- What a `cteDef` node asks of a rewriting: its definitions keep their bodies and
whether they are recursive, and change their names only so far. -/
structure Rewriting.Carries (r : Rewriting) (rekey : Tree (Numbered κ) → String → String)
    (more : Names) (node : Tree (Numbered κ)) : Prop where
  children_eq : (node.rewrite r).children = node.children.map (Tree.rewrite r)
  recursive : node.children.any Tree.isDefinition = true →
    (node.rewrite r).isRecursive = node.isRecursive
  bodies_eq : ∀ d ∈ node.definitions, (d.rewrite r).children = d.children.map (Tree.rewrite r)
  renames : ∀ d ∈ node.definitions,
    Option.Rel (Renames rekey more d) d.alias? (d.rewrite r).alias?

theorem Rewriting.Respects.not_mem {o : ExtractOptions} {t u : Tree (Numbered κ)}
    (h : r.Respects o t rekey more) (hu : t.Below u) (ht : u.kind ≠ .table)
    (hr : u.kind ≠ .tableRef) : u.number ∉ r.references := by
  intro hmem
  rcases h.held u hu hmem with hk | hk
  · exact ht hk
  · exact hr hk

theorem Rewriting.Respects.carries {o : ExtractOptions} {t node : Tree (Numbered κ)}
    (h : r.Respects o t rekey more) (hnode : t.WithClause node) : r.Carries rekey more node := by
  have hk := hnode.kind_eq
  refine ⟨?_, h.recursive node hnode, fun d hd => ?_, fun d hd => h.renames d ⟨node, hnode, hd⟩⟩
  · exact Tree.children_rewrite_of_not_mem (h.not_mem hnode.below (by simp [hk]) (by simp [hk]))
  · have hintroduces : t.Introduces d := ⟨node, hnode, hd⟩
    apply Tree.children_rewrite_of_not_mem
    apply h.not_mem hintroduces.below
    · rcases hintroduces.kind_mem with hdk | hdk <;> simp [hdk]
    · rcases hintroduces.kind_mem with hdk | hdk <;> simp [hdk]

namespace Schedule.Rewritten

variable {s : Schedule (Numbered κ)} {s' : Schedule κ}

theorem read (h : Rewritten r rekey more s s') (nodes : List (Tree (Numbered κ)))
    (scope : ScopeId) :
    Rewritten r rekey more (s.read nodes scope) (s'.read (nodes.map (Tree.rewrite r)) scope) := by
  refine ⟨h.scopes, ?_, h.visible_eq⟩
  rw [steps_read, steps_read, h.steps_eq, List.map_append, List.map_reverse, List.map_map,
    List.map_map]
  rfl

theorem foldl {f : Schedule (Numbered κ) → Tree (Numbered κ) → Schedule (Numbered κ)}
    {g : Schedule κ → Tree κ → Schedule κ} (nodes : List (Tree (Numbered κ)))
    (hstep : ∀ n ∈ nodes, ∀ s s', Rewritten r rekey more s s' →
      Rewritten r rekey more (f s n) (g s' (n.rewrite r)))
    (h : Rewritten r rekey more s s') :
    Rewritten r rekey more (nodes.foldl f s) ((nodes.map (Tree.rewrite r)).foldl g s') := by
  induction nodes generalizing s s' with
  | nil => exact h
  | cons n nodes ih =>
    have hfirst := hstep n List.mem_cons_self s s' h
    exact ih (fun m hm => hstep m (List.mem_cons_of_mem _ hm)) hfirst

theorem define (h : Rewritten r rekey more s s') {d : Tree (Numbered κ)}
    (halias : Option.Rel (Renames rekey more d) d.alias? (d.rewrite r).alias?)
    (hchildren : (d.rewrite r).children = d.children.map (Tree.rewrite r))
    (scope : ScopeId) (recursive : Bool) :
    Rewritten r rekey more (s.define scope recursive d)
      (s'.define scope recursive (d.rewrite r)) := by
  cases ha : d.alias? with
  | none =>
    have ha' : (d.rewrite r).alias? = none := by
      rw [ha] at halias
      cases halias' : (d.rewrite r).alias? with
      | none => rfl
      | some name' => rw [halias'] at halias; cases halias
    have hnoted : Rewritten r rekey more
        ⟨s.scopes, .malformed (.emptyName d.kind) :: s.events, s.steps, s.visible⟩
        ⟨s'.scopes, .malformed (.emptyName (d.rewrite r).kind) :: s'.events, s'.steps,
          s'.visible⟩ := ⟨h.scopes, h.steps_eq, h.visible_eq⟩
    have hread := hnoted.read d.children s.visible
    rw [define_of_none ha, define_of_none ha', hchildren, h.visible_eq]
    rw [h.visible_eq] at hread
    exact hread
  | some name =>
    obtain ⟨name', ha', hrenames⟩ : ∃ name', (d.rewrite r).alias? = some name' ∧
        Renames rekey more d name name' := by
      rw [ha] at halias
      cases halias' : (d.rewrite r).alias? with
      | none => rw [halias'] at halias; cases halias
      | some name' =>
        rw [halias'] at halias
        cases halias with
        | some hrenames => exact ⟨name', rfl, hrenames⟩
    have hafter : Rewritten r rekey more
        ⟨s.scopes.introduce name d scope s.visible, s.events, s.steps, s.scopes.size⟩
        ⟨s'.scopes.introduce name' (d.rewrite r) scope s.visible, s'.events, s'.steps,
          s.scopes.size⟩ := ⟨h.scopes.introduce hrenames .., h.steps_eq, rfl⟩
    rw [define_of_some ha, define_of_some ha', hchildren, h.visible_eq, h.scopes.size_eq]
    exact hafter.read ..

theorem defineAll (h : Rewritten r rekey more s s') {node : Tree (Numbered κ)}
    (hnode : r.Carries rekey more node) (scope : ScopeId) :
    Rewritten r rekey more (s.defineAll scope node) (s'.defineAll scope (node.rewrite r)) := by
  have hdefine {d : Tree (Numbered κ)} (hd : d ∈ node.definitions) (recursive : Bool)
      {s : Schedule (Numbered κ)} {s' : Schedule κ} (h : Rewritten r rekey more s s') :
      Rewritten r rekey more (s.define scope recursive d)
        (s'.define scope recursive (d.rewrite r)) :=
    h.define (hnode.renames d hd) (hnode.bodies_eq d hd) scope recursive
  by_cases hl : node.children.any Tree.isDefinition = true
  · have hl' : (node.rewrite r).children.any Tree.isDefinition = true := by
      rw [hnode.children_eq, Tree.any_isDefinition_rewrite]
      exact hl
    rw [defineAll_of_listing hl, defineAll_of_listing hl', hnode.children_eq, hnode.recursive hl]
    refine foldl _ (fun c hc s s' h => ?_) h
    unfold defineListed
    rw [Tree.isDefinition_rewrite]
    by_cases hd : c.isDefinition = true
    · rw [if_pos hd, if_pos hd]
      refine hdefine ?_ _ h
      rw [Tree.definitions, if_pos hl]
      exact List.mem_filter.2 ⟨hc, hd⟩
    · rw [if_neg hd, if_neg hd, h.visible_eq]
      exact h.read [c] s.visible
  · have hl' : ¬ (node.rewrite r).children.any Tree.isDefinition = true := by
      rw [hnode.children_eq, Tree.any_isDefinition_rewrite]
      exact hl
    rw [defineAll_of_single hl, defineAll_of_single hl']
    refine hdefine ?_ false h
    rw [Tree.definitions, if_neg hl]
    exact List.mem_singleton_self _

variable {o : ExtractOptions} {t : Tree (Numbered κ)}

theorem addBlockChildren (h : Rewritten r rekey more s s') (hr : r.Respects o t rekey more)
    {block : Tree (Numbered κ)} (hblock : t.Below block) (hb : block.kind.opensScope = true)
    (scope : ScopeId) :
    Rewritten r rekey more (block.children.foldl (addBlockChild scope) s)
      ((block.children.map (Tree.rewrite r)).foldl (addBlockChild scope) s') := by
  refine foldl _ (fun c hc s s' h => ?_) h
  unfold addBlockChild
  rw [Tree.kind_rewrite]
  by_cases hk : c.kind = .cteDef
  · rw [if_pos hk, if_pos hk]
    exact h.defineAll (hr.carries ⟨block, hblock, hb, hc, hk⟩) scope
  · rw [if_neg hk, if_neg hk]
    exact h.read [c] scope

end Schedule.Rewritten

/-! ## Walks -/

/-- The second walk has the rewritten steps of the first before it, and it noted
the same. -/
structure Walk.Rewritten (r : Rewriting) (rekey : Tree (Numbered κ) → String → String)
    (more : Names) (w : Walk (Numbered κ)) (w' : Walk κ) : Prop where
  scopes : Scopes.Rekeyed rekey more w.scopes w'.scopes
  pending_eq : w'.pending = w.pending.map (Step.rewrite r)
  mentioned_eq : w'.mentioned = w.mentioned

namespace Walk

variable {o : ExtractOptions} {t : Tree (Numbered κ)}

theorem rewritten_resume {s : Schedule (Numbered κ)} {s' : Schedule κ}
    (h : s.Rewritten r rekey more s') (hs : s.Quiet) (hs' : s'.Quiet) :
    Rewritten r rekey more (resume [] s) (resume [] s') := by
  refine ⟨h.scopes, ?_, ?_⟩
  · simp only [resume, List.reverseAux_eq, List.append_nil]
    rw [h.steps_eq, List.map_reverse]
  · have hs : (resume [] s).mentioned = [] := hs
    have hs' : (resume [] s').mentioned = [] := hs'
    rw [hs, hs']

theorem childSteps_renameHeld {name : String} {position : Tree κ → Option Access}
    (h : ∀ c, c.kind = .tableName → position c = none) (scope : ScopeId)
    (children : List (Tree κ)) :
    childSteps position scope (Tree.renameHeld name children) =
      childSteps position scope children := by
  induction children with
  | nil => rfl
  | cons c cs ih =>
    rw [Tree.renameHeld]
    by_cases hk : c.kind = .tableName
    · have hrenamed : position (c.renameTable name) = none := h _ hk
      rw [if_pos hk, childSteps, childSteps, List.filterMap_cons, List.filterMap_cons, hrenamed,
        h c hk]
      rfl
    · rw [if_neg hk, childSteps, childSteps, List.filterMap_cons, List.filterMap_cons, ← childSteps,
        ← childSteps, ih]

/-- A rewritten node has the same children visited, each rewritten. -/
theorem childSteps_rewrite (hr : r.Respects o t rekey more) {u : Tree (Numbered κ)}
    (hu : t.Below u) (access : Access) (scope : ScopeId) :
    childSteps ((u.rewrite r).position? access) scope (u.rewrite r).children =
      (childSteps (u.position? access) scope u.children).map (Step.rewrite r) := by
  have hheld : childSteps ((u.rewrite r).position? access) scope (u.rewrite r).children =
      childSteps ((u.rewrite r).position? access) scope (u.children.map (Tree.rewrite r)) := by
    by_cases hmem : u.number ∈ r.references
    · rw [Tree.children_rewrite_of_mem hmem]
      apply childSteps_renameHeld
      intro c hc
      rcases hr.held u hu hmem with hk | hk
      · simp only [Tree.position?, Tree.kind_rewrite, hk]
      · simp only [Tree.position?, Tree.kind_rewrite, hk]
        exact if_pos hc
    · rw [Tree.children_rewrite_of_not_mem hmem]
  have hposition (c : Tree (Numbered κ)) (hc : c ∈ u.children) :
      (u.rewrite r).position? access (c.rewrite r) = u.position? access c := by
    have hwritten : (c.rewrite r).isWritten = c.isWritten :=
      Tree.isWritten_rewrite (fun hk => hr.not_mem (hu.children hc) (by simp [hk]) (by simp [hk]))
    unfold Tree.position?
    rw [Tree.kind_rewrite, Tree.kind_rewrite, hwritten]
  rw [hheld, childSteps, childSteps, List.filterMap_map, List.map_filterMap]
  apply List.filterMap_congr
  intro c hc
  show Option.map _ ((u.rewrite r).position? access (c.rewrite r)) = _
  rw [hposition c hc]
  cases u.position? access c <;> rfl

theorem rewritten_visitAlone (hr : r.Respects o t rekey more) {scopes : Scopes (Tree (Numbered κ))}
    {scopes' : Scopes (Tree κ)} (h : Scopes.Rekeyed rekey more scopes scopes')
    {s : Step (Numbered κ)} (hbelow : t.Below s.node)
    (hcarries : s.node.kind = .cteDef → r.Carries rekey more s.node)
    (hv : Visits o (start t) scopes s) :
    Rewritten r rekey more (visitAlone o scopes s) (visitAlone o scopes' (s.rewrite r)) := by
  have hkind : (s.rewrite r).node.kind = s.node.kind := Tree.kind_rewrite r s.node
  by_cases hb : s.node.kind.opensScope = true
  · have hstart : Schedule.Rewritten r rekey more ⟨(scopes.openIn s.scope).2, [], [], s.scope⟩
        ⟨(scopes'.openIn s.scope).2, [], [], s.scope⟩ := ⟨h.openIn s.scope, rfl, rfl⟩
    have hblock := hstart.addBlockChildren hr hbelow hb scopes.size
    have hnot : s.node.number ∉ r.references := by
      apply hr.not_mem hbelow
      · intro hk
        simp [hk, Kind.opensScope] at hb
      · intro hk
        simp [hk, Kind.opensScope] at hb
    have hchildren : (s.rewrite r).node.children = s.node.children.map (Tree.rewrite r) :=
      Tree.children_rewrite_of_not_mem hnot
    rw [visitAlone_block hb, visitAlone_block (s := s.rewrite r) (hkind ▸ hb), hchildren,
      h.size_eq]
    exact rewritten_resume hblock ((Schedule.quiet_fresh ..).addBlockChildren _)
      ((Schedule.quiet_fresh ..).addBlockChildren _)
  · by_cases hd : s.node.kind = .cteDef
    · have hstart : Schedule.Rewritten r rekey more
          ⟨scopes, [], [], (scopes.parent? s.scope).getD s.scope⟩
          ⟨scopes', [], [], (scopes.parent? s.scope).getD s.scope⟩ := ⟨h, rfl, rfl⟩
      have hdefined := hstart.defineAll (hcarries hd) s.scope
      have haround : (scopes'.parent? (s.rewrite r).scope).getD (s.rewrite r).scope =
          (scopes.parent? s.scope).getD s.scope := by
        rw [h.parent_eq]
        rfl
      rw [visitAlone_cteDef hd, visitAlone_cteDef (s := s.rewrite r) (hkind ▸ hd), haround]
      exact rewritten_resume hdefined ((Schedule.quiet_fresh ..).defineAll _)
        ((Schedule.quiet_fresh ..).defineAll _)
    · have hplain := visitAlone_plain (Bool.eq_false_iff.2 hb) hd o scopes
      have hplain' : Plain scopes' _ _ (visitAlone o scopes' (s.rewrite r)) :=
        visitAlone_plain (s := s.rewrite r) (by rw [hkind]; exact Bool.eq_false_iff.2 hb)
          (hkind ▸ hd) o scopes'
      refine ⟨?_, ?_, ?_⟩
      · rw [hplain.scopes_eq, hplain'.scopes_eq]
        exact h
      · rw [hplain.pending_eq, hplain'.pending_eq]
        exact childSteps_rewrite hr hbelow ..
      · rw [hplain.mentions_eq, hplain'.mentions_eq]
        exact hr.own scopes scopes' s hv h

/-- Where definitions stand in query blocks, no visited node is a `cteDef`. -/
theorem Visits.not_cteDef {t : Tree κ} (hp : t.definitionsPlaced 0 = true)
    {scopes : Scopes (Tree κ)} {s : Step κ} (hv : Visits o (start t) scopes s) :
    s.node.kind ≠ .cteDef := by
  have hstart : ∀ st ∈ (start t).pending, st.node.definitionsPlaced 0 = true := by
    simpa [start] using hp
  obtain ⟨_, _, hplaced⟩ := hv.keeps (P := fun w => ∀ st ∈ w.pending,
    st.node.definitionsPlaced 0 = true) (fun scopes events s pending h st hst => by
      rw [visit_eq_onto] at hst
      rcases List.mem_append.1 hst with hst | hst
      · exact placed_visitAlone (h s List.mem_cons_self) st hst
      · exact h st (List.mem_cons_of_mem _ hst)) hstart
  exact Tree.not_cteDef_of_placed (hplaced s List.mem_cons_self)

/-- What stood behind walks in lockstep may stand behind them again. -/
theorem Rewritten.onto {w : Walk (Numbered κ)} {w' : Walk κ}
    (h : Rewritten r rekey more w w') {events events' : List Event}
    (hbefore : Event.mentionsOf events' = Event.mentionsOf events)
    (pending : List (Step (Numbered κ))) :
    Rewritten r rekey more (w.onto events pending)
      (w'.onto events' (pending.map (Step.rewrite r))) := by
  refine ⟨h.scopes, ?_, ?_⟩
  · show w'.pending ++ pending.map (Step.rewrite r) = (w.pending ++ pending).map (Step.rewrite r)
    rw [h.pending_eq, List.map_append]
  · rw [mentioned_onto, mentioned_onto, hbefore, h.mentioned_eq]

/-- Walks over a tree and its rewriting start in lockstep. -/
theorem rewritten_start (t : Tree (Numbered κ)) :
    Rewritten r rekey more (start t) (start (t.rewrite r)) := by
  refine ⟨⟨rfl, fun i => ?_, fun i key b hb => ?_, fun i key hb => ?_⟩, rfl, rfl⟩
  · show (Scopes.initial.openIn Scopes.root).2.parent? i =
      (Scopes.initial.openIn Scopes.root).2.parent? i
    rw [Scopes.parent?_openIn, Scopes.parent?_openIn]
    cases i <;> rfl
  · rw [binding?_start] at hb
    exact absurd hb (by simp)
  · rw [binding?_start] at hb
    exact absurd hb Bool.false_ne_true

/-- Walks in lockstep stay in lockstep to their ends. -/
theorem rewritten_run {w : Walk (Numbered κ)} {w' : Walk κ}
    (hvisit : ∀ scopes (scopes' : Scopes (Tree κ)) s, Visits o w scopes s →
      Scopes.Rekeyed rekey more scopes scopes' →
      Rewritten r rekey more (visitAlone o scopes s) (visitAlone o scopes' (s.rewrite r)))
    (h : Rewritten r rekey more w w') : Rewritten r rekey more (run o w) (run o w') := by
  fun_induction run o w generalizing w' with
  | case1 scopes events =>
    obtain ⟨scopes', events', pending'⟩ := w'
    obtain rfl : pending' = [] := h.pending_eq
    rw [run_nil]
    exact h
  | case2 scopes events s pending ih =>
    obtain ⟨scopes', events', pending'⟩ := w'
    obtain rfl : pending' = (s :: pending).map (Step.rewrite r) := h.pending_eq
    have hfirst := hvisit scopes scopes' s (.now ..) h.scopes
    rw [List.map_cons, run_cons]
    refine ih (fun _ _ _ hv => hvisit _ _ _ (.later hv)) ?_
    rw [visit_eq_onto]
    exact hfirst.onto h.mentioned_eq pending

end Walk

namespace Tree

/-- A rewriting that a walk does not notice keeps the lineage, if it carries the
`cteDef` nodes that are visited. -/
theorem lineage_rewrite {o : ExtractOptions} {t : Tree (Numbered κ)}
    (hr : r.Respects o t rekey more)
    (hcarries : ∀ scopes s, Walk.Visits o (Walk.start t) scopes s → s.node.kind = .cteDef →
      r.Carries rekey more s.node) : (t.rewrite r).lineage o = t.lineage o := by
  have hrun := Walk.rewritten_run (o := o) (fun scopes scopes' s hv h =>
    Walk.rewritten_visitAlone hr h ((Walk.within_start t).visits hv).2 (hcarries scopes s hv) hv)
    (Walk.rewritten_start t)
  rw [lineage_eq_ofMentions_run, lineage_eq_ofMentions_run, hrun.mentioned_eq]

theorem lineage_rewrite_of_placed {o : ExtractOptions} {t : Tree (Numbered κ)}
    (hp : t.definitionsPlaced 0 = true) (hr : r.Respects o t rekey more) :
    (t.rewrite r).lineage o = t.lineage o :=
  lineage_rewrite hr (fun _ _ hv hk => absurd hk (hv.not_cteDef hp))

end Tree
end Lineage
