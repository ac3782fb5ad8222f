import Mathlib
import Lineage.Proofs.Walk.Refinement

/-
Where the definitions of a block stand among its children.

One grammar writes the definitions of a block in front of the body, another one
behind it.  A block binds all of them before it visits a child, so the body
mentions the same tables wherever it stands, and a definition sees those before
it in the list whatever stands between them.  The order in which tables are
mentioned is all that changes, at every level of a tree at once.
-/

namespace Lineage
namespace Tree

variable {κ : Type} [Vocabulary κ]

/-- The second tree has the children of some query blocks in another order.
The `cteDef` children keep their order, and so do the others. -/
inductive Rearranged : Tree κ → Tree κ → Prop where
  | node (label : κ) (text : Option String) {children children' : List (Tree κ)}
    (h : List.Forall₂ Rearranged children children') :
    Rearranged (.node label text children) (.node label text children')
  | block (label : κ) (text : Option String) {children moved children' : List (Tree κ)}
    (hb : (Vocabulary.kind label).opensScope = true)
    (h : List.Forall₂ Rearranged children moved)
    (hdefinitions : moved.filter (·.kind = .cteDef) = children'.filter (·.kind = .cteDef))
    (hothers : moved.filter (·.kind ≠ .cteDef) = children'.filter (·.kind ≠ .cteDef)) :
    Rearranged (.node label text children) (.node label text children')

mutual

theorem Rearranged.refl : ∀ t : Tree κ, t.Rearranged t
  | .node label text children => .node label text (refl_all children)

theorem refl_all : ∀ ts : List (Tree κ), List.Forall₂ Rearranged ts ts
  | [] => .nil
  | t :: ts => .cons (Rearranged.refl t) (refl_all ts)

end

theorem perm_of_filters {ts us : List (Tree κ)}
    (hdefinitions : ts.filter (·.kind = .cteDef) = us.filter (·.kind = .cteDef))
    (hothers : ts.filter (·.kind ≠ .cteDef) = us.filter (·.kind ≠ .cteDef)) : ts.Perm us := by
  have hsplit (vs : List (Tree κ)) :
      (vs.filter (·.kind = .cteDef) ++ vs.filter (·.kind ≠ .cteDef)).Perm vs := by
    have h := List.filter_append_perm (fun v : Tree κ => decide (v.kind = .cteDef)) vs
    simpa only [ne_eq, decide_not] using h
  refine (hsplit ts).symm.trans ?_
  rw [hdefinitions, hothers]
  exact hsplit us

/-! ## What a node reads off its children -/

/-- What a node shows of itself to the one above it. -/
def look (t : Tree κ) : κ × Option String × Bool := (t.label, t.text, t.isLeaf)

section look

variable {t t' : Tree κ} {ts us : List (Tree κ)}

theorem Rearranged.look_eq (h : t.Rearranged t') : t.look = t'.look := by
  have hleaf {label : κ} {text : Option String} {ts us : List (Tree κ)}
      (hlength : ts.length = us.length) :
      (Tree.node label text ts).look = (Tree.node label text us).look := by
    have hempty : ts.isEmpty = us.isEmpty := by
      rw [Bool.eq_iff_iff, List.isEmpty_iff_length_eq_zero, List.isEmpty_iff_length_eq_zero,
        hlength]
    exact congrArg (fun b => (label, text, b)) hempty
  cases h with
  | node label text h => exact hleaf h.length_eq
  | block label text hb h hdefinitions hothers =>
    exact hleaf (h.length_eq.trans (perm_of_filters hdefinitions hothers).length_eq)

theorem Rearranged.kind_eq (h : t.Rearranged t') : t.kind = t'.kind :=
  congrArg (fun l => Vocabulary.kind l.1) h.look_eq

theorem Rearranged.text_eq (h : t.Rearranged t') : t.text = t'.text :=
  congrArg (fun l => l.2.1) h.look_eq

/-- The children of a node that is no query block keep their order. -/
theorem Rearranged.children (h : t.Rearranged t') (hb : t.kind.opensScope = false) :
    List.Forall₂ Rearranged t.children t'.children := by
  cases h with
  | node label text h => exact h
  | block label text hopens =>
    have hb : (Vocabulary.kind label).opensScope = false := hb
    rw [hopens] at hb
    exact Bool.noConfusion hb

theorem map_look_eq (h : List.Forall₂ Rearranged ts us) : ts.map look = us.map look := by
  induction h with
  | nil => rfl
  | cons h _ ih => rw [List.map_cons, List.map_cons, h.look_eq, ih]

omit [Vocabulary κ] in
theorem alias?_eq_of_look (htext : t.text = t'.text)
    (h : t.children.map look = t'.children.map look) : t.alias? = t'.alias? := by
  have hlook (u : Tree κ) : u.alias? = (u.text.filter (· ≠ "") <|>
      (u.children.map look).reverse.findSome? fun l =>
        if l.2.2 then l.2.1.filter (· ≠ "") else none) := by
    rw [← List.map_reverse, List.findSome?_map]
    rfl
  rw [hlook, hlook, htext, h]

omit [Vocabulary κ] in
theorem dottedName_eq_of_look (h : t.children.map look = t'.children.map look) :
    t.dottedName = t'.dottedName := by
  have hlook (u : Tree κ) :
      u.dottedName = QualifiedName.dotted ((u.children.map look).filterMap (·.2.1)) := by
    rw [List.filterMap_map]
    rfl
  rw [hlook, hlook, h]

theorem any_isDefinition_eq_of_look (h : ts.map look = us.map look) :
    ts.any isDefinition = us.any isDefinition := by
  have hlook (vs : List (Tree κ)) : vs.any isDefinition = (vs.map look).any fun l =>
      Vocabulary.kind l.1 = .subqueryAlias || Vocabulary.kind l.1 = .cteDef := by
    rw [List.any_map]
    rfl
  rw [hlook, hlook, h]

theorem aliasesTable_eq_of_look (h : t.children.map look = t'.children.map look) :
    t.aliasesTable = t'.aliasesTable := by
  have hfilter (u : Tree κ) : (u.children.map look).filter (!·.2.2) =
      (u.children.filter (!·.isLeaf)).map look := List.filter_map
  have hinner : (t.children.filter (!·.isLeaf)).map look =
      (t'.children.filter (!·.isLeaf)).map look := by
    rw [← hfilter, h, hfilter]
  rw [aliasesTable, aliasesTable]
  generalize t.children.filter (!·.isLeaf) = inner at hinner ⊢
  generalize t'.children.filter (!·.isLeaf) = inner' at hinner ⊢
  rcases inner with _ | ⟨v, _ | ⟨w, vs⟩⟩
  · rw [List.map_eq_nil_iff.1 hinner.symm]
  · obtain ⟨v', rfl, hv⟩ := List.map_eq_singleton_iff.1 hinner.symm
    have hkind : v'.kind = v.kind := congrArg (fun l => Vocabulary.kind l.1) hv
    simp only [hkind]
  · obtain ⟨v', rest, rfl, -, hrest⟩ := List.map_eq_cons_iff.1 hinner.symm
    obtain ⟨w', vs', rfl, -⟩ := List.map_eq_cons_iff.1 hrest
    rfl

theorem Rearranged.alias?_eq (h : t.Rearranged t') (hb : t.kind.opensScope = false) :
    t.alias? = t'.alias? :=
  alias?_eq_of_look h.text_eq (map_look_eq (h.children hb))

theorem Rearranged.isWritten_eq (h : t.Rearranged t') : t.isWritten = t'.isWritten := by
  unfold isWritten
  rw [← h.kind_eq]
  cases hk : t.kind with
  | subqueryAlias =>
    exact aliasesTable_eq_of_look (map_look_eq (h.children (by rw [hk]; rfl)))
  | _ => rfl

/-- What is looked up under the first child of a kind. -/
theorem find?_bind_eq {α : Type} {f : Tree κ → Option α} {k : Kind}
    (hf : ∀ t t', Rearranged t t' → t.kind = k → f t = f t')
    (h : List.Forall₂ Rearranged ts us) :
    (ts.find? (·.kind = k)).bind f = (us.find? (·.kind = k)).bind f := by
  induction h with
  | nil => rfl
  | @cons t t' ts us h _ ih =>
    by_cases hk : t.kind = k
    · have hk' : t'.kind = k := h.kind_eq ▸ hk
      have hfirst : (t :: ts).find? (·.kind = k) = some t :=
        List.find?_cons_of_pos (decide_eq_true hk)
      have hfirst' : (t' :: us).find? (·.kind = k) = some t' :=
        List.find?_cons_of_pos (decide_eq_true hk')
      rw [hfirst, hfirst']
      exact hf t t' h hk
    · have hk' : t'.kind ≠ k := h.kind_eq ▸ hk
      have hlater : (t :: ts).find? (·.kind = k) = ts.find? (·.kind = k) :=
        List.find?_cons_of_neg (by simpa using hk)
      have hlater' : (t' :: us).find? (·.kind = k) = us.find? (·.kind = k) :=
        List.find?_cons_of_neg (by simpa using hk')
      rw [hlater, hlater']
      exact ih

theorem Rearranged.heldName?_eq (h : t.Rearranged t') (hb : t.kind.opensScope = false) :
    t.heldName? = t'.heldName? := by
  refine find?_bind_eq (fun c c' hc hk => ?_) (h.children hb)
  have hname := dottedName_eq_of_look (map_look_eq (hc.children (by rw [hk]; rfl)))
  rw [qualifiedName?, qualifiedName?, hname]

theorem opensScope_of_isDefinition (h : t.isDefinition = true) : t.kind.opensScope = false := by
  simp only [isDefinition, Bool.or_eq_true, decide_eq_true_eq] at h
  rcases h with hk | hk <;> rw [hk] <;> rfl

theorem Rearranged.listedNames_eq (h : List.Forall₂ Rearranged ts us) :
    listedNames ts = listedNames us := by
  induction h with
  | nil => rfl
  | @cons t t' ts us h _ ih =>
    have hdefinition : t.isDefinition = t'.isDefinition := by
      rw [isDefinition, isDefinition, h.kind_eq]
    by_cases hd : t.isDefinition = true
    · rw [listedNames_cons_of_definition hd,
        listedNames_cons_of_definition (hdefinition ▸ hd),
        h.alias?_eq (opensScope_of_isDefinition hd), ih]
    · rw [listedNames_cons_of_not hd, listedNames_cons_of_not (hdefinition ▸ hd), ih]

theorem Rearranged.definedNames_eq (h : t.Rearranged t') (hk : t.kind = .cteDef) :
    t.definedNames = t'.definedNames := by
  have hb : t.kind.opensScope = false := by rw [hk]; rfl
  have hany := any_isDefinition_eq_of_look (map_look_eq (h.children hb))
  by_cases hl : t.children.any isDefinition = true
  · rw [definedNames_of_listing hl, definedNames_of_listing (hany ▸ hl),
      Rearranged.listedNames_eq (h.children hb)]
  · rw [definedNames_of_single hl, definedNames_of_single (hany ▸ hl), h.alias?_eq hb]

end look

/-! ## What is mentioned, in some order -/

/-- Two trees mention the same tables in some order, and so do their bodies.
Where the definitions of one are placed in query blocks, those of the other are. -/
structure Equivalent (t t' : Tree κ) : Prop where
  rearranged : t.Rearranged t'
  placed : ∀ levels, t.definitionsPlaced levels = true → t'.definitionsPlaced levels = true
  mentions : ∀ o visible access,
    (t.mentions o visible access).Perm (t'.mentions o visible access)
  body : t.kind.opensScope = false →
    ∀ o visible, (t.bodyMentions o visible).Perm (t'.bodyMentions o visible)

section lists

variable {o : ExtractOptions} {ts us : List (Tree κ)}

theorem perm_childMentions (visible : Names) {position position' : Tree κ → Option Access}
    (hposition : ∀ t t', Rearranged t t' → position t = position' t')
    (h : List.Forall₂ Equivalent ts us) :
    (childMentions o visible position ts).Perm (childMentions o visible position' us) := by
  induction h with
  | nil => exact .nil
  | @cons t t' ts us h _ ih =>
    rw [childMentions, childMentions, hposition t t' h.rearranged]
    refine List.Perm.append ?_ ih
    cases position' t' with
    | none => exact .nil
    | some access => exact h.mentions o visible access

theorem perm_listMentions (recursive : Bool) (visible : Names)
    (h : List.Forall₂ Equivalent ts us) :
    (listMentions o recursive visible ts).Perm (listMentions o recursive visible us) := by
  induction h generalizing visible with
  | nil => exact .nil
  | @cons t t' ts us h _ ih =>
    have hdefinition : t.isDefinition = t'.isDefinition := by
      rw [isDefinition, isDefinition, h.rearranged.kind_eq]
    rw [listMentions, listMentions, ← hdefinition]
    by_cases hd : t.isDefinition = true
    · have hb := opensScope_of_isDefinition hd
      rw [if_pos hd, if_pos hd, ← h.rearranged.alias?_eq hb]
      exact (h.body hb o _).append (ih _)
    · rw [if_neg hd, if_neg hd]
      exact (h.mentions o visible .read).append (ih visible)

theorem perm_blockMentions (main visible : Names) (h : List.Forall₂ Equivalent ts us) :
    (blockMentions o main visible ts).Perm (blockMentions o main visible us) := by
  induction h generalizing visible with
  | nil => exact .nil
  | @cons t t' ts us h _ ih =>
    rw [blockMentions, blockMentions, ← h.rearranged.kind_eq]
    by_cases hk : t.kind = .cteDef
    · rw [if_pos hk, if_pos hk, ← h.rearranged.definedNames_eq hk]
      exact (h.mentions o visible .read).append (ih _)
    · rw [if_neg hk, if_neg hk]
      exact (h.mentions o main .read).append (ih visible)

theorem blockNames_eq (h : List.Forall₂ Rearranged ts us) : blockNames ts = blockNames us := by
  induction h with
  | nil => rfl
  | @cons t t' ts us h _ ih =>
    by_cases hk : t.kind = .cteDef
    · rw [blockNames_cons_of_cteDef hk, blockNames_cons_of_cteDef (h.kind_eq ▸ hk),
        h.definedNames_eq hk, ih]
    · rw [blockNames_cons_of_ne hk, blockNames_cons_of_ne (h.kind_eq ▸ hk), ih]

/-- The definitions of a block may be taken in front of the other children. -/
theorem perm_blockMentions_filter (main visible : Names) (ts : List (Tree κ)) :
    (blockMentions o main visible ts).Perm
      (blockMentions o main visible (ts.filter (·.kind = .cteDef)) ++
        (ts.filter (·.kind ≠ .cteDef)).flatMap fun t => t.mentions o main .read) := by
  induction ts generalizing visible with
  | nil => exact .nil
  | cons t ts ih =>
    by_cases hk : t.kind = .cteDef
    · have hdefinitions : (t :: ts).filter (·.kind = .cteDef) = t :: ts.filter (·.kind = .cteDef) :=
        List.filter_cons_of_pos (decide_eq_true hk)
      have hothers : (t :: ts).filter (·.kind ≠ .cteDef) = ts.filter (·.kind ≠ .cteDef) :=
        List.filter_cons_of_neg (by simpa using hk)
      rw [hdefinitions, hothers, blockMentions, blockMentions, if_pos hk, if_pos hk,
        List.append_assoc]
      exact (ih _).append_left _
    · have hdefinitions : (t :: ts).filter (·.kind = .cteDef) = ts.filter (·.kind = .cteDef) :=
        List.filter_cons_of_neg (by simpa using hk)
      have hothers : (t :: ts).filter (·.kind ≠ .cteDef) = t :: ts.filter (·.kind ≠ .cteDef) :=
        List.filter_cons_of_pos (by simpa using hk)
      rw [hdefinitions, hothers, blockMentions, if_neg hk, List.flatMap_cons]
      refine ((ih visible).append_left _).trans ?_
      rw [← List.append_assoc, ← List.append_assoc]
      exact List.perm_append_comm.append_right _

/-- So a block mentions the same wherever its definitions stand. -/
theorem perm_blockMentions_of_filters (main visible : Names)
    (hdefinitions : ts.filter (·.kind = .cteDef) = us.filter (·.kind = .cteDef))
    (hothers : ts.filter (·.kind ≠ .cteDef) = us.filter (·.kind ≠ .cteDef)) :
    (blockMentions o main visible ts).Perm (blockMentions o main visible us) := by
  refine (perm_blockMentions_filter main visible ts).trans ?_
  rw [hdefinitions, hothers]
  exact (perm_blockMentions_filter main visible us).symm

end lists

theorem Rearranged.ownMentions_eq {t t' : Tree κ} (h : t.Rearranged t')
    (hb : t.kind.opensScope = false) (o : ExtractOptions) (visible : Names) (access : Access) :
    t.ownMentions o visible access = t'.ownMentions o visible access := by
  have hchildren := h.children hb
  unfold ownMentions
  rw [← h.kind_eq]
  cases hk : t.kind with
  | destination =>
    have hname : (t.childOfKind? .table).bind heldName? =
        (t'.childOfKind? .table).bind heldName? :=
      find?_bind_eq (fun c c' hc hck => hc.heldName?_eq (by rw [hck]; rfl)) hchildren
    simp only [hname]
  | table | tableRef => simp only [h.heldName?_eq hb]
  | tableName =>
    have hname := dottedName_eq_of_look (map_look_eq hchildren)
    simp only [qualifiedName?, hname]
  | cteRef => simp only [h.text_eq]
  | _ => rfl

theorem Rearranged.position?_eq {t t' c c' : Tree κ} (h : t.Rearranged t') (hc : c.Rearranged c')
    (access : Access) : t.position? access c = t'.position? access c' := by
  unfold position?
  rw [← h.kind_eq, ← hc.kind_eq, ← hc.isWritten_eq]

theorem placed_node_of_children {label : κ} {text : Option String} {ts us : List (Tree κ)}
    (h : ∀ levels, allPlaced levels ts = true → allPlaced levels us = true) (levels : Nat)
    (hp : (Tree.node label text ts).definitionsPlaced levels = true) :
    (Tree.node label text us).definitionsPlaced levels = true := by
  simp only [definitionsPlaced] at hp ⊢
  cases hk : Vocabulary.kind label with
  | cteDef =>
    simp only [hk, Bool.and_eq_true] at hp ⊢
    exact ⟨hp.1, h _ hp.2⟩
  | _ =>
    simp only [hk] at hp ⊢
    exact h _ hp

/-- Nodes whose children are equivalent are so themselves, if they keep the
order of the children. -/
theorem equivalent_node (label : κ) (text : Option String) {ts us : List (Tree κ)}
    (h : List.Forall₂ Equivalent ts us) :
    Equivalent (.node label text ts) (.node label text us) := by
  have hchildren : List.Forall₂ Rearranged ts us := h.imp fun _ _ h => h.rearranged
  have hnode : Rearranged (.node label text ts) (.node label text us) := .node label text hchildren
  have hbody (o : ExtractOptions) (visible : Names) :
      (childMentions o visible (fun _ => some .read) ts).Perm
        (childMentions o visible (fun _ => some .read) us) :=
    perm_childMentions visible (fun _ _ _ => rfl) h
  have hplaced (levels : Nat) (hp : allPlaced levels ts = true) : allPlaced levels us = true := by
    clear hnode hbody hchildren
    induction h with
    | nil => rfl
    | cons h _ ih =>
      rw [allPlaced, Bool.and_eq_true] at hp ⊢
      exact ⟨h.placed levels hp.1, ih hp.2⟩
  refine ⟨hnode, placed_node_of_children hplaced, fun o visible access => ?_, fun _ => hbody⟩
  by_cases hb : (Vocabulary.kind label).opensScope = true
  · rw [mentions_block (t := .node label text ts) hb, mentions_block (t := .node label text us) hb]
    show (blockMentions o (visible.bindAll (blockNames ts)) visible ts).Perm
      (blockMentions o (visible.bindAll (blockNames us)) visible us)
    rw [blockNames_eq hchildren]
    exact perm_blockMentions _ visible h
  · by_cases hd : Vocabulary.kind label = .cteDef
    · have hany := any_isDefinition_eq_of_look (map_look_eq hchildren)
      rw [mentions_cteDef (t := .node label text ts) hd, mentions_cteDef (t := .node label text us) hd]
      show List.Perm (if ts.any isDefinition = true then _ else _)
        (if us.any isDefinition = true then _ else _)
      rw [← hany]
      by_cases hl : ts.any isDefinition = true
      · rw [if_pos hl, if_pos hl]
        exact perm_listMentions _ visible h
      · rw [if_neg hl, if_neg hl]
        exact hbody o visible
    · have hb := Bool.eq_false_iff.2 hb
      rw [mentions_plain (t := .node label text ts) hb hd,
        mentions_plain (t := .node label text us) hb hd, hnode.ownMentions_eq hb]
      exact (perm_childMentions visible (fun _ _ hc => hnode.position?_eq hc access) h).append_left _

mutual

theorem Rearranged.equivalent : ∀ {t t' : Tree κ}, t.Rearranged t' → t.Equivalent t'
  | .node label text children, t', h => by
    cases h with
    | node _ _ h => exact equivalent_node label text (equivalent_all h)
    | @block _ _ _ moved children' hb h hdefinitions hothers =>
      have hmoved := equivalent_node label text (equivalent_all h)
      have hreordered : Rearranged (.node label text children) (.node label text children') :=
        .block label text hb h hdefinitions hothers
      have hperm := perm_of_filters hdefinitions hothers
      have hplaced (levels : Nat) (hp : allPlaced levels moved = true) :
          allPlaced levels children' = true :=
        allPlaced_iff.2 (fun c hc => allPlaced_iff.1 hp c (hperm.mem_iff.2 hc))
      refine ⟨hreordered, fun levels hp => placed_node_of_children hplaced levels
        (hmoved.placed levels hp), fun o visible access =>
        (hmoved.mentions o visible access).trans ?_, fun hnot => ?_⟩
      · have hnames : blockNames moved = blockNames children' := by
          rw [blockNames, blockNames, hdefinitions]
        rw [mentions_block (t := .node label text moved) hb,
          mentions_block (t := .node label text children') hb]
        show (blockMentions o (visible.bindAll (blockNames moved)) visible moved).Perm
          (blockMentions o (visible.bindAll (blockNames children')) visible children')
        rw [hnames]
        exact perm_blockMentions_of_filters _ visible hdefinitions hothers
      · have hnot : (Vocabulary.kind label).opensScope = false := hnot
        rw [hb] at hnot
        exact Bool.noConfusion hnot

theorem equivalent_all : ∀ {ts us : List (Tree κ)},
    List.Forall₂ Rearranged ts us → List.Forall₂ Equivalent ts us
  | [], _, h => by
    cases h
    exact .nil
  | t :: ts, _, h => by
    cases h with
    | cons h hs => exact .cons h.equivalent (equivalent_all hs)

end

end Tree

namespace Record

theorem perm_eraseDups {as bs : List QualifiedName} (h : as.Perm bs) :
    as.eraseDups.Perm bs.eraseDups := by
  rw [List.perm_ext_iff_of_nodup (nodup_eraseDups as) (nodup_eraseDups bs)]
  intro n
  rw [List.mem_eraseDups, List.mem_eraseDups, h.mem_iff]

/-- The order of what is mentioned decides the order of a record only. -/
theorem perm_ofMentions {as bs : List Mention} (h : as.Perm bs) :
    (ofMentions as).targets.Perm (ofMentions bs).targets ∧
      (ofMentions as).sources.Perm (ofMentions bs).sources :=
  ⟨perm_eraseDups (h.filterMap _), perm_eraseDups (h.filterMap _)⟩

end Record

namespace Tree

variable {κ : Type} [Vocabulary κ]

/-- Where the definitions of its query blocks stand among the other children
makes no difference to what a tree writes and reads. -/
theorem lineage_rearranged {t t' : Tree κ} (h : t.Rearranged t')
    (hp : t.definitionsPlaced 0 = true) (o : ExtractOptions) :
    (t.lineage o).targets.Perm (t'.lineage o).targets ∧
      (t.lineage o).sources.Perm (t'.lineage o).sources := by
  have hequivalent := h.equivalent
  rw [lineage_eq_ofMentions hp, lineage_eq_ofMentions (hequivalent.placed 0 hp)]
  exact Record.perm_ofMentions (hequivalent.mentions o Names.none .read)

/-- A block with its definition `a` behind the body.  So is the definition `b` in
the body of `a`. -/
def bodiesFirst : Tree Kind :=
  .branch .query [readOf ["a"], readOf ["t"],
    .node .cteDef (some "a") [.branch .query [readOf ["b"], .node .cteDef (some "b") [readOf ["u"]]]]]

/-- The same with both definitions in front. -/
def definitionsFirst : Tree Kind :=
  .branch .query [
    .node .cteDef (some "a") [.branch .query [.node .cteDef (some "b") [readOf ["u"]], readOf ["b"]]],
    readOf ["a"], readOf ["t"]]

theorem rearranged_bodiesFirst : bodiesFirst.Rearranged definitionsFirst := by
  have hinner : Rearranged
      (.branch .query [readOf ["b"], .node .cteDef (some "b") [readOf ["u"]]])
      (.branch .query [.node .cteDef (some "b") [readOf ["u"]], readOf ["b"]]) := by
    apply Rearranged.block Kind.query none
    · rfl
    · exact refl_all [readOf ["b"], .node .cteDef (some "b") [readOf ["u"]]]
    · rfl
    · rfl
  have ha := Rearranged.node Kind.cteDef (some "a") (.cons hinner .nil)
  apply Rearranged.block Kind.query none
  · rfl
  · exact .cons (.refl (readOf ["a"])) (.cons (.refl (readOf ["t"])) (.cons ha .nil))
  · rfl
  · rfl

/-- Both read the same tables, in another order. -/
theorem lineage_rearranged_bodiesFirst :
    bodiesFirst.Rearranged definitionsFirst ∧ bodiesFirst.definitionsPlaced 0 = true ∧
    (bodiesFirst.lineage {}).sources.Perm (definitionsFirst.lineage {}).sources ∧
    (bodiesFirst.lineage {}).sources.map (·.text) = ["t", "u"] ∧
    (definitionsFirst.lineage {}).sources.map (·.text) = ["u", "t"] := by
  have hplaced : bodiesFirst.definitionsPlaced 0 = true := by decide
  have hperm := lineage_rearranged rearranged_bodiesFirst hplaced {}
  exact ⟨rearranged_bodiesFirst, hplaced, hperm.2, by cbv, by cbv⟩

end Tree
end Lineage
