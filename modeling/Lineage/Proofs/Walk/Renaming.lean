import Mathlib
import Lineage.Proofs.Walk.Rewritten

/-
Definitions that go by another name.

A read table stands for the definition that its name resolves to when it is
visited.  Where a definition gets another name, and so do the tables that stand
for it, a walk records what it recorded before, as long as no table of the tree
goes by the new name already.
-/

namespace Lineage

variable {κ : Type} [Vocabulary κ]

/-- The definition that the read table of a step stands for. -/
def Step.definition? (scopes : Scopes (Tree κ)) (s : Step κ) : Option (Tree κ) :=
  if s.access = .read ∧ (s.node.kind = .table ∨ s.node.kind = .tableRef) then
    s.node.heldName?.bind fun n => scopes.resolve? n.text s.scope
  else none

theorem Step.definition?_eq_some_iff {scopes : Scopes (Tree κ)} {s : Step κ} {d : Tree κ} :
    s.definition? scopes = some d ↔ ∃ n, s.Reads n ∧ scopes.resolve? n.text s.scope = some d := by
  unfold Step.definition?
  by_cases h : s.access = .read ∧ (s.node.kind = .table ∨ s.node.kind = .tableRef)
  · rw [if_pos h, Option.bind_eq_some_iff]
    constructor
    · rintro ⟨n, hn, hd⟩
      exact ⟨n, ⟨h.1, h.2, hn⟩, hd⟩
    · rintro ⟨n, hreads, hd⟩
      exact ⟨n, hreads.held_eq, hd⟩
  · rw [if_neg h]
    constructor
    · exact fun hd => absurd hd (by simp)
    · rintro ⟨n, hreads, -⟩
      exact absurd ⟨hreads.access_eq, hreads.kind_mem⟩ h

namespace Tree

omit [Vocabulary κ] in
def leafText? (t : Tree κ) : Option String := if t.isLeaf then t.nonEmptyText? else none

/-- The node that names an aliased node: itself, or the last childless child with a
text. -/
def namedBy? (t : Tree κ) : Option (Tree κ) :=
  if t.nonEmptyText?.isSome then some t
  else t.children.reverse.find? (·.leafText?.isSome)

/-- The tables of a numbered tree that stand for a definition. -/
def references (t d : Tree (Numbered κ)) : List Nat :=
  (((Walk.start t).visits {}).filter fun v =>
    (v.2.definition? v.1).any (·.number = d.number)).map (·.2.node.number)

/-- A visit finds that the node stands for the definition. -/
def StandsFor (t d u : Tree (Numbered κ)) : Prop :=
  ∃ scopes s, Walk.Visits {} (Walk.start t) scopes s ∧ s.node = u ∧ s.definition? scopes = some d

/-- What to rewrite for a definition to go by another name. -/
def naming (t d : Tree (Numbered κ)) (name : String) : Rewriting :=
  ⟨name, d.namedBy?.map number, t.references d⟩

/-- Give a definition of a tree another name, and the tables that stand for it. -/
def rename (t : Tree κ) (d : Tree (Numbered κ)) (name : String) : Tree κ :=
  t.numbered.rewrite (t.numbered.naming d name)

/-! ## Names that stay -/

section rewrite

variable {r : Rewriting} {t u c e : Tree (Numbered κ)}

omit [Vocabulary κ] in
theorem isLeaf_of_leafText? {t : Tree κ} (h : t.leafText?.isSome = true) : t.isLeaf = true := by
  unfold leafText? at h
  by_contra hleaf
  rw [if_neg hleaf] at h
  exact absurd h Bool.false_ne_true

omit [Vocabulary κ] in
theorem alias?_eq_of_text {t : Tree κ} {name : String} (h : t.nonEmptyText? = some name) :
    t.alias? = some name := by
  rw [alias?, h]
  rfl

omit [Vocabulary κ] in
theorem alias?_eq_findSome? {t : Tree κ} (h : t.nonEmptyText? = none) :
    t.alias? = t.children.reverse.findSome? leafText? := by
  rw [alias?, h]
  rfl

theorem nonEmptyText?_rewrite_of_ne (h : r.giver? ≠ some c.number) :
    (c.rewrite r).nonEmptyText? = c.nonEmptyText? := by
  rw [nonEmptyText?, nonEmptyText?, text_rewrite_of_ne h]

theorem nonEmptyText?_rewrite_of_giver (hname : r.name ≠ "") (h : r.giver? = some c.number) :
    (c.rewrite r).nonEmptyText? = some r.name := by
  rw [nonEmptyText?, text_rewrite, if_pos h]
  exact Option.filter_some_pos (by simpa using hname)

theorem leafText?_rewrite_of_ne (h : c.isLeaf = true → r.giver? ≠ some c.number) :
    (c.rewrite r).leafText? = c.leafText? := by
  unfold leafText?
  rw [isLeaf_rewrite]
  by_cases hleaf : c.isLeaf = true
  · rw [if_pos hleaf, if_pos hleaf, nonEmptyText?_rewrite_of_ne (h hleaf)]
  · rw [if_neg hleaf, if_neg hleaf]

theorem leafText?_rewrite_of_giver (hname : r.name ≠ "") (h : r.giver? = some c.number)
    (hc : c.leafText?.isSome = true) : (c.rewrite r).leafText? = some r.name := by
  rw [leafText?, isLeaf_rewrite, if_pos (isLeaf_of_leafText? hc)]
  exact nonEmptyText?_rewrite_of_giver hname h

theorem findSome?_leafText?_rewrite {cs : List (Tree (Numbered κ))}
    (h : ∀ c ∈ cs, c.isLeaf = true → r.giver? ≠ some c.number) :
    (cs.map (rewrite r)).findSome? leafText? = cs.findSome? leafText? := by
  induction cs with
  | nil => rfl
  | cons c cs ih =>
    have hfirst := leafText?_rewrite_of_ne (h c List.mem_cons_self)
    have hrest := ih (fun c' hc' => h c' (List.mem_cons_of_mem _ hc'))
    rw [List.map_cons, List.findSome?_cons, List.findSome?_cons, hfirst, hrest]

theorem findSome?_leafText?_rewrite_of_giver (hname : r.name ≠ "")
    {cs : List (Tree (Numbered κ))}
    (hne : ∀ c ∈ cs, c.leafText? = none → r.giver? ≠ some c.number)
    (hgiver : r.giver? = (cs.find? (·.leafText?.isSome)).map number) :
    (cs.map (rewrite r)).findSome? leafText? = (cs.findSome? leafText?).map fun _ => r.name := by
  induction cs with
  | nil => rfl
  | cons c cs ih =>
    rw [List.map_cons, List.findSome?_cons, List.findSome?_cons]
    cases hc : c.leafText? with
    | some name =>
      have hfound : (c :: cs).find? (·.leafText?.isSome) = some c :=
        List.find?_cons_of_pos (by rw [hc]; rfl)
      rw [hfound] at hgiver
      rw [leafText?_rewrite_of_giver hname hgiver (by rw [hc]; rfl)]
      rfl
    | none =>
      have hlater : (c :: cs).find? (·.leafText?.isSome) = cs.find? (·.leafText?.isSome) :=
        List.find?_cons_of_neg (by rw [hc]; exact Bool.false_ne_true)
      rw [hlater] at hgiver
      rw [leafText?_rewrite_of_ne (fun _ => hne c List.mem_cons_self hc), hc]
      exact ih (fun c' hc' => hne c' (List.mem_cons_of_mem _ hc')) hgiver

theorem alias?_rewrite (hnot : e.number ∉ r.references) (he : r.giver? ≠ some e.number)
    (hc : ∀ c ∈ e.children, c.isLeaf = true → r.giver? ≠ some c.number) :
    (e.rewrite r).alias? = e.alias? := by
  have htext : (e.rewrite r).nonEmptyText? = e.nonEmptyText? := nonEmptyText?_rewrite_of_ne he
  cases hown : e.nonEmptyText? with
  | some name => rw [alias?_eq_of_text hown, alias?_eq_of_text (htext.trans hown)]
  | none =>
    rw [alias?_eq_findSome? hown, alias?_eq_findSome? (htext.trans hown),
      children_rewrite_of_not_mem hnot, ← List.map_reverse]
    exact findSome?_leafText?_rewrite (fun c hmem => hc c (List.mem_reverse.1 hmem))

/-- A node goes by the new name if the node that names it gets it. -/
theorem alias?_rewrite_of_namedBy (ht : t.numbers.Nodup) (he : t.Below e)
    (hnot : e.number ∉ r.references) (hname : r.name ≠ "")
    (hgiver : r.giver? = e.namedBy?.map number) :
    (e.rewrite r).alias? = e.alias?.map fun _ => r.name := by
  cases hown : e.nonEmptyText? with
  | some name =>
    have hnamed : e.namedBy? = some e := if_pos (by rw [hown]; rfl)
    rw [hnamed] at hgiver
    rw [alias?_eq_of_text hown, alias?_eq_of_text (nonEmptyText?_rewrite_of_giver hname hgiver)]
    rfl
  | none =>
    have hnamed : e.namedBy? = e.children.reverse.find? (·.leafText?.isSome) :=
      if_neg (by rw [hown]; exact Bool.false_ne_true)
    rw [hnamed] at hgiver
    -- The giver is a child with a text, and no other node has its number.
    have hne (c : Tree (Numbered κ)) (hc : t.Below c) (htext : c.leafText? = none) :
        r.giver? ≠ some c.number := by
      intro h
      rw [hgiver, Option.map_eq_some_iff] at h
      obtain ⟨g, hg, hnumber⟩ := h
      have hgmem := List.mem_reverse.1 (List.mem_of_find?_eq_some hg)
      have hsame : g = c := Below.eq_of_number ht (he.children hgmem) hc hnumber
      have hgtext := List.find?_some hg
      rw [hsame, htext] at hgtext
      exact absurd hgtext Bool.false_ne_true
    have hself : e.leafText? = none := by
      unfold leafText?
      rw [hown, ite_self]
    have htext := nonEmptyText?_rewrite_of_ne (hne e he hself)
    rw [alias?_eq_findSome? hown, alias?_eq_findSome? (htext.trans hown),
      children_rewrite_of_not_mem hnot, ← List.map_reverse]
    refine findSome?_leafText?_rewrite_of_giver hname (fun c hmem hc => ?_) hgiver
    exact hne c (he.children (List.mem_reverse.1 hmem)) hc

theorem dottedName_rewrite (hnot : c.number ∉ r.references)
    (hparts : ∀ x ∈ c.children, r.giver? ≠ some x.number) :
    (c.rewrite r).dottedName = c.dottedName := by
  have htexts : ((c.children.map (rewrite r)).filterMap text) = c.children.filterMap text := by
    rw [List.filterMap_map]
    apply List.filterMap_congr
    intro x hx
    exact text_rewrite_of_ne (hparts x hx)
  rw [dottedName, dottedName, children_rewrite_of_not_mem hnot, htexts]

theorem heldName?_rewrite (hnot : u.number ∉ r.references)
    (hname : ∀ c ∈ u.children, c.kind = .tableName → (c.rewrite r).dottedName = c.dottedName) :
    (u.rewrite r).heldName? = u.heldName? := by
  rw [heldName?, heldName?, childOfKind?_rewrite hnot]
  cases hc : u.childOfKind? .tableName with
  | none => rfl
  | some c =>
    have hkind := List.find?_some hc
    have hdotted := hname c (List.mem_of_find?_eq_some hc) (of_decide_eq_true hkind)
    rw [Option.map_some, Option.bind_some, Option.bind_some, qualifiedName?, qualifiedName?,
      hdotted]

theorem heldName?_rewrite_of_mem (hmem : u.number ∈ r.references) (hname : r.name ≠ "")
    {n : QualifiedName} (hn : u.heldName? = some n) :
    (u.rewrite r).heldName? = some ⟨r.name, hname⟩ := by
  obtain ⟨c, hc, hcn⟩ := Option.bind_eq_some_iff.1 hn
  have hfirst : (u.rewrite r).childOfKind? .tableName = some ((c.rewrite r).renameTable r.name) := by
    rw [childOfKind?, children_rewrite_of_mem hmem, find?_renameHeld, find?_kind_rewrite]
    show ((u.childOfKind? .tableName).map (rewrite r)).map _ = _
    rw [hc]
    rfl
  have hchildren : (c.rewrite r).children ≠ [] := by
    intro hnil
    have hleaf : c.isLeaf = true := by
      rw [← isLeaf_rewrite r, isLeaf, hnil]
      rfl
    have hnone : c.dottedName = "" := by
      rw [dottedName, List.isEmpty_iff.1 hleaf]
      rfl
    rw [qualifiedName?, hnone] at hcn
    exact absurd hcn (by simp [QualifiedName.ofString?])
  have hdotted : ((c.rewrite r).renameTable r.name).dottedName = r.name := by
    obtain ⟨part, parts, hparts⟩ := List.exists_cons_of_ne_nil hchildren
    rw [renameTable, hparts]
    exact QualifiedName.dotted_singleton hname
  rw [heldName?, hfirst, Option.bind_some, qualifiedName?, hdotted]
  exact QualifiedName.ofString?_eq_some_iff.2 rfl

end rewrite

/-! ## Where definitions stand -/

section definitions

variable {t d e node : Tree (Numbered κ)}

theorem Introduces.opensScope_eq (h : t.Introduces d) : d.kind.opensScope = false := by
  rcases h.kind_mem with hk | hk <;> rw [hk] <;> rfl

/-- A definition stands right below a query block, or in a list that does. -/
theorem Introduces.parent (h : t.Introduces d) : ∃ p, t.Below p ∧ d ∈ p.children ∧
    (p.kind.opensScope = true ∨ t.WithClause p ∧ p.children.any isDefinition = true) := by
  obtain ⟨node, hnode, hd⟩ := h
  by_cases hl : node.children.any isDefinition = true
  · rw [definitions, if_pos hl, List.mem_filter] at hd
    exact ⟨node, hnode.below, hd.1, .inr ⟨hnode, hl⟩⟩
  · rw [definitions, if_neg hl, List.mem_singleton] at hd
    obtain ⟨block, hblock, hb, hmem, -⟩ := hnode
    exact ⟨block, hblock, hd ▸ hmem, .inl hb⟩

/-- A list of definitions is none itself. -/
theorem WithClause.not_introduces (ht : t.numbers.Nodup) (h : t.WithClause node)
    (hl : node.children.any isDefinition = true) : ¬ t.Introduces node := by
  rintro ⟨list, hlist, hnode⟩
  by_cases hl' : list.children.any isDefinition = true
  · rw [definitions, if_pos hl', List.mem_filter] at hnode
    obtain ⟨block, hblock, hb, hmem, -⟩ := h
    have hsame : list = block := hlist.below.parent_eq ht hblock hnode.1 hmem rfl
    rw [← hsame, hlist.kind_eq] at hb
    exact absurd hb Bool.false_ne_true
  · rw [definitions, if_neg hl', List.mem_singleton] at hnode
    rw [hnode] at hl
    exact hl' hl

/-- No definition is the child of another one. -/
theorem Introduces.not_mem_children (ht : t.numbers.Nodup) (hd : t.Introduces d)
    (he : t.Introduces e) : d ∉ e.children := by
  intro hmem
  obtain ⟨p, hp, hdp, hkind⟩ := hd.parent
  have hsame : p = e := hp.parent_eq ht he.below hdp hmem rfl
  rw [hsame] at hkind
  rcases hkind with hb | ⟨hlist, hl⟩
  · rw [he.opensScope_eq] at hb
    exact absurd hb Bool.false_ne_true
  · exact hlist.not_introduces ht hl he

omit [Vocabulary κ] in
theorem namedBy?_eq_some {g : Tree (Numbered κ)} (h : d.namedBy? = some g) :
    g = d ∨ g ∈ d.children ∧ g.isLeaf = true := by
  unfold namedBy? at h
  split at h
  · exact .inl (Option.some.inj h).symm
  · have htext := List.find?_some h
    exact .inr ⟨List.mem_reverse.1 (List.mem_of_find?_eq_some h), isLeaf_of_leafText? htext⟩

end definitions

/-! ## What a renaming leaves alone -/

section naming

variable {t d : Tree (Numbered κ)} {name : String}

theorem mem_references {k : Nat} : k ∈ t.references d ↔
    ∃ scopes s b, Walk.Visits {} (Walk.start t) scopes s ∧ s.definition? scopes = some b ∧
      b.number = d.number ∧ s.node.number = k := by
  simp only [references, List.mem_map, List.mem_filter, Option.any_eq_true, decide_eq_true_eq]
  constructor
  · rintro ⟨⟨scopes, s⟩, ⟨hv, b, hb, hnumber⟩, hk⟩
    exact ⟨scopes, s, b, Walk.mem_visits.1 hv, hb, hnumber, hk⟩
  · rintro ⟨scopes, s, b, hv, hb, hnumber, hk⟩
    exact ⟨(scopes, s), ⟨Walk.mem_visits.2 hv, b, hb, hnumber⟩, hk⟩

theorem number_mem_references_iff (ht : t.numbers.Nodup) {scopes : Scopes (Tree (Numbered κ))}
    {s : Step (Numbered κ)} (hv : Walk.Visits {} (Walk.start t) scopes s) :
    s.node.number ∈ t.references d ↔
      ∃ b, s.definition? scopes = some b ∧ b.number = d.number := by
  rw [mem_references]
  constructor
  · rintro ⟨scopes', s', b, hv', hb, hnumber, hsame⟩
    obtain ⟨rfl, rfl⟩ := hv.eq_of_number ht hv' hsame
    exact ⟨b, hb, hnumber⟩
  · rintro ⟨b, hb, hnumber⟩
    exact ⟨scopes, s, b, hv, hb, hnumber, rfl⟩

theorem mem_references_iff_standsFor (ht : t.numbers.Nodup) (hd : t.Below d)
    {u : Tree (Numbered κ)} (hu : t.Below u) : u.number ∈ t.references d ↔ t.StandsFor d u := by
  rw [mem_references]
  constructor
  · rintro ⟨scopes, s, b, hv, hb, hnumber, hsame⟩
    obtain ⟨n, -, hresolve⟩ := Step.definition?_eq_some_iff.1 hb
    obtain ⟨_, ⟨node, hnode, -, hmem, -⟩, -⟩ := Walk.defines_of_resolve? hv hresolve
    -- Scopes hold definitions of the tree only, so the number tells which one it is.
    have hbody : b = d := Below.eq_of_number ht (hnode.definition hmem) hd hnumber
    have hbelow := ((Walk.within_start t).visits hv).2
    exact ⟨scopes, s, hv, Below.eq_of_number ht hbelow hu hsame, hbody ▸ hb⟩
  · rintro ⟨scopes, s, hv, rfl, hb⟩
    exact ⟨scopes, s, d, hv, hb, rfl, rfl⟩

theorem kind_of_mem_references (ht : t.numbers.Nodup) {u : Tree (Numbered κ)} (hu : t.Below u)
    (h : u.number ∈ t.references d) : u.kind = .table ∨ u.kind = .tableRef := by
  obtain ⟨scopes, s, b, hv, hb, -, hsame⟩ := mem_references.1 h
  have hbelow := ((Walk.within_start t).visits hv).2
  obtain ⟨n, hreads, -⟩ := Step.definition?_eq_some_iff.1 hb
  rw [← Below.eq_of_number ht hbelow hu hsame]
  exact hreads.kind_mem

theorem Introduces.not_mem_references (ht : t.numbers.Nodup) {e : Tree (Numbered κ)}
    (he : t.Introduces e) : e.number ∉ t.references d := by
  intro hmem
  have htable := kind_of_mem_references ht he.below hmem
  rcases he.kind_mem with hk | hk <;> simp [hk] at htable

/-- What names a definition is no part of a table name. -/
theorem giver?_ne_of_tableName (ht : t.numbers.Nodup) (hd : t.Introduces d)
    {c x : Tree (Numbered κ)} (hc : t.Below c) (hk : c.kind = .tableName) (hx : x ∈ c.children) :
    (t.naming d name).giver? ≠ some x.number := by
  intro h
  obtain ⟨g, hg, hnumber⟩ := Option.map_eq_some_iff.1 h
  rcases namedBy?_eq_some hg with rfl | ⟨hmem, -⟩
  · obtain ⟨p, hp, hdp, hkind⟩ := hd.parent
    have hsame : p = c := hp.parent_eq ht hc hdp hx hnumber
    rw [hsame] at hkind
    rcases hkind with hb | ⟨hlist, -⟩
    · rw [hk] at hb
      exact absurd hb Bool.false_ne_true
    · exact Kind.noConfusion (hk.symm.trans hlist.kind_eq)
  · have hsame : d = c := hd.below.parent_eq ht hc hmem hx hnumber
    rw [← hsame] at hk
    rcases hd.kind_mem with hdk | hdk <;> exact Kind.noConfusion (hk.symm.trans hdk)

/-- Neither is it what marks a list. -/
theorem giver?_ne_of_list (ht : t.numbers.Nodup) (hd : t.Introduces d)
    {node : Tree (Numbered κ)} (hnode : t.WithClause node)
    (hl : node.children.any isDefinition = true) :
    (t.naming d name).giver? ≠ some node.number := by
  intro h
  obtain ⟨g, hg, hnumber⟩ := Option.map_eq_some_iff.1 h
  rcases namedBy?_eq_some hg with rfl | ⟨hmem, hleaf⟩
  · have hsame : g = node := hd.below.eq_of_number ht hnode.below hnumber
    exact hnode.not_introduces ht hl (hsame ▸ hd)
  · have hsame : g = node := (hd.below.children hmem).eq_of_number ht hnode.below hnumber
    rw [hsame, isLeaf, List.isEmpty_iff] at hleaf
    rw [hleaf] at hl
    exact absurd hl Bool.false_ne_true

theorem alias?_rewrite_naming_of_ne (ht : t.numbers.Nodup) (hd : t.Introduces d)
    {e : Tree (Numbered κ)} (he : t.Introduces e) (hne : e.number ≠ d.number) :
    (e.rewrite (t.naming d name)).alias? = e.alias? := by
  have hne : e ≠ d := fun h => hne (h ▸ rfl)
  refine alias?_rewrite (he.not_mem_references ht) (fun h => ?_) (fun c hc _ h => ?_)
  · obtain ⟨g, hg, hnumber⟩ := Option.map_eq_some_iff.1 h
    rcases namedBy?_eq_some hg with rfl | ⟨hmem, -⟩
    · exact hne (Below.eq_of_number ht hd.below he.below hnumber).symm
    · have hsame : g = e := (hd.below.children hmem).eq_of_number ht he.below hnumber
      exact he.not_mem_children ht hd (hsame ▸ hmem)
  · obtain ⟨g, hg, hnumber⟩ := Option.map_eq_some_iff.1 h
    have hcbelow := he.below.children hc
    rcases namedBy?_eq_some hg with rfl | ⟨hmem, -⟩
    · have hsame : g = c := hd.below.eq_of_number ht hcbelow hnumber
      exact hd.not_mem_children ht he (hsame ▸ hc)
    · exact hne (he.below.parent_eq ht hd.below hc hmem hnumber.symm)

end naming

/-! ## The renamed tree -/

/-- The key under which a binding is found when one definition got another name. -/
def renamedKey (d : Tree (Numbered κ)) (name : String) (b : Tree (Numbered κ)) (key : String) :
    String :=
  if b.number = d.number then foldCase name else key

/-- Write positions do not look at what is visible. -/
theorem mentionOf_write (o : ExtractOptions) (visible visible' : Names)
    (name? : Option QualifiedName) :
    mentionOf o visible .write name? = mentionOf o visible' .write name? := by
  cases name? <;> rfl

section respects

variable {t d : Tree (Numbered κ)} {name : String}

theorem dottedName_rewrite_naming (name : String) (ht : t.numbers.Nodup) (hd : t.Introduces d)
    {c : Tree (Numbered κ)} (hc : t.Below c) (hk : c.kind = .tableName) :
    (c.rewrite (t.naming d name)).dottedName = c.dottedName := by
  refine dottedName_rewrite (fun hmem => ?_) (fun x hx => giver?_ne_of_tableName ht hd hc hk hx)
  have htable := kind_of_mem_references ht hc hmem
  simp [hk] at htable

theorem heldName?_rewrite_naming_of_not_mem (ht : t.numbers.Nodup) (hd : t.Introduces d)
    {u : Tree (Numbered κ)} (hu : t.Below u) (hnot : u.number ∉ t.references d) :
    (u.rewrite (t.naming d name)).heldName? = u.heldName? :=
  heldName?_rewrite hnot (fun _ hc hk => dottedName_rewrite_naming name ht hd (hu.children hc) hk)

theorem alias?_rewrite_naming (ht : t.numbers.Nodup) (hd : t.Introduces d) (hname : name ≠ "")
    {e : Tree (Numbered κ)} (he : t.Introduces e) :
    (e.rewrite (t.naming d name)).alias? =
      if e.number = d.number then e.alias?.map fun _ => name else e.alias? := by
  by_cases hsame : e.number = d.number
  · obtain rfl := Below.eq_of_number ht he.below hd.below hsame
    rw [if_pos rfl]
    exact alias?_rewrite_of_namedBy ht he.below (he.not_mem_references ht) hname rfl
  · rw [if_neg hsame]
    exact alias?_rewrite_naming_of_ne ht hd he hsame

theorem renames_naming (ht : t.numbers.Nodup) (hd : t.Introduces d) (hname : name ≠ "")
    {e : Tree (Numbered κ)} (he : t.Introduces e) :
    Option.Rel (Renames (renamedKey d name) (fun key => key = foldCase name) e) e.alias?
      (e.rewrite (t.naming d name)).alias? := by
  rw [alias?_rewrite_naming ht hd hname he]
  cases e.alias? with
  | none =>
    rw [Option.map_none, ite_self]
    exact .none
  | some old =>
    by_cases hsame : e.number = d.number
    · rw [if_pos hsame]
      exact .some ⟨(if_pos hsame).symm, .inr (decide_eq_true rfl)⟩
    · rw [if_neg hsame]
      exact .some ⟨(if_neg hsame).symm, .inl rfl⟩

/-- The tables that stand for the definition hold the new name, and no other node
changes the name that it holds. -/
theorem heldName?_rewrite_naming (ht : t.numbers.Nodup) (hd : t.Introduces d)
    (hname : name ≠ "") {u : Tree (Numbered κ)} (hu : t.Below u) :
    (t.StandsFor d u → (u.rewrite (t.naming d name)).heldName? = some ⟨name, hname⟩) ∧
      (¬ t.StandsFor d u → (u.rewrite (t.naming d name)).heldName? = u.heldName?) := by
  rw [← mem_references_iff_standsFor ht hd.below hu]
  refine ⟨fun hmem => ?_, heldName?_rewrite_naming_of_not_mem ht hd hu⟩
  obtain ⟨_, _, hv, rfl, hb⟩ := (mem_references_iff_standsFor ht hd.below hu).1 hmem
  obtain ⟨n, hreads, -⟩ := Step.definition?_eq_some_iff.1 hb
  exact heldName?_rewrite_of_mem hmem hname hreads.held_eq

section visits

variable {scopes : Scopes (Tree (Numbered κ))} {scopes' : Scopes (Tree κ)} {s : Step (Numbered κ)}

/-- A table that stands for the definition is not recorded, neither before nor
after. -/
theorem mentionOf_reference (hname : name ≠ "") (hreference : s.node.number ∈ t.references d)
    (hs : Scopes.Rekeyed (renamedKey d name) (fun key => key = foldCase name) scopes scopes')
    {b : Tree (Numbered κ)} (hb : s.definition? scopes = some b) (hnumber : b.number = d.number) :
    mentionOf {} (scopes'.sees s.scope) s.access (s.node.rewrite (t.naming d name)).heldName? =
      mentionOf {} (scopes.sees s.scope) s.access s.node.heldName? := by
  obtain ⟨n, hreads, hresolve⟩ := Step.definition?_eq_some_iff.1 hb
  have hheld : (s.node.rewrite (t.naming d name)).heldName? = some ⟨name, hname⟩ :=
    heldName?_rewrite_of_mem hreference hname hreads.held_eq
  have hsees : scopes.sees s.scope (foldCase n.text) = true := by
    rw [Scopes.sees, ← Scopes.resolve?, hresolve]
    rfl
  have hsees' : scopes'.sees s.scope (foldCase name) = true := by
    have hkeeps := hs.sees_keeps hresolve
    rwa [renamedKey, if_pos hnumber] at hkeeps
  rw [hheld, hreads.held_eq, hreads.access_eq]
  show (if scopes'.sees s.scope (foldCase name) && _ then _ else _) =
    if scopes.sees s.scope (foldCase n.text) && _ then _ else _
  rw [hsees, hsees']
  rfl

theorem mentionOf_other (ht : t.numbers.Nodup) (hd : t.Introduces d)
    (hfresh : ∀ c, t.Below c → c.kind = .tableName → foldCase c.dottedName ≠ foldCase name)
    (hbelow : t.Below s.node) (hk : s.node.kind = .table ∨ s.node.kind = .tableRef)
    (hs : Scopes.Rekeyed (renamedKey d name) (fun key => key = foldCase name) scopes scopes')
    (hnot : s.node.number ∉ t.references d)
    (hother : ∀ b, s.definition? scopes = some b → b.number ≠ d.number) :
    mentionOf {} (scopes'.sees s.scope) s.access (s.node.rewrite (t.naming d name)).heldName? =
      mentionOf {} (scopes.sees s.scope) s.access s.node.heldName? := by
  rw [heldName?_rewrite_naming_of_not_mem ht hd hbelow hnot]
  cases haccess : s.access with
  | write => exact mentionOf_write ..
  | read =>
    cases hheld : s.node.heldName? with
    | none => rfl
    | some n =>
      have hsees : scopes'.sees s.scope (foldCase n.text) =
          scopes.sees s.scope (foldCase n.text) := by
        refine hs.sees_eq (fun b hb => ?_) (decide_eq_false ?_)
        · have hstands : s.definition? scopes = some b :=
            Step.definition?_eq_some_iff.2 ⟨n, ⟨haccess, hk, hheld⟩, hb⟩
          exact if_neg (hother b hstands)
        · obtain ⟨c, hc, hcn⟩ := Option.bind_eq_some_iff.1 hheld
          rw [QualifiedName.ofString?_eq_some_iff.1 hcn]
          have hckind := List.find?_some hc
          exact hfresh c (hbelow.children (List.mem_of_find?_eq_some hc))
            (of_decide_eq_true hckind)
      simp only [mentionOf, hsees]

/-- No table below a destination is visited, so none is a reference. -/
theorem not_mem_references_of_destination (ht : t.numbers.Nodup)
    (hv : Walk.Visits {} (Walk.start t) scopes s) (hk : s.node.kind = .destination)
    {c : Tree (Numbered κ)} (hc : c ∈ s.node.children) : c.number ∉ t.references d := by
  intro hmem
  obtain ⟨_, _, _, hv', _, _, hsame⟩ := mem_references.1 hmem
  have hpending : (Walk.visitAlone {} scopes s).pending = [] := by
    have hplain := Walk.visitAlone_plain (by rw [hk]; rfl) (by simp [hk]) {} scopes
    have hposition : s.node.position? s.access = fun _ => none := by
      funext c
      simp only [position?, hk]
    rw [hplain.pending_eq, hposition, Walk.childSteps_none]
  exact hv.number_ne ht hpending hc hv' hsame

end visits

/-- A walk does not notice the renaming. -/
theorem respects_naming (ht : t.numbers.Nodup) (hd : t.Introduces d) (hname : name ≠ "")
    (hfresh : ∀ c, t.Below c → c.kind = .tableName → foldCase c.dottedName ≠ foldCase name) :
    (t.naming d name).Respects {} t (renamedKey d name) (fun key => key = foldCase name) := by
  refine ⟨fun u hu hmem => kind_of_mem_references ht hu hmem, fun node hnode hl => ?_,
    fun e he => renames_naming ht hd hname he, fun scopes scopes' s hv hs => ?_⟩
  · rw [isRecursive, isRecursive, text_rewrite_of_ne (giver?_ne_of_list ht hd hnode hl)]
  · have hbelow := ((Walk.within_start t).visits hv).2
    have hmentions (hk : s.node.kind = .table ∨ s.node.kind = .tableRef) :
        mentionOf {} (scopes'.sees s.scope) s.access
            (s.node.rewrite (t.naming d name)).heldName? =
          mentionOf {} (scopes.sees s.scope) s.access s.node.heldName? := by
      have hmem := number_mem_references_iff (d := d) ht hv
      by_cases hreference : s.node.number ∈ t.references d
      · obtain ⟨b, hb, hnumber⟩ := hmem.1 hreference
        exact mentionOf_reference hname hreference hs hb hnumber
      · exact mentionOf_other ht hd hfresh hbelow hk hs hreference
          (fun b hb hnumber => hreference (hmem.2 ⟨b, hb, hnumber⟩))
    cases hk : s.node.kind with
    | destination =>
      have hnot : s.node.number ∉ t.references d := by
        intro hmem
        have htable := kind_of_mem_references ht hbelow hmem
        simp [hk] at htable
      have hheld : ((s.node.rewrite (t.naming d name)).childOfKind? .table).bind heldName? =
          (s.node.childOfKind? .table).bind heldName? := by
        rw [childOfKind?_rewrite hnot]
        cases hc : s.node.childOfKind? .table with
        | none => rfl
        | some c =>
          have hcmem := List.mem_of_find?_eq_some hc
          exact heldName?_rewrite_naming_of_not_mem ht hd (hbelow.children hcmem)
            (not_mem_references_of_destination ht hv hk hcmem)
      simp only [ownMentions, kind_rewrite, hk, hheld]
      exact mentionOf_write ..
    | table =>
      simp only [ownMentions, kind_rewrite, hk]
      exact hmentions (.inl hk)
    | tableRef =>
      simp only [ownMentions, kind_rewrite, hk]
      exact hmentions (.inr hk)
    | tableName =>
      have hdotted := dottedName_rewrite_naming name ht hd hbelow hk
      simp only [ownMentions, kind_rewrite, hk, qualifiedName?, hdotted]
      cases s.access with
      | read => rfl
      | write => exact mentionOf_write ..
    | _ => simp only [ownMentions, kind_rewrite, hk, mentionOfText, Bool.false_eq_true, if_false]

end respects

/-! ## Numbers make no difference -/

mutual

theorem rewrite_trivial_numberFrom (n : Nat) :
    ∀ t : Tree κ, (t.numberFrom n).rewrite .trivial = t
  | node label text children =>
    congrArg (node label text) (rewriteAll_trivial_numberAllFrom (n + 1) children)

theorem rewriteAll_trivial_numberAllFrom (n : Nat) :
    ∀ ts : List (Tree κ), rewriteAll .trivial (numberAllFrom n ts) = ts
  | [] => rfl
  | t :: ts =>
    congrArg₂ List.cons (rewrite_trivial_numberFrom n t)
      (rewriteAll_trivial_numberAllFrom (n + t.size) ts)

end

mutual

theorem placed_numberFrom (n levels : Nat) :
    ∀ t : Tree κ, (t.numberFrom n).definitionsPlaced levels = t.definitionsPlaced levels
  | node label text children => by
    have hchildren (levels : Nat) := allPlaced_numberAllFrom (n + 1) levels children
    have hkind : Vocabulary.kind (Numbered.mk label n) = Vocabulary.kind label := rfl
    simp only [numberFrom, definitionsPlaced, hkind, hchildren]

theorem allPlaced_numberAllFrom (n levels : Nat) :
    ∀ ts : List (Tree κ), allPlaced levels (numberAllFrom n ts) = allPlaced levels ts
  | [] => rfl
  | t :: ts => by
    have ht := placed_numberFrom n levels t
    have hts := allPlaced_numberAllFrom (n + t.size) levels ts
    rw [numberAllFrom, allPlaced, allPlaced, ht, hts]

end

theorem Below.rewrite_trivial {t u : Tree (Numbered κ)} (h : t.Below u) :
    (t.rewrite .trivial).Below (u.rewrite .trivial) := by
  induction h with
  | self => exact .self _
  | @child t c u hc _ ih =>
    refine .child ?_ ih
    rw [children_rewrite_of_not_mem List.not_mem_nil]
    exact List.mem_map_of_mem hc

theorem carries_trivial (node : Tree (Numbered κ)) :
    Rewriting.trivial.Carries (fun _ key => key) Names.none node := by
  have hgiver (k : Nat) : Rewriting.trivial.giver? ≠ some k := by simp [Rewriting.trivial]
  have hnot (k : Nat) : k ∉ Rewriting.trivial.references := List.not_mem_nil
  refine ⟨children_rewrite_of_not_mem (hnot _), fun _ => ?_,
    fun d _ => children_rewrite_of_not_mem (hnot _), fun d _ => ?_⟩
  · rw [isRecursive, isRecursive, text_rewrite_of_ne (hgiver _)]
  · rw [alias?_rewrite (hnot _) (hgiver _) (fun c _ _ => hgiver c.number)]
    cases d.alias? with
    | none => exact .none
    | some name => exact .some ⟨rfl, .inl rfl⟩

/-- A walk does not notice that the numbers go. -/
theorem respects_trivial (o : ExtractOptions) (t : Tree (Numbered κ)) :
    Rewriting.trivial.Respects o t (fun _ key => key) Names.none := by
  have hgiver (k : Nat) : Rewriting.trivial.giver? ≠ some k := by simp [Rewriting.trivial]
  have hnot (k : Nat) : k ∉ Rewriting.trivial.references := List.not_mem_nil
  have hdotted (c : Tree (Numbered κ)) : (c.rewrite .trivial).dottedName = c.dottedName :=
    dottedName_rewrite (hnot _) (fun x _ => hgiver x.number)
  have hheld (u : Tree (Numbered κ)) : (u.rewrite .trivial).heldName? = u.heldName? :=
    heldName?_rewrite (hnot _) (fun c _ _ => hdotted c)
  refine ⟨fun u _ hmem => absurd hmem (hnot _),
    fun node _ hl => (carries_trivial node).recursive hl,
    fun e he => ?_, fun scopes scopes' s _ hs => ?_⟩
  · obtain ⟨node, -, he⟩ := he
    exact (carries_trivial node).renames e he
  · have hsees : scopes'.sees s.scope = scopes.sees s.scope := by
      funext key
      exact hs.sees_eq (fun _ _ => rfl) rfl
    have htable : ((s.node.rewrite .trivial).childOfKind? .table).bind heldName? =
        (s.node.childOfKind? .table).bind heldName? := by
      rw [childOfKind?_rewrite (hnot _)]
      cases s.node.childOfKind? .table with
      | none => rfl
      | some c => exact hheld c
    unfold ownMentions
    rw [kind_rewrite, hsees, htable, hheld, qualifiedName?, hdotted, ← qualifiedName?,
      text_rewrite_of_ne (hgiver _)]

theorem lineage_numbered (t : Tree κ) : t.numbered.lineage {} = t.lineage {} := by
  have hlineage := lineage_rewrite (respects_trivial {} t.numbered) (fun _ _ _ _ => carries_trivial _)
  rw [numbered, rewrite_trivial_numberFrom] at hlineage
  exact hlineage.symm

/-- A definition may go by another name together with the tables that stand for
it, and nothing else gets another name.  As long as no table of the tree goes by
that name already, the tree reads and writes the same tables in the same order.
It does not matter whether another definition has the name: what a table stands
for is not recorded. -/
theorem lineage_rename {t : Tree κ} (hp : t.definitionsPlaced 0 = true) {d : Tree (Numbered κ)}
    (hd : t.numbered.Introduces d) {name : String} (hname : name ≠ "")
    (hfresh : ∀ c, t.Below c → c.kind = .tableName → foldCase c.dottedName ≠ foldCase name) :
    (t.rename d name).lineage {} = t.lineage {} ∧
    (∀ e, t.numbered.Introduces e → (e.rewrite (t.numbered.naming d name)).alias? =
      if e.number = d.number then e.alias?.map fun _ => name else e.alias?) ∧
    ∀ u, t.numbered.Below u →
      (t.numbered.StandsFor d u →
        (u.rewrite (t.numbered.naming d name)).heldName? = some ⟨name, hname⟩) ∧
      (¬ t.numbered.StandsFor d u →
        (u.rewrite (t.numbered.naming d name)).heldName? = u.heldName?) := by
  have hplaced : t.numbered.definitionsPlaced 0 = true := by
    rw [numbered, placed_numberFrom]
    exact hp
  have hnumbered (c : Tree (Numbered κ)) (hc : t.numbered.Below c) (hk : c.kind = .tableName) :
      foldCase c.dottedName ≠ foldCase name := by
    have hbelow := hc.rewrite_trivial
    have hdotted : (c.rewrite .trivial).dottedName = c.dottedName :=
      dottedName_rewrite List.not_mem_nil (fun x _ => by simp [Rewriting.trivial])
    rw [numbered, rewrite_trivial_numberFrom] at hbelow
    rw [← hdotted]
    exact hfresh _ hbelow ((kind_rewrite _ c).trans hk)
  refine ⟨?_, fun e he => alias?_rewrite_naming t.nodup_numbered hd hname he,
    fun u hu => heldName?_rewrite_naming t.nodup_numbered hd hname hu⟩
  rw [← lineage_numbered t]
  exact lineage_rewrite_of_placed hplaced (respects_naming t.nodup_numbered hd hname hnumbered)

/-- A block with two definitions.  The second one defines the first name again
inside, by what it was outside. -/
def shadowing (name : String) : Tree Kind :=
  .branch .query [
    .node .cteDef (some name) [readOf ["t"]],
    .node .cteDef (some "b") [.branch .query [
      .node .cteDef (some "A") [readOf [name]], readOf ["a"]]],
    readOf [name], readOf ["db", "a"]]

/-- Three names change: that of the outer definition, and those of the two tables
that stand for it. -/
theorem lineage_rename_shadowing :
    (shadowing "a").definitionsPlaced 0 = true ∧
    ∃ d, (shadowing "a").numbered.Introduces d ∧ d.alias? = some "a" ∧ "c" ≠ "" ∧
      (∀ c, (shadowing "a").Below c → c.kind = .tableName →
        foldCase c.dottedName ≠ foldCase "c") ∧
      (shadowing "a").rename d "c" = shadowing "c" ∧
      (shadowing "c").lineage {} = (shadowing "a").lineage {} ∧
      ((shadowing "a").lineage {}).sources.map (·.text) = ["t", "db.a"] := by
  let d : Tree (Numbered Kind) := (node .cteDef (some "a") [readOf ["t"]]).numberFrom 1
  have hplaced : (shadowing "a").definitionsPlaced 0 = true := by decide
  have hd : (shadowing "a").numbered.Introduces d :=
    ⟨d, ⟨_, .self _, rfl, List.mem_cons_self, rfl⟩, List.mem_cons_self⟩
  have hall : (shadowing "a").parts.all (fun c =>
      c.kind ≠ .tableName || foldCase c.dottedName ≠ foldCase "c") = true := by cbv
  have hfresh : ∀ c, (shadowing "a").Below c → c.kind = .tableName →
      foldCase c.dottedName ≠ foldCase "c" := by
    intro c hc hk
    have hpart := List.all_eq_true.1 hall c hc.mem_parts
    simpa [hk] using hpart
  have hrename : (shadowing "a").rename d "c" = shadowing "c" := by cbv
  have hlineage := (lineage_rename hplaced hd (by decide : "c" ≠ "") hfresh).1
  rw [hrename] at hlineage
  exact ⟨hplaced, d, hd, by cbv, by decide, hfresh, hrename, hlineage, by cbv⟩

end Tree
end Lineage
