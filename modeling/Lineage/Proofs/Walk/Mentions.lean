import Lineage.Proofs.Record
import Lineage.Proofs.Scope

/-
What a tree mentions, by recursion on the tree.

The visible names are a plain set here, handed down from a node to its children.
A query block adds all of its definitions for its main body, and the definitions
so far for the body of a definition.  No scope is opened and none is changed.
-/

namespace Lineage
namespace Tree

variable {κ : Type} [Vocabulary κ]

/-- The name that the first `tableName` child holds. -/
def heldName? (t : Tree κ) : Option QualifiedName :=
  (t.childOfKind? .tableName).bind qualifiedName?

/-- The definitions that a `cteDef` node carries: those it lists, or itself. -/
def definitions (t : Tree κ) : List (Tree κ) :=
  if t.children.any isDefinition then t.children.filter isDefinition else [t]

/-- The names of these definitions, as far as they have one. -/
def definedNames (t : Tree κ) : List String := t.definitions.filterMap alias?

/-- The names of the definitions that children list. -/
def listedNames (children : List (Tree κ)) : List String :=
  (children.filter isDefinition).filterMap alias?

/-- The names that the children of a query block define. -/
def blockNames (children : List (Tree κ)) : List String :=
  (children.filter (·.kind = .cteDef)).flatMap definedNames

theorem blockNames_append (a b : List (Tree κ)) :
    blockNames (a ++ b) = blockNames a ++ blockNames b := by
  rw [blockNames, List.filter_append, List.flatMap_append, ← blockNames, ← blockNames]

section names

variable {c : Tree κ}

theorem listedNames_cons_of_definition (h : c.isDefinition = true) (cs : List (Tree κ)) :
    listedNames (c :: cs) = c.alias?.toList ++ listedNames cs := by
  rw [listedNames, List.filter_cons, if_pos h, List.filterMap_cons]
  cases c.alias? <;> rfl

theorem listedNames_cons_of_not (h : ¬ c.isDefinition = true) (cs : List (Tree κ)) :
    listedNames (c :: cs) = listedNames cs := by
  rw [listedNames, List.filter_cons, if_neg h, ← listedNames]

theorem definedNames_of_listing (h : c.children.any isDefinition = true) :
    c.definedNames = listedNames c.children := by
  rw [definedNames, definitions, if_pos h, ← listedNames]

theorem definedNames_of_single (h : ¬ c.children.any isDefinition = true) :
    c.definedNames = c.alias?.toList := by
  rw [definedNames, definitions, if_neg h, List.filterMap_cons, List.filterMap_nil]
  cases c.alias? <;> rfl

theorem blockNames_cons_of_cteDef (h : c.kind = .cteDef) (cs : List (Tree κ)) :
    blockNames (c :: cs) = c.definedNames ++ blockNames cs := by
  have hc : decide (c.kind = .cteDef) = true := decide_eq_true h
  rw [blockNames, List.filter_cons, if_pos hc, List.flatMap_cons, ← blockNames]

theorem blockNames_cons_of_ne (h : c.kind ≠ .cteDef) (cs : List (Tree κ)) :
    blockNames (c :: cs) = blockNames cs := by
  have hc : ¬ decide (c.kind = .cteDef) = true := fun hd => h (of_decide_eq_true hd)
  rw [blockNames, List.filter_cons, if_neg hc, ← blockNames]

end names

/-- The mention of a table by its position.  A read name that is visible stands
for a definition. -/
def mentionOf (o : ExtractOptions) (visible : Names) (access : Access)
    (name? : Option QualifiedName) : List Mention :=
  match name?, access with
  | none, _ => []
  | some name, .write => [⟨.write, name⟩]
  | some name, .read =>
    if visible (foldCase name.text) && !o.emitCteNames then [] else [⟨.read, name⟩]

/-- The mention of a definition by a reference that the grammar resolved. -/
def mentionOfText (o : ExtractOptions) (text : Option String) : List Mention :=
  if o.emitCteNames then
    (text.bind QualifiedName.ofString?).toList.map fun name => ⟨.read, name⟩
  else []

/-- What a node mentions itself, outside query blocks and definitions. -/
def ownMentions (o : ExtractOptions) (visible : Names) (access : Access) (t : Tree κ) :
    List Mention :=
  match t.kind with
  | .destination => mentionOf o visible .write ((t.childOfKind? .table).bind heldName?)
  | .table | .tableRef => mentionOf o visible access t.heldName?
  | .tableName =>
    match access with
    | .read => []
    | .write => mentionOf o visible .write t.qualifiedName?
  | .cteRef => mentionOfText o t.text
  | _ => []

/-- The position in which a node has a child visited, outside query blocks and
definitions.  A child without a position is not visited. -/
def position? (access : Access) (t c : Tree κ) : Option Access :=
  match t.kind with
  | .root | .other | .subqueryAlias | .cteRef => some access
  | .join | .union => some .read
  | .insert => some (if c.isWritten then .write else .read)
  | .tableRef => if c.kind = .tableName then none else some .read
  | _ => none

mutual

/-- The tables that a tree mentions, in order, where `visible` names stand for
definitions. -/
def mentions (o : ExtractOptions) (visible : Names) (access : Access) : Tree κ → List Mention
  | node label text children =>
    match Vocabulary.kind label with
    | .select | .query =>
      blockMentions o (visible.bindAll (blockNames children)) visible children
    | .cteDef =>
      if children.any isDefinition then
        listMentions o (node label text children).isRecursive visible children
      else childMentions o visible (fun _ => some .read) children
    | _ =>
      (node label text children).ownMentions o visible access ++
        childMentions o visible (position? access (node label text children)) children

/-- What the children mention that have a position. -/
def childMentions (o : ExtractOptions) (visible : Names) (position : Tree κ → Option Access) :
    List (Tree κ) → List Mention
  | [] => []
  | c :: cs =>
    (position c).elim [] (fun access => c.mentions o visible access) ++
      childMentions o visible position cs

/-- What the children of a query block mention.  The main body sees the names in
`main`; definitions see the `visible` ones, which grow with each. -/
def blockMentions (o : ExtractOptions) (main visible : Names) : List (Tree κ) → List Mention
  | [] => []
  | c :: cs =>
    if c.kind = .cteDef then
      c.mentions o visible .read ++ blockMentions o main (visible.bindAll c.definedNames) cs
    else c.mentions o main .read ++ blockMentions o main visible cs

/-- What a list of definitions mentions.  In a recursive one each definition
sees itself, too. -/
def listMentions (o : ExtractOptions) (recursive : Bool) (visible : Names) :
    List (Tree κ) → List Mention
  | [] => []
  | c :: cs =>
    if c.isDefinition then
      c.bodyMentions o (if recursive then visible.bind? c.alias? else visible) ++
        listMentions o recursive (visible.bind? c.alias?) cs
    else c.mentions o visible .read ++ listMentions o recursive visible cs

/-- What the body of a definition mentions. -/
def bodyMentions (o : ExtractOptions) (visible : Names) : Tree κ → List Mention
  | node _ _ children => childMentions o visible (fun _ => some .read) children

end

/-- The children that have a position are visited in it. -/
theorem childMentions_eq_flatMap (o : ExtractOptions) (visible : Names)
    (position : Tree κ → Option Access) (children : List (Tree κ)) :
    childMentions o visible position children =
      children.flatMap fun c =>
        (position c).elim [] fun access => c.mentions o visible access := by
  induction children with
  | nil => rfl
  | cons c cs ih => rw [childMentions, ih, List.flatMap_cons]

theorem bodyMentions_eq (o : ExtractOptions) (visible : Names) (t : Tree κ) :
    t.bodyMentions o visible = childMentions o visible (fun _ => some .read) t.children := by
  obtain ⟨label, text, children⟩ := t
  rfl

theorem mentions_cteDef {t : Tree κ} (hk : t.kind = .cteDef) (o : ExtractOptions)
    (visible : Names) (access : Access) :
    t.mentions o visible access =
      if t.children.any isDefinition then listMentions o t.isRecursive visible t.children
      else t.bodyMentions o visible := by
  obtain ⟨label, text, children⟩ := t
  have hk : Vocabulary.kind label = .cteDef := hk
  simp only [mentions, hk]
  rfl

theorem mentions_block {t : Tree κ} (hb : t.kind.opensScope = true) (o : ExtractOptions)
    (visible : Names) (access : Access) :
    t.mentions o visible access =
      blockMentions o (visible.bindAll (blockNames t.children)) visible t.children := by
  obtain ⟨label, text, children⟩ := t
  have hb : (Vocabulary.kind label).opensScope = true := hb
  cases hk : Vocabulary.kind label with
  | select => simp only [mentions, hk]; rfl
  | query => simp only [mentions, hk]; rfl
  | _ => rw [hk] at hb; exact absurd hb Bool.false_ne_true

theorem mentions_plain {t : Tree κ} (hb : t.kind.opensScope = false) (hd : t.kind ≠ .cteDef)
    (o : ExtractOptions) (visible : Names) (access : Access) :
    t.mentions o visible access =
      t.ownMentions o visible access ++
        childMentions o visible (t.position? access) t.children := by
  obtain ⟨label, text, children⟩ := t
  have hb : (Vocabulary.kind label).opensScope = false := hb
  have hd : Vocabulary.kind label ≠ .cteDef := hd
  cases hk : Vocabulary.kind label with
  | cteDef => exact absurd hk hd
  | select => rw [hk] at hb; exact absurd hb Bool.noConfusion
  | query => rw [hk] at hb; exact absurd hb Bool.noConfusion
  | _ => simp only [mentions, hk]; rfl

/-- A node that only groups its children mentions what they mention. -/
theorem mentions_group {t : Tree κ}
    (hk : t.kind ∈ [.root, .other, .subqueryAlias, .join, .union]) (o : ExtractOptions)
    (visible : Names) :
    t.mentions o visible .read = childMentions o visible (fun _ => some .read) t.children := by
  simp only [List.mem_cons, List.not_mem_nil, or_false] at hk
  have hb : t.kind.opensScope = false := by
    rcases hk with h | h | h | h | h <;> rw [h] <;> rfl
  have hd : t.kind ≠ .cteDef := by
    rcases hk with h | h | h | h | h <;> rw [h] <;> exact Kind.noConfusion
  have hown : t.ownMentions o visible .read = [] := by
    rcases hk with h | h | h | h | h <;> simp only [ownMentions, h]
  have hposition : t.position? .read = fun _ => some .read := by
    funext c
    rcases hk with h | h | h | h | h <;> simp only [position?, h]
  rw [mentions_plain hb hd, hown, hposition, List.nil_append]

/-- A write mentions what its children mention, each in its position. -/
theorem mentions_insert {t : Tree κ} (hk : t.kind = .insert) (o : ExtractOptions)
    (visible : Names) (access : Access) :
    t.mentions o visible access =
      t.children.flatMap fun c => c.mentions o visible (if c.isWritten then .write else .read) := by
  have hb : t.kind.opensScope = false := by rw [hk]; rfl
  have hd : t.kind ≠ .cteDef := by rw [hk]; exact Kind.noConfusion
  have hown : t.ownMentions o visible access = [] := by simp only [ownMentions, hk]
  have hposition : t.position? access = fun c => some (if c.isWritten then .write else .read) := by
    funext c
    simp only [position?, hk]
  rw [mentions_plain hb hd, hown, hposition, List.nil_append, childMentions_eq_flatMap]
  rfl

/-- What a destination names is written. -/
theorem mentions_destination {t : Tree κ} (hk : t.kind = .destination) (o : ExtractOptions)
    (visible : Names) (access : Access) :
    t.mentions o visible access =
      mentionOf o visible .write ((t.childOfKind? .table).bind heldName?) := by
  have hb : t.kind.opensScope = false := by rw [hk]; rfl
  have hd : t.kind ≠ .cteDef := by rw [hk]; exact Kind.noConfusion
  have hown : t.ownMentions o visible access =
      mentionOf o visible .write ((t.childOfKind? .table).bind heldName?) := by
    simp only [ownMentions, hk]
  have hposition : t.position? access = fun _ => none := by
    funext c
    simp only [position?, hk]
  have hchildren : childMentions o visible (fun _ => none) t.children = [] := by
    rw [childMentions_eq_flatMap]
    exact List.flatMap_eq_nil_iff.2 (fun _ _ => rfl)
  rw [mentions_plain hb hd, hown, hposition, hchildren, List.append_nil]

/-! ## Placed definitions -/

mutual

/-- Whether every `cteDef` node stands right below a query block, or right below
such a node.  `levels` tells how many of them may stand one below the other
from here. -/
def definitionsPlaced (levels : Nat) : Tree κ → Bool
  | node label _ children =>
    match Vocabulary.kind label with
    | .cteDef => levels ≠ 0 && allPlaced (levels - 1) children
    | .select | .query => allPlaced 2 children
    | _ => allPlaced 0 children

def allPlaced (levels : Nat) : List (Tree κ) → Bool
  | [] => true
  | t :: ts => t.definitionsPlaced levels && allPlaced levels ts

end

theorem allPlaced_iff {levels : Nat} {ts : List (Tree κ)} :
    allPlaced levels ts = true ↔ ∀ t ∈ ts, t.definitionsPlaced levels = true := by
  induction ts with
  | nil => simp [allPlaced]
  | cons t ts ih => simp [allPlaced, ih]

theorem placed_children_block {t : Tree κ} {levels : Nat} (hb : t.kind.opensScope = true)
    (h : t.definitionsPlaced levels = true) : ∀ c ∈ t.children, c.definitionsPlaced 2 = true := by
  obtain ⟨label, text, children⟩ := t
  have hb : (Vocabulary.kind label).opensScope = true := hb
  unfold definitionsPlaced at h
  cases hk : Vocabulary.kind label with
  | select => rw [hk] at h; exact allPlaced_iff.1 h
  | query => rw [hk] at h; exact allPlaced_iff.1 h
  | _ => rw [hk] at hb; exact absurd hb Bool.false_ne_true

theorem placed_block {t : Tree κ} {levels : Nat} (hb : t.kind.opensScope = true)
    (h : ∀ c ∈ t.children, c.definitionsPlaced 2 = true) : t.definitionsPlaced levels = true := by
  obtain ⟨label, text, children⟩ := t
  have hb : (Vocabulary.kind label).opensScope = true := hb
  unfold definitionsPlaced
  cases hk : Vocabulary.kind label with
  | select => exact allPlaced_iff.2 h
  | query => exact allPlaced_iff.2 h
  | _ => rw [hk] at hb; exact absurd hb Bool.false_ne_true

theorem placed_children_cteDef {t : Tree κ} {levels : Nat} (hk : t.kind = .cteDef)
    (h : t.definitionsPlaced levels = true) :
    ∀ c ∈ t.children, c.definitionsPlaced (levels - 1) = true := by
  obtain ⟨label, text, children⟩ := t
  have hk : Vocabulary.kind label = .cteDef := hk
  simp only [definitionsPlaced, hk, Bool.and_eq_true] at h
  exact allPlaced_iff.1 h.2

theorem placed_children_plain {t : Tree κ} {levels : Nat} (hb : t.kind.opensScope = false)
    (hd : t.kind ≠ .cteDef) (h : t.definitionsPlaced levels = true) :
    ∀ c ∈ t.children, c.definitionsPlaced 0 = true := by
  obtain ⟨label, text, children⟩ := t
  have hb : (Vocabulary.kind label).opensScope = false := hb
  have hd : Vocabulary.kind label ≠ .cteDef := hd
  unfold definitionsPlaced at h
  cases hk : Vocabulary.kind label with
  | cteDef => exact absurd hk hd
  | select => rw [hk] at hb; exact absurd hb Bool.noConfusion
  | query => rw [hk] at hb; exact absurd hb Bool.noConfusion
  | _ => rw [hk] at h; exact allPlaced_iff.1 h

theorem not_cteDef_of_placed {t : Tree κ} (h : t.definitionsPlaced 0 = true) :
    t.kind ≠ .cteDef := by
  obtain ⟨label, text, children⟩ := t
  intro hk
  have hk : Vocabulary.kind label = .cteDef := hk
  simp [definitionsPlaced, hk] at h

/-- The levels matter to `cteDef` nodes only. -/
theorem placed_of_not_cteDef {t : Tree κ} {levels levels' : Nat} (hd : t.kind ≠ .cteDef)
    (h : t.definitionsPlaced levels = true) : t.definitionsPlaced levels' = true := by
  obtain ⟨label, text, children⟩ := t
  have hd : Vocabulary.kind label ≠ .cteDef := hd
  unfold definitionsPlaced at h ⊢
  cases hk : Vocabulary.kind label with
  | cteDef => exact absurd hk hd
  | _ => rw [hk] at h; exact h

/-- A `cteDef` node of a block holds no further one in the bodies of its
definitions, unless in a block there. -/
theorem placed_body {node d : Tree κ} (hk : node.kind = .cteDef)
    (h : node.definitionsPlaced 2 = true) (hd : d ∈ node.definitions) :
    ∀ c ∈ d.children, c.definitionsPlaced 0 = true := by
  have hchildren := placed_children_cteDef hk h
  by_cases hl : node.children.any isDefinition = true
  · rw [definitions, if_pos hl, List.mem_filter] at hd
    have hplaced := hchildren d hd.1
    by_cases hdk : d.kind = .cteDef
    · exact placed_children_cteDef hdk hplaced
    · have halias : d.kind = .subqueryAlias := by
        have := hd.2
        simpa [isDefinition, hdk] using this
      exact placed_children_plain (by rw [halias]; rfl) hdk hplaced
  · rw [definitions, if_neg hl, List.mem_singleton] at hd
    subst hd
    intro c hc
    refine placed_of_not_cteDef (fun hck => ?_) (hchildren c hc)
    exact hl (List.any_eq_true.2 ⟨c, hc, by simp [isDefinition, hck]⟩)

end Tree
end Lineage
