import Mathlib
import Lineage.Proofs.Hive.Dump
import Lineage.Proofs.Hive.Layout

/-
The two printed forms of a tree, read with one limit.

Both printers are given here: the tree string puts every node with children in
parentheses and leaves the others bare, the dump writes one label a line, three spaces
deeper for each level.  A tree string is measured by its parentheses,
which a leaf does without, and a dump by its lines.  The two are read alike unless the
limit is one level short.
-/

namespace Lineage
namespace Hive

open Layout Outline

/-- A label that both forms can show. -/
structure Label where
  first : Char
  more : List Char
  printable : ∀ c ∈ first :: more,
    Text.isBlank c = false ∧ c ≠ '(' ∧ c ≠ ')' ∧ Scanner.isQuote c = false

namespace Label

def chars (l : Label) : List Char := l.first :: l.more

theorem not_isBlank (l : Label) {c : Char} (h : c ∈ l.chars) : Text.isBlank c = false :=
  (l.printable c h).1

theorem endsPlain_eq_false (l : Label) {c : Char} (h : c ∈ l.chars) : endsPlain c = false := by
  obtain ⟨hblank, hopening, hclosing, -⟩ := l.printable c h
  have hascii : Text.isAsciiBlank c = false := by
    rw [Bool.eq_false_iff]
    intro hc
    rw [Text.isBlank_of_isAsciiBlank hc] at hblank
    exact absurd hblank (by decide)
  simp [endsPlain, hascii, hopening, hclosing]

def atom (l : Label) : Atom :=
  .plain l.first l.more (l.printable l.first List.mem_cons_self).2.2.2
    (fun _ hc => l.endsPlain_eq_false hc)

end Label

inductive Ast where
  | node (label : Label) (children : List Ast)

namespace Ast

def children : Ast → List Ast
  | node _ children => children

mutual

/-- The tree that both forms stand for. -/
def tree : Ast → Tree Token
  | node l children => .node l.atom.token l.atom.text? (trees children)

def trees : List Ast → List (Tree Token)
  | [] => []
  | t :: ts => t.tree :: trees ts

end

mutual

/-- The tree as one line of parentheses. -/
def treeString : Ast → List Char
  | node l [] => l.chars
  | node l (t :: ts) => '(' :: (l.chars ++ ' ' :: (t.treeString ++ (treeStrings ts ++ [')'])))

/-- Further children, each behind a space. -/
def treeStrings : List Ast → List Char
  | [] => []
  | t :: ts => ' ' :: (t.treeString ++ treeStrings ts)

end

mutual

/-- The labels of a tree in preorder, each with its level; the root is at `level`. -/
def labels (level : Nat) : Ast → List (Nat × Label)
  | node l children => (level, l) :: labelsAll (level + 1) children

def labelsAll (level : Nat) : List Ast → List (Nat × Label)
  | [] => []
  | t :: ts => t.labels level ++ labelsAll level ts

end

def row (p : Nat × Label) : List Char := List.replicate (3 * p.1) ' ' ++ p.2.chars

/-- The tree with one label a line, behind some empty lines. -/
def dump (empty : Nat) (t : Ast) : List Char :=
  List.replicate empty '\n' ++ ((t.labels 0).map row).flatMap (· ++ ['\n'])

end Ast

/-! ## Tree strings -/

namespace Ast

mutual

def layout : Ast → Layout
  | node l [] => .bare l.atom
  | node l (t :: ts) => .group l.atom (t.layout :: layouts ts)

def layouts : List Ast → List Layout
  | [] => []
  | t :: ts => t.layout :: layouts ts

end

mutual

theorem tree_layout : (t : Ast) → t.layout.tree = t.tree
  | node l [] => rfl
  | node l (t :: ts) => by
    show Tree.node _ _ (t.layout.tree :: Layout.trees (layouts ts)) = _
    rw [tree_layout t, trees_layouts ts]
    rfl

theorem trees_layouts : (ts : List Ast) → Layout.trees (layouts ts) = trees ts
  | [] => rfl
  | t :: ts => by rw [layouts, Layout.trees, tree_layout t, trees_layouts ts, trees]

end

mutual

/-- A leaf takes no parentheses, so they nest one level less than the nodes. -/
theorem nesting_layout : (t : Ast) → t.layout.nesting + 1 = t.tree.levels
  | node l [] => rfl
  | node l (t :: ts) => by
    show max t.layout.nesting (nestingAll (layouts ts)) + 1 + 1 =
      max t.tree.levels (Tree.levelsAll (trees ts)) + 1
    have ht := nesting_layout t
    have hts := nestingAll_layouts ts
    omega

theorem nestingAll_layouts :
    (ts : List Ast) → nestingAll (layouts ts) = Tree.levelsAll (trees ts) - 1
  | [] => rfl
  | t :: ts => by
    show max t.layout.nesting (nestingAll (layouts ts)) =
      max t.tree.levels (Tree.levelsAll (trees ts)) - 1
    have ht := nesting_layout t
    have hts := nestingAll_layouts ts
    omega

end

mutual

/-- A tree string spells its layout, whatever is spelled behind it. -/
theorem spells_treeString {behind : List Piece} {text : List Char} (gap : List Char)
    (hgap : Blank gap) (hapart : gap = [] → ∀ a, .atom a ∉ behind.head?)
    (h : Spells behind text) :
    (t : Ast) → Spells (t.layout.pieces ++ behind) (t.treeString ++ (gap ++ text))
  | node l [] => by
    refine .cons (.atom l.atom) gap hgap ?_ h
    intro hruns hnil
    cases behind with
    | nil => exact absurd hruns Bool.false_ne_true
    | cons piece behind =>
      cases piece with
      | atom a => exact hapart hnil a rfl
      | _ => exact absurd hruns Bool.false_ne_true
  | node l (t :: ts) => by
    have hclosing : Spells (.closing :: behind) (')' :: (gap ++ text)) :=
      .cons .closing gap hgap (fun hruns => absurd hruns Bool.false_ne_true) h
    have hlabel := Spells.cons (.atom l.atom) [' '] (by decide) (fun _ => List.cons_ne_nil _ _)
      (spells_treeStrings hclosing t ts)
    have hopening := Spells.cons .opening [] (by decide)
      (fun hruns => absurd hruns Bool.false_ne_true) hlabel
    have hpieces : (node l (t :: ts)).layout.pieces ++ behind =
        .opening :: .atom l.atom :: (t.layout.pieces ++ (piecesAll (layouts ts) ++
          .closing :: behind)) := by
      simp [layout, Layout.pieces, piecesAll]
    have htext : (node l (t :: ts)).treeString ++ (gap ++ text) =
        '(' :: (l.chars ++ ' ' :: (t.treeString ++ (treeStrings ts ++ ')' :: (gap ++ text)))) := by
      simp [treeString]
    rw [hpieces, htext]
    exact hopening
termination_by t => sizeOf t

theorem spells_treeStrings {behind : List Piece} {text : List Char}
    (h : Spells (.closing :: behind) text) :
    (t : Ast) → (ts : List Ast) →
      Spells (t.layout.pieces ++ (piecesAll (layouts ts) ++ .closing :: behind))
        (t.treeString ++ (treeStrings ts ++ text))
  | t, [] => spells_treeString [] (by decide) (fun _ a ha => absurd ha (by simp)) h t
  | t, t' :: ts => by
    have hnext := spells_treeString [' '] (by decide) (fun hnil => absurd hnil (by decide))
      (spells_treeStrings h t' ts) t
    simpa [layouts, piecesAll, treeStrings] using hnext
termination_by t ts => sizeOf t + sizeOf ts

end

/-- A tree string is read while its parentheses nest no deeper than the limit, which
spares the deepest leaf its level. -/
theorem readTree_treeString (limit : Nat) {t : Ast} (h : t.children ≠ []) :
    (t.tree.levels ≤ limit + 1 → readTree limit (String.ofList t.treeString) = .ok t.tree) ∧
    (limit + 1 < t.tree.levels →
      ∃ line, readTree limit (String.ofList t.treeString) = .error (.tooDeep limit line)) := by
  cases t with
  | node l children =>
    cases children with
    | nil => exact absurd rfl h
    | cons t ts =>
      have hspells : Spells (group l.atom (t.layout :: layouts ts)).pieces
          (node l (t :: ts)).treeString := by
        have hspells := spells_treeString [] (by decide) (fun _ a ha => absurd ha (by simp)) .nil
          (node l (t :: ts))
        rw [List.append_nil, List.append_nil, List.append_nil] at hspells
        exact hspells
      have htree : (group l.atom (t.layout :: layouts ts)).tree = (node l (t :: ts)).tree :=
        tree_layout (node l (t :: ts))
      have hnesting : (group l.atom (t.layout :: layouts ts)).nesting + 1 =
          (node l (t :: ts)).tree.levels := nesting_layout (node l (t :: ts))
      have hread := readTree_of_nesting_le limit (by decide : Blank []) hspells
      have hrefuse := readTree_of_nesting_gt limit (by decide : Blank []) hspells
      rw [htree, List.nil_append] at hread
      rw [List.nil_append] at hrefuse
      exact ⟨fun hle => hread (by omega), fun hlt => hrefuse (by omega)⟩

/-! ## Dumps -/

/-- What the reader of dumps takes a row for. -/
def entry (p : Nat × Label) : Entry Token := ⟨3 * p.1, p.2.atom.token, p.2.atom.text?⟩

theorem blank_indentation (n : Nat) : ∀ c ∈ List.replicate n ' ', Text.isBlank c = true := by
  intro c hc
  rw [List.eq_of_mem_replicate hc]
  decide

theorem trimStart_row (p : Nat × Label) : Text.trimStart (row p) = p.2.chars :=
  Text.trimStart_append (blank_indentation _) (fun _ hc => p.2.not_isBlank hc)

theorem trim_row (p : Nat × Label) : Text.trim (row p) = p.2.chars :=
  Text.trim_append (blank_indentation _) (fun _ hc => p.2.not_isBlank hc)

theorem lineNode_row (p : Nat × Label) :
    lineNode (row p) = .node p.2.atom.token p.2.atom.text? [] := by
  rw [lineNode, trim_row]
  exact nodeOf_spelling p.2.atom []

theorem indentation_row (p : Nat × Label) : indentation (row p) = 3 * p.1 := by
  have hspaces (n : Nat) : Text.byteCount (List.replicate n ' ') = n := by
    induction n with
    | zero => rfl
    | succ n ih =>
      rw [List.replicate_succ, Text.byteCount_cons, ih, Nat.add_comm]
      rfl
  rw [indentation, trimStart_row, row, Text.byteCount_append, hspaces, Nat.add_sub_cancel]

theorem not_mem_row (p : Nat × Label) : '\n' ∉ row p ∧ '\r' ∉ (row p).getLast? := by
  have hrow : ∀ c ∈ row p, c = ' ' ∨ Text.isBlank c = false := by
    intro c hc
    rcases List.mem_append.1 hc with hc | hc
    · exact .inl (List.eq_of_mem_replicate hc)
    · exact .inr (p.2.not_isBlank hc)
  refine ⟨fun hmem => ?_, fun hlast => ?_⟩
  · exact absurd (hrow _ hmem) (by decide)
  · exact absurd (hrow _ (List.mem_of_getLast? hlast)) (by decide)

theorem lines_dump (empty : Nat) (t : Ast) :
    Text.lines (t.dump empty) = List.replicate empty [] ++ (t.labels 0).map row := by
  rw [dump, Text.lines_replicate_feed, Text.lines_flatMap_feed]
  intro r hr
  obtain ⟨p, -, rfl⟩ := List.mem_map.1 hr
  exact not_mem_row p

theorem map_entry_dump (empty : Nat) (t : Ast) :
    (dumpLines (t.dump empty)).map (·.entry) = (t.labels 0).map entry := by
  have hkept : ∀ r ∈ (t.labels 0).map row, (!(Text.trim r).isEmpty) = true := by
    intro r hr
    obtain ⟨p, -, rfl⟩ := List.mem_map.1 hr
    rw [trim_row]
    rfl
  have hdropped : (List.replicate empty ([] : List Char)).filter
      (fun r => !(Text.trim r).isEmpty) = [] := by
    rw [List.filter_eq_nil_iff]
    intro r hr
    rw [List.eq_of_mem_replicate hr]
    decide
  rw [map_entry_dumpLines, lines_dump, List.filter_append, hdropped, List.nil_append,
    List.filter_eq_self.2 hkept, List.map_map]
  apply List.map_congr_left
  intro p _
  show Entry.mk (indentation (row p)) (lineNode (row p)).label (lineNode (row p)).text = entry p
  rw [indentation_row, lineNode_row]
  rfl

theorem labelsAll_cons (level : Nat) (l : Label) (children ts : List Ast) :
    labelsAll level (node l children :: ts) =
      (level, l) :: (labelsAll (level + 1) children ++ labelsAll level ts) := rfl

theorem le_of_mem_labelsAll {level : Nat} {p : Nat × Label} :
    (ts : List Ast) → p ∈ labelsAll level ts → level ≤ p.1
  | [], h => absurd h List.not_mem_nil
  | node l children :: ts, h => by
    rw [labelsAll_cons] at h
    rcases List.mem_cons.1 h with rfl | h
    · exact Nat.le_refl level
    · rcases List.mem_append.1 h with h | h
      · exact Nat.le_of_succ_le (le_of_mem_labelsAll children h)
      · exact le_of_mem_labelsAll ts h
termination_by ts => sizeOf ts

/-- The rows of the children are the block of their parent. -/
theorem arrange_labelsAll (level : Nat) :
    (ts : List Ast) → arrange ((labelsAll level ts).map entry) = trees ts
  | [] => by
    show arrange [] = []
    rw [arrange]
  | node l children :: ts => by
    have hblock : ∀ e ∈ (labelsAll (level + 1) children).map entry,
        (entry (level, l)).indent < e.indent := by
      intro e he
      obtain ⟨p, hp, rfl⟩ := List.mem_map.1 he
      have hle := le_of_mem_labelsAll children hp
      show 3 * level < 3 * p.1
      omega
    have hbehind : ∀ e ∈ ((labelsAll level ts).map entry).head?,
        e.indent ≤ (entry (level, l)).indent := by
      cases ts with
      | nil => exact fun e he => absurd he (by simp [labelsAll])
      | cons t ts =>
        cases t with
        | node l' children' =>
          intro e he
          obtain rfl : entry (level, l') = e := by simpa [labelsAll_cons] using he
          exact Nat.le_refl (3 * level)
    rw [labelsAll_cons, List.map_cons, List.map_append, arrange_block hblock hbehind,
      arrange_labelsAll (level + 1) children, arrange_labelsAll level ts]
    rfl
termination_by ts => sizeOf ts

section dumps

variable (limit empty : Nat) (t : Ast)

theorem forest_dump : forest ((dumpLines (t.dump empty)).map (·.entry)) = [t.tree] := by
  have hlabels : t.labels 0 = labelsAll 0 [t] := (List.append_nil _).symm
  rw [map_entry_dump, forest_eq_arrange, hlabels, arrange_labelsAll]
  rfl

theorem trimStart_dump :
    ∃ first more, Text.trimStart (t.dump empty) = first :: more ∧ first ≠ '(' := by
  cases t with
  | node l children =>
    obtain ⟨hblank, hopening, -⟩ := l.printable l.first List.mem_cons_self
    obtain ⟨more, hmore⟩ :
      ∃ more, (((node l children).labels 0).map row).flatMap (· ++ ['\n']) = l.first :: more :=
      ⟨_, rfl⟩
    have hempty : ∀ c ∈ List.replicate empty '\n', Text.isBlank c = true := by
      intro c hc
      rw [List.eq_of_mem_replicate hc]
      decide
    have hstart : ¬ Text.isBlank l.first = true := Bool.eq_false_iff.1 hblank
    refine ⟨l.first, more, ?_, hopening⟩
    rw [dump, hmore, Text.trimStart, List.dropWhile_append_of_pos hempty,
      List.dropWhile_cons_of_neg hstart]

/-- A dump is read while it has no more levels than the limit. -/
theorem readTree_rows :
    (t.tree.levels ≤ limit → readTree limit (String.ofList (t.dump empty)) = .ok t.tree) ∧
    (limit < t.tree.levels →
      ∃ line, readTree limit (String.ofList (t.dump empty)) = .error (.tooDeep limit line)) := by
  obtain ⟨first, more, htrim, hfirst⟩ := trimStart_dump empty t
  have hread : readTree limit (String.ofList (t.dump empty)) = readDump limit (t.dump empty) := by
    have htext : Text.trimStart (String.ofList (t.dump empty)).toList = first :: more := by
      rw [String.toList_ofList]
      exact htrim
    rw [readTree_eq_readDump limit htext hfirst, String.toList_ofList]
  have hlevels : Tree.levelsAll [t.tree] = t.tree.levels := Nat.max_zero _
  have hdump := readDump_of_levels limit (nonBlankLines_ne_nil htrim) (forest_dump empty t)
  rw [hlevels] at hdump
  rw [hread]
  exact hdump

end dumps

end Ast

/-! ## The two forms together -/

/-- Two texts that give the same tree, or are both refused for their depth. -/
def ReadAlike (limit : Nat) (a b : String) : Prop :=
  (∃ t, readTree limit a = .ok t ∧ readTree limit b = .ok t) ∨
  (∃ line line', readTree limit a = .error (.tooDeep limit line) ∧
    readTree limit b = .error (.tooDeep limit line'))

section together

variable (limit empty : Nat) {t : Ast}

/-- One level beyond the limit, the dump is refused and the tree string is read. -/
theorem not_readAlike (h : t.children ≠ []) (hlevels : t.tree.levels = limit + 1) :
    ¬ ReadAlike limit (String.ofList t.treeString) (String.ofList (t.dump empty)) := by
  have hok := (Ast.readTree_treeString limit h).1 (Nat.le_of_eq hlevels)
  obtain ⟨line, herror⟩ := (Ast.readTree_rows limit empty t).2 (by omega)
  rintro (⟨tree, -, hread⟩ | ⟨line', -, hread, -⟩)
  · rw [herror] at hread
    cases hread
  · rw [hok] at hread
    cases hread

/-- Both forms of a tree are read as this tree where its levels are within the limit,
and both are refused where there are two levels too many.  With one level too many the
dump is refused and the tree string is read: its parentheses spare the deepest leaf. -/
theorem readAlike_iff (h : t.children ≠ []) :
    (ReadAlike limit (String.ofList t.treeString) (String.ofList (t.dump empty)) ↔
      t.tree.levels ≠ limit + 1) ∧
    (t.tree.levels ≤ limit + 1 → readTree limit (String.ofList t.treeString) = .ok t.tree) ∧
    (t.tree.levels ≤ limit → readTree limit (String.ofList (t.dump empty)) = .ok t.tree) ∧
    (limit < t.tree.levels →
      ∃ line, readTree limit (String.ofList (t.dump empty)) = .error (.tooDeep limit line)) := by
  obtain ⟨hstring, hstringDeep⟩ := Ast.readTree_treeString limit h
  obtain ⟨hdump, hdumpDeep⟩ := Ast.readTree_rows limit empty t
  refine ⟨⟨fun halike heq => not_readAlike limit empty h heq halike, fun hne => ?_⟩,
    hstring, hdump, hdumpDeep⟩
  by_cases hle : t.tree.levels ≤ limit
  · exact .inl ⟨t.tree, hstring (by omega), hdump hle⟩
  · obtain ⟨line, hread⟩ := hstringDeep (by omega)
    obtain ⟨line', hread'⟩ := hdumpDeep (by omega)
    exact .inr ⟨line, line', hread, hread'⟩

end together

def oneLeaf : Ast :=
  .node ⟨'a', [], by simp [Text.isBlank, Text.blanks, Scanner.isQuote]⟩
    [.node ⟨'b', [], by simp [Text.isBlank, Text.blanks, Scanner.isQuote]⟩ []]

theorem readAlike_oneLeaf :
    ReadAlike 2 "(a b)" "\na\n   b\n" ∧ ¬ ReadAlike 1 "(a b)" "a\n   b\n" := by
  have hchildren : oneLeaf.children ≠ [] := List.cons_ne_nil _ _
  have htwo := (readAlike_iff 2 1 hchildren).1.2 (by decide)
  have hone := mt (readAlike_iff 1 0 hchildren).1.1 (by decide)
  exact ⟨htwo, hone⟩

theorem not_forall_readAlike :
    ¬ ∀ (limit : Nat) (t : Ast), 1 ≤ limit → t.children ≠ [] →
      ReadAlike limit (String.ofList t.treeString) (String.ofList (t.dump 0)) := by
  intro hall
  have hchildren : oneLeaf.children ≠ [] := List.cons_ne_nil _ _
  exact not_readAlike 1 0 hchildren rfl (hall 1 oneLeaf (Nat.le_refl 1) hchildren)

end Hive
end Lineage
