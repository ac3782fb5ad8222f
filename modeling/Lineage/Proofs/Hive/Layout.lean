import Mathlib
import Lineage.Proofs.Hive.Spelling

/-
Trees as a tree string lays them out.

A node with children stands in parentheses behind its label, and a leaf stands bare
or in parentheses of its own.  Whatever the white space between the lexemes, a text
that spells a layout out is read as the tree that was laid out, unless more
parentheses are open at once than the limit allows.
-/

namespace Lineage
namespace Hive

/-- A tree of atoms and the way it is written. -/
inductive Layout where
  | bare (atom : Atom)
  | group (atom : Atom) (children : List Layout)

namespace Layout

mutual

def tree : Layout → Tree Token
  | bare a => .node a.token a.text? []
  | group a children => .node a.token a.text? (trees children)

def trees : List Layout → List (Tree Token)
  | [] => []
  | l :: ls => l.tree :: trees ls

end

mutual

def pieces : Layout → List Piece
  | bare a => [.atom a]
  | group a children => .opening :: .atom a :: (piecesAll children ++ [.closing])

def piecesAll : List Layout → List Piece
  | [] => []
  | l :: ls => l.pieces ++ piecesAll ls

end

mutual

/-- How many parentheses are open at once, at most. -/
def nesting : Layout → Nat
  | bare _ => 0
  | group _ children => nestingAll children + 1

def nestingAll : List Layout → Nat
  | [] => 0
  | l :: ls => max l.nesting (nestingAll ls)

end

end Layout

open Layout

def lexemesOf (ls : List Layout) : List Lexeme := (piecesAll ls).map (·.lexeme)

theorem lexemesOf_bare (a : Atom) (ls : List Layout) :
    lexemesOf (.bare a :: ls) = .atom a.spelling :: lexemesOf ls := rfl

theorem lexemesOf_group (a : Atom) (children ls : List Layout) :
    lexemesOf (.group a children :: ls) =
      .opening :: .atom a.spelling :: (lexemesOf children ++ .closing :: lexemesOf ls) := by
  simp [lexemesOf, piecesAll, pieces, Piece.lexeme]

theorem trees_bare (a : Atom) (ls : List Layout) :
    trees (.bare a :: ls) = nodeOf a.spelling [] :: trees ls := by
  rw [nodeOf_spelling, trees, tree]

theorem trees_group (a : Atom) (children ls : List Layout) :
    trees (.group a children :: ls) = nodeOf a.spelling (trees children) :: trees ls := by
  rw [nodeOf_spelling, trees, tree]

/-- What is laid out derives from the grammar of tree strings. -/
theorem derives_lexemesOf {limit : Nat} :
    (ls : List Layout) → nestingAll ls ≤ limit → Derives limit (lexemesOf ls) (trees ls)
  | [], _ => .nil limit
  | .bare a :: ls, h => by
    rw [lexemesOf_bare, trees_bare]
    exact .atom a.spelling (derives_lexemesOf ls (Nat.le_trans (Nat.le_max_right _ _) h))
  | .group a children :: ls, h => by
    have hchildren : nestingAll children + 1 ≤ limit := Nat.le_trans (Nat.le_max_left _ _) h
    have hls : nestingAll ls ≤ limit := Nat.le_trans (Nat.le_max_right _ _) h
    obtain ⟨inner, rfl⟩ : ∃ inner, limit = inner + 1 := ⟨limit - 1, by omega⟩
    rw [lexemesOf_group, trees_group]
    exact .node a.spelling (derives_lexemesOf children (Nat.le_of_succ_le_succ hchildren))
      (derives_lexemesOf ls hls)
termination_by ls => sizeOf ls

/-! ## Layouts beyond the limit -/

theorem readForest_lexemesOf {limit line : Nat} {b : Builder Token} {ls : List Layout}
    {located : List Located} (rest : List Located)
    (hl : located.map (·.lexeme) = lexemesOf ls) (h : b.depth + nestingAll ls ≤ limit) :
    readForest limit line b (located ++ rest) =
      readForest limit line (b.graftAll (trees ls)) rest :=
  readForest_append line (derives_lexemesOf ls (Nat.le_refl _)) rest hl h

/-- Beyond the limit the reader stops at a parenthesis. -/
theorem readForest_tooDeep {limit : Nat} (line : Nat) :
    (ls : List Layout) → {b : Builder Token} → {located : List Located} → (rest : List Located) →
      located.map (·.lexeme) = lexemesOf ls → b.depth ≤ limit → limit < b.depth + nestingAll ls →
      ∃ l, readForest limit line b (located ++ rest) = .error (.tooDeep limit l)
  | [], b, _, _, _, hdepth, h => by
    have hnone : nestingAll [] = 0 := rfl
    omega
  | .bare a :: ls, b, located, rest, hl, hdepth, h => by
    obtain ⟨l, tail, rfl, htail⟩ := located_cons (hl.trans (lexemesOf_bare a ls))
    have hnesting : nestingAll (.bare a :: ls) = nestingAll ls := Nat.zero_max _
    have hgraft : (b.graft (nodeOf a.spelling [])).depth = b.depth := b.depth_graft _
    rw [List.cons_append, readForest_atom]
    exact readForest_tooDeep line ls rest htail (by omega) (by omega)
  | .group a children :: ls, b, located, rest, hl, hdepth, h => by
    obtain ⟨l, head, rfl, hhead⟩ := located_cons (hl.trans (lexemesOf_group a children ls))
    obtain ⟨l', tail, rfl, htail⟩ := located_cons hhead
    obtain ⟨inner, lclosing, rfl, hinner, hclosing⟩ := List.map_eq_append_iff.1 htail
    obtain ⟨l'', behind, rfl, hbehind⟩ := located_cons hclosing
    have hnesting : nestingAll (.group a children :: ls) =
        max (nestingAll children + 1) (nestingAll ls) := rfl
    rw [List.cons_append, List.cons_append, List.append_assoc, List.cons_append]
    by_cases hfull : limit ≤ b.depth
    · exact ⟨l', by rw [readForest, if_pos hfull]⟩
    have hopen : b.depth < limit := Nat.lt_of_not_le hfull
    have hopened : (b.openNode (Token.ofAtom a.spelling)
        (Token.ofAtom a.spelling).payload).depth = b.depth + 1 := b.depth_openNode _ _
    rw [readForest_opening a.spelling hopen]
    by_cases hfits : b.depth + 1 + nestingAll children ≤ limit
    · -- the children fit, so it is a sibling behind them that does not
      have hgraft : (b.graft (nodeOf a.spelling (trees children))).depth = b.depth :=
        b.depth_graft _
      rw [readForest_lexemesOf _ hinner (by omega), readForest_closing_openNode]
      exact readForest_tooDeep line ls rest hbehind (by omega) (by omega)
    · exact readForest_tooDeep line children _ hinner (by omega) (by omega)
termination_by ls => sizeOf ls

/-! ## Reading a text that spells a layout -/

theorem lexemesOf_singleton (l : Layout) : lexemesOf [l] = l.pieces.map (·.lexeme) := by
  rw [lexemesOf, piecesAll, piecesAll, List.append_nil]

theorem nestingAll_singleton (l : Layout) : nestingAll [l] = l.nesting := Nat.max_zero _

section texts

variable (limit : Nat) {atom : Atom} {children : List Layout} {gap text : List Char}

theorem readTree_eq_readTreeString (hgap : Blank gap) (h : Spells (group atom children).pieces text) :
    readTree limit (String.ofList (gap ++ text)) = readTreeString limit (gap ++ text) := by
  have htrim : ∃ rest, Text.trimStart (gap ++ text) = '(' :: rest := by
    have hall : ∀ c ∈ gap, Text.isBlank c = true :=
      fun c hc => Text.isBlank_of_isAsciiBlank (hgap c hc)
    rw [Text.trimStart, List.dropWhile_append_of_pos hall]
    cases h with
    | cons _ _ hgap' hapart h' => exact ⟨_, rfl⟩
  obtain ⟨rest, htrim⟩ := htrim
  rw [readTree, String.toList_ofList]
  simp only [htrim]

theorem readTreeString_eq_map (hgap : Blank gap) (h : Spells (group atom children).pieces text) :
    ∃ line located, readTreeString limit (gap ++ text) =
        joinForest <$> readForest limit line .empty located ∧
      located.map (·.lexeme) = lexemesOf [group atom children] :=
  ⟨(lexemes (gap ++ text)).2, (lexemes (gap ++ text)).1, rfl,
    (map_lexeme_lexemes hgap h).trans (lexemesOf_singleton _).symm⟩

/-- A tree that nests too deep is refused wherever its white space is. -/
theorem readTree_of_nesting_gt (hgap : Blank gap) (h : Spells (group atom children).pieces text)
    (hlimit : limit < (group atom children).nesting) :
    ∃ line, readTree limit (String.ofList (gap ++ text)) = .error (.tooDeep limit line) := by
  obtain ⟨line, located, hread, hmap⟩ := readTreeString_eq_map limit hgap h
  have hdepth : (Builder.empty : Builder Token).depth = 0 := rfl
  have hdeep : limit < (Builder.empty : Builder Token).depth + nestingAll [group atom children] := by
    rw [nestingAll_singleton]
    omega
  obtain ⟨l, htooDeep⟩ :=
    readForest_tooDeep line [group atom children] [] hmap (Nat.zero_le _) hdeep
  rw [List.append_nil] at htooDeep
  refine ⟨l, ?_⟩
  rw [readTree_eq_readTreeString limit hgap h, hread, htooDeep]
  rfl

theorem readTree_of_nesting_le (hgap : Blank gap) (h : Spells (group atom children).pieces text)
    (hlimit : (group atom children).nesting ≤ limit) :
    readTree limit (String.ofList (gap ++ text)) = .ok (group atom children).tree := by
  obtain ⟨line, located, hread, hmap⟩ := readTreeString_eq_map limit hgap h
  have hderives : Derives limit (located.map (·.lexeme)) (trees [group atom children]) := by
    rw [hmap]
    exact derives_lexemesOf _ (by rw [nestingAll_singleton]; exact hlimit)
  rw [readTree_eq_readTreeString limit hgap h, hread, readForest_of_derives line hderives]
  rfl

/-- A tree string is read back as the tree that was written, with the node of its atom
in place of each label, wherever the white space is.  The limit is the number of
parentheses that are open at once: a tree that nests deeper is refused. -/
theorem readTree_spelled (hgap : Blank gap)
    (h : Spells (group atom children).pieces text) :
    ((group atom children).nesting ≤ limit →
      readTree limit (String.ofList (gap ++ text)) = .ok (group atom children).tree) ∧
    (limit < (group atom children).nesting →
      ∃ line, readTree limit (String.ofList (gap ++ text)) = .error (.tooDeep limit line)) :=
  ⟨readTree_of_nesting_le limit hgap h, readTree_of_nesting_gt limit hgap h⟩

end texts

/-- A quoted atom right behind another, with an escaped quote, a parenthesis and a line feed
between the quotes, and a leaf in parentheses. -/
theorem readTree_spelled_quotes :
    readTree 2 "\n( nil\t`a (`'\\')\n'(é)x \r)" =
      .ok (.node .nil none
        [.node (.atom "`a (`") (some "a (") [], .node (.atom "'\\')\n'") (some "'\\')\n'") [],
          .node (.atom "é") (some "é") [], .node (.atom "x") (some "x") []]) := by
  have h : Spells (group (.plain 'n' ['i', 'l'] rfl (by simp [endsPlain, Text.isAsciiBlank]))
      [.bare (.ticked ['a', ' ', '('] (by decide)),
        .bare (.literal '\'' ['\\', '\'', ')', '\n'] (.inl rfl)
          (.escape '\'' (.char (by decide) (by decide) (.char (by decide) (by decide) .nil)))),
        .group (.plain 'é' [] rfl (by simp [endsPlain, Text.isAsciiBlank])) [],
        .bare (.plain 'x' [] rfl (by simp [endsPlain, Text.isAsciiBlank]))]).pieces
      "( nil\t`a (`'\\')\n'(é)x \r)".toList :=
    .cons _ [' '] (by decide) (by decide) <| .cons _ ['\t'] (by decide) (by decide) <|
      .cons _ [] (by decide) (by decide) <| .cons _ [] (by decide) (by decide) <|
      .cons _ [] (by decide) (by decide) <| .cons _ [] (by decide) (by decide) <|
      .cons _ [] (by decide) (by decide) <| .cons _ [' ', '\r'] (by decide) (by decide) <|
      .cons _ [] (by decide) (by decide) .nil
  have hread := (@readTree_spelled 2 _ _ ['\n'] _ (by decide) h).1 (by decide)
  exact hread

end Hive
end Lineage
