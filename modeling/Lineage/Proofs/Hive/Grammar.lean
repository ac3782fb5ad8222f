import Mathlib
import Lineage.Hive.Reader
import Lineage.Proofs.Builder

/-
The grammar of tree strings, and what can be wrong with one.

The reader keeps the nodes that are open on a stack.  The grammar below knows
no stack: it says of a run of lexemes which forest it is.  What is wrong with a
run that is no forest is said by counting parentheses, without a forest.  The
reader gives the forest of what the grammar derives, and of anything else the
first fault in reading order.
-/

namespace Lineage
namespace Hive

/-- The node of an atom over given children. -/
def nodeOf (spelling : String) (children : List (Tree Token)) : Tree Token :=
  .node (Token.ofAtom spelling) (Token.ofAtom spelling).payload children

/-- A forest is nothing, or an atom and a forest, or a parenthesis with an atom
and a forest in it and a forest behind it.  No more than `limit` parentheses are
open at once. -/
inductive Derives : (limit : Nat) → List Lexeme → List (Tree Token) → Prop where
  | nil (limit : Nat) : Derives limit [] []
  | atom (spelling : String) {limit : Nat} {lexemes : List Lexeme} {forest : List (Tree Token)}
    (h : Derives limit lexemes forest) :
    Derives limit (.atom spelling :: lexemes) (nodeOf spelling [] :: forest)
  | node (spelling : String) {limit : Nat} {inner rest : List Lexeme}
    {children forest : List (Tree Token)} (hinner : Derives limit inner children)
    (hrest : Derives (limit + 1) rest forest) :
    Derives (limit + 1) (.opening :: .atom spelling :: (inner ++ .closing :: rest))
      (nodeOf spelling children :: forest)

section reader

variable {limit line l l' : Nat} {b : Builder Token} {rest : List Located}

theorem readForest_atom (spelling : String) :
    readForest limit line b (⟨.atom spelling, l⟩ :: rest) =
      readForest limit line (b.graft (nodeOf spelling [])) rest := by
  rw [readForest]
  rfl

theorem readForest_opening (spelling : String) (h : b.depth < limit) :
    readForest limit line b (⟨.opening, l⟩ :: ⟨.atom spelling, l'⟩ :: rest) =
      readForest limit line
        (b.openNode (Token.ofAtom spelling) (Token.ofAtom spelling).payload) rest := by
  rw [readForest, if_neg (Nat.not_le.2 h)]

theorem readForest_closing {b' : Builder Token} (h : b.close? = some b') :
    readForest limit line b (⟨.closing, l⟩ :: rest) = readForest limit line b' rest := by
  rw [readForest, h]

/-- A parenthesis is read like its node. -/
theorem readForest_closing_openNode (spelling : String) (children : List (Tree Token)) :
    readForest limit line
        ((b.openNode (Token.ofAtom spelling) (Token.ofAtom spelling).payload).graftAll children)
        (⟨.closing, l⟩ :: rest) =
      readForest limit line (b.graft (nodeOf spelling children)) rest :=
  readForest_closing (b.close?_openNode ..)

end reader

/-! ## What the grammar derives is read -/

theorem located_cons {located : List Located} {lexeme : Lexeme} {lexemes : List Lexeme}
    (h : located.map (·.lexeme) = lexeme :: lexemes) :
    ∃ l tail, located = ⟨lexeme, l⟩ :: tail ∧ tail.map (·.lexeme) = lexemes := by
  obtain ⟨⟨_, l⟩, tail, rfl, rfl, htail⟩ := List.map_eq_cons_iff.1 h
  exact ⟨l, tail, rfl, htail⟩

/-- The reader grafts the forest that the grammar derives. -/
theorem readForest_append {n limit : Nat} (line : Nat) {derived : List Lexeme}
    {forest : List (Tree Token)} (h : Derives n derived forest) {b : Builder Token}
    {located : List Located} (rest : List Located) (hl : located.map (·.lexeme) = derived)
    (hd : b.depth + n ≤ limit) :
    readForest limit line b (located ++ rest) =
      readForest limit line (b.graftAll forest) rest := by
  induction h generalizing b located rest with
  | nil n =>
    obtain rfl := List.map_eq_nil_iff.1 hl
    rfl
  | atom spelling h ih =>
    obtain ⟨l, tail, rfl, htail⟩ := located_cons hl
    have hdepth : (b.graft (nodeOf spelling [])).depth = b.depth := b.depth_graft _
    rw [List.cons_append, readForest_atom, Builder.graftAll_cons]
    apply ih rest htail
    omega
  | @node spelling n inner behind children forest hinner hrest ihinner ihrest =>
    obtain ⟨l, head, rfl, hhead⟩ := located_cons hl
    obtain ⟨l', tail, rfl, htail⟩ := located_cons hhead
    obtain ⟨linner, lclosing, rfl, hlinner, hclosing⟩ := List.map_eq_append_iff.1 htail
    obtain ⟨l'', lbehind, rfl, hbehind⟩ := located_cons hclosing
    have hdepth : (b.graft (nodeOf spelling children)).depth = b.depth := b.depth_graft _
    have hopen : b.depth < limit := by omega
    have hread := ihinner (b := b.openNode (Token.ofAtom spelling) (Token.ofAtom spelling).payload)
      (⟨.closing, l''⟩ :: (lbehind ++ rest)) hlinner (by rw [Builder.depth_openNode]; omega)
    rw [List.cons_append, List.cons_append, List.append_assoc, List.cons_append,
      readForest_opening spelling hopen, hread, readForest_closing_openNode, Builder.graftAll_cons]
    apply ihrest rest hbehind
    omega

theorem readForest_of_derives {limit : Nat} (line : Nat) {located : List Located}
    {forest : List (Tree Token)} (h : Derives limit (located.map (·.lexeme)) forest) :
    readForest limit line .empty located = .ok forest := by
  have hread := readForest_append line (b := .empty) h [] rfl (Nat.le_of_eq (Nat.zero_add limit))
  have hdepth : (Builder.empty.graftAll forest).depth = 0 := Builder.depth_graftAll ..
  rw [List.append_nil] at hread
  rw [hread, readForest, if_pos hdepth, Builder.forest_graftAll_empty]

/-! ## What is read was derived -/

/-- From a builder on, a run of lexemes is read to its end: it starts with what
derives a forest, and behind that either it ends where nothing is open, or the
innermost open node is closed. -/
theorem derives_of_readForest {limit line : Nat} {b : Builder Token} {located : List Located}
    {result : List (Tree Token)} (h : readForest limit line b located = .ok result) :
    ∃ derived rest forest, located = derived ++ rest ∧
      Derives (limit - b.depth) (derived.map (·.lexeme)) forest ∧
      (b.depth = 0 ∧ rest = [] ∨ ∃ l tail b', rest = ⟨.closing, l⟩ :: tail ∧
        (b.graftAll forest).close? = some b' ∧ readForest limit line b' tail = .ok result) := by
  -- the tail behind a parenthesis is shorter, but no direct tail of the run
  obtain ⟨n, hn⟩ : ∃ n, located.length = n := ⟨_, rfl⟩
  induction n using Nat.strongRecOn generalizing b located with
  | ind n ih =>
    cases located with
    | nil =>
      rw [readForest] at h
      split at h
      · next hd => exact ⟨[], [], [], rfl, .nil _, .inl ⟨hd, rfl⟩⟩
      · exact absurd h (by simp)
    | cons first located =>
      obtain ⟨lexeme, l⟩ := first
      rw [List.length_cons] at hn
      cases lexeme with
      | unterminated quote => exact absurd h (by simp [readForest])
      | closing =>
        rw [readForest] at h
        split at h
        · exact absurd h (by simp)
        · next b' hb => exact ⟨[], _, [], rfl, .nil _, .inr ⟨l, located, b', rfl, hb, h⟩⟩
      | atom spelling =>
        rw [readForest_atom] at h
        obtain ⟨derived, rest, forest, rfl, hderives, hend⟩ := ih _ (by omega) h rfl
        rw [Builder.depth_graft] at hderives hend
        exact ⟨_ :: derived, rest, nodeOf spelling [] :: forest, rfl, .atom spelling hderives, hend⟩
      | opening =>
        cases located with
        | nil => exact absurd h (by simp [readForest])
        | cons second located =>
          obtain ⟨lexeme, l'⟩ := second
          rw [List.length_cons] at hn
          cases lexeme with
          | opening => exact absurd h (by simp [readForest])
          | closing => exact absurd h (by simp [readForest])
          | unterminated quote => exact absurd h (by simp [readForest])
          | atom spelling =>
            by_cases hlimit : limit ≤ b.depth
            · rw [readForest, if_pos hlimit] at h
              exact absurd h (by simp)
            · rw [readForest_opening spelling (Nat.lt_of_not_le hlimit)] at h
              obtain ⟨inner, tail, children, rfl, hinner, hend⟩ := ih _ (by omega) h rfl
              rw [Builder.depth_openNode] at hinner hend
              obtain ⟨hzero, -⟩ | ⟨l'', tail, b', rfl, hclose, h⟩ := hend
              · omega
              rw [Builder.close?_openNode, Option.some.injEq] at hclose
              subst hclose
              rw [List.length_append, List.length_cons] at hn
              obtain ⟨derived, rest, forest, rfl, hrest, hend⟩ := ih _ (by omega) h rfl
              rw [Builder.depth_graft] at hrest hend
              obtain ⟨k, hk⟩ : ∃ k, limit - b.depth = k + 1 := ⟨limit - b.depth - 1, by omega⟩
              have hk' : limit - (b.depth + 1) = k := by omega
              rw [hk'] at hinner
              rw [hk] at hrest ⊢
              refine ⟨⟨.opening, l⟩ :: ⟨.atom spelling, l'⟩ :: (inner ++ ⟨.closing, l''⟩ :: derived),
                rest, nodeOf spelling children :: forest, by simp, ?_, hend⟩
              have hnode := Derives.node spelling hinner hrest
              rw [List.map_cons, List.map_cons, List.map_append, List.map_cons]
              exact hnode

/-- The reader gives a forest exactly where the grammar derives it. -/
theorem readForest_ok_iff {limit : Nat} (line : Nat) {located : List Located}
    {forest : List (Tree Token)} :
    readForest limit line .empty located = .ok forest ↔
      Derives limit (located.map (·.lexeme)) forest := by
  constructor
  · intro h
    obtain ⟨derived, rest, result, rfl, hderives, ⟨-, rfl⟩ | ⟨l, tail, b', -, hclose, -⟩⟩ :=
      derives_of_readForest h
    · rw [List.append_nil] at h ⊢
      have hread : readForest limit line .empty derived = .ok result :=
        readForest_of_derives line hderives
      rw [h, Except.ok.injEq] at hread
      rw [hread]
      exact hderives
    · have hdepth : (Builder.empty.graftAll result).depth = 0 := Builder.depth_graftAll ..
      rw [(Builder.close?_eq_none_iff _).2 hdepth] at hclose
      exact absurd hclose (by simp)
  · exact readForest_of_derives line

/-- A run of lexemes has one derivation. -/
theorem derives_unique {limit : Nat} {located : List Located} {forest forest' : List (Tree Token)}
    (h : Derives limit (located.map (·.lexeme)) forest)
    (h' : Derives limit (located.map (·.lexeme)) forest') : forest = forest' := by
  have hread := readForest_of_derives 0 h
  rw [readForest_of_derives 0 h', Except.ok.injEq] at hread
  exact hread.symm

/-! ## The first fault -/

def openings (lexemes : List Located) : Nat := lexemes.countP (·.lexeme = .opening)

def closings (lexemes : List Located) : Nat := lexemes.countP (·.lexeme = .closing)

/-- How many parentheses are open behind a run of lexemes. -/
def openBehind (lexemes : List Located) : Nat := openings lexemes - closings lexemes

/-- What is wrong right behind the lexemes `before`, where those in `after`
follow.  The text ends on `line`. -/
inductive FaultAt (limit line : Nat) : (before after : List Located) → Fault → Prop where
  | tooDeep {before after : List Located} {spelling : String} {l l' : Nat}
    (h : limit ≤ openBehind before) :
    FaultAt limit line before (⟨.opening, l⟩ :: ⟨.atom spelling, l'⟩ :: after)
      (.tooDeep limit l')
  | headless {before after : List Located} {next : Located} {l : Nat}
    (h : next.lexeme = .opening ∨ next.lexeme = .closing) :
    FaultAt limit line before (⟨.opening, l⟩ :: next :: after) (.malformed .headless next.line)
  | headlessEnd {before : List Located} {l : Nat} :
    FaultAt limit line before [⟨.opening, l⟩] (.malformed .headless line)
  | unbalanced {before after : List Located} {l : Nat} (h : openBehind before = 0) :
    FaultAt limit line before (⟨.closing, l⟩ :: after) (.malformed .unbalanced l)
  | unclosed {before : List Located} (h : openBehind before ≠ 0) :
    FaultAt limit line before [] (.malformed (.unclosed (openBehind before)) line)
  | unterminated {before after : List Located} {quote : Char} {l : Nat} :
    FaultAt limit line before (⟨.unterminated quote, l⟩ :: after)
      (.malformed (.unterminated quote) l)

/-- The first fault in reading order, behind the lexemes `before`. -/
inductive FirstFault (limit line : Nat) : (before after : List Located) → Fault → Prop where
  | here {before after : List Located} {fault : Fault} (h : FaultAt limit line before after fault) :
    FirstFault limit line before after fault
  | later {before after : List Located} {next : Located} {fault : Fault}
    (hno : ∀ other, ¬ FaultAt limit line before (next :: after) other)
    (h : FirstFault limit line (before ++ [next]) after fault) :
    FirstFault limit line before (next :: after) fault

section faults

variable {limit line : Nat} {before after : List Located} {fault other : Fault}

/-- No two things are wrong at one place. -/
theorem FaultAt.unique (h : FaultAt limit line before after fault)
    (h' : FaultAt limit line before after other) : fault = other := by
  cases h <;> cases h' <;> simp_all

theorem firstFault_iff_of_faultAt (h : FaultAt limit line before after other) :
    FirstFault limit line before after fault ↔ other = fault := by
  constructor
  · intro hfirst
    cases hfirst with
    | here hfault => exact h.unique hfault
    | later hno _ => exact absurd h (hno other)
  · rintro rfl
    exact .here h

theorem firstFault_cons_iff {next : Located}
    (hno : ∀ other, ¬ FaultAt limit line before (next :: after) other) :
    FirstFault limit line before (next :: after) fault ↔
      FirstFault limit line (before ++ [next]) after fault := by
  constructor
  · intro h
    cases h with
    | here hfault => exact absurd hfault (hno fault)
    | later _ h => exact h
  · exact .later hno

theorem not_firstFault_nil (h : openBehind before = 0) :
    ¬ FirstFault limit line before [] fault := by
  intro hfirst
  cases hfirst with
  | here hfault =>
    cases hfault with
    | unclosed hopen => exact hopen h

theorem no_faultAt_atom {spelling : String} {l : Nat} :
    ¬ FaultAt limit line before (⟨.atom spelling, l⟩ :: after) fault := by
  intro h
  cases h

theorem no_faultAt_opening {spelling : String} {l l' : Nat} (h : openBehind before < limit) :
    ¬ FaultAt limit line before (⟨.opening, l⟩ :: ⟨.atom spelling, l'⟩ :: after) fault := by
  intro hfault
  cases hfault with
  | tooDeep hdeep => omega
  | headless hnext => rcases hnext with hnext | hnext <;> cases hnext

theorem no_faultAt_closing {l : Nat} (h : openBehind before ≠ 0) :
    ¬ FaultAt limit line before (⟨.closing, l⟩ :: after) fault := by
  intro hfault
  cases hfault with
  | unbalanced hzero => exact h hzero

end faults

/-- From a builder on that has as many nodes open as there are parentheses, the
reader complains about the first fault. -/
theorem readForest_error_iff {limit line : Nat} {b : Builder Token} {before after : List Located}
    (hb : openings before = closings before + b.depth) {fault : Fault} :
    readForest limit line b after = .error fault ↔ FirstFault limit line before after fault := by
  have hopen : openBehind before = b.depth := by unfold openBehind; omega
  fun_induction readForest limit line b after generalizing before with
  | case1 b hdepth => exact iff_of_false (by simp) (not_firstFault_nil (hopen.trans hdepth))
  | case2 b hdepth =>
    rw [firstFault_iff_of_faultAt (.unclosed (by omega)), Except.error.injEq, hopen]
  | case3 b l spelling l' rest hdeep =>
    rw [firstFault_iff_of_faultAt (.tooDeep (by omega)), Except.error.injEq]
  | case4 b l spelling l' rest hdeep token =>
    rename_i ih
    have hcount : openings (before ++ [⟨.opening, l⟩] ++ [⟨.atom spelling, l'⟩]) =
        closings (before ++ [⟨.opening, l⟩] ++ [⟨.atom spelling, l'⟩]) +
          (b.openNode token token.payload).depth := by
      simp [openings, closings, Builder.depth_openNode] at hb ⊢
      omega
    rw [firstFault_cons_iff (fun _ => no_faultAt_opening (by omega)),
      firstFault_cons_iff (fun _ => no_faultAt_atom)]
    exact ih hcount (by unfold openBehind; omega)
  | case5 b l quote l' tail =>
    have hno (other : Fault) :
        ¬ FaultAt limit line before (⟨.opening, l⟩ :: ⟨.unterminated quote, l'⟩ :: tail) other := by
      intro hfault
      cases hfault with
      | headless hnext => rcases hnext with hnext | hnext <;> cases hnext
    rw [firstFault_cons_iff hno, firstFault_iff_of_faultAt .unterminated, Except.error.injEq]
  | case6 b l lexeme l' tail hatom hunterminated =>
    have hnext : lexeme = .opening ∨ lexeme = .closing := by
      cases lexeme with
      | opening => exact .inl rfl
      | closing => exact .inr rfl
      | atom spelling => exact absurd rfl (hatom spelling)
      | unterminated quote => exact absurd rfl (hunterminated quote)
    rw [firstFault_iff_of_faultAt (.headless hnext), Except.error.injEq]
  | case7 b l => rw [firstFault_iff_of_faultAt .headlessEnd, Except.error.injEq]
  | case8 b l rest hclose =>
    have hzero := (b.close?_eq_none_iff).1 hclose
    rw [firstFault_iff_of_faultAt (.unbalanced (by omega)), Except.error.injEq]
  | case9 b l rest b' hclose ih =>
    have hdepth := Builder.depth_of_close? hclose
    have hcount : openings (before ++ [⟨.closing, l⟩]) =
        closings (before ++ [⟨.closing, l⟩]) + b'.depth := by
      simp [openings, closings] at hb ⊢
      omega
    rw [firstFault_cons_iff (fun _ => no_faultAt_closing (by omega))]
    exact ih hcount (by unfold openBehind; omega)
  | case10 b spelling l rest ih =>
    have hcount : openings (before ++ [⟨.atom spelling, l⟩]) =
        closings (before ++ [⟨.atom spelling, l⟩]) +
          (b.graft (Token.ofAtom spelling).toTree).depth := by
      rw [Builder.depth_graft]
      simp [openings, closings] at hb ⊢
      omega
    rw [firstFault_cons_iff (fun _ => no_faultAt_atom)]
    exact ih hcount (by unfold openBehind; omega)
  | case11 b quote l tail =>
    rw [firstFault_iff_of_faultAt .unterminated, Except.error.injEq]

/-- What the reader of tree strings does.  It succeeds exactly on what the
grammar derives within the limit, and gives the one forest that is derived, under
a common root unless it is one tree.  On anything else it reports the first
fault in reading order. -/
theorem readTreeString_iff (limit : Nat) (text : List Char) :
    (∀ t, readTreeString limit text = .ok t ↔
      ∃ forest, Derives limit ((lexemes text).1.map (·.lexeme)) forest ∧ joinForest forest = t) ∧
    (∀ forest forest', Derives limit ((lexemes text).1.map (·.lexeme)) forest →
      Derives limit ((lexemes text).1.map (·.lexeme)) forest' → forest = forest') ∧
    ∀ fault, readTreeString limit text = .error fault ↔
      FirstFault limit (lexemes text).2 [] (lexemes text).1 fault := by
  have hread : readTreeString limit text =
      joinForest <$> readForest limit (lexemes text).2 .empty (lexemes text).1 := rfl
  refine ⟨fun t => ?_, fun _ _ => derives_unique, fun fault => ?_⟩
  · simp only [← readForest_ok_iff (lexemes text).2]
    rw [hread]
    cases readForest limit (lexemes text).2 .empty (lexemes text).1 with
    | error fault => simp [Functor.map, Except.map]
    | ok forest => simp [Functor.map, Except.map]
  · have hempty : openings [] = closings [] + (Builder.empty : Builder Token).depth := rfl
    rw [← readForest_error_iff hempty, hread]
    cases readForest limit (lexemes text).2 .empty (lexemes text).1 with
    | error fault => simp [Functor.map, Except.map]
    | ok forest => simp [Functor.map, Except.map]

/-- The parenthesis beyond the limit comes before the end, where two are open. -/
example : readTreeString 1 "(a (b".toList = .error (.tooDeep 1 1) := by cbv

end Hive
end Lineage
