import Mathlib
import Lineage.Proofs.Hive.Spelling

/-
White space in front of a tree string.

Which form a text is in is decided behind all its white space, but the scanner starts at
its first character and passes over ASCII white space only.  Any other white space in
front of the parenthesis is read as atoms, which become leaves in front of the tree.
What follows is read as it is alone, further down.
-/

namespace Lineage
namespace Hive

/-! ## Lexemes further down -/

def Located.lower (lines : Nat) (x : Located) : Located := ⟨x.lexeme, x.line + lines⟩

namespace Scanner

/-- What the scanner is inside of, some lines further down. -/
def lowerInside (lines : Nat) : Inside → Inside
  | .nothing => .nothing
  | .plain atom => .plain atom
  | .quoted quote opened atom => .quoted quote (opened + lines) atom
  | .escaped quote opened atom => .escaped quote (opened + lines) atom

/-- A scanner behind lexemes that were read before, some lines further down. -/
def behind (lines : Nat) (before : List Located) (s : Scanner) : Scanner :=
  ⟨lowerInside lines s.inside, s.line + lines, s.done.map (·.lower lines) ++ before⟩

section behind

variable (lines : Nat) (before : List Located)

theorem between_behind (line : Nat) (done : List Located) (c : Char) :
    between (line + lines) (done.map (·.lower lines) ++ before) c =
      (between line done c).behind lines before := by
  unfold between
  split_ifs <;> simp [behind, lowerInside, Located.lower, Nat.add_right_comm]

/-- No step looks at the lexemes that were read, nor at the line. -/
theorem step_behind (s : Scanner) (c : Char) :
    (s.behind lines before).step c = (s.step c).behind lines before := by
  obtain ⟨inside, line, done⟩ := s
  cases inside with
  | nothing => exact between_behind lines before line done c
  | plain atom =>
    have hbetween := between_behind lines before line (⟨.atom (spell atom), line⟩ :: done) c
    simp only [step, behind, lowerInside]
    split_ifs
    · exact hbetween
    · rfl
  | quoted quote opened atom =>
    simp only [step, behind, lowerInside]
    split_ifs <;> simp [Located.lower, Nat.add_right_comm]
  | escaped quote opened atom => rfl

theorem foldl_step_behind (s : Scanner) (text : List Char) :
    text.foldl step (s.behind lines before) = (text.foldl step s).behind lines before := by
  induction text generalizing s with
  | nil => rfl
  | cons c text ih => rw [List.foldl_cons, step_behind, ih, List.foldl_cons]

theorem finish_behind (s : Scanner) :
    (s.behind lines before).finish = before.reverse ++ s.finish.map (·.lower lines) := by
  obtain ⟨inside, line, done⟩ := s
  cases inside <;> simp [finish, behind, lowerInside, Located.lower]

end behind

end Scanner

/-! ## White space in front of a parenthesis -/

/-- The scanner where it may be in white space. -/
inductive Scanner.AtBlank : Scanner → Prop where
  | nothing (line : Nat) (done : List Located) : AtBlank ⟨.nothing, line, done⟩
  | plain (atom : List Char) (line : Nat) (done : List Located) : AtBlank ⟨.plain atom, line, done⟩

/-- The scanner behind white space: it has read nothing but plain atoms, and nothing at
all where all of the white space is ASCII. -/
structure Strays (gap : List Char) (s : Scanner) : Prop where
  atBlank : s.AtBlank
  line_eq : s.line = 1 + gap.count '\n'
  atoms : ∀ x ∈ s.finish, ∃ spelling, x.lexeme = .atom spelling
  finish_eq_nil_iff : s.finish = [] ↔ Blank gap

section steps

variable {gap : List Char} {s : Scanner} {c : Char}

/-- ASCII white space and parentheses end a plain atom. -/
theorem step_of_endsPlain (h : s.AtBlank) (hc : endsPlain c = true) :
    s.step c = Scanner.between s.line s.finish.reverse c := by
  cases h with
  | nothing line done => simp [Scanner.step, Scanner.finish]
  | plain atom line done =>
    rw [endsPlain] at hc
    simp [Scanner.step, Scanner.finish, hc]

theorem strays_step_ascii (h : Strays gap s) (hc : Text.isAsciiBlank c = true) :
    Strays (gap ++ [c]) (s.step c) := by
  have hstep : s.step c = ⟨.nothing, s.line + [c].count '\n', s.finish.reverse⟩ := by
    rw [step_of_endsPlain h.atBlank (by simp [endsPlain, hc]), Scanner.between]
    by_cases hfeed : c = '\n'
    · rw [if_pos hfeed, hfeed]
      rfl
    · rw [if_neg hfeed, if_pos hc, List.count_singleton, beq_false_of_ne hfeed]
      rfl
  have hblank : Blank (gap ++ [c]) ↔ Blank gap := by
    constructor
    · exact fun hgap x hx => hgap x (List.mem_append_left _ hx)
    · intro hgap x hx
      rcases List.mem_append.1 hx with hx | hx
      · exact hgap x hx
      · rwa [List.mem_singleton.1 hx]
  have hfinish : (s.step c).finish = s.finish := by
    rw [hstep]
    exact List.reverse_reverse _
  constructor
  · rw [hstep]
    exact .nothing ..
  · rw [hstep, List.count_append, ← Nat.add_assoc, ← h.line_eq]
  · rw [hfinish]
    exact h.atoms
  · rw [hfinish, hblank]
    exact h.finish_eq_nil_iff

/-- Any other character starts a plain atom or goes on with one. -/
theorem step_of_not_endsPlain (h : s.AtBlank) (hplain : endsPlain c = false)
    (hquote : Scanner.isQuote c = false) : ∃ atom, s.step c = ⟨.plain atom, s.line, s.done⟩ := by
  cases h with
  | nothing line done => exact ⟨[c], between_plain hplain hquote⟩
  | plain atom line done =>
    rw [endsPlain] at hplain
    exact ⟨c :: atom, by simp [Scanner.step, hplain]⟩

theorem mem_finish_of_mem_done {x : Located} (h : x ∈ s.done) : x ∈ s.finish := by
  obtain ⟨inside, line, done⟩ := s
  have hdone : x ∈ done := h
  cases inside <;> simp [Scanner.finish, hdone]

theorem strays_step_other (h : Strays gap s) (hplain : endsPlain c = false)
    (hquote : Scanner.isQuote c = false) : Strays (gap ++ [c]) (s.step c) := by
  have hascii : Text.isAsciiBlank c = false := by
    simp only [endsPlain, Bool.or_eq_false_iff] at hplain
    exact hplain.1.1
  have hfeed : c ≠ '\n' := by
    rintro rfl
    exact absurd hascii (by decide)
  obtain ⟨atom, hstep⟩ := step_of_not_endsPlain h.atBlank hplain hquote
  have hfinish : (s.step c).finish =
      s.done.reverse ++ [⟨.atom (Scanner.spell atom), s.line⟩] := by
    rw [hstep]
    exact List.reverse_cons
  constructor
  · rw [hstep]
    exact .plain ..
  · rw [hstep, List.count_append, List.count_singleton, beq_false_of_ne hfeed]
    exact h.line_eq
  · intro x hx
    rw [hfinish, List.mem_append, List.mem_reverse, List.mem_singleton] at hx
    rcases hx with hx | rfl
    · exact h.atoms x (mem_finish_of_mem_done hx)
    · exact ⟨_, rfl⟩
  · rw [hfinish]
    refine iff_of_false (by simp) (fun hgap => ?_)
    rw [hgap c (List.mem_append_right _ List.mem_cons_self)] at hascii
    exact absurd hascii (by decide)

end steps

theorem not_isQuote_of_isBlank {c : Char} (h : Text.isBlank c = true) :
    Scanner.isQuote c = false := by
  rw [Bool.eq_false_iff]
  intro hquote
  simp only [Scanner.isQuote, Bool.or_eq_true, decide_eq_true_eq] at hquote
  rcases hquote with (rfl | rfl) | rfl <;> exact absurd h (by decide)

theorem endsPlain_of_isBlank {c : Char} (h : Text.isBlank c = true) :
    endsPlain c = Text.isAsciiBlank c := by
  have hopening : c ≠ '(' := by
    rintro rfl
    exact absurd h (by decide)
  have hclosing : c ≠ ')' := by
    rintro rfl
    exact absurd h (by decide)
  simp [endsPlain, hopening, hclosing]

theorem strays_foldl {gap : List Char} (h : ∀ c ∈ gap, Text.isBlank c = true) :
    Strays gap (gap.foldl Scanner.step .start) := by
  induction gap using List.reverseRecOn with
  | nil => exact ⟨.nothing .., rfl, by simp [Scanner.start, Scanner.finish], by decide⟩
  | append_singleton gap c ih =>
    have hgap := ih fun x hx => h x (List.mem_append_left _ hx)
    have hc : Text.isBlank c = true := h c (List.mem_append_right _ List.mem_cons_self)
    rw [List.foldl_append]
    show Strays (gap ++ [c]) (Scanner.step _ c)
    cases hascii : Text.isAsciiBlank c with
    | true => exact strays_step_ascii hgap hascii
    | false =>
      exact strays_step_other hgap ((endsPlain_of_isBlank hc).trans hascii)
        (not_isQuote_of_isBlank hc)

section gap

variable {gap : List Char} (hgap : ∀ c ∈ gap, Text.isBlank c = true)
include hgap

theorem exists_atom_of_mem_lexemes : ∀ x ∈ (lexemes gap).1, ∃ spelling, x.lexeme = .atom spelling :=
  (strays_foldl hgap).atoms

theorem lexemes_eq_nil_iff : (lexemes gap).1 = [] ↔ Blank gap :=
  (strays_foldl hgap).finish_eq_nil_iff

/-- What follows white space is scanned as it is alone, further down. -/
theorem lexemes_append_opening (rest : List Char) :
    lexemes (gap ++ '(' :: rest) =
      ((lexemes gap).1 ++ (lexemes ('(' :: rest)).1.map (·.lower (gap.count '\n')),
        (lexemes ('(' :: rest)).2 + gap.count '\n') := by
  have hstrays := strays_foldl hgap
  have hstep : (gap.foldl Scanner.step .start).step '(' =
      (Scanner.start.step '(').behind (gap.count '\n') (lexemes gap).1.reverse := by
    rw [step_of_endsPlain hstrays.atBlank (by decide), hstrays.line_eq]
    rfl
  have hfold : (gap ++ '(' :: rest).foldl Scanner.step .start =
      (('(' :: rest).foldl Scanner.step .start).behind (gap.count '\n') (lexemes gap).1.reverse := by
    rw [List.foldl_append, List.foldl_cons, hstep, Scanner.foldl_step_behind, List.foldl_cons]
  rw [lexemes, hfold, Scanner.finish_behind, List.reverse_reverse]
  rfl

end gap

/-! ## Trees in front of a forest -/

end Hive

namespace Builder

variable {κ : Type}

/-- A builder with complete trees in front of its own. -/
def behind (ts : List (Tree κ)) (b : Builder κ) : Builder κ :=
  { b with complete := b.complete ++ ts.reverse }

theorem graft_behind (ts : List (Tree κ)) (b : Builder κ) (t : Tree κ) :
    (b.behind ts).graft t = (b.graft t).behind ts := by
  obtain ⟨opened, complete, depth, h⟩ := b
  cases opened <;> rfl

theorem close?_behind (ts : List (Tree κ)) (b : Builder κ) :
    (b.behind ts).close? = b.close?.map (·.behind ts) := by
  obtain ⟨opened, complete, depth, h⟩ := b
  cases opened with
  | nil => rfl
  | cons n rest => exact congrArg some (graft_behind ts ⟨rest, complete, depth - 1, _⟩ n.close)

theorem closeMany_behind (ts : List (Tree κ)) (b : Builder κ) (count : Nat) :
    closeMany count (b.behind ts) = (closeMany count b).behind ts := by
  induction count generalizing b with
  | zero => rfl
  | succ count ih =>
    rw [closeMany, closeMany, close?_behind]
    cases b.close? with
    | none => rfl
    | some c => exact ih c

theorem forest_behind (ts : List (Tree κ)) (b : Builder κ) :
    (b.behind ts).forest = ts ++ b.forest := by
  rw [forest, forest, closeMany_behind]
  simp [behind]

theorem graftAll_empty (ts : List (Tree κ)) : (empty : Builder κ).graftAll ts = empty.behind ts := by
  induction ts using List.reverseRecOn with
  | nil => rfl
  | append_singleton ts t ih =>
    rw [graftAll_append, ih]
    simp [graftAll, graft, behind, empty]

end Builder

namespace Hive

def Fault.lower (lines : Nat) : Fault → Fault
  | .empty => .empty
  | .malformed what line => .malformed what (line + lines)
  | .tooDeep limit line => .tooDeep limit (line + lines)

/-- Trees in front and lines above change nothing but where the forest and the fault are. -/
theorem readForest_behind (limit line lines : Nat) (ts : List (Tree Token)) (b : Builder Token)
    (located : List Located) :
    readForest limit (line + lines) (b.behind ts) (located.map (·.lower lines)) =
      ((readForest limit line b located).map (ts ++ ·)).mapError (Fault.lower lines) := by
  fun_induction readForest limit line b located with
  | case1 b h =>
    have hdepth : (b.behind ts).depth = 0 := h
    rw [List.map_nil, readForest, if_pos hdepth, Builder.forest_behind]
    rfl
  | case2 b h =>
    have hdepth : (b.behind ts).depth ≠ 0 := h
    rw [List.map_nil, readForest, if_neg hdepth]
    rfl
  | case3 b l spelling l' rest hlimit =>
    have hdepth : limit ≤ (b.behind ts).depth := hlimit
    show readForest _ _ _ (⟨.opening, _⟩ :: ⟨.atom spelling, _⟩ :: _) = _
    rw [readForest, if_pos hdepth]
    rfl
  | case4 b l spelling l' rest hlimit token ih =>
    have hdepth : (b.behind ts).depth < limit := Nat.lt_of_not_le hlimit
    show readForest _ _ _ (⟨.opening, _⟩ :: ⟨.atom spelling, _⟩ :: _) = _
    rw [readForest_opening spelling hdepth]
    exact ih
  | case5 b l quote l' rest => rfl
  | case6 b l lexeme l' rest hatom hquote =>
    cases lexeme with
    | opening => rfl
    | closing => rfl
    | atom spelling => exact absurd rfl (hatom spelling)
    | unterminated quote => exact absurd rfl (hquote quote)
  | case7 => rfl
  | case8 b l rest hclose =>
    have hnone : (b.behind ts).close? = none := by rw [Builder.close?_behind, hclose]; rfl
    show readForest _ _ _ (⟨.closing, _⟩ :: _) = _
    rw [readForest, hnone]
    rfl
  | case9 b l rest b' hclose ih =>
    have hsome : (b.behind ts).close? = some (b'.behind ts) := by
      rw [Builder.close?_behind, hclose]
      rfl
    show readForest _ _ _ (⟨.closing, _⟩ :: _) = _
    rw [readForest_closing hsome]
    exact ih
  | case10 b spelling l rest ih =>
    show readForest _ _ _ (⟨.atom spelling, _⟩ :: _) = _
    rw [readForest_atom, Builder.graft_behind]
    exact ih
  | case11 => rfl

/-- The leaves of atoms. -/
def leavesOf (located : List Located) : List (Tree Token) :=
  located.filterMap fun x =>
    match x.lexeme with
    | .atom spelling => some (nodeOf spelling [])
    | _ => none

theorem readForest_atoms (limit line : Nat) (b : Builder Token) {strays : List Located}
    (h : ∀ x ∈ strays, ∃ spelling, x.lexeme = .atom spelling) (rest : List Located) :
    readForest limit line b (strays ++ rest) =
      readForest limit line (b.graftAll (leavesOf strays)) rest := by
  induction strays generalizing b with
  | nil => rfl
  | cons x strays ih =>
    obtain ⟨lexeme, l⟩ := x
    obtain ⟨spelling, hspelling⟩ := h _ List.mem_cons_self
    obtain rfl : lexeme = .atom spelling := hspelling
    rw [List.cons_append, readForest_atom, ih _ fun x hx => h x (List.mem_cons_of_mem _ hx)]
    rfl

theorem leavesOf_eq_nil_iff {strays : List Located}
    (h : ∀ x ∈ strays, ∃ spelling, x.lexeme = .atom spelling) :
    leavesOf strays = [] ↔ strays = [] := by
  cases strays with
  | nil => exact iff_of_true rfl rfl
  | cons x strays =>
    obtain ⟨lexeme, l⟩ := x
    obtain ⟨spelling, hspelling⟩ := h _ List.mem_cons_self
    obtain rfl : lexeme = .atom spelling := hspelling
    exact iff_of_false (List.cons_ne_nil _ _) (List.cons_ne_nil _ _)

theorem readForest_gap {gap : List Char} (hgap : ∀ c ∈ gap, Text.isBlank c = true) (limit : Nat)
    (rest : List Char) :
    readForest limit (lexemes (gap ++ '(' :: rest)).2 .empty (lexemes (gap ++ '(' :: rest)).1 =
      ((readForest limit (lexemes ('(' :: rest)).2 .empty (lexemes ('(' :: rest)).1).map
        (leavesOf (lexemes gap).1 ++ ·)).mapError (Fault.lower (gap.count '\n')) := by
  rw [lexemes_append_opening hgap, readForest_atoms limit _ _ (exists_atom_of_mem_lexemes hgap),
    Builder.graftAll_empty, readForest_behind]

/-! ## Reading with leaves in front -/

theorem joinForest_of_two {forest : List (Tree Token)} (h : 2 ≤ forest.length) :
    joinForest forest = .branch .nil forest := by
  match forest, h with
  | _ :: _ :: _, _ => rfl

/-- Leaves in front of a forest make another tree of it. -/
theorem joinForest_append_eq_iff (leaves : List (Tree Token)) {forest : List (Tree Token)}
    (h : forest ≠ []) :
    joinForest (leaves ++ forest) = joinForest forest ↔ leaves = [] := by
  constructor
  · intro heq
    by_contra hleaves
    have hforest := List.length_pos_iff.2 h
    have hfront := List.length_pos_iff.2 hleaves
    have hlength : (leaves ++ forest).length = leaves.length + forest.length := List.length_append
    rw [joinForest_of_two (by omega)] at heq
    by_cases hone : forest.length = 1
    · -- a tree is no child of itself
      obtain ⟨t, rfl⟩ := List.length_eq_one_iff.1 hone
      have hsize : (Tree.branch Token.nil (leaves ++ [t])).size = t.size := congrArg Tree.size heq
      have hnode : (Tree.branch Token.nil (leaves ++ [t])).size =
          Tree.sizeList (leaves ++ [t]) + 1 := Tree.size_eq _
      rw [Tree.sizeList_append, Tree.sizeList_cons] at hnode
      omega
    · have htwo : 2 ≤ forest.length := by omega
      rw [joinForest_of_two htwo] at heq
      have hchildren := congrArg (fun t => t.children.length) heq
      simp only [Tree.branch, Tree.children] at hchildren
      omega
  · rintro rfl
    rfl

theorem eq_nil_of_derives_nil {limit : Nat} {lexemes : List Lexeme} (h : Derives limit lexemes []) :
    lexemes = [] := by
  cases h
  rfl

theorem lexemes_opening_ne_nil (rest : List Char) : (lexemes ('(' :: rest)).1 ≠ [] := by
  have hfold : ('(' :: rest).foldl Scanner.step .start =
      (rest.foldl Scanner.step .start).behind 0 [⟨.opening, 1⟩] :=
    Scanner.foldl_step_behind 0 [⟨.opening, 1⟩] .start rest
  rw [lexemes, hfold, Scanner.finish_behind]
  exact List.cons_ne_nil _ _

theorem forest_ne_nil {limit line : Nat} {rest : List Char} {forest : List (Tree Token)}
    (h : readForest limit line .empty (lexemes ('(' :: rest)).1 = .ok forest) : forest ≠ [] := by
  rintro rfl
  have hnone := eq_nil_of_derives_nil ((readForest_ok_iff line).1 h)
  exact lexemes_opening_ne_nil rest (List.map_eq_nil_iff.1 hnone)

section texts

variable {gap : List Char} (hgap : ∀ c ∈ gap, Text.isBlank c = true) (limit : Nat) (rest : List Char)
include hgap

theorem readTree_gap :
    readTree limit (String.ofList (gap ++ '(' :: rest)) =
      readTreeString limit (gap ++ '(' :: rest) := by
  have htrim : Text.trimStart (gap ++ '(' :: rest) = '(' :: rest := by
    rw [Text.trimStart, List.dropWhile_append_of_pos hgap]
    rfl
  rw [readTree, String.toList_ofList]
  simp only [htrim]

/-- The forest behind white space, and that of the text alone. -/
theorem readTree_gap_eq :
    readTree limit (String.ofList (gap ++ '(' :: rest)) = joinForest <$>
      ((readForest limit (lexemes ('(' :: rest)).2 .empty (lexemes ('(' :: rest)).1).map
        (leavesOf (lexemes gap).1 ++ ·)).mapError (Fault.lower (gap.count '\n')) := by
  rw [readTree_gap hgap, ← readForest_gap hgap]
  rfl

end texts

theorem readTree_opening_eq (limit : Nat) (rest : List Char) :
    readTree limit (String.ofList ('(' :: rest)) = joinForest <$>
      readForest limit (lexemes ('(' :: rest)).2 .empty (lexemes ('(' :: rest)).1 :=
  readTree_gap (List.forall_mem_nil _) limit rest

/-- What white space in front of a tree string changes.  The text is read exactly where it
is read without the white space.  It is then the same tree exactly if the white space is
ASCII; all other white space is read as leaves in front.  A fault is the same one as many
lines further down as the white space has line feeds. -/
theorem readTree_trimStart_iff (limit : Nat) {text : String}
    (h : (Text.trimStart text.toList).head? = some '(') :
    ((∃ t, readTree limit text = .ok t) ↔
      ∃ t, readTree limit (String.ofList (Text.trimStart text.toList)) = .ok t) ∧
    (∀ t, readTree limit (String.ofList (Text.trimStart text.toList)) = .ok t →
      (readTree limit text = .ok t ↔ Blank (text.toList.takeWhile Text.isBlank))) ∧
    ∀ fault, readTree limit (String.ofList (Text.trimStart text.toList)) = .error fault →
      readTree limit text =
        .error (fault.lower ((text.toList.takeWhile Text.isBlank).count '\n')) := by
  obtain ⟨rest, hrest⟩ : ∃ rest, Text.trimStart text.toList = '(' :: rest :=
    List.head?_eq_some_iff.1 h
  obtain ⟨gap, hgap⟩ : ∃ gap, gap = text.toList.takeWhile Text.isBlank := ⟨_, rfl⟩
  have hblank : ∀ c ∈ gap, Text.isBlank c = true := fun c hc => List.mem_takeWhile_imp (hgap ▸ hc)
  have htext : text = String.ofList (gap ++ '(' :: rest) := by
    rw [hgap, ← hrest, Text.trimStart, List.takeWhile_append_dropWhile, String.ofList_toList]
  have hread := readTree_gap_eq hblank limit rest
  rw [← htext] at hread
  rw [hrest, ← hgap, hread, readTree_opening_eq]
  have hleaves : leavesOf (lexemes gap).1 = [] ↔ Blank gap :=
    (leavesOf_eq_nil_iff (exists_atom_of_mem_lexemes hblank)).trans (lexemes_eq_nil_iff hblank)
  generalize leavesOf (lexemes gap).1 = leaves at hleaves
  cases hforest : readForest limit (lexemes ('(' :: rest)).2 .empty (lexemes ('(' :: rest)).1 with
  | error fault =>
    have hfault : joinForest <$> ((Except.error fault).map (leaves ++ ·)).mapError
        (Fault.lower (gap.count '\n')) = .error (fault.lower (gap.count '\n')) := rfl
    have halone : joinForest <$> Except.error fault = Except.error fault := rfl
    rw [hfault, halone]
    simp
  | ok forest =>
    have htree : joinForest <$> ((Except.ok forest).map (leaves ++ ·)).mapError
        (Fault.lower (gap.count '\n')) = .ok (joinForest (leaves ++ forest)) := rfl
    have halone : joinForest <$> (Except.ok forest : Except Fault _) = .ok (joinForest forest) := rfl
    have hsame := joinForest_append_eq_iff leaves (forest_ne_nil hforest)
    rw [htree, halone]
    refine ⟨iff_of_true ⟨_, rfl⟩ ⟨_, rfl⟩, ?_, fun _ hfault => by cases hfault⟩
    intro t ht
    rw [← Except.ok.inj ht, Except.ok.injEq, hsame, hleaves]

/-- A vertical tab is white space, but not of the ASCII kind.  It stands in front of the tree,
and the fault is one line further down than in the tree string alone. -/
theorem readTree_trimStart_verticalTab :
    (Text.trimStart "\n\x0b(a b)".toList).head? = some '(' ∧
    (∃ t, readTree 1 "\n\x0b(a b)" = .ok t) ∧
    (readTree 1 "\n\x0b(a b)" ≠
      .ok (.node (.atom "a") (some "a") [.leaf (.atom "b") "b"])) ∧
    readTree 0 "\n\x0b(a b)" = .error (.tooDeep 0 2) := by
  have hopening : (Text.trimStart "\n\x0b(a b)".toList).head? = some '(' := by decide
  have hread : readTree 1 (String.ofList (Text.trimStart "\n\x0b(a b)".toList)) =
      .ok (.node (.atom "a") (some "a") [.leaf (.atom "b") "b"]) := by cbv
  have hdeep : readTree 0 (String.ofList (Text.trimStart "\n\x0b(a b)".toList)) =
      .error (.tooDeep 0 1) := by cbv
  obtain ⟨hsome, htree, -⟩ := readTree_trimStart_iff 1 hopening
  obtain ⟨-, -, hfault⟩ := readTree_trimStart_iff 0 hopening
  have hother : ¬ Blank ("\n\x0b(a b)".toList.takeWhile Text.isBlank) := by decide
  exact ⟨hopening, hsome.2 ⟨_, hread⟩, fun h => hother ((htree _ hread).1 h), hfault _ hdeep⟩

/-- A no-break space in front of a tree string stands in front of the tree. -/
theorem not_forall_readTree_trimStart :
    ¬ ∀ (limit : Nat) (text : String), (Text.trimStart text.toList).head? = some '(' →
      ∀ t, readTree limit text = .ok t ↔
        readTree limit (String.ofList (Text.trimStart text.toList)) = .ok t := by
  intro h
  have hread : readTree 1 "\u00a0(a)" =
      .ok (.branch .nil [.leaf (.atom "\u00a0") "\u00a0", .leaf (.atom "a") "a"]) := by cbv
  have halone : readTree 1 (String.ofList (Text.trimStart "\u00a0(a)".toList)) =
      .ok (.leaf (.atom "a") "a") := by cbv
  have hsame := (h 1 "\u00a0(a)" (by decide) _).1 hread
  rw [halone] at hsame
  cases hsame

end Hive
end Lineage
