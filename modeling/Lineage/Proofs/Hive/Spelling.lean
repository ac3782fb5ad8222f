import Mathlib
import Lineage.Proofs.Hive.Grammar

/-
How a tree string spells its lexemes.

An atom is a plain run of characters or stands between quotes, and what is between
quotes may be anything that does not end it: white space, parentheses, line feeds.
A text spells a run of pieces out with white space between them.  The scanner gives
these pieces back, wherever the white space is.
-/

namespace Lineage
namespace Hive

/-- What may stand between single or double quotes: the quote and the backslash
only behind a backslash, which takes any character. -/
inductive Escaped (quote : Char) : List Char → Prop where
  | nil : Escaped quote []
  | char {c : Char} {body : List Char} (hquote : c ≠ quote) (hslash : c ≠ '\\')
    (h : Escaped quote body) : Escaped quote (c :: body)
  | escape (c : Char) {body : List Char} (h : Escaped quote body) :
    Escaped quote ('\\' :: c :: body)

def endsPlain (c : Char) : Bool := Text.isAsciiBlank c || c = '(' || c = ')'

/-- An atom, by the three ways to spell one. -/
inductive Atom where
  | plain (first : Char) (more : List Char) (hfirst : Scanner.isQuote first = false)
    (h : ∀ c ∈ first :: more, endsPlain c = false)
  | literal (quote : Char) (body : List Char) (hquote : quote = '\'' ∨ quote = '"')
    (h : Escaped quote body)
  | ticked (body : List Char) (h : '\x60' ∉ body)

namespace Atom

def chars : Atom → List Char
  | plain first more _ _ => first :: more
  | literal quote body _ _ => quote :: (body ++ [quote])
  | ticked body _ => '\x60' :: (body ++ ['\x60'])

def spelling (a : Atom) : String := String.ofList a.chars

/-- Quotes make an atom no grammar token. -/
def token : Atom → Token
  | plain first more _ _ => Token.ofAtom (String.ofList (first :: more))
  | a => .atom a.spelling

/-- The text of a node that an atom labels.  Grammar tokens have none, backticks are
dropped and other quotes are kept. -/
def text? (a : Atom) : Option String :=
  match a with
  | plain _ _ _ _ => if a.token.isStructural then none else some a.spelling
  | literal _ _ _ _ => some a.spelling
  | ticked body _ => some (String.ofList body)

def isPlain : Atom → Bool
  | plain _ _ _ _ => true
  | _ => false

end Atom

/-! ## Atoms and tokens -/

theorem isStructural_of_mem_spellings {s : String} {t : Token} (h : (s, t) ∈ Token.spellings) :
    t.isStructural = true := by
  have hall : ∀ p ∈ Token.spellings, p.2.isStructural = true := by decide
  exact hall _ h

theorem not_isQuote_of_mem_spellings {s : String} {t : Token} (h : (s, t) ∈ Token.spellings) :
    ∀ c ∈ s.toList.head?, Scanner.isQuote c = false := by
  have hall : ∀ p ∈ Token.spellings, ∀ c ∈ p.1.toList.head?, Scanner.isQuote c = false := by
    simp [Token.spellings, Scanner.isQuote]
  exact hall _ h

theorem ofAtom_of_not_structural {s : String} (h : (Token.ofAtom s).isStructural = false) :
    Token.ofAtom s = .atom s := by
  unfold Token.ofAtom at h ⊢
  cases hlookup : Token.spellings.lookup s with
  | none => rfl
  | some t =>
    obtain ⟨before, after, hsplit, -⟩ := List.lookup_eq_some_iff.1 hlookup
    have hmem : (s, t) ∈ Token.spellings := by rw [hsplit]; simp
    rw [hlookup, Option.getD_some, isStructural_of_mem_spellings hmem] at h
    exact absurd h (by decide)

theorem ofAtom_of_isQuote {c : Char} {cs : List Char} (h : Scanner.isQuote c = true) :
    Token.ofAtom (String.ofList (c :: cs)) = .atom (String.ofList (c :: cs)) := by
  have hnone : Token.spellings.lookup (String.ofList (c :: cs)) = none := by
    rw [List.lookup_eq_none_iff]
    intro p hp
    rw [bne_iff_ne]
    intro heq
    have hfirst := not_isQuote_of_mem_spellings hp c
    rw [← heq, String.toList_ofList, List.head?_cons] at hfirst
    rw [hfirst rfl] at h
    exact absurd h (by decide)
  rw [Token.ofAtom, hnone]
  rfl

theorem payload_of_isStructural {t : Token} (h : t.isStructural = true) : t.payload = none := by
  cases t with
  | atom s => exact absurd h Bool.false_ne_true
  | _ => rfl

theorem unquote_of_ne {c : Char} {cs : List Char} (h : c ≠ '\x60') :
    Token.unquote (String.ofList (c :: cs)) = String.ofList (c :: cs) := by
  unfold Token.unquote
  rw [String.toList_ofList]
  split
  · next heq => exact absurd (List.cons.inj heq).1 h
  · rfl

theorem unquote_ticked (body : List Char) :
    Token.unquote (String.ofList ('\x60' :: (body ++ ['\x60']))) = String.ofList body := by
  simp [Token.unquote]

theorem Atom.token_eq (a : Atom) : Token.ofAtom a.spelling = a.token := by
  cases a with
  | plain first more hfirst h => rfl
  | literal quote body hquote h =>
    rcases hquote with rfl | rfl <;> exact ofAtom_of_isQuote (by decide)
  | ticked body h => exact ofAtom_of_isQuote (by decide)

theorem Atom.payload_token (a : Atom) : a.token.payload = a.text? := by
  cases a with
  | plain first more hfirst h =>
    have hne : first ≠ '\x60' := by rintro rfl; exact absurd hfirst (by decide)
    unfold text?
    cases hstructural : (token (plain first more hfirst h)).isStructural with
    | true => exact payload_of_isStructural hstructural
    | false =>
      have htoken : token (plain first more hfirst h) = .atom (String.ofList (first :: more)) :=
        ofAtom_of_not_structural hstructural
      rw [htoken]
      show some (Token.unquote (String.ofList (first :: more))) = _
      rw [unquote_of_ne hne]
      rfl
  | literal quote body hquote h =>
    have hne : quote ≠ '\x60' := by rcases hquote with rfl | rfl <;> decide
    exact congrArg some (unquote_of_ne hne)
  | ticked body h => exact congrArg some (unquote_ticked body)

theorem nodeOf_spelling (a : Atom) (children : List (Tree Token)) :
    nodeOf a.spelling children = .node a.token a.text? children := by
  rw [nodeOf, a.token_eq, a.payload_token]

/-! ## Pieces and the texts that spell them -/

inductive Piece where
  | opening
  | closing
  | atom (a : Atom)

namespace Piece

def chars : Piece → List Char
  | opening => ['(']
  | closing => [')']
  | atom a => a.chars

def lexeme : Piece → Lexeme
  | opening => .opening
  | closing => .closing
  | atom a => .atom a.spelling

/-- Whether a piece would run into what follows: a plain atom in front of an atom. -/
def runsInto : Piece → List Piece → Bool
  | atom a, atom _ :: _ => a.isPlain
  | _, _ => false

end Piece

/-- ASCII white space, or nothing. -/
def Blank (gap : List Char) : Prop := ∀ c ∈ gap, Text.isAsciiBlank c = true

instance (gap : List Char) : Decidable (Blank gap) :=
  decidable_of_iff (gap.all Text.isAsciiBlank = true) List.all_eq_true

/-- A text that spells pieces out, with white space behind each as one likes, and
some where a piece would run into the next. -/
inductive Spells : List Piece → List Char → Prop where
  | nil : Spells [] []
  | cons (piece : Piece) {pieces : List Piece} (gap : List Char) {text : List Char}
    (hgap : Blank gap) (hapart : piece.runsInto pieces = true → gap ≠ [])
    (h : Spells pieces text) : Spells (piece :: pieces) (piece.chars ++ (gap ++ text))

/-- A text that does not go on with a plain atom. -/
def Breaks (text : List Char) : Prop := ∀ c ∈ text.head?, endsPlain c = true

theorem breaks_of_spells {piece : Piece} {pieces : List Piece} {gap text : List Char}
    (hgap : Blank gap) (hapart : piece.runsInto pieces = true → gap ≠ [])
    (h : Spells pieces text) {a : Atom} (ha : piece = .atom a) (hplain : a.isPlain = true) :
    Breaks (gap ++ text) := by
  intro c hc
  cases gap with
  | cons first more =>
    obtain rfl : first = c := by simpa using hc
    have hblank := hgap first List.mem_cons_self
    simp [endsPlain, hblank]
  | nil =>
    cases h with
    | nil => exact absurd hc (by simp)
    | cons next gap hgap' hapart' h =>
      cases next with
      | opening => obtain rfl : '(' = c := by simpa [Piece.chars] using hc
                   decide
      | closing => obtain rfl : ')' = c := by simpa [Piece.chars] using hc
                   decide
      | atom b =>
        subst ha
        exact absurd rfl (hapart hplain)

/-! ## The scanner on spelled texts -/

def scan (s : Scanner) (text : List Char) : List Located := (text.foldl Scanner.step s).finish

theorem scan_cons (s : Scanner) (c : Char) (text : List Char) :
    scan s (c :: text) = scan (s.step c) text := rfl

section steps

variable {line : Nat} {done : List Located} {rest : List Char}

/-- Where a plain atom ends, the scanner goes on as between atoms. -/
theorem scan_plain_of_breaks (atom : List Char) (h : Breaks rest) :
    scan ⟨.plain atom, line, done⟩ rest =
      scan ⟨.nothing, line, ⟨.atom (Scanner.spell atom), line⟩ :: done⟩ rest := by
  cases rest with
  | nil => rfl
  | cons c rest =>
    have hc : (Text.isAsciiBlank c || c = '(' || c = ')') = true := h c rfl
    rw [scan_cons, scan_cons]
    show scan (if _ then _ else _) rest = scan (Scanner.between _ _ c) rest
    rw [if_pos hc]

theorem scan_plain_more (atom : List Char) {more : List Char}
    (h : ∀ c ∈ more, endsPlain c = false) :
    scan ⟨.plain atom, line, done⟩ (more ++ rest) =
      scan ⟨.plain (more.reverse ++ atom), line, done⟩ rest := by
  induction more generalizing atom with
  | nil => rfl
  | cons c more ih =>
    have hc : ¬ (Text.isAsciiBlank c || c = '(' || c = ')') = true :=
      Bool.eq_false_iff.1 (h c List.mem_cons_self)
    rw [List.cons_append, scan_cons, List.reverse_cons, List.append_assoc]
    show scan (if _ then _ else _) (more ++ rest) = _
    rw [if_neg hc]
    exact ih (c :: atom) (fun x hx => h x (List.mem_cons_of_mem _ hx))

theorem between_plain {c : Char} (h : endsPlain c = false) (hquote : Scanner.isQuote c = false) :
    Scanner.between line done c = ⟨.plain [c], line, done⟩ := by
  unfold endsPlain at h
  simp only [Bool.or_eq_false_iff, decide_eq_false_iff_not] at h
  obtain ⟨⟨hblank, hopening⟩, hclosing⟩ := h
  have hfeed : c ≠ '\n' := by rintro rfl; exact absurd hblank (by decide)
  unfold Scanner.between
  rw [if_neg hfeed, if_neg (by rw [hblank]; decide), if_neg hopening, if_neg hclosing,
    if_neg (by rw [hquote]; decide)]

theorem between_quote {c : Char} (h : Scanner.isQuote c = true) :
    Scanner.between line done c = ⟨.quoted c line [c], line, done⟩ := by
  unfold Scanner.isQuote at h
  simp only [Bool.or_eq_true, decide_eq_true_eq] at h
  rcases h with (rfl | rfl) | rfl <;> rfl

theorem step_quoted_eq (quote c : Char) (opened : Nat) (atom : List Char) :
    Scanner.step ⟨.quoted quote opened atom, line, done⟩ c =
      if c = '\\' && quote ≠ '\x60' then ⟨.escaped quote opened (c :: atom), line, done⟩
      else if c = '\n' then ⟨.quoted quote opened (c :: atom), line + 1, done⟩
      else if c = quote then ⟨.nothing, line, ⟨.atom (Scanner.spell (c :: atom)), line⟩ :: done⟩
      else ⟨.quoted quote opened (c :: atom), line, done⟩ := rfl

/-- A quoted atom is complete at its second quote. -/
theorem step_closing_quote {quote : Char} (hslash : quote ≠ '\\') (hfeed : quote ≠ '\n')
    (opened : Nat) (atom : List Char) :
    Scanner.step ⟨.quoted quote opened atom, line, done⟩ quote =
      ⟨.nothing, line, ⟨.atom (Scanner.spell (quote :: atom)), line⟩ :: done⟩ := by
  have hno : ¬ (decide (quote = '\\') && decide (quote ≠ '\x60')) = true := by simp [hslash]
  rw [step_quoted_eq, if_neg hno, if_neg hfeed, if_pos rfl]

end steps

section runs

variable (line : Nat) (done : List Located) {rest : List Char}

theorem scan_blank {gap : List Char} (h : Blank gap) :
    ∃ line', scan ⟨.nothing, line, done⟩ (gap ++ rest) = scan ⟨.nothing, line', done⟩ rest := by
  induction gap generalizing line with
  | nil => exact ⟨line, rfl⟩
  | cons c gap ih =>
    have hblank : Text.isAsciiBlank c = true := h c List.mem_cons_self
    have hgap : Blank gap := fun x hx => h x (List.mem_cons_of_mem _ hx)
    have hstep : ∃ line', Scanner.step ⟨.nothing, line, done⟩ c = ⟨.nothing, line', done⟩ := by
      show ∃ line', Scanner.between line done c = ⟨.nothing, line', done⟩
      unfold Scanner.between
      by_cases hfeed : c = '\n'
      · exact ⟨line + 1, by rw [if_pos hfeed]⟩
      · exact ⟨line, by rw [if_neg hfeed, if_pos hblank]⟩
    obtain ⟨line', hstep⟩ := hstep
    rw [List.cons_append, scan_cons, hstep]
    exact ih line' hgap

/-- A character between quotes that neither escapes nor ends. -/
theorem step_quoted {quote c : Char} (opened : Nat) (atom : List Char)
    (hslash : ¬ (c = '\\' ∧ quote ≠ '\x60')) (hquote : c ≠ quote) :
    ∃ line', Scanner.step ⟨.quoted quote opened atom, line, done⟩ c =
      ⟨.quoted quote opened (c :: atom), line', done⟩ := by
  have hno : ¬ (decide (c = '\\') && decide (quote ≠ '\x60')) = true := by
    rw [Bool.and_eq_true, decide_eq_true_eq, decide_eq_true_eq]
    exact hslash
  rw [step_quoted_eq, if_neg hno]
  by_cases hfeed : c = '\n'
  · exact ⟨line + 1, by rw [if_pos hfeed]⟩
  · exact ⟨line, by rw [if_neg hfeed, if_neg hquote]⟩

theorem scan_escaped {quote : Char} (htick : quote ≠ '\x60') {body : List Char}
    (h : Escaped quote body) (opened : Nat) (atom : List Char) :
    ∃ line', scan ⟨.quoted quote opened atom, line, done⟩ (body ++ rest) =
      scan ⟨.quoted quote opened (body.reverse ++ atom), line', done⟩ rest := by
  induction h generalizing line atom with
  | nil => exact ⟨line, rfl⟩
  | @char c body hquote hslash h ih =>
    obtain ⟨line', hstep⟩ :=
      step_quoted line done opened atom (fun hboth => hslash hboth.1) hquote
    rw [List.cons_append, scan_cons, hstep, List.reverse_cons, List.append_assoc]
    exact ih line' (c :: atom)
  | @escape c body h ih =>
    have hslash : (decide ('\\' = '\\') && decide (quote ≠ '\x60')) = true := by simp [htick]
    have hstep : Scanner.step ⟨.quoted quote opened atom, line, done⟩ '\\' =
        ⟨.escaped quote opened ('\\' :: atom), line, done⟩ := by rw [step_quoted_eq, if_pos hslash]
    rw [List.cons_append, List.cons_append, scan_cons, hstep, scan_cons, List.reverse_cons,
      List.reverse_cons, List.append_assoc, List.append_assoc]
    exact ih line (c :: '\\' :: atom)

theorem scan_ticked {body : List Char} (h : '\x60' ∉ body) (opened : Nat) (atom : List Char) :
    ∃ line', scan ⟨.quoted '\x60' opened atom, line, done⟩ (body ++ rest) =
      scan ⟨.quoted '\x60' opened (body.reverse ++ atom), line', done⟩ rest := by
  induction body generalizing line atom with
  | nil => exact ⟨line, rfl⟩
  | cons c body ih =>
    have hc : c ≠ '\x60' := fun heq => h (heq ▸ List.mem_cons_self)
    obtain ⟨line', hstep⟩ :=
      step_quoted line done opened atom (fun hboth => hboth.2 rfl) hc
    rw [List.cons_append, scan_cons, hstep, List.reverse_cons, List.append_assoc]
    exact ih line' (fun hmem => h (List.mem_cons_of_mem _ hmem)) (c :: atom)

theorem scan_atom (a : Atom) (h : a.isPlain = true → Breaks rest) :
    ∃ line', scan ⟨.nothing, line, done⟩ (a.chars ++ rest) =
      scan ⟨.nothing, line', ⟨.atom a.spelling, line'⟩ :: done⟩ rest := by
  cases a with
  | plain first more hfirst hends =>
    have hstep : Scanner.step ⟨.nothing, line, done⟩ first = ⟨.plain [first], line, done⟩ :=
      between_plain (hends first List.mem_cons_self) hfirst
    refine ⟨line, ?_⟩
    show scan _ (first :: (more ++ rest)) = _
    rw [scan_cons, hstep, scan_plain_more _ (fun c hc => hends c (List.mem_cons_of_mem _ hc)),
      scan_plain_of_breaks _ (h rfl)]
    simp [Scanner.spell, Atom.spelling, Atom.chars]
  | literal quote body hquote hbody =>
    have hisQuote : Scanner.isQuote quote = true := by rcases hquote with rfl | rfl <;> decide
    have hslash : quote ≠ '\\' := by rcases hquote with rfl | rfl <;> decide
    have hfeed : quote ≠ '\n' := by rcases hquote with rfl | rfl <;> decide
    have htick : quote ≠ '\x60' := by rcases hquote with rfl | rfl <;> decide
    have hstep : Scanner.step ⟨.nothing, line, done⟩ quote = ⟨.quoted quote line [quote], line, done⟩ :=
      between_quote hisQuote
    obtain ⟨line', hscan⟩ := scan_escaped line done htick hbody line [quote]
    refine ⟨line', ?_⟩
    show scan _ (quote :: (body ++ [quote] ++ rest)) = _
    rw [scan_cons, hstep, List.append_assoc, List.singleton_append, hscan, scan_cons,
      step_closing_quote hslash hfeed]
    simp [Scanner.spell, Atom.spelling, Atom.chars]
  | ticked body hbody =>
    have hstep : Scanner.step ⟨.nothing, line, done⟩ '\x60' =
        ⟨.quoted '\x60' line ['\x60'], line, done⟩ := between_quote (by decide)
    have hslash : '\x60' ≠ '\\' := by decide
    have hfeed : '\x60' ≠ '\n' := by decide
    obtain ⟨line', hscan⟩ := scan_ticked line done hbody line ['\x60']
    refine ⟨line', ?_⟩
    show scan _ ('\x60' :: (body ++ ['\x60'] ++ rest)) = _
    rw [scan_cons, hstep, List.append_assoc, List.singleton_append, hscan, scan_cons,
      step_closing_quote hslash hfeed]
    simp [Scanner.spell, Atom.spelling, Atom.chars]

theorem scan_piece (piece : Piece)
    (h : ∀ a, piece = .atom a → a.isPlain = true → Breaks rest) :
    ∃ line', scan ⟨.nothing, line, done⟩ (piece.chars ++ rest) =
      scan ⟨.nothing, line', ⟨piece.lexeme, line'⟩ :: done⟩ rest := by
  cases piece with
  | opening => exact ⟨line, rfl⟩
  | closing => exact ⟨line, rfl⟩
  | atom a => exact scan_atom line done a (h a rfl)

theorem scan_spells {pieces : List Piece} {text : List Char} (h : Spells pieces text) :
    ∃ located, scan ⟨.nothing, line, done⟩ text = done.reverse ++ located ∧
      located.map (·.lexeme) = pieces.map (·.lexeme) := by
  induction h generalizing line done with
  | nil => exact ⟨[], (List.append_nil _).symm, rfl⟩
  | cons piece gap hgap hapart h ih =>
    obtain ⟨line', hpiece⟩ := scan_piece line done piece
      (fun a ha hplain => breaks_of_spells hgap hapart h ha hplain)
    obtain ⟨line'', hblank⟩ := scan_blank line' (⟨piece.lexeme, line'⟩ :: done) hgap
    obtain ⟨located, hscan, hmap⟩ := ih line'' (⟨piece.lexeme, line'⟩ :: done)
    refine ⟨⟨piece.lexeme, line'⟩ :: located, ?_, ?_⟩
    · rw [hpiece, hblank, hscan, List.reverse_cons, List.append_assoc, List.singleton_append]
    · rw [List.map_cons, List.map_cons, hmap]

end runs

/-- The lexemes of a text that spells pieces out behind some white space. -/
theorem map_lexeme_lexemes {pieces : List Piece} {gap text : List Char} (hgap : Blank gap)
    (h : Spells pieces text) :
    (lexemes (gap ++ text)).1.map (·.lexeme) = pieces.map (·.lexeme) := by
  obtain ⟨line, hblank⟩ := scan_blank 1 [] hgap
  obtain ⟨located, hscan, hmap⟩ := scan_spells line [] h
  have hlexemes : (lexemes (gap ++ text)).1 = located := hblank.trans hscan
  rw [hlexemes, hmap]

end Hive
end Lineage
