import Mathlib
import Lineage.Proofs.Hive.Spelling

/-
The lines that lexemes are on.

The scanner counts line feeds between lexemes and inside of quoted atoms, but not
those that a backslash escapes.  So the line of a lexeme and the line feeds that
were escaped up to its end make together the line feeds in front of its end.  The
faults that carry the line of a lexeme are as far off as the lexeme.
-/

namespace Lineage
namespace Hive

/-! ## Line feeds that are not counted -/

/-- The line feeds behind a backslash, which takes the character behind it. -/
def escapedFeeds : List Char → Nat
  | '\\' :: c :: rest => (if c = '\n' then 1 else 0) + escapedFeeds rest
  | _ :: rest => escapedFeeds rest
  | [] => 0

/-- In backticks, a backslash takes nothing. -/
def bodyFeeds (quote : Char) (body : List Char) : Nat :=
  if quote = '\x60' then 0 else escapedFeeds body

namespace Lexeme

/-- How a lexeme is spelled; of an atom without an end, the quote that opens it. -/
def chars : Lexeme → List Char
  | opening => ['(']
  | closing => [')']
  | atom spelling => spelling.toList
  | unterminated quote => [quote]

/-- The escaped line feeds of a quoted atom. -/
def uncounted : Lexeme → Nat
  | atom spelling =>
    match spelling.toList with
    | quote :: body => if Scanner.isQuote quote then bodyFeeds quote body else 0
    | [] => 0
  | _ => 0

end Lexeme

def uncounted (lexemes : List Located) : Nat := (lexemes.map (·.lexeme.uncounted)).sum

theorem uncounted_append (a b : List Located) : uncounted (a ++ b) = uncounted a + uncounted b := by
  simp [uncounted]

theorem uncounted_reverse (a : List Located) : uncounted a.reverse = uncounted a := by
  simp [uncounted]

theorem uncounted_cons (x : Located) (a : List Located) :
    uncounted (x :: a) = x.lexeme.uncounted + uncounted a := by
  simp [uncounted]

theorem escapedFeeds_cons {c : Char} (h : c ≠ '\\') (rest : List Char) :
    escapedFeeds (c :: rest) = escapedFeeds rest := by
  rw [escapedFeeds]
  rintro _ _ rfl
  exact absurd rfl h

theorem escapedFeeds_append {quote : Char} {body : List Char} (h : Escaped quote body)
    (rest : List Char) : escapedFeeds (body ++ rest) = escapedFeeds body + escapedFeeds rest := by
  induction h with
  | nil => exact (Nat.zero_add _).symm
  | char _ hslash _ ih => rw [List.cons_append, escapedFeeds_cons hslash, escapedFeeds_cons hslash, ih]
  | escape c _ ih =>
    rw [List.cons_append, List.cons_append, escapedFeeds, escapedFeeds, ih, Nat.add_assoc]

theorem Escaped.append {quote : Char} {a b : List Char} (ha : Escaped quote a)
    (hb : Escaped quote b) : Escaped quote (a ++ b) := by
  induction ha with
  | nil => exact hb
  | char hquote hslash _ ih => exact .char hquote hslash ih
  | escape c _ ih => exact .escape c ih

/-- A character that neither escapes nor ends the atom adds nothing. -/
theorem bodyFeeds_char {quote c : Char} {body : List Char}
    (hbody : quote ≠ '\x60' → Escaped quote body) (hslash : c = '\\' → quote = '\x60') :
    bodyFeeds quote (body ++ [c]) = bodyFeeds quote body := by
  unfold bodyFeeds
  by_cases htick : quote = '\x60'
  · rw [if_pos htick, if_pos htick]
  · rw [if_neg htick, if_neg htick, escapedFeeds_append (hbody htick),
      escapedFeeds_cons (fun hc => htick (hslash hc))]
    rfl

theorem bodyFeeds_escape {quote c : Char} {body : List Char} (htick : quote ≠ '\x60')
    (hbody : Escaped quote body) :
    bodyFeeds quote (body ++ ['\\', c]) = bodyFeeds quote body + if c = '\n' then 1 else 0 := by
  unfold bodyFeeds
  rw [if_neg htick, if_neg htick, escapedFeeds_append hbody]
  rfl

theorem uncounted_quoted {quote : Char} (h : Scanner.isQuote quote = true) (body : List Char) :
    (Lexeme.atom (String.ofList (quote :: body))).uncounted = bodyFeeds quote body := by
  simp [Lexeme.uncounted, h]

theorem uncounted_plain {first : Char} (h : Scanner.isQuote first = false) (more : List Char) :
    (Lexeme.atom (String.ofList (first :: more))).uncounted = 0 := by
  simp [Lexeme.uncounted, h]

/-! ## Where lexemes stand -/

/-- A lexeme stands behind the text `before`, whose lexemes are `front`.  Its line is
the one that it ends on, less the line feeds that were escaped up to there. -/
structure Stands (before : List Char) (front : List Located) (x : Located) : Prop where
  before_eq : (lexemes before).1 = front
  behind_eq : (lexemes (before ++ x.lexeme.chars)).1 = front ++ [x]
  isQuote_of_unterminated : ∀ quote, x.lexeme = .unterminated quote → Scanner.isQuote quote = true
  line_eq : x.line + uncounted (front ++ [x]) = 1 + (before ++ x.lexeme.chars).count '\n'

/-- Each of a list of lexemes stands somewhere in a text, behind those before it. -/
def AllStand (text : List Char) (located : List Located) : Prop :=
  ∀ front x back, located = front ++ x :: back →
    ∃ before, before ++ x.lexeme.chars <+: text ∧ Stands before front x

theorem allStand_nil (text : List Char) : AllStand text [] := by
  intro front x back heq
  exact absurd heq (by simp)

theorem AllStand.append {text : List Char} {located : List Located} (h : AllStand text located)
    (more : List Char) : AllStand (text ++ more) located := by
  intro front x back heq
  obtain ⟨before, hstart, hstands⟩ := h front x back heq
  exact ⟨before, hstart.trans (List.prefix_append ..), hstands⟩

theorem AllStand.concat {text before : List Char} {located : List Located} {x : Located}
    (h : AllStand text located) (hstart : before ++ x.lexeme.chars <+: text)
    (hx : Stands before located x) : AllStand text (located ++ [x]) := by
  intro front y back heq
  rcases List.eq_nil_or_concat back with rfl | ⟨back, z, rfl⟩
  · obtain ⟨rfl, hxy⟩ := List.append_inj' heq rfl
    obtain rfl := (List.cons.inj hxy).1
    exact ⟨before, hstart, hx⟩
  · rw [List.concat_eq_append, ← List.cons_append, ← List.append_assoc] at heq
    exact h front y back (List.append_inj' heq rfl).1

/-! ## The scanner keeps the lines -/

namespace Scanner

/-- A quote was opened behind `before`, and `body` has been read since. -/
structure Opened (text : List Char) (done : List Located) (quote : Char) (opened : Nat)
    (before body : List Char) : Prop where
  text_eq : text = before ++ quote :: body
  isQuote_quote : isQuote quote = true
  stands : Stands before done.reverse ⟨.unterminated quote, opened⟩

/-- What the scanner is inside of, and how far its line is off there. -/
def Held (text : List Char) (s : Scanner) : Prop :=
  match s.inside with
  | .nothing => s.line + uncounted s.done = 1 + text.count '\n'
  | .plain atom =>
    ∃ before first more, text = before ++ first :: more ∧ atom.reverse = first :: more ∧
      isQuote first = false ∧ (lexemes before).1 = s.done.reverse ∧
      s.line + uncounted s.done = 1 + text.count '\n'
  | .quoted quote opened atom =>
    ∃ before body, Opened text s.done quote opened before body ∧ atom.reverse = quote :: body ∧
      (quote ≠ '\x60' → Escaped quote body) ∧
      s.line + uncounted s.done + bodyFeeds quote body = 1 + text.count '\n'
  | .escaped quote opened atom =>
    ∃ before body, Opened text s.done quote opened before (body ++ ['\\']) ∧
      atom.reverse = quote :: (body ++ ['\\']) ∧ quote ≠ '\x60' ∧ Escaped quote body ∧
      s.line + uncounted s.done + bodyFeeds quote body = 1 + text.count '\n'

/-- The scanner behind a text. -/
structure Tracks (text : List Char) (s : Scanner) : Prop where
  stand : AllStand text s.done.reverse
  held : s.Held text

theorem count_feed_concat {c : Char} (h : c ≠ '\n') (text : List Char) :
    (text ++ [c]).count '\n' = text.count '\n' := by
  rw [List.count_append, List.count_singleton, beq_false_of_ne h]
  rfl

theorem isQuote_ne_feed {quote : Char} (h : isQuote quote = true) : quote ≠ '\n' := by
  rintro rfl
  exact absurd h (by decide)

theorem isQuote_ne_slash {quote : Char} (h : isQuote quote = true) : quote ≠ '\\' := by
  rintro rfl
  exact absurd h (by decide)

section steps

variable {text : List Char} {line : Nat} {done : List Located} {c : Char}

/-- One character that is a lexeme, and from which no line feed is missing. -/
theorem stands_single {lexeme : Lexeme} (hdone : (lexemes text).1 = done.reverse)
    (hline : line + uncounted done = 1 + text.count '\n') (hfeed : c ≠ '\n')
    (hchars : lexeme.chars = [c]) (huncounted : lexeme.uncounted = 0)
    (hquote : ∀ quote, lexeme = .unterminated quote → isQuote quote = true)
    (hbehind : (lexemes (text ++ [c])).1 = done.reverse ++ [⟨lexeme, line⟩]) :
    Stands text done.reverse ⟨lexeme, line⟩ where
  before_eq := hdone
  behind_eq := by rw [hchars]; exact hbehind
  isQuote_of_unterminated := hquote
  line_eq := by
    rw [hchars, count_feed_concat hfeed, uncounted_append, uncounted_reverse, ← hline,
      uncounted_cons, huncounted]
    rfl

/-- Behind a lexeme that is complete. -/
theorem tracks_emit {before : List Char} {x : Located} (hstand : AllStand text done.reverse)
    (htext : text = before ++ x.lexeme.chars) (hx : Stands before done.reverse x) :
    Tracks text ⟨.nothing, x.line, x :: done⟩ where
  stand := by
    rw [List.reverse_cons]
    exact hstand.concat (by rw [htext]) hx
  held := by
    show x.line + uncounted (x :: done) = _
    rw [htext, ← hx.line_eq, ← List.reverse_cons, uncounted_reverse]

theorem tracks_between (hstand : AllStand text done.reverse)
    (hdone : (lexemes text).1 = done.reverse)
    (hline : line + uncounted done = 1 + text.count '\n')
    (hfinish : (lexemes (text ++ [c])).1 = (between line done c).finish) :
    Tracks (text ++ [c]) (between line done c) := by
  have hstand' : AllStand (text ++ [c]) done.reverse := hstand.append [c]
  unfold between at hfinish ⊢
  by_cases hfeed : c = '\n'
  · subst hfeed
    rw [if_pos rfl]
    refine ⟨hstand', ?_⟩
    show line + 1 + uncounted done = _
    rw [List.count_append, List.count_singleton_self]
    omega
  have hcount : (text ++ [c]).count '\n' = text.count '\n' := count_feed_concat hfeed text
  rw [if_neg hfeed] at hfinish ⊢
  by_cases hblank : Text.isAsciiBlank c = true
  · rw [if_pos hblank]
    exact ⟨hstand', by show line + uncounted done = _; rw [hcount, hline]⟩
  rw [if_neg hblank] at hfinish ⊢
  by_cases hopening : c = '('
  · subst hopening
    rw [if_pos rfl] at hfinish ⊢
    have hstands : Stands text done.reverse ⟨.opening, line⟩ :=
      stands_single hdone hline hfeed rfl rfl nofun (hfinish.trans List.reverse_cons)
    exact tracks_emit hstand' rfl hstands
  rw [if_neg hopening] at hfinish ⊢
  by_cases hclosing : c = ')'
  · subst hclosing
    rw [if_pos rfl] at hfinish ⊢
    have hstands : Stands text done.reverse ⟨.closing, line⟩ :=
      stands_single hdone hline hfeed rfl rfl nofun (hfinish.trans List.reverse_cons)
    exact tracks_emit hstand' rfl hstands
  rw [if_neg hclosing] at hfinish ⊢
  by_cases hquote : isQuote c = true
  · rw [if_pos hquote] at hfinish ⊢
    have hopens (quote : Char) (heq : Lexeme.unterminated c = .unterminated quote) :
        isQuote quote = true := Lexeme.unterminated.inj heq ▸ hquote
    have hstands : Stands text done.reverse ⟨.unterminated c, line⟩ :=
      stands_single hdone hline hfeed rfl rfl hopens (hfinish.trans List.reverse_cons)
    refine ⟨hstand', text, [], ⟨rfl, hquote, hstands⟩, rfl, fun _ => .nil, ?_⟩
    have hnone : bodyFeeds c [] = 0 := by unfold bodyFeeds; split <;> rfl
    rw [hnone, hcount]
    exact hline
  · rw [if_neg hquote]
    refine ⟨hstand', text, c, [], rfl, rfl, Bool.eq_false_iff.2 hquote, hdone, ?_⟩
    rw [hcount]
    exact hline

theorem spell_toList (atom : List Char) : (spell atom).toList = atom.reverse := String.toList_ofList

/-- A plain atom stands where it started, and misses no line feed. -/
theorem stands_plain {before : List Char} {first : Char} {more atom : List Char}
    (htext : text = before ++ first :: more) (hatom : atom.reverse = first :: more)
    (hfirst : isQuote first = false) (hbefore : (lexemes before).1 = done.reverse)
    (hline : line + uncounted done = 1 + text.count '\n')
    (hfinish : (lexemes text).1 = done.reverse ++ [⟨.atom (spell atom), line⟩]) :
    Stands before done.reverse ⟨.atom (spell atom), line⟩ := by
  have hchars : before ++ (spell atom).toList = text := by rw [spell_toList, hatom, htext]
  have hnone : (Lexeme.atom (spell atom)).uncounted = 0 := by
    rw [spell, hatom, uncounted_plain hfirst]
  refine ⟨hbefore, ?_, fun _ h => Lexeme.noConfusion h, ?_⟩
  · show (lexemes (before ++ (spell atom).toList)).1 = _
    rw [hchars, hfinish]
  · show _ = 1 + (before ++ (spell atom).toList).count '\n'
    rw [hchars, uncounted_append, uncounted_reverse, uncounted_cons, hnone, ← hline]
    rfl

/-- A quoted atom that ends with `c`, the quote that opened it. -/
theorem stands_quoted {before body atom : List Char} {quote : Char} {opened : Nat}
    (hopened : Opened text done quote opened before body) (hatom : atom.reverse = quote :: body)
    (hbody : quote ≠ '\x60' → Escaped quote body)
    (hline : line + uncounted done + bodyFeeds quote body = 1 + text.count '\n')
    (hfinish : (lexemes (text ++ [quote])).1 =
      done.reverse ++ [⟨.atom (spell (quote :: atom)), line⟩]) :
    Stands before done.reverse ⟨.atom (spell (quote :: atom)), line⟩ := by
  have hspell : (quote :: atom).reverse = quote :: (body ++ [quote]) := by
    rw [List.reverse_cons, hatom, List.cons_append]
  have hchars : before ++ (spell (quote :: atom)).toList = text ++ [quote] := by
    rw [spell_toList, hspell, hopened.text_eq]
    simp
  have hcount : (text ++ [quote]).count '\n' = text.count '\n' :=
    count_feed_concat (isQuote_ne_feed hopened.isQuote_quote) text
  have hfeeds : (Lexeme.atom (spell (quote :: atom))).uncounted = bodyFeeds quote body := by
    rw [spell, hspell, uncounted_quoted hopened.isQuote_quote, bodyFeeds_char hbody]
    exact fun hslash => absurd hslash (isQuote_ne_slash hopened.isQuote_quote)
  refine ⟨hopened.stands.before_eq, ?_, fun _ h => Lexeme.noConfusion h, ?_⟩
  · show (lexemes (before ++ (spell (quote :: atom)).toList)).1 = _
    rw [hchars, hfinish]
  · show _ = 1 + (before ++ (spell (quote :: atom)).toList).count '\n'
    rw [hchars, hcount, uncounted_append, uncounted_reverse, uncounted_cons, hfeeds, ← hline]
    exact (Nat.add_assoc ..).symm

theorem Opened.concat {before body : List Char} {quote : Char} {opened : Nat}
    (h : Opened text done quote opened before body) (c : Char) :
    Opened (text ++ [c]) done quote opened before (body ++ [c]) where
  text_eq := by rw [h.text_eq, List.append_assoc, List.cons_append]
  isQuote_quote := h.isQuote_quote
  stands := h.stands

end steps

/-- A plain atom is complete where anything ends it. -/
theorem tracks_plain {text : List Char} {line : Nat} {done : List Located} {atom : List Char}
    (h : Tracks text ⟨.plain atom, line, done⟩)
    (hlexemes : (lexemes text).1 = finish ⟨.plain atom, line, done⟩) :
    Tracks text ⟨.nothing, line, ⟨.atom (spell atom), line⟩ :: done⟩ := by
  obtain ⟨hstand, before, first, more, htext, hatom, hfirst, hbefore, hline⟩ := h
  have hx : Stands before done.reverse ⟨.atom (spell atom), line⟩ :=
    stands_plain htext hatom hfirst hbefore hline (hlexemes.trans List.reverse_cons)
  exact tracks_emit hstand (by rw [htext, ← hatom, ← spell_toList]; rfl) hx

theorem tracks_step_plain {text : List Char} {line : Nat} {done : List Located} {atom : List Char}
    {c : Char} (h : Tracks text ⟨.plain atom, line, done⟩)
    (hlexemes : (lexemes text).1 = finish ⟨.plain atom, line, done⟩)
    (hfinish : (lexemes (text ++ [c])).1 = (step ⟨.plain atom, line, done⟩ c).finish) :
    Tracks (text ++ [c]) (step ⟨.plain atom, line, done⟩ c) := by
  unfold step at hfinish ⊢
  dsimp only at hfinish ⊢
  by_cases hends : (Text.isAsciiBlank c || c = '(' || c = ')') = true
  · have hplain := tracks_plain h hlexemes
    rw [if_pos hends] at hfinish ⊢
    exact tracks_between hplain.stand hlexemes hplain.held hfinish
  · obtain ⟨hstand, before, first, more, htext, hatom, hfirst, hbefore, hline⟩ := h
    have hfeed : c ≠ '\n' := by
      rintro rfl
      exact hends (by decide)
    rw [if_neg hends]
    refine ⟨hstand.append [c], before, first, more ++ [c], ?_, ?_, hfirst, hbefore, ?_⟩
    · rw [htext, List.append_assoc, List.cons_append]
    · rw [List.reverse_cons, hatom, List.cons_append]
    · rw [count_feed_concat hfeed]
      exact hline

theorem tracks_step_quoted {text : List Char} {line : Nat} {done : List Located} {quote : Char}
    {opened : Nat} {atom : List Char} {c : Char}
    (h : Tracks text ⟨.quoted quote opened atom, line, done⟩)
    (hfinish : (lexemes (text ++ [c])).1 = (step ⟨.quoted quote opened atom, line, done⟩ c).finish) :
    Tracks (text ++ [c]) (step ⟨.quoted quote opened atom, line, done⟩ c) := by
  obtain ⟨hstand, before, body, hopened, hatom, hbody, hline⟩ := h
  have hconcat : (c :: atom).reverse = quote :: (body ++ [c]) := by
    rw [List.reverse_cons, hatom, List.cons_append]
  rw [step_quoted_eq] at hfinish ⊢
  dsimp only at hstand hopened hline
  by_cases hslash : (c = '\\' && quote ≠ '\x60') = true
  · rw [if_pos hslash]
    simp only [Bool.and_eq_true, decide_eq_true_eq] at hslash
    obtain ⟨rfl, htick⟩ := hslash
    refine ⟨hstand.append _, before, body, hopened.concat _, hconcat, htick, hbody htick, ?_⟩
    rw [count_feed_concat (by decide)]
    exact hline
  rw [if_neg hslash] at hfinish ⊢
  have htick : c = '\\' → quote = '\x60' := by
    rintro rfl
    by_contra hne
    exact hslash (by simp [hne])
  have hfeeds : bodyFeeds quote (body ++ [c]) = bodyFeeds quote body := bodyFeeds_char hbody htick
  have hchar (hquote : c ≠ quote) : quote ≠ '\x60' → Escaped quote (body ++ [c]) := fun hne =>
    (hbody hne).append (.char hquote (fun hc => hne (htick hc)) .nil)
  by_cases hfeed : c = '\n'
  · have hne : c ≠ quote := by rw [hfeed]; exact (isQuote_ne_feed hopened.isQuote_quote).symm
    rw [if_pos hfeed]
    refine ⟨hstand.append _, before, body ++ [c], hopened.concat c, hconcat, hchar hne, ?_⟩
    show line + 1 + uncounted done + bodyFeeds quote (body ++ [c]) = _
    rw [hfeeds, hfeed, List.count_append, List.count_singleton_self]
    omega
  rw [if_neg hfeed] at hfinish ⊢
  by_cases hquote : c = quote
  · subst hquote
    rw [if_pos rfl] at hfinish ⊢
    have hx : Stands before done.reverse ⟨.atom (spell (c :: atom)), line⟩ :=
      stands_quoted hopened hatom hbody hline (hfinish.trans List.reverse_cons)
    have htext : text ++ [c] = before ++ (spell (c :: atom)).toList := by
      rw [spell_toList, hconcat, hopened.text_eq, List.append_assoc, List.cons_append]
    exact tracks_emit (hstand.append [c]) htext hx
  · rw [if_neg hquote]
    refine ⟨hstand.append _, before, body ++ [c], hopened.concat c, hconcat, hchar hquote, ?_⟩
    rw [hfeeds, count_feed_concat hfeed]
    exact hline

theorem tracks_step_escaped {text : List Char} {line : Nat} {done : List Located} {quote : Char}
    {opened : Nat} {atom : List Char} {c : Char}
    (h : Tracks text ⟨.escaped quote opened atom, line, done⟩) :
    Tracks (text ++ [c]) (step ⟨.escaped quote opened atom, line, done⟩ c) := by
  obtain ⟨hstand, before, body, hopened, hatom, htick, hbody, hline⟩ := h
  have hpair : body ++ ['\\'] ++ [c] = body ++ ['\\', c] := by rw [List.append_assoc]; rfl
  have hopened' := hopened.concat c
  rw [hpair] at hopened'
  refine ⟨hstand.append [c], before, body ++ ['\\', c], hopened', ?_, ?_, ?_⟩
  · rw [List.reverse_cons, hatom, List.cons_append, hpair]
  · exact fun _ => hbody.append (.escape c .nil)
  · show line + uncounted done + bodyFeeds quote (body ++ ['\\', c]) = _
    dsimp only at hline
    rw [bodyFeeds_escape htick hbody, List.count_append, List.count_singleton]
    simp only [beq_iff_eq]
    omega

/-- The scanner behind a text and the scanner behind one more character. -/
theorem tracks_step {text : List Char} {c : Char} (h : Tracks text (text.foldl step start)) :
    Tracks (text ++ [c]) ((text ++ [c]).foldl step start) := by
  have hlexemes : (lexemes text).1 = (text.foldl step start).finish := rfl
  have hfinish : (lexemes (text ++ [c])).1 = ((text.foldl step start).step c).finish := by
    rw [lexemes, List.foldl_append]
    rfl
  rw [List.foldl_append]
  show Tracks (text ++ [c]) ((text.foldl step start).step c)
  generalize text.foldl step start = s at h hlexemes hfinish
  obtain ⟨inside, line, done⟩ := s
  cases inside with
  | nothing => exact tracks_between h.stand hlexemes h.held hfinish
  | plain atom => exact tracks_step_plain h hlexemes hfinish
  | quoted quote opened atom => exact tracks_step_quoted h hfinish
  | escaped quote opened atom => exact tracks_step_escaped h

theorem tracks_foldl (text : List Char) : Tracks text (text.foldl step start) := by
  induction text using List.reverseRecOn with
  | nil => exact ⟨allStand_nil [], rfl⟩
  | append_singleton text c ih => exact tracks_step ih

theorem Opened.allStand {text before body : List Char} {done : List Located} {quote : Char}
    {opened : Nat} (h : Opened text done quote opened before body)
    (hstand : AllStand text done.reverse) :
    AllStand text (done.reverse ++ [⟨.unterminated quote, opened⟩]) := by
  refine hstand.concat ⟨body, ?_⟩ h.stands
  rw [h.text_eq, List.append_assoc]
  rfl

end Scanner

/-- Every lexeme of a text stands where the lexemes before it end. -/
theorem allStand_lexemes (text : List Char) : AllStand text (lexemes text).1 := by
  have htracks := Scanner.tracks_foldl text
  have hlexemes : (lexemes text).1 = (text.foldl Scanner.step .start).finish := rfl
  generalize text.foldl Scanner.step .start = s at htracks hlexemes
  obtain ⟨inside, line, done⟩ := s
  cases inside with
  | nothing =>
    rw [hlexemes]
    exact htracks.stand
  | plain atom =>
    rw [hlexemes]
    exact (Scanner.tracks_plain htracks hlexemes).stand
  | quoted quote opened atom =>
    obtain ⟨hstand, before, body, hopened, -⟩ := htracks
    rw [hlexemes.trans List.reverse_cons]
    exact hopened.allStand hstand
  | escaped quote opened atom =>
    obtain ⟨hstand, before, body, hopened, -⟩ := htracks
    rw [hlexemes.trans List.reverse_cons]
    exact hopened.allStand hstand

/-- Where every quote is closed, the line of the end is as far off as the lexemes say. -/
theorem line_lexemes {text : List Char}
    (h : ∀ x ∈ (lexemes text).1, ∀ quote, x.lexeme ≠ .unterminated quote) :
    (lexemes text).2 + uncounted (lexemes text).1 = 1 + text.count '\n' := by
  have htracks := Scanner.tracks_foldl text
  have hlexemes : (lexemes text).1 = (text.foldl Scanner.step .start).finish := rfl
  have hline : (lexemes text).2 = (text.foldl Scanner.step .start).line := rfl
  generalize text.foldl Scanner.step .start = s at htracks hlexemes hline
  obtain ⟨inside, line, done⟩ := s
  have hopen (quote : Char) (opened : Nat) :
      (lexemes text).1 ≠ (⟨.unterminated quote, opened⟩ :: done).reverse := fun heq =>
    h ⟨.unterminated quote, opened⟩ (by rw [heq]; simp) quote rfl
  cases inside with
  | nothing =>
    rw [hline, hlexemes]
    show line + uncounted done.reverse = _
    rw [uncounted_reverse]
    exact htracks.held
  | plain atom =>
    rw [hline, hlexemes]
    show line + uncounted (_ :: done).reverse = _
    rw [uncounted_reverse]
    exact (Scanner.tracks_plain htracks hlexemes).held
  | quoted quote opened atom => exact absurd hlexemes (hopen quote opened)
  | escaped quote opened atom => exact absurd hlexemes (hopen quote opened)

/-! ## The lines of faults -/

theorem FirstFault.faultAt {limit line : Nat} {before after : List Located} {fault : Fault}
    (h : FirstFault limit line before after fault) :
    ∃ front back, after = front ++ back ∧ FaultAt limit line (before ++ front) back fault := by
  induction h with
  | @here before after fault h => exact ⟨[], after, rfl, by rwa [List.append_nil]⟩
  | later _ _ ih =>
    obtain ⟨front, back, rfl, hfault⟩ := ih
    refine ⟨_ :: front, back, rfl, ?_⟩
    rwa [List.append_assoc] at hfault

/-- The reader complains about something that is wrong behind some of the lexemes. -/
theorem faultAt_of_readTreeString {limit : Nat} {text : List Char} {fault : Fault}
    (h : readTreeString limit text = .error fault) :
    ∃ front back, (lexemes text).1 = front ++ back ∧
      FaultAt limit (lexemes text).2 front back fault := by
  have hread : readForest limit (lexemes text).2 .empty (lexemes text).1 = .error fault := by
    have hmap : joinForest <$> readForest limit (lexemes text).2 .empty (lexemes text).1 =
      .error fault := h
    cases hforest : readForest limit (lexemes text).2 .empty (lexemes text).1 with
    | ok forest => rw [hforest] at hmap; cases hmap
    | error other => rw [hforest] at hmap; cases hmap; rfl
  have hempty : openings [] = closings [] + (Builder.empty : Builder Token).depth := rfl
  exact ((readForest_error_iff hempty).1 hread).faultAt

/-- A lexeme that is in a text, with the text on both sides of it. -/
theorem stands_of_lexemes {text : List Char} {front back : List Located} {x : Located}
    (h : (lexemes text).1 = front ++ x :: back) :
    ∃ before after, text = before ++ (x.lexeme.chars ++ after) ∧ Stands before front x := by
  obtain ⟨before, ⟨after, htext⟩, hstands⟩ := allStand_lexemes text front x back h
  exact ⟨before, after, by rw [← htext, List.append_assoc], hstands⟩

/-- A lexeme of one character that is no line feed is on the line it stands on, if
nothing before it was escaped. -/
theorem Stands.line_of_single {before : List Char} {front : List Located} {x : Located} {c : Char}
    (h : Stands before front x) (hchars : x.lexeme.chars = [c]) (hfeed : c ≠ '\n')
    (hnone : x.lexeme.uncounted = 0) :
    x.line + uncounted front = 1 + before.count '\n' := by
  have hline := h.line_eq
  rw [hchars, Scanner.count_feed_concat hfeed, uncounted_append, uncounted_cons, hnone] at hline
  exact hline

/-- Where a text complains about a closing parenthesis. -/
theorem line_of_unbalanced {limit line : Nat} {text : List Char}
    (h : readTreeString limit text = .error (.malformed .unbalanced line)) :
    ∃ before after, text = before ++ ')' :: after ∧ openBehind (lexemes before).1 = 0 ∧
      (lexemes (before ++ [')'])).1 = (lexemes before).1 ++ [⟨.closing, line⟩] ∧
      line + uncounted (lexemes before).1 = 1 + before.count '\n' := by
  obtain ⟨front, back, hlexemes, hfault⟩ := faultAt_of_readTreeString h
  cases hfault with
  | unbalanced hopen =>
    obtain ⟨before, after, htext, hstands⟩ := stands_of_lexemes hlexemes
    have hline := hstands.line_of_single rfl (by decide) rfl
    have hbehind := hstands.behind_eq
    rw [← hstands.before_eq] at hopen hline hbehind
    exact ⟨before, after, htext, hopen, hbehind, hline⟩

/-- Where a text complains about a quote. -/
theorem line_of_unterminated {limit line : Nat} {quote : Char} {text : List Char}
    (h : readTreeString limit text = .error (.malformed (.unterminated quote) line)) :
    ∃ before after, text = before ++ quote :: after ∧
      (lexemes (before ++ [quote])).1 = (lexemes before).1 ++ [⟨.unterminated quote, line⟩] ∧
      line + uncounted (lexemes before).1 = 1 + before.count '\n' := by
  obtain ⟨front, back, hlexemes, hfault⟩ := faultAt_of_readTreeString h
  cases hfault with
  | unterminated =>
    obtain ⟨before, after, htext, hstands⟩ := stands_of_lexemes hlexemes
    have hquote := hstands.isQuote_of_unterminated quote rfl
    have hline := hstands.line_of_single rfl (Scanner.isQuote_ne_feed hquote) rfl
    have hbehind := hstands.behind_eq
    rw [← hstands.before_eq] at hline hbehind
    exact ⟨before, after, htext, hbehind, hline⟩

/-- The lines that lexemes and faults carry.  A lexeme carries the line that it ends
on, the end of a text without an open quote its own, and the complaints about a
parenthesis or about a quote theirs, each less the line feeds that were escaped in
quoted atoms up to there.  So a line is right exactly where there were none. -/
theorem readTreeString_lines (limit : Nat) (text : List Char) :
    (∀ front x back, (lexemes text).1 = front ++ x :: back →
      ∃ before after, text = before ++ (x.lexeme.chars ++ after) ∧ Stands before front x ∧
        (x.line = 1 + (before ++ x.lexeme.chars).count '\n' ↔ uncounted (front ++ [x]) = 0)) ∧
    ((∀ x ∈ (lexemes text).1, ∀ quote, x.lexeme ≠ .unterminated quote) →
      (lexemes text).2 + uncounted (lexemes text).1 = 1 + text.count '\n') ∧
    (∀ line, readTreeString limit text = .error (.malformed .unbalanced line) →
      ∃ before after, text = before ++ ')' :: after ∧ openBehind (lexemes before).1 = 0 ∧
        (lexemes (before ++ [')'])).1 = (lexemes before).1 ++ [⟨.closing, line⟩] ∧
        line + uncounted (lexemes before).1 = 1 + before.count '\n') ∧
    ∀ quote line, readTreeString limit text = .error (.malformed (.unterminated quote) line) →
      ∃ before after, text = before ++ quote :: after ∧
        (lexemes (before ++ [quote])).1 = (lexemes before).1 ++ [⟨.unterminated quote, line⟩] ∧
        line + uncounted (lexemes before).1 = 1 + before.count '\n' := by
  refine ⟨?_, line_lexemes, fun _ => line_of_unbalanced, fun _ _ => line_of_unterminated⟩
  intro front x back hlexemes
  obtain ⟨before, after, htext, hstands⟩ := stands_of_lexemes hlexemes
  have hline := hstands.line_eq
  exact ⟨before, after, htext, hstands, by omega⟩

/-- A line feed that is escaped, and one that is not, in front of a parenthesis too many. -/
theorem readTreeString_lines_escaped :
    readTreeString 8 "(a 'x\\\ny'\n))".toList = .error (.malformed .unbalanced 2) ∧
      ∃ before after, "(a 'x\\\ny'\n))".toList = before ++ ')' :: after ∧
        openBehind (lexemes before).1 = 0 ∧
        (lexemes (before ++ [')'])).1 = (lexemes before).1 ++ [⟨.closing, 2⟩] ∧
        2 + uncounted (lexemes before).1 = 1 + before.count '\n' :=
  have hread : readTreeString 8 "(a 'x\\\ny'\n))".toList = .error (.malformed .unbalanced 2) := by
    cbv
  ⟨hread, (readTreeString_lines 8 _).2.2.1 2 hread⟩

/-- Behind an escaped line feed, lexemes and complaints are on a line too early. -/
theorem not_forall_readTreeString_lines :
    ¬ ∀ (limit : Nat) (text : List Char),
      (∀ front x back, (lexemes text).1 = front ++ x :: back →
        ∃ before after, text = before ++ (x.lexeme.chars ++ after) ∧
          (lexemes before).1 = front ∧
          (lexemes (before ++ x.lexeme.chars)).1 = front ++ [x] ∧
          x.line = 1 + (before ++ x.lexeme.chars).count '\n') ∧
      (∀ line, readTreeString limit text = .error (.malformed .unbalanced line) →
        ∃ before after, text = before ++ ')' :: after ∧ line = 1 + before.count '\n') ∧
      ∀ quote line, readTreeString limit text = .error (.malformed (.unterminated quote) line) →
        ∃ before after, text = before ++ quote :: after ∧ line = 1 + before.count '\n' := by
  intro h
  have hread : readTreeString 8 "(a 'x\\\ny'))".toList = .error (.malformed .unbalanced 1) := by cbv
  obtain ⟨before, after, htext, hline⟩ := (h 8 _).2.1 1 hread
  have hnone : '\n' ∉ before := List.count_eq_zero.1 (by omega)
  -- what stands in front of the line feed has no parenthesis
  have htake : ("(a 'x\\\ny'))".toList.takeWhile (· ≠ '\n')) = "(a 'x\\".toList := by decide
  rw [htext, List.takeWhile_append_of_pos (by simpa using fun c hc => ne_of_mem_of_not_mem hc hnone)]
    at htake
  have hmem : ')' ∈ "(a 'x\\".toList := by rw [← htake]; simp
  exact absurd hmem (by decide)

end Hive
end Lineage
