import Lineage.Proofs.Hive.Cursor

/-
The pieces of a text that a cursor hands out.

One call takes the characters of one lexeme, from one boundary between characters to the
next, and the scanner, which takes whole characters, goes on behind them.  By induction
on the calls every piece that is handed out lies between two boundaries, and the pieces
are the lexemes of the scanner.
-/

namespace Lineage
namespace Hive

open Text (encode)

/-! ## One lexeme -/

def Lexeme.form : Lexeme → Form
  | opening => .opening
  | closing => .closing
  | atom _ => .atom
  | unterminated _ => .unterminated

/-- The span of a lexeme that starts at a place. -/
def spanAt (pos : Nat) (x : Located) : Span :=
  ⟨x.lexeme.form, pos, pos + (encode x.lexeme.chars).length, x.line⟩

namespace Scanner

/-- The lexemes that a scanner has at the end of a text, and its line there. -/
def outcome (s : Scanner) (text : List Char) : List Located × Nat :=
  ((text.foldl step s).finish, (text.foldl step s).line)

theorem outcome_append (s : Scanner) (a b : List Char) :
    s.outcome (a ++ b) = (a.foldl step s).outcome b := by
  rw [outcome, outcome, List.foldl_append]

theorem foldl_step_blank {gap : List Char} (h : Blank gap) (line : Nat) (done : List Located) :
    gap.foldl step ⟨.nothing, line, done⟩ = ⟨.nothing, line + gap.count '\n', done⟩ := by
  induction gap generalizing line with
  | nil => rfl
  | cons c gap ih =>
    have hc := h c List.mem_cons_self
    have hstep : step ⟨.nothing, line, done⟩ c = ⟨.nothing, line + [c].count '\n', done⟩ := by
      show between line done c = _
      by_cases hfeed : c = '\n'
      · rw [between, if_pos hfeed, hfeed]
        rfl
      · rw [between, if_neg hfeed, if_pos hc, List.count_singleton, beq_false_of_ne hfeed]
        rfl
    rw [List.foldl_cons, hstep, ih fun x hx => h x (List.mem_cons_of_mem _ hx), Nat.add_assoc,
      ← List.count_append]
    rfl

theorem foldl_step_plain {more : List Char} (h : ∀ c ∈ more, endsPlain c = false)
    (atom : List Char) (line : Nat) (done : List Located) :
    more.foldl step ⟨.plain atom, line, done⟩ = ⟨.plain (more.reverse ++ atom), line, done⟩ := by
  induction more generalizing atom with
  | nil => rfl
  | cons c more ih =>
    have hc : ¬ (Text.isAsciiBlank c || c = '(' || c = ')') = true :=
      Bool.eq_false_iff.1 (h c List.mem_cons_self)
    have hstep : step ⟨.plain atom, line, done⟩ c = ⟨.plain (c :: atom), line, done⟩ := if_neg hc
    rw [List.foldl_cons, hstep, ih fun x hx => h x (List.mem_cons_of_mem _ hx), List.reverse_cons,
      List.append_assoc]
    rfl

/-- Where a plain atom ends, the scanner goes on as between atoms. -/
theorem outcome_plain {text : List Char} (h : Breaks text) (atom : List Char) (line : Nat)
    (done : List Located) :
    outcome ⟨.plain atom, line, done⟩ text =
      outcome ⟨.nothing, line, ⟨.atom (spell atom), line⟩ :: done⟩ text := by
  cases text with
  | nil => rfl
  | cons c text =>
    have hc : (Text.isAsciiBlank c || c = '(' || c = ')') = true := h c rfl
    have hstep : step ⟨.plain atom, line, done⟩ c =
        step ⟨.nothing, line, ⟨.atom (spell atom), line⟩ :: done⟩ c := if_pos hc
    rw [outcome, outcome, List.foldl_cons, List.foldl_cons, hstep]

end Scanner

namespace Cursor

/-- What is taken at the start of `rest`, and how the scanner goes on there. -/
inductive Takes (c : Cursor) : Call → List Char → Prop where
  | ended : Takes c (.ended c.line) []
  | read {x : Located} {after : List Char} (hne : x.lexeme.chars ≠ [])
    (h : ∀ done, Scanner.outcome ⟨.nothing, c.line, done⟩ (x.lexeme.chars ++ after) =
      Scanner.outcome ⟨.nothing, x.line, x :: done⟩ after) :
    Takes c (.read (spanAt c.pos x) ⟨c.pos + (encode x.lexeme.chars).length, x.line⟩)
      (x.lexeme.chars ++ after)
  | failed {quote : Char} {after : List Char} (hquote : Scanner.isQuote quote = true)
    (h : ∀ done, (Scanner.outcome ⟨.nothing, c.line, done⟩ (quote :: after)).1 =
      (⟨.unterminated quote, c.line⟩ :: done).reverse) :
    Takes c (.failed (spanAt c.pos ⟨.unterminated quote, c.line⟩)) (quote :: after)

section takes

variable {bytes : List UInt8} {c : Cursor} {rest : List Char}

/-- A call that stops behind the characters of a lexeme of the scanner. -/
theorem takes_lexeme {x : Located} {chars : List Char} (hchars : x.lexeme.chars = chars)
    (hne : chars ≠ [])
    (htake : take bytes c = .read ⟨x.lexeme.form, c.pos, c.pos + (encode chars).length, x.line⟩
      ⟨c.pos + (encode chars).length, x.line⟩)
    (hscan : ∀ done, Scanner.outcome ⟨.nothing, c.line, done⟩ (chars ++ rest) =
      Scanner.outcome ⟨.nothing, x.line, x :: done⟩ rest) :
    Takes c (take bytes c) (chars ++ rest) := by
  subst hchars
  rw [htake]
  exact .read hne hscan

theorem chars_atom (atom : List Char) :
    (Lexeme.atom (Scanner.spell atom.reverse)).chars = atom := by
  show (Scanner.spell _).toList = _
  rw [Scanner.spell_toList, List.reverse_reverse]

theorem takes_parenthesis {p : Char} {lexeme : Lexeme}
    (hp : p = '(' ∧ lexeme = .opening ∨ p = ')' ∧ lexeme = .closing)
    (h : bytes.drop c.pos = encode (p :: rest)) : Takes c (take bytes c) (p :: rest) := by
  obtain ⟨hascii, hchars⟩ : p.toNat < 128 ∧ lexeme.chars = [p] := by
    rcases hp with ⟨rfl, rfl⟩ | ⟨rfl, rfl⟩ <;> exact ⟨by decide, rfl⟩
  have hlength : (encode [p]).length = 1 := by
    rw [Text.encode_ascii hascii]
    rfl
  obtain ⟨hpos, hb, -⟩ := ascii_of_drop h hascii
  have htake : take bytes c =
      .read ⟨lexeme.form, c.pos, c.pos + 1, c.line⟩ ⟨c.pos + 1, c.line⟩ := by
    rw [take, dif_pos hpos]
    rcases hp with ⟨rfl, rfl⟩ | ⟨rfl, rfl⟩ <;> simp only [hb] <;> rfl
  have hstep (done : List Located) : Scanner.step ⟨.nothing, c.line, done⟩ p =
      ⟨.nothing, c.line, ⟨lexeme, c.line⟩ :: done⟩ := by
    rcases hp with ⟨rfl, rfl⟩ | ⟨rfl, rfl⟩ <;> rfl
  refine takes_lexeme (x := ⟨lexeme, c.line⟩) hchars (List.cons_ne_nil _ _) (hlength ▸ htake)
    (fun done => ?_)
  rw [Scanner.outcome_append, List.foldl_cons, hstep]
  rfl

theorem takes_quoted {quote : Char} (hquote : Scanner.isQuote quote = true)
    (h : bytes.drop c.pos = encode (quote :: rest)) :
    Takes c (take bytes c) (quote :: rest) := by
  have hascii := ascii_of_isQuote hquote
  obtain ⟨hpos, hb, hdrop⟩ := ascii_of_drop h hascii
  have hopening : quote ≠ '(' := by
    rintro rfl
    exact absurd hquote (by decide)
  have hclosing : quote ≠ ')' := by
    rintro rfl
    exact absurd hquote (by decide)
  have htake : ∀ next, skipQuoted bytes quote ⟨c.pos + 1, c.line⟩ = some next →
      take bytes c = .read ⟨.atom, c.pos, next.pos, next.line⟩ next := by
    intro next hsome
    rw [take, dif_pos hpos]
    simp only [hb, if_neg hopening, if_neg hclosing, hquote, if_true, hsome]
  have hfail : skipQuoted bytes quote ⟨c.pos + 1, c.line⟩ = none →
      take bytes c = .failed ⟨.unterminated, c.pos, min (c.pos + 1) bytes.length, c.line⟩ := by
    intro hnone
    rw [take, dif_pos hpos]
    simp only [hb, if_neg hopening, if_neg hclosing, hquote, if_true, hnone]
  have hstep (done : List Located) : Scanner.step ⟨.nothing, c.line, done⟩ quote =
      ⟨.quoted quote c.line [quote], c.line, done⟩ := between_quote hquote
  rcases passesQuoted hquote c.line rest hdrop with
    ⟨body, after, line, rfl, hsome, hfold⟩ | ⟨hnone, hopen⟩
  · have hrest : quote :: (body ++ quote :: after) = (quote :: (body ++ [quote])) ++ after := by simp
    have hstop : c.pos + 1 + (encode (body ++ [quote])).length =
        c.pos + (encode (quote :: (body ++ [quote]))).length := by
      rw [Text.encode_ascii hascii, List.length_cons]
      omega
    rw [hrest]
    refine takes_lexeme (x := ⟨_, line⟩) (chars_atom _) (List.cons_ne_nil _ _)
      (hstop ▸ htake _ hsome) (fun done => ?_)
    rw [Scanner.outcome_append, List.foldl_cons, hstep, hfold]
    simp
  · have hmin : min (c.pos + 1) bytes.length = c.pos + (encode [quote]).length := by
      rw [Text.encode_ascii hascii]
      exact Nat.min_eq_left hpos
    rw [hfail hnone, hmin]
    refine .failed hquote (fun done => ?_)
    rw [Scanner.outcome, List.foldl_cons, hstep, hopen]

theorem takes_plain {first : Char} (hplain : endsPlain first = false)
    (hquote : Scanner.isQuote first = false) (h : bytes.drop c.pos = encode (first :: rest)) :
    Takes c (take bytes c) (first :: rest) := by
  obtain ⟨hpos, hb⟩ := first_of_drop h
  have hquoteByte := Text.byte_eq_false (fun _ => ascii_of_isQuote) hquote hb
  have hplainByte := Text.byte_eq_false (fun _ => ascii_of_endsPlain) hplain hb
  simp only [endsPlain, Bool.or_eq_false_iff, decide_eq_false_iff_not] at hplainByte
  obtain ⟨⟨-, hopening⟩, hclosing⟩ := hplainByte
  have htake : take bytes c =
      .read ⟨.atom, c.pos, skipPlain bytes c.pos, c.line⟩ ⟨skipPlain bytes c.pos, c.line⟩ := by
    rw [take, dif_pos hpos]
    simp only [if_neg hopening, if_neg hclosing, hquoteByte, Bool.false_eq_true, if_false]
  obtain ⟨more, hmore⟩ : ∃ more, more = rest.takeWhile (!endsPlain ·) := ⟨_, rfl⟩
  obtain ⟨after, hafter⟩ : ∃ after, after = rest.dropWhile (!endsPlain ·) := ⟨_, rfl⟩
  have hmorePlain : ∀ d ∈ more, endsPlain d = false := by
    intro d hd
    rw [hmore] at hd
    simpa using List.mem_takeWhile_imp hd
  have hbreaks : Breaks after := by
    intro d hd
    have hhead := List.head?_dropWhile_not (!endsPlain ·) rest
    rw [← hafter, Option.mem_def.1 hd] at hhead
    simpa using hhead
  have hrest : first :: rest = (first :: more) ++ after := by
    rw [hmore, hafter, List.cons_append, List.takeWhile_append_dropWhile]
  have hstop : skipPlain bytes c.pos = c.pos + (encode (first :: more)).length := by
    rw [skipPlain_eq (first :: rest) h, List.takeWhile_cons_of_pos (by simp [hplain]), ← hmore]
  have hstep (done : List Located) : Scanner.step ⟨.nothing, c.line, done⟩ first =
      ⟨.plain [first], c.line, done⟩ := between_plain hplain hquote
  rw [hrest]
  refine takes_lexeme (x := ⟨_, c.line⟩) (chars_atom _) (List.cons_ne_nil _ _) (hstop ▸ htake)
    (fun done => ?_)
  rw [Scanner.outcome_append, List.foldl_cons, hstep, Scanner.foldl_step_plain hmorePlain,
    Scanner.outcome_plain hbreaks, List.reverse_cons]

theorem takes (h : bytes.drop c.pos = encode rest)
    (hblank : ∀ first ∈ rest.head?, Text.isAsciiBlank first = false) :
    Takes c (take bytes c) rest := by
  cases rest with
  | nil =>
    rw [take, dif_neg (not_lt_of_drop h)]
    exact .ended
  | cons first rest =>
    cases hplain : endsPlain first with
    | false =>
      cases hquote : Scanner.isQuote first with
      | true => exact takes_quoted hquote h
      | false => exact takes_plain hplain hquote h
    | true =>
      simp only [endsPlain, hblank first rfl, Bool.false_or, Bool.or_eq_true,
        decide_eq_true_eq] at hplain
      rcases hplain with rfl | rfl
      · exact takes_parenthesis (.inl ⟨rfl, rfl⟩) h
      · exact takes_parenthesis (.inr ⟨rfl, rfl⟩) h

end takes

end Cursor

/-! ## A run of calls -/

/-- A span holds the characters of a lexeme that stands in a text. -/
def Shows (text : List Char) (span : Span) (x : Located) : Prop :=
  x.lexeme.chars ≠ [] ∧ ∃ before after, text = before ++ (x.lexeme.chars ++ after) ∧
    span = spanAt (encode before).length x

/-- A span from one boundary between characters to a later one. -/
structure Span.OnBoundaries (text : String) (span : Span) : Prop where
  start_lt_stop : span.start < span.stop
  start_isValid : (⟨span.start⟩ : String.Pos.Raw).IsValid text
  stop_isValid : (⟨span.stop⟩ : String.Pos.Raw).IsValid text

theorem Shows.onBoundaries {text : String} {span : Span} {x : Located}
    (h : Shows text.toList span x) : span.OnBoundaries text := by
  obtain ⟨hne, before, after, htext, rfl⟩ := h
  have hstop : (encode before).length + (encode x.lexeme.chars).length =
      (encode (before ++ x.lexeme.chars)).length := by
    rw [Text.encode_append, List.length_append]
  constructor
  · have hpos := List.length_pos_iff.2 (Text.encode_ne_nil hne)
    exact Nat.lt_add_of_pos_right hpos
  · exact Text.isValid_of_toList_eq htext
  · show (⟨(encode before).length + (encode x.lexeme.chars).length⟩ : String.Pos.Raw).IsValid text
    rw [hstop]
    exact Text.isValid_of_toList_eq (htext.trans (List.append_assoc ..).symm)

namespace Cursor

/-- A cursor between the characters that were read and the rest of a text. -/
structure Between (text : List Char) (c : Cursor) (before rest : List Char) : Prop where
  text_eq : text = before ++ rest
  pos_eq : c.pos = (encode before).length

theorem Between.pos_le {text : String} {c : Cursor} {before rest : List Char}
    (h : Between text.toList c before rest) : c.pos ≤ text.utf8ByteSize := by
  have hlength := Text.length_encode text.toList
  rw [String.ofList_toList] at hlength
  rw [h.pos_eq, ← hlength, h.text_eq, Text.encode_append, List.length_append]
  exact Nat.le_add_right _ _

section calls

variable {text before rest : List Char} {c : Cursor}

theorem Between.takes (h : Between text c before rest) :
    ∃ gap after, rest = gap ++ after ∧
      (∀ done, gap.foldl Scanner.step ⟨.nothing, c.line, done⟩ =
        ⟨.nothing, c.line + gap.count '\n', done⟩) ∧
      Takes ⟨c.pos + (encode gap).length, c.line + gap.count '\n'⟩ (call (encode text) c) after := by
  obtain ⟨pos, line⟩ := c
  have hdrop : (encode text).drop pos = encode rest := by
    have hpos : pos = (encode before).length := h.pos_eq
    rw [h.text_eq, Text.encode_append, hpos, List.drop_left]
  have hrest : rest = rest.takeWhile Text.isAsciiBlank ++ rest.dropWhile Text.isAsciiBlank :=
    List.takeWhile_append_dropWhile.symm
  have hgap : Blank (rest.takeWhile Text.isAsciiBlank) := fun d hd => List.mem_takeWhile_imp hd
  refine ⟨_, _, hrest, Scanner.foldl_step_blank hgap line, ?_⟩
  rw [call, skipBlanks_eq rest hdrop]
  refine Cursor.takes (drop_encode (hrest ▸ hdrop)) (fun first hfirst => ?_)
  have hhead := List.head?_dropWhile_not Text.isAsciiBlank rest
  rw [Option.mem_def.1 hfirst] at hhead
  exact hhead

theorem ended_of_call {line : Nat} (h : Between text c before rest)
    (hcall : call (encode text) c = .ended line) (done : List Located) :
    Scanner.outcome ⟨.nothing, c.line, done⟩ rest = (done.reverse, line) := by
  obtain ⟨gap, after, rfl, hgap, htakes⟩ := h.takes
  rw [hcall] at htakes
  cases htakes with
  | ended =>
    rw [Scanner.outcome_append, hgap]
    rfl

theorem failed_of_call {span : Span} (h : Between text c before rest)
    (hcall : call (encode text) c = .failed span) :
    ∃ x, Shows text span x ∧ span.stop = span.start + 1 ∧
      ∀ done, (Scanner.outcome ⟨.nothing, c.line, done⟩ rest).1 = (x :: done).reverse := by
  obtain ⟨gap, after, rfl, hgap, htakes⟩ := h.takes
  rw [hcall] at htakes
  cases htakes with
  | @failed quote after hquote hscan =>
    refine ⟨⟨.unterminated quote, c.line + gap.count '\n'⟩, ⟨List.cons_ne_nil _ _, before ++ gap,
      after, ?_, ?_⟩, ?_, fun done => ?_⟩
    · rw [h.text_eq, List.append_assoc]
      rfl
    · rw [h.pos_eq, Text.encode_append, List.length_append]
    · show c.pos + (encode gap).length + (encode [quote]).length = _
      rw [Text.encode_ascii (ascii_of_isQuote hquote)]
      rfl
    · rw [Scanner.outcome_append, hgap, hscan]

theorem read_of_call {span : Span} {next : Cursor} (h : Between text c before rest)
    (hcall : call (encode text) c = .read span next) :
    ∃ x front after, rest = front ++ after ∧ front ≠ [] ∧ Between text next (before ++ front) after ∧
      Shows text span x ∧ c.pos ≤ span.start ∧ span.stop = next.pos ∧
      ∀ done, Scanner.outcome ⟨.nothing, c.line, done⟩ rest =
        Scanner.outcome ⟨.nothing, next.line, x :: done⟩ after := by
  obtain ⟨gap, rest, rfl, hgap, htakes⟩ := h.takes
  rw [hcall] at htakes
  cases htakes with
  | @read x after hne hscan =>
    have hpos : c.pos + (encode gap).length = (encode (before ++ gap)).length := by
      rw [h.pos_eq, Text.encode_append, List.length_append]
    refine ⟨x, gap ++ x.lexeme.chars, after, (List.append_assoc ..).symm,
      List.append_ne_nil_of_right_ne_nil _ hne, ⟨?_, ?_⟩, ⟨hne, before ++ gap, after, ?_, ?_⟩,
      Nat.le_add_right _ _, rfl, fun done => ?_⟩
    · rw [h.text_eq]
      simp
    · rw [← List.append_assoc, Text.encode_append, List.length_append, ← hpos]
    · rw [h.text_eq]
      simp
    · rw [hpos]
    · rw [Scanner.outcome_append, hgap, hscan]

end calls

end Cursor

/-- Calls that each give a lexeme, from one cursor to another. -/
inductive Calls (bytes : List UInt8) : Cursor → List Span → Cursor → Prop where
  | nil (c : Cursor) : Calls bytes c [] c
  | cons {c next last : Cursor} {span : Span} {spans : List Span}
    (hcall : c.call bytes = .read span next) (h : Calls bytes next spans last) :
    Calls bytes c (span :: spans) last

section runs

variable {text : String}

/-- Calls from one boundary lead to another one, and each takes a byte at least. -/
theorem Calls.between {c last : Cursor} {spans : List Span} {before rest : List Char}
    (h : Calls (encode text.toList) c spans last)
    (hbetween : Cursor.Between text.toList c before rest) :
    (∃ before' rest', Cursor.Between text.toList last before' rest') ∧
      (∀ span ∈ spans, span.OnBoundaries text) ∧ c.pos + spans.length ≤ last.pos := by
  induction h generalizing before rest with
  | nil c => exact ⟨⟨before, rest, hbetween⟩, List.forall_mem_nil _, Nat.le_refl _⟩
  | @cons c next last span spans hcall _ ih =>
    obtain ⟨x, front, after, -, -, hnext, hshows, hle, hstop, -⟩ :=
      Cursor.read_of_call hbetween hcall
    obtain ⟨hlast, hspans, hlength⟩ := ih hnext
    have hspan := hshows.onBoundaries
    have hlt := hspan.start_lt_stop
    refine ⟨hlast, List.forall_mem_cons.2 ⟨hspan, hspans⟩, ?_⟩
    rw [List.length_cons]
    omega

/-- Calls come to an end, and what they gave are the lexemes of the scanner. -/
theorem exists_calls {c : Cursor} {before rest : List Char}
    (h : Cursor.Between text.toList c before rest) :
    ∃ spans last, Calls (encode text.toList) c spans last ∧
      ((∃ line located, last.call (encode text.toList) = .ended line ∧
          List.Forall₂ (Shows text.toList) spans located ∧
          ∀ done, Scanner.outcome ⟨.nothing, c.line, done⟩ rest = (done.reverse ++ located, line)) ∨
        ∃ span located, last.call (encode text.toList) = .failed span ∧
          List.Forall₂ (Shows text.toList) (spans ++ [span]) located ∧
          ∀ done, (Scanner.outcome ⟨.nothing, c.line, done⟩ rest).1 = done.reverse ++ located) := by
  obtain ⟨n, hn⟩ : ∃ n, rest.length = n := ⟨_, rfl⟩
  induction n using Nat.strongRecOn generalizing c before rest with
  | ind n ih =>
    cases hcall : c.call (encode text.toList) with
    | ended line =>
      refine ⟨[], c, .nil c, .inl ⟨line, [], hcall, .nil, fun done => ?_⟩⟩
      rw [Cursor.ended_of_call h hcall, List.append_nil]
    | failed span =>
      obtain ⟨x, hshows, -, hscan⟩ := Cursor.failed_of_call h hcall
      refine ⟨[], c, .nil c, .inr ⟨span, [x], hcall, .cons hshows .nil, fun done => ?_⟩⟩
      rw [hscan, List.reverse_cons]
    | read span next =>
      obtain ⟨x, front, after, rfl, hne, hnext, hshows, -, -, hscan⟩ :=
        Cursor.read_of_call h hcall
      have hfront := List.length_pos_iff.2 hne
      rw [List.length_append] at hn
      obtain ⟨spans, last, hcalls, hend⟩ := ih _ (by omega) hnext rfl
      refine ⟨span :: spans, last, .cons hcall hcalls, ?_⟩
      rcases hend with ⟨line, located, hlast, hall, hrest⟩ | ⟨failed, located, hlast, hall, hrest⟩
      · refine .inl ⟨line, x :: located, hlast, .cons hshows hall, fun done => ?_⟩
        rw [hscan, hrest, List.reverse_cons, List.append_assoc]
        rfl
      · refine .inr ⟨failed, x :: located, hlast, .cons hshows hall, fun done => ?_⟩
        rw [hscan, hrest, List.reverse_cons, List.append_assoc]
        rfl

/-- Wherever calls from the start of a text have led, the next one hands out a piece between
two boundaries, further on than the last one.  So reading comes to an end, and it hands out
the lexemes of the scanner. -/
theorem calls_onBoundaries (text : String) :
    (∀ spans c, Calls (Text.bytes text) .start spans c →
      (∀ span ∈ spans, span.OnBoundaries text) ∧
      spans.length ≤ c.pos ∧ c.pos ≤ text.utf8ByteSize ∧
      (∀ span next, c.call (Text.bytes text) = .read span next →
        span.OnBoundaries text ∧ c.pos ≤ span.start ∧ span.stop = next.pos ∧ c.pos < next.pos) ∧
      ∀ span, c.call (Text.bytes text) = .failed span →
        span.OnBoundaries text ∧ span.stop = span.start + 1) ∧
    ∃ spans c, Calls (Text.bytes text) .start spans c ∧
      ((∃ line, c.call (Text.bytes text) = .ended line ∧ (lexemes text.toList).2 = line ∧
          List.Forall₂ (Shows text.toList) spans (lexemes text.toList).1) ∨
        ∃ span, c.call (Text.bytes text) = .failed span ∧
          List.Forall₂ (Shows text.toList) (spans ++ [span]) (lexemes text.toList).1) := by
  rw [Text.bytes_eq]
  have hstart : Cursor.Between text.toList .start [] text.toList := ⟨rfl, rfl⟩
  constructor
  · intro spans c hcalls
    obtain ⟨⟨before, rest, hc⟩, hspans, hlength⟩ := hcalls.between hstart
    refine ⟨hspans, ?_, hc.pos_le, fun span next hcall => ?_, fun span hcall => ?_⟩
    · exact Nat.le_trans (Nat.le_add_left _ _) hlength
    · obtain ⟨x, -, -, -, -, -, hshows, hle, hstop, -⟩ := Cursor.read_of_call hc hcall
      have hspan := hshows.onBoundaries
      exact ⟨hspan, hle, hstop, hstop ▸ Nat.lt_of_le_of_lt hle hspan.start_lt_stop⟩
    · obtain ⟨x, hshows, hstop, -⟩ := Cursor.failed_of_call hc hcall
      exact ⟨hshows.onBoundaries, hstop⟩
  · obtain ⟨spans, c, hcalls, hend⟩ := exists_calls hstart
    refine ⟨spans, c, hcalls, ?_⟩
    rcases hend with ⟨line, located, hlast, hall, hscan⟩ | ⟨span, located, hlast, hall, hscan⟩
    · have hlexemes : lexemes text.toList = (located, line) := hscan []
      exact .inl ⟨line, hlast, by rw [hlexemes], by rw [hlexemes]; exact hall⟩
    · have hlexemes : (lexemes text.toList).1 = located := hscan []
      exact .inr ⟨span, hlast, by rw [hlexemes]; exact hall⟩

end runs

end Hive
end Lineage
