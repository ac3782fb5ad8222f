import Mathlib
import Lineage.Proofs.Hive.LineNumbers
import Lineage.Proofs.Text.Bytes

/-
Reading lexemes byte by byte.

A cursor reads a text as bytes, one at a time, and takes two at once behind a backslash.
In between it may stand inside of a character, or behind the end.  No byte of such a
character is one that a cursor stops at, so white space, plain atoms and quoted atoms end
for it where they end for whoever takes whole characters.
-/

namespace Lineage
namespace Hive

open Text (encode)

/-- How many bytes were read, and the line. -/
structure Cursor where
  pos : Nat
  line : Nat
  deriving DecidableEq

inductive Form where
  | opening
  | closing
  | atom
  | unterminated
  deriving DecidableEq

/-- The bytes from `start` to `stop` are handed out as a lexeme, or of an atom without an
end, as its quote. -/
structure Span where
  form : Form
  start : Nat
  stop : Nat
  line : Nat
  deriving DecidableEq

inductive Call where
  | ended (line : Nat)
  | read (span : Span) (next : Cursor)
  | failed (span : Span)
  deriving DecidableEq

namespace Cursor

def start : Cursor := ⟨0, 1⟩

section reader

variable (bytes : List UInt8)

/-- Pass over white space. -/
def skipBlanks (c : Cursor) : Cursor :=
  if h : c.pos < bytes.length then
    let b := Char.ofUInt8 bytes[c.pos]
    if Text.isAsciiBlank b then
      skipBlanks ⟨c.pos + 1, if b = '\n' then c.line + 1 else c.line⟩
    else c
  else c
termination_by bytes.length - c.pos

/-- Where a plain atom ends. -/
def skipPlain (pos : Nat) : Nat :=
  if h : pos < bytes.length then
    if endsPlain (Char.ofUInt8 bytes[pos]) then pos else skipPlain (pos + 1)
  else pos
termination_by bytes.length - pos

/-- Pass over the closing quote, if there is one.  A backslash takes one byte more unless
the quote is a backtick. -/
def skipQuoted (quote : Char) (c : Cursor) : Option Cursor :=
  if h : c.pos < bytes.length then
    let b := Char.ofUInt8 bytes[c.pos]
    if b = '\\' && quote ≠ '\x60' then skipQuoted quote ⟨c.pos + 2, c.line⟩
    else if b = '\n' then skipQuoted quote ⟨c.pos + 1, c.line + 1⟩
    else if b = quote then some ⟨c.pos + 1, c.line⟩
    else skipQuoted quote ⟨c.pos + 1, c.line⟩
  else none
termination_by bytes.length - c.pos

/-- Read the lexeme that starts here. -/
def take (c : Cursor) : Call :=
  if h : c.pos < bytes.length then
    let b := Char.ofUInt8 bytes[c.pos]
    if b = '(' then .read ⟨.opening, c.pos, c.pos + 1, c.line⟩ ⟨c.pos + 1, c.line⟩
    else if b = ')' then .read ⟨.closing, c.pos, c.pos + 1, c.line⟩ ⟨c.pos + 1, c.line⟩
    else if Scanner.isQuote b then
      match skipQuoted bytes b ⟨c.pos + 1, c.line⟩ with
      | some next => .read ⟨.atom, c.pos, next.pos, next.line⟩ next
      | none => .failed ⟨.unterminated, c.pos, min (c.pos + 1) bytes.length, c.line⟩
    else
      let stop := skipPlain bytes c.pos
      .read ⟨.atom, c.pos, stop, c.line⟩ ⟨stop, c.line⟩
  else .ended c.line

/-- Read the next lexeme. -/
def call (c : Cursor) : Call := take bytes (skipBlanks bytes c)

end reader

end Cursor

/-! ## What stops a cursor is ASCII -/

theorem ascii_of_endsPlain {c : Char} (h : endsPlain c = true) : c.toNat < 128 := by
  simp only [endsPlain, Text.isAsciiBlank, Bool.or_eq_true, decide_eq_true_eq] at h
  rcases h with (((((rfl | rfl) | rfl) | rfl) | rfl) | rfl) | rfl <;> decide

theorem ascii_of_isAsciiBlank {c : Char} (h : Text.isAsciiBlank c = true) : c.toNat < 128 :=
  ascii_of_endsPlain (by simp [endsPlain, h])

theorem ascii_of_isQuote {c : Char} (h : Scanner.isQuote c = true) : c.toNat < 128 := by
  simp only [Scanner.isQuote, Bool.or_eq_true, decide_eq_true_eq] at h
  rcases h with (rfl | rfl) | rfl <;> decide

/-- A character between quotes that escapes, ends a line or closes. -/
def stopsQuoted (quote c : Char) : Bool :=
  (c = '\\' && quote ≠ '\x60') || c = '\n' || c = quote

theorem ascii_of_stopsQuoted {quote : Char} (hquote : Scanner.isQuote quote = true) {c : Char}
    (h : stopsQuoted quote c = true) : c.toNat < 128 := by
  simp only [stopsQuoted, Bool.or_eq_true, Bool.and_eq_true, decide_eq_true_eq] at h
  rcases h with (⟨rfl, -⟩ | rfl) | rfl
  · decide
  · decide
  · exact ascii_of_isQuote hquote

namespace Cursor

/-! ## Bytes one by one -/

section bytes

variable {bytes : List UInt8} {pos line : Nat}

/-- The byte at a place, by what is still to be read there. -/
theorem byte_of_drop {b : UInt8} {rest : List UInt8} (h : bytes.drop pos = b :: rest) :
    ∃ hpos : pos < bytes.length, bytes[pos] = b ∧ bytes.drop (pos + 1) = rest := by
  have hpos : pos < bytes.length := by
    by_contra hge
    rw [List.drop_eq_nil_of_le (Nat.le_of_not_lt hge)] at h
    cases h
  rw [List.drop_eq_getElem_cons hpos] at h
  injection h with hb hrest
  exact ⟨hpos, hb, hrest⟩

theorem not_lt_of_drop (h : bytes.drop pos = []) : ¬ pos < bytes.length :=
  Nat.not_lt.2 (List.drop_eq_nil_iff.1 h)

theorem drop_add {a b : List UInt8} (h : bytes.drop pos = a ++ b) :
    bytes.drop (pos + a.length) = b := by
  rw [← List.drop_drop, h, List.drop_left]

theorem drop_encode {a b : List Char} (h : bytes.drop pos = encode (a ++ b)) :
    bytes.drop (pos + (encode a).length) = encode b := by
  rw [Text.encode_append] at h
  exact drop_add h

/-- The first byte of an ASCII character is all of it. -/
theorem ascii_of_drop {c : Char} {rest : List Char} (h : bytes.drop pos = encode (c :: rest))
    (hc : c.toNat < 128) : ∃ hpos : pos < bytes.length,
      Char.ofUInt8 bytes[pos] = c ∧ bytes.drop (pos + 1) = encode rest := by
  rw [Text.encode_ascii hc] at h
  obtain ⟨hpos, hb, hdrop⟩ := byte_of_drop h
  exact ⟨hpos, by rw [hb, Text.ofUInt8_toUInt8 hc], hdrop⟩

theorem first_of_drop {c : Char} {rest : List Char} (h : bytes.drop pos = encode (c :: rest)) :
    ∃ hpos : pos < bytes.length, bytes[pos] ∈ String.utf8EncodeChar c := by
  rw [Text.encode_cons] at h
  obtain ⟨b, more, hchar⟩ := List.exists_cons_of_ne_nil (String.utf8EncodeChar_ne_nil (c := c))
  rw [hchar] at h ⊢
  obtain ⟨hpos, hb, -⟩ := byte_of_drop h
  exact ⟨hpos, hb ▸ List.mem_cons_self⟩

/-! ## White space and plain atoms -/

theorem skipBlanks_eq (rest : List Char) (h : bytes.drop pos = encode rest) :
    skipBlanks bytes ⟨pos, line⟩ =
      ⟨pos + (encode (rest.takeWhile Text.isAsciiBlank)).length,
        line + (rest.takeWhile Text.isAsciiBlank).count '\n'⟩ := by
  induction rest generalizing pos line with
  | nil => rw [skipBlanks, dif_neg (not_lt_of_drop h)]; rfl
  | cons c rest ih =>
    cases hc : Text.isAsciiBlank c with
    | true =>
      have hascii := ascii_of_isAsciiBlank hc
      obtain ⟨hpos, hb, hdrop⟩ := ascii_of_drop h hascii
      rw [skipBlanks, dif_pos hpos]
      simp only [hb, hc, if_true]
      rw [ih hdrop, List.takeWhile_cons_of_pos hc, Text.encode_ascii hascii, List.length_cons,
        List.count_cons]
      by_cases hfeed : c = '\n'
      · simp [hfeed]; omega
      · simp [hfeed]; omega
    | false =>
      obtain ⟨hpos, hb⟩ := first_of_drop h
      have hbyte := Text.byte_eq_false (fun _ => ascii_of_isAsciiBlank) hc hb
      rw [skipBlanks, dif_pos hpos, List.takeWhile_cons_of_neg (by simp [hc])]
      simp only [hbyte, Bool.false_eq_true, if_false]
      rfl

theorem skipPlain_bytes {block rest : List UInt8} (h : bytes.drop pos = block ++ rest)
    (hblock : ∀ b ∈ block, endsPlain (Char.ofUInt8 b) = false) :
    skipPlain bytes pos = skipPlain bytes (pos + block.length) := by
  induction block generalizing pos with
  | nil => rfl
  | cons b block ih =>
    obtain ⟨hpos, hb, hdrop⟩ := byte_of_drop h
    have hnot : ¬ endsPlain (Char.ofUInt8 bytes[pos]) = true := by
      rw [hb, hblock b List.mem_cons_self]
      decide
    rw [skipPlain, dif_pos hpos, if_neg hnot,
      ih hdrop fun x hx => hblock x (List.mem_cons_of_mem _ hx), List.length_cons]
    congr 1
    omega

theorem skipPlain_eq (rest : List Char) (h : bytes.drop pos = encode rest) :
    skipPlain bytes pos = pos + (encode (rest.takeWhile (!endsPlain ·))).length := by
  induction rest generalizing pos with
  | nil => rw [skipPlain, dif_neg (not_lt_of_drop h)]; rfl
  | cons c rest ih =>
    cases hc : endsPlain c with
    | true =>
      obtain ⟨hpos, hb, -⟩ := ascii_of_drop h (ascii_of_endsPlain hc)
      rw [skipPlain, dif_pos hpos, hb, if_pos hc, List.takeWhile_cons_of_neg (by simp [hc])]
      rfl
    | false =>
      have hdrop := h
      rw [Text.encode_cons] at hdrop
      have hblock : ∀ b ∈ String.utf8EncodeChar c, endsPlain (Char.ofUInt8 b) = false :=
        fun b hb => Text.byte_eq_false (fun _ => ascii_of_endsPlain) hc hb
      rw [skipPlain_bytes hdrop hblock, ih (drop_add hdrop),
        List.takeWhile_cons_of_pos (by simp [hc]), Text.encode_cons, List.length_append,
        Nat.add_assoc]

/-! ## Quoted atoms -/

theorem skipQuoted_byte {quote : Char} (hpos : pos < bytes.length)
    (h : stopsQuoted quote (Char.ofUInt8 bytes[pos]) = false) :
    skipQuoted bytes quote ⟨pos, line⟩ = skipQuoted bytes quote ⟨pos + 1, line⟩ := by
  simp only [stopsQuoted, Bool.or_eq_false_iff, decide_eq_false_iff_not] at h
  obtain ⟨⟨hslash, hfeed⟩, hquote⟩ := h
  rw [skipQuoted, dif_pos hpos]
  simp only [hslash, Bool.false_eq_true, if_false, if_neg hfeed, if_neg hquote]

theorem skipQuoted_bytes {quote : Char} (line : Nat) {block rest : List UInt8}
    (h : bytes.drop pos = block ++ rest)
    (hblock : ∀ b ∈ block, stopsQuoted quote (Char.ofUInt8 b) = false) :
    skipQuoted bytes quote ⟨pos, line⟩ = skipQuoted bytes quote ⟨pos + block.length, line⟩ := by
  induction block generalizing pos with
  | nil => rfl
  | cons b block ih =>
    obtain ⟨hpos, hb, hdrop⟩ := byte_of_drop h
    have hbyte : stopsQuoted quote (Char.ofUInt8 bytes[pos]) = false := by
      rw [hb]
      exact hblock b List.mem_cons_self
    rw [skipQuoted_byte hpos hbyte, ih hdrop fun x hx => hblock x (List.mem_cons_of_mem _ hx),
      List.length_cons, Nat.add_right_comm, Nat.add_assoc]

theorem step_backslash {quote : Char} (htick : quote ≠ '\x60') (opened : Nat) (atom : List Char)
    (done : List Located) : Scanner.step ⟨.quoted quote opened atom, line, done⟩ '\\' =
      ⟨.escaped quote opened ('\\' :: atom), line, done⟩ := by
  have hslash : (decide ('\\' = '\\') && decide (quote ≠ '\x60')) = true := by simp [htick]
  rw [step_quoted_eq, if_pos hslash]

/-- Passing over a quoted atom at the start of `rest`, by bytes and by characters. -/
def PassesQuoted (bytes : List UInt8) (quote : Char) (c : Cursor) (rest : List Char) : Prop :=
  (∃ body after line, rest = body ++ quote :: after ∧
    skipQuoted bytes quote c = some ⟨c.pos + (encode (body ++ [quote])).length, line⟩ ∧
    ∀ opened atom done,
      (body ++ [quote]).foldl Scanner.step ⟨.quoted quote opened atom, c.line, done⟩ =
      ⟨.nothing, line, ⟨.atom (Scanner.spell (quote :: (body.reverse ++ atom))), line⟩ :: done⟩) ∨
  (skipQuoted bytes quote c = none ∧
    ∀ opened atom done, (rest.foldl Scanner.step ⟨.quoted quote opened atom, c.line, done⟩).finish =
      (⟨.unterminated quote, opened⟩ :: done).reverse)

/-- Characters that both pass over. -/
theorem PassesQuoted.front {quote : Char} (front : List Char) {rest : List Char} {line' : Nat}
    (hskip : skipQuoted bytes quote ⟨pos, line⟩ =
      skipQuoted bytes quote ⟨pos + (encode front).length, line'⟩)
    (hfold : ∀ opened atom done, front.foldl Scanner.step ⟨.quoted quote opened atom, line, done⟩ =
      ⟨.quoted quote opened (front.reverse ++ atom), line', done⟩)
    (h : PassesQuoted bytes quote ⟨pos + (encode front).length, line'⟩ rest) :
    PassesQuoted bytes quote ⟨pos, line⟩ (front ++ rest) := by
  rcases h with ⟨body, after, stop, rfl, hsome, hclosed⟩ | ⟨hnone, hopen⟩
  · refine .inl ⟨front ++ body, after, stop, by simp, ?_, fun opened atom done => ?_⟩
    · rw [hskip, hsome, List.append_assoc, Text.encode_append front, List.length_append,
        Nat.add_assoc]
    · rw [List.append_assoc, List.foldl_append, hfold, hclosed, List.reverse_append,
        List.append_assoc]
  · refine .inr ⟨hskip.trans hnone, fun opened atom done => ?_⟩
    rw [List.foldl_append, hfold, hopen]

theorem passesQuoted_feed {quote : Char} {rest : List Char}
    (h : bytes.drop pos = encode ('\n' :: rest))
    (ih : PassesQuoted bytes quote ⟨pos + (encode ['\n']).length, line + 1⟩ rest) :
    PassesQuoted bytes quote ⟨pos, line⟩ ('\n' :: rest) := by
  obtain ⟨hpos, hb, -⟩ := ascii_of_drop h (by decide)
  have hskip : skipQuoted bytes quote ⟨pos, line⟩ = skipQuoted bytes quote ⟨pos + 1, line + 1⟩ := by
    rw [skipQuoted, dif_pos hpos]
    simp only [hb]
    rfl
  exact ih.front ['\n'] hskip (fun _ _ _ => rfl)

/-- A backslash at the end takes a byte that is not there. -/
theorem passesQuoted_lastSlash {quote : Char} (htick : quote ≠ '\x60')
    (h : bytes.drop pos = encode ['\\']) :
    PassesQuoted bytes quote ⟨pos, line⟩ ['\\'] := by
  obtain ⟨hpos, hb, hdrop⟩ := ascii_of_drop h (by decide)
  have hend : ¬ pos + 2 < bytes.length := by
    have hlast := not_lt_of_drop hdrop
    omega
  refine .inr ⟨?_, fun opened atom done => ?_⟩
  · rw [skipQuoted, dif_pos hpos]
    simp only [hb, htick, ne_eq, not_false_eq_true, decide_true, Bool.and_self, if_true]
    rw [skipQuoted, dif_neg hend]
  · rw [List.foldl_cons, step_backslash htick]
    rfl

section quoted

variable {quote : Char} (hquote : Scanner.isQuote quote = true) {rest : List Char}
include hquote

theorem passesQuoted_body {c : Char} (h : bytes.drop pos = encode (c :: rest))
    (hc : stopsQuoted quote c = false)
    (ih : PassesQuoted bytes quote ⟨pos + (encode [c]).length, line⟩ rest) :
    PassesQuoted bytes quote ⟨pos, line⟩ (c :: rest) := by
  have hdrop := h
  rw [Text.encode_cons] at hdrop
  have hskip := skipQuoted_bytes line hdrop
    fun b hb => Text.byte_eq_false (fun _ => ascii_of_stopsQuoted hquote) hc hb
  have hlength : (encode [c]).length = (String.utf8EncodeChar c).length := by
    rw [Text.encode_cons]
    exact congrArg List.length (List.append_nil _)
  refine ih.front [c] (by rw [hskip, hlength]) (fun opened atom done => ?_)
  simp only [stopsQuoted, Bool.or_eq_false_iff, decide_eq_false_iff_not] at hc
  obtain ⟨⟨hslash, hfeed⟩, hne⟩ := hc
  rw [List.foldl_cons, step_quoted_eq, hslash, if_neg Bool.false_ne_true, if_neg hfeed, if_neg hne]
  rfl

theorem passesQuoted_closing (h : bytes.drop pos = encode (quote :: rest)) :
    PassesQuoted bytes quote ⟨pos, line⟩ (quote :: rest) := by
  have hslash := Scanner.isQuote_ne_slash hquote
  have hfeed := Scanner.isQuote_ne_feed hquote
  have hascii := ascii_of_isQuote hquote
  obtain ⟨hpos, hb, -⟩ := ascii_of_drop h hascii
  have hlength : (encode ([] ++ [quote])).length = 1 := by
    rw [List.nil_append, Text.encode_ascii hascii]
    rfl
  refine .inl ⟨[], rest, line, rfl, ?_, fun opened atom done => ?_⟩
  · rw [skipQuoted, dif_pos hpos, hlength]
    simp [hb, hslash, hfeed]
  · exact step_closing_quote hslash hfeed opened atom

/-- Behind a backslash, the bytes of the next character but the first one are passed over
alone, so all of it is. -/
theorem passesQuoted_escape {c : Char} (htick : quote ≠ '\x60')
    (h : bytes.drop pos = encode ('\\' :: c :: rest))
    (ih : PassesQuoted bytes quote ⟨pos + (encode ['\\', c]).length, line⟩ rest) :
    PassesQuoted bytes quote ⟨pos, line⟩ ('\\' :: c :: rest) := by
  obtain ⟨hpos, hb, hdrop⟩ := ascii_of_drop h (by decide)
  obtain ⟨first, more, hchar⟩ := List.exists_cons_of_ne_nil (String.utf8EncodeChar_ne_nil (c := c))
  rw [Text.encode_cons, hchar] at hdrop
  obtain ⟨-, -, hmore⟩ := byte_of_drop hdrop
  have hlength : (encode ['\\', c]).length = 2 + more.length := by
    rw [Text.encode_ascii (by decide), Text.encode_cons, hchar]
    simp [Text.encode]
    omega
  have hskip : skipQuoted bytes quote ⟨pos, line⟩ = skipQuoted bytes quote ⟨pos + 2, line⟩ := by
    rw [skipQuoted, dif_pos hpos]
    simp [hb, htick]
  have hmoreSkip := skipQuoted_bytes line hmore fun b hb =>
    Text.isHigh_eq_false (fun _ => ascii_of_stopsQuoted hquote) (Text.isHigh_of_tail hchar b hb)
  refine ih.front ['\\', c] ?_ (fun opened atom done => ?_)
  · rw [hskip, hmoreSkip, hlength, ← Nat.add_assoc]
  · rw [List.foldl_cons, step_backslash htick]
    rfl

theorem passesQuoted (line : Nat) (rest : List Char) (h : bytes.drop pos = encode rest) :
    PassesQuoted bytes quote ⟨pos, line⟩ rest := by
  -- an escape takes two characters
  obtain ⟨n, hn⟩ : ∃ n, rest.length = n := ⟨_, rfl⟩
  induction n using Nat.strongRecOn generalizing rest pos line with
  | ind n ih =>
    cases rest with
    | nil => exact .inr ⟨by rw [skipQuoted, dif_neg (not_lt_of_drop h)], fun _ _ _ => rfl⟩
    | cons c rest =>
      rw [List.length_cons] at hn
      have hone : bytes.drop (pos + (encode [c]).length) = encode rest := drop_encode h
      cases hstops : stopsQuoted quote c with
      | false => exact passesQuoted_body hquote h hstops (ih _ (by omega) _ rest hone rfl)
      | true =>
        simp only [stopsQuoted, Bool.or_eq_true, Bool.and_eq_true, decide_eq_true_eq] at hstops
        rcases hstops with (⟨rfl, htick⟩ | rfl) | rfl
        · cases rest with
          | nil => exact passesQuoted_lastSlash htick h
          | cons d rest =>
            rw [List.length_cons] at hn
            have htwo : bytes.drop (pos + (encode ['\\', d]).length) = encode rest := drop_encode h
            exact passesQuoted_escape hquote htick h (ih _ (by omega) _ rest htwo rfl)
        · exact passesQuoted_feed h (ih _ (by omega) _ rest hone rfl)
        · exact passesQuoted_closing hquote h

end quoted

end bytes

end Cursor

end Hive
end Lineage
