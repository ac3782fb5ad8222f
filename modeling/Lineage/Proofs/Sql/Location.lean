import Mathlib
import Lineage.Sql.Fault

/-
The place that the message of a fault names.

A message ends in the place of the fault, and quotes the text that is wrong in
front of it.  The line and the column are searched for one by one, each behind the
first occurrence of its label in the whole message.  So a quoted text that has a
label in it decides what is found.  A message without a number behind one of the
labels names no place.
-/

namespace Lineage
namespace Sql

/-! ## The text behind a label -/

/-- Behind the first occurrence of a label in a text stands `rest`. -/
def FirstBehind (label text rest : List Char) : Prop :=
  ∃ before, text = before ++ (label ++ rest) ∧
    ∀ earlier rest', text = earlier ++ (label ++ rest') → before.length ≤ earlier.length

section behind

variable {label text rest : List Char}

theorem behind?_nil (hl : label ≠ []) : behind? label [] = none := by
  rw [behind?, if_neg (by simpa using hl)]

theorem behind?_of_starts (hl : label ≠ []) (h : label <+: text) :
    behind? label text = some (text.drop label.length) := by
  cases text with
  | nil => exact absurd (List.prefix_nil.1 h) hl
  | cons c text => rw [behind?, if_pos (List.isPrefixOf_iff_prefix.2 h)]

theorem behind?_cons {c : Char} (h : ¬ label <+: c :: text) :
    behind? label (c :: text) = behind? label text := by
  rw [behind?, if_neg (fun hp => h (List.isPrefixOf_iff_prefix.1 hp))]

theorem behind?_self (hl : label ≠ []) (rest : List Char) :
    behind? label (label ++ rest) = some rest := by
  rw [behind?_of_starts hl (List.prefix_append ..), List.drop_left]

theorem firstBehind_cons {c : Char} (h : ¬ label <+: c :: text) :
    FirstBehind label (c :: text) rest ↔ FirstBehind label text rest := by
  -- an occurrence does not start at the first character
  have hnot (rest' : List Char) : c :: text ≠ label ++ rest' :=
    fun heq => h ⟨rest', heq.symm⟩
  constructor
  · rintro ⟨before, htext, hfirst⟩
    cases before with
    | nil => exact absurd htext (hnot rest)
    | cons b before =>
      obtain ⟨-, htext⟩ := List.cons.inj htext
      refine ⟨before, htext, fun earlier rest' heq => ?_⟩
      exact Nat.le_of_succ_le_succ (hfirst (c :: earlier) rest' (congrArg (c :: ·) heq))
  · rintro ⟨before, rfl, hfirst⟩
    refine ⟨c :: before, rfl, fun earlier rest' heq => ?_⟩
    cases earlier with
    | nil => exact absurd heq (hnot rest')
    | cons e earlier => exact Nat.succ_le_succ (hfirst earlier rest' (List.cons.inj heq).2)

theorem behind?_eq_some_iff (hl : label ≠ []) :
    behind? label text = some rest ↔ FirstBehind label text rest := by
  induction text with
  | nil =>
    rw [behind?_nil hl]
    refine iff_of_false (by simp) ?_
    rintro ⟨before, htext, -⟩
    simp [hl] at htext
  | cons c text ih =>
    by_cases hp : label <+: c :: text
    · obtain ⟨tail, htail⟩ := hp
      rw [← htail, behind?_self hl, Option.some.injEq]
      constructor
      · rintro rfl
        exact ⟨[], rfl, fun _ _ _ => Nat.zero_le _⟩
      · rintro ⟨before, htext, hfirst⟩
        obtain rfl := List.length_eq_zero_iff.1 (Nat.le_zero.1 (hfirst [] tail rfl))
        exact List.append_cancel_left htext
    · rw [behind?_cons hp, firstBehind_cons hp, ih]

/-- A label occurs nowhere without its first character. -/
theorem behind?_of_not_mem {c : Char} {cs : List Char} (h : c ∉ text) :
    behind? (c :: cs) text = none := by
  cases hb : behind? (c :: cs) text with
  | none => rfl
  | some rest =>
    obtain ⟨before, rfl, -⟩ := (behind?_eq_some_iff (List.cons_ne_nil c cs)).1 hb
    exact absurd (by simp) h

end behind

/-- A label is a word with one space at its end. -/
def IsLabel (label : List Char) : Prop :=
  ∃ first more, label = first :: more ++ [' '] ∧ ' ' ∉ first :: more

namespace IsLabel

variable {label : List Char}

theorem ne_nil (h : IsLabel label) : label ≠ [] := by
  obtain ⟨first, more, rfl, -⟩ := h
  exact List.cons_ne_nil _ _

/-- No label reaches over a space. -/
theorem prefix_iff (h : IsLabel label) (front rest : List Char) :
    label <+: front ++ [' '] ++ rest ↔ label <+: front ++ [' '] := by
  refine ⟨fun hp => ?_, fun hp => hp.trans (List.prefix_append ..)⟩
  rcases List.prefix_or_prefix_of_prefix hp (List.prefix_append (front ++ [' ']) rest) with
    hshort | ⟨more, hlong⟩
  · exact hshort
  · obtain ⟨first, word, rfl, hspace⟩ := h
    rcases List.eq_nil_or_concat more with rfl | ⟨more, c, rfl⟩
    · exact ⟨[], by rw [← hlong]; simp⟩
    · -- the space behind `front` would be inside the word
      rw [List.concat_eq_append, ← List.append_assoc] at hlong
      have hword := (List.append_inj' hlong rfl).1
      exact absurd (hword ▸ by simp) hspace

/-- A text is searched up to a space, and then behind it. -/
theorem behind?_append (h : IsLabel label) (front rest : List Char) :
    behind? label (front ++ [' '] ++ rest) =
      match behind? label (front ++ [' ']) with
      | some behind => some (behind ++ rest)
      | none => behind? label rest := by
  induction front with
  | nil =>
    have hnot (text : List Char) : ¬ label <+: ' ' :: text := by
      obtain ⟨first, more, rfl, hspace⟩ := h
      intro hp
      exact hspace ((List.cons_prefix_cons.1 hp).1 ▸ List.mem_cons_self)
    have hshort : behind? label [' '] = none := by
      rw [behind?_cons (hnot []), behind?_nil h.ne_nil]
    exact (behind?_cons (hnot rest)).trans (by rw [List.nil_append, hshort])
  | cons c front ih =>
    have hiff := h.prefix_iff (c :: front) rest
    by_cases hp : label <+: c :: front ++ [' ']
    · rw [behind?_of_starts h.ne_nil (hiff.2 hp), behind?_of_starts h.ne_nil hp,
        List.drop_append_of_le_length hp.length_le]
    · have hshort : behind? label (c :: front ++ [' ']) = behind? label (front ++ [' ']) :=
        behind?_cons hp
      have hlong : behind? label (c :: front ++ [' '] ++ rest) =
          behind? label (front ++ [' '] ++ rest) := behind?_cons (fun hl => hp (hiff.1 hl))
      rw [hlong, hshort, ih]

end IsLabel

/-! ## The number at the start of a text -/

/-- Digits that write a number which fits a machine word. -/
structure IsNumber (digits : List Char) : Prop where
  ne_nil : digits ≠ []
  digit : ∀ c ∈ digits, c.isDigit = true
  lt_wordCount : Decimal.ofDigits digits < Decimal.wordCount

instance (digits : List Char) : Decidable (IsNumber digits) :=
  decidable_of_iff (digits ≠ [] ∧ digits.all Char.isDigit = true ∧
      Decimal.ofDigits digits < Decimal.wordCount)
    ⟨fun ⟨hne, hdigit, hlt⟩ => ⟨hne, List.all_eq_true.1 hdigit, hlt⟩,
      fun h => ⟨h.ne_nil, List.all_eq_true.2 h.digit, h.lt_wordCount⟩⟩

/-- A text starts with a number, which no digit follows. -/
def Opens (n : Nat) (text : List Char) : Prop :=
  ∃ digits rest, text = digits ++ rest ∧ IsNumber digits ∧
    (∀ c ∈ rest.head?, c.isDigit = false) ∧ Decimal.ofDigits digits = n

/-- The number that a text starts with. -/
def opening? (text : List Char) : Option Nat :=
  let digits := text.takeWhile Char.isDigit
  if digits.isEmpty then none
  else
    let n := Decimal.ofDigits digits
    if n < Decimal.wordCount then some n else none

theorem numberBehind?_eq (label : String) (text : List Char) :
    numberBehind? label text = (behind? label.toList text).bind opening? := rfl

theorem takeWhile_digits {digits rest : List Char} (hd : ∀ c ∈ digits, c.isDigit = true)
    (hr : ∀ c ∈ rest.head?, c.isDigit = false) :
    (digits ++ rest).takeWhile Char.isDigit = digits := by
  rw [List.takeWhile_append_of_pos hd]
  cases rest with
  | nil => simp
  | cons c rest => rw [List.takeWhile_cons_of_neg (by simp [hr c rfl]), List.append_nil]

theorem opening?_eq_some_iff {text : List Char} {n : Nat} :
    opening? text = some n ↔ Opens n text := by
  constructor
  · intro h
    unfold opening? at h
    by_cases hempty : (text.takeWhile Char.isDigit).isEmpty = true
    · simp [hempty] at h
    · by_cases hlt : Decimal.ofDigits (text.takeWhile Char.isDigit) < Decimal.wordCount
      · simp only [hempty, hlt, if_true, Bool.false_eq_true, if_false, Option.some.injEq] at h
        refine ⟨text.takeWhile Char.isDigit, text.dropWhile Char.isDigit,
          List.takeWhile_append_dropWhile.symm, ⟨by simpa using hempty, ?_, hlt⟩, ?_, h⟩
        · exact fun c hc => List.all_eq_true.1 List.all_takeWhile c hc
        · intro c hc
          have hhead := List.head?_dropWhile_not Char.isDigit text
          rw [Option.mem_def.1 hc] at hhead
          simpa using hhead
      · simp [hempty, hlt] at h
  · rintro ⟨digits, rest, rfl, hnumber, hrest, rfl⟩
    have hdigits := takeWhile_digits hnumber.digit hrest
    have hempty : digits.isEmpty = false := by simpa using hnumber.ne_nil
    simp only [opening?, hdigits, hempty, hnumber.lt_wordCount, if_true, Bool.false_eq_true, if_false]

theorem opening?_append (text : List Char) {rest : List Char}
    (h : ∀ c ∈ rest.head?, c.isDigit = false) : opening? (text ++ rest) = opening? text := by
  have hrest : ([] ++ rest).takeWhile Char.isDigit = [] :=
    takeWhile_digits (fun _ hc => absurd hc List.not_mem_nil) h
  rw [List.nil_append] at hrest
  have htext : (text ++ rest).takeWhile Char.isDigit = text.takeWhile Char.isDigit := by
    rw [List.takeWhile_append, hrest, List.append_nil]
    split
    · next hall => exact ((List.takeWhile_prefix _).eq_of_length hall).symm
    · rfl
  simp only [opening?, htext]

/-! ## What a message names -/

/-- A label with a number behind it stands somewhere in a message. -/
def Locates (label message : String) : Prop :=
  ∃ before rest n, message.toList = before ++ (label.toList ++ rest) ∧ Opens n rest

/-- The label stands nowhere in a text, or first in front of the number `n`. -/
def Agrees (label : String) (n : Nat) (text : List Char) : Prop :=
  ∀ rest, FirstBehind label.toList text rest → Opens n rest

/-- The label stands in a text, and first in front of no number. -/
def Spoils (label : String) (text : List Char) : Prop :=
  ∃ rest, FirstBehind label.toList text rest ∧ ∀ n, ¬ Opens n rest

theorem locates_of_numberBehind? {label message : String} (hl : label.toList ≠ []) {n : Nat}
    (h : numberBehind? label message.toList = some n) : Locates label message := by
  rw [numberBehind?_eq, Option.bind_eq_some_iff] at h
  obtain ⟨rest, hbehind, hopening⟩ := h
  obtain ⟨before, htext, -⟩ := (behind?_eq_some_iff hl).1 hbehind
  exact ⟨before, rest, n, htext, opening?_eq_some_iff.1 hopening⟩

theorem placeIn_eq_iff {message : String} {line column : Nat} :
    placeIn message = (line, column) ↔
      numberBehind? "Line: " message.toList = some line ∧
        numberBehind? "Column: " message.toList = some column ∨
      line = 0 ∧ column = 0 ∧ (numberBehind? "Line: " message.toList = none ∨
        numberBehind? "Column: " message.toList = none) := by
  unfold placeIn
  cases numberBehind? "Line: " message.toList <;>
    cases numberBehind? "Column: " message.toList <;> simp [eq_comm]

/-- A message that ends in a place. -/
def located (front : String) (line column : List Char) : String :=
  front ++ " at Line: " ++ String.ofList line ++ ", Column: " ++ String.ofList column

section located

variable {label : String} {front middle digits tail : List Char}

/-- What is found behind a label that stands, with a number, behind spaces: an
earlier one in `front`, or the number. -/
theorem numberBehind?_append (hl : IsLabel label.toList)
    (hm : behind? label.toList (middle ++ [' ']) = none)
    (hhead : ∀ c ∈ (middle ++ [' ']).head?, c.isDigit = false) (hd : IsNumber digits)
    (ht : ∀ c ∈ tail.head?, c.isDigit = false) :
    numberBehind? label
        (front ++ [' '] ++ (middle ++ [' '] ++ (label.toList ++ (digits ++ tail)))) =
      match behind? label.toList (front ++ [' ']) with
      | some rest => opening? rest
      | none => some (Decimal.ofDigits digits) := by
  rw [numberBehind?_eq, hl.behind?_append]
  cases behind? label.toList (front ++ [' ']) with
  | some rest =>
    refine opening?_append rest (fun c hc => hhead c ?_)
    cases middle <;> simpa using hc
  | none =>
    have hopens : Opens (Decimal.ofDigits digits) (digits ++ tail) :=
      ⟨digits, tail, rfl, hd, ht, rfl⟩
    rw [hl.behind?_append, hm]
    simp only [behind?_self hl.ne_nil, Option.bind_some]
    exact opening?_eq_some_iff.2 hopens

variable {n : Nat}

theorem found_eq_some_iff (hl : label.toList ≠ []) {text : List Char} :
    (match behind? label.toList text with
      | some rest => opening? rest
      | none => some n) = some n ↔ Agrees label n text := by
  unfold Agrees
  simp only [← behind?_eq_some_iff hl, ← opening?_eq_some_iff]
  cases behind? label.toList text <;> simp

theorem found_eq_none_iff (hl : label.toList ≠ []) {text : List Char} :
    (match behind? label.toList text with
      | some rest => opening? rest
      | none => some n) = none ↔ Spoils label text := by
  unfold Spoils
  simp only [← behind?_eq_some_iff hl, ← opening?_eq_some_iff, ← Option.eq_none_iff_forall_ne_some]
  cases behind? label.toList text <;> simp

end located

theorem isLabel_line : IsLabel "Line: ".toList := ⟨'L', "ine:".toList, rfl, by decide⟩

theorem isLabel_column : IsLabel "Column: ".toList := ⟨'C', "olumn:".toList, rfl, by decide⟩

section place

variable {line column : List Char}

theorem lineBehind?_located (front : String) (hl : IsNumber line) :
    numberBehind? "Line: " (located front line column).toList =
      match behind? "Line: ".toList (front ++ " ").toList with
      | some rest => opening? rest
      | none => some (Decimal.ofDigits line) := by
  have htext : (located front line column).toList = front.toList ++ [' '] ++
      ("at".toList ++ [' '] ++ ("Line: ".toList ++ (line ++ (", Column: ".toList ++ column)))) := by
    simp [located]
  have hfront : (front ++ " ").toList = front.toList ++ [' '] := by simp
  have hmiddle : behind? "Line: ".toList ("at".toList ++ [' ']) = none :=
    behind?_of_not_mem (by decide)
  rw [htext, hfront]
  exact numberBehind?_append isLabel_line hmiddle (by simp) hl (by simp)

theorem columnBehind?_located (front : String) (hl : IsNumber line) (hc : IsNumber column) :
    numberBehind? "Column: " (located front line column).toList =
      match behind? "Column: ".toList (front ++ " ").toList with
      | some rest => opening? rest
      | none => some (Decimal.ofDigits column) := by
  have htext : (located front line column).toList = front.toList ++ [' '] ++
      ("at Line: ".toList ++ line ++ [','] ++ [' '] ++ ("Column: ".toList ++ (column ++ []))) := by
    simp [located]
  have hfront : (front ++ " ").toList = front.toList ++ [' '] := by simp
  have hnot : 'C' ∉ "at Line: ".toList ++ line ++ [','] ++ [' '] := by
    have hline : 'C' ∉ line := fun h => absurd (hl.digit _ h) (by decide)
    simp [hline]
  have hmiddle : behind? "Column: ".toList ("at Line: ".toList ++ line ++ [','] ++ [' ']) = none :=
    behind?_of_not_mem hnot
  rw [htext, hfront]
  exact numberBehind?_append isLabel_column hmiddle (by simp) hc (by simp)

end place

/-- Which place is found in a message that ends in one.  It is the place at the
end exactly if each label stands nowhere in the text before, or first in front of
the same number; the place zero is also found where a label is spoilt.  In a
message that lacks a number behind one of the labels, no place is found. -/
theorem placeIn_located_iff (front : String) {line column : List Char} (hl : IsNumber line)
    (hc : IsNumber column) :
    (placeIn (located front line column) = (Decimal.ofDigits line, Decimal.ofDigits column) ↔
      Agrees "Line: " (Decimal.ofDigits line) (front ++ " ").toList ∧
        Agrees "Column: " (Decimal.ofDigits column) (front ++ " ").toList ∨
      Decimal.ofDigits line = 0 ∧ Decimal.ofDigits column = 0 ∧
        (Spoils "Line: " (front ++ " ").toList ∨ Spoils "Column: " (front ++ " ").toList)) ∧
    ∀ message : String, ¬ Locates "Line: " message ∨ ¬ Locates "Column: " message →
      placeIn message = (0, 0) := by
  have hline := isLabel_line.ne_nil
  have hcolumn := isLabel_column.ne_nil
  constructor
  · rw [placeIn_eq_iff, lineBehind?_located front hl, columnBehind?_located front hl hc,
      found_eq_some_iff hline, found_eq_some_iff hcolumn, found_eq_none_iff hline,
      found_eq_none_iff hcolumn]
  · intro message h
    refine placeIn_eq_iff.2 (.inr ⟨rfl, rfl, ?_⟩)
    rcases h with h | h
    · refine .inl (Option.eq_none_iff_forall_ne_some.2 (fun n hn => h ?_))
      exact locates_of_numberBehind? hline hn
    · refine .inr (Option.eq_none_iff_forall_ne_some.2 (fun n hn => h ?_))
      exact locates_of_numberBehind? hcolumn hn

/-- A token that has one of the labels in it, with the number of the fault behind. -/
theorem placeIn_located_quoted :
    IsNumber ['2'] ∧ IsNumber ['1', '1'] ∧
    placeIn (located "Expected: end of statement, found: \x60Line: 2\x60" ['2'] ['1', '1']) =
      (2, 11) := by
  have hline : IsNumber ['2'] := by decide
  have hcolumn : IsNumber ['1', '1'] := by decide
  have hiff := (placeIn_located_iff "Expected: end of statement, found: \x60Line: 2\x60" hline
    hcolumn).1
  exact ⟨hline, hcolumn, hiff.2 (.inl ⟨(found_eq_some_iff isLabel_line.ne_nil).1 (by cbv),
    (found_eq_some_iff isLabel_column.ne_nil).1 (by cbv)⟩)⟩

/-- A token that has both labels in it is taken for the place of the fault. -/
theorem not_forall_placeIn_located :
    ¬ ∀ (front : String) (line column : List Char), IsNumber line → IsNumber column →
      placeIn (located front line column) = (Decimal.ofDigits line, Decimal.ofDigits column) := by
  intro h
  have hplace := h "Expected: end of statement, found: \x60Line: 7, Column: 9\x60" ['2'] ['1', '1']
    (by decide) (by decide)
  have hfound : placeIn (located "Expected: end of statement, found: \x60Line: 7, Column: 9\x60"
      ['2'] ['1', '1']) = (7, 9) := by cbv
  rw [hfound] at hplace
  exact absurd hplace (by decide)

end Sql
end Lineage
