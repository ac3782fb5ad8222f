import Mathlib
import Lineage.Script
import Lineage.Proofs.Text.Lines

/-
The places that faults of a script name.

A fault names its place in the text that was parsed, and the white space around a
script is gone by then.  So white space in front of a script never changes the place,
although in the text as it was given every place moves: by a line for each line feed,
and on the first line by the characters in front.
-/

namespace Lineage
namespace Sql

namespace Place

theorem line_foldl_after (cs : List Char) (p : Place) :
    (cs.foldl after p).line = p.line + cs.count '\n' := by
  induction cs generalizing p with
  | nil => rfl
  | cons c cs ih =>
    rw [List.foldl_cons, ih, List.count_cons]
    by_cases hc : c = '\n'
    · simp only [after, hc, if_true, beq_self_eq_true]
      omega
    · simp only [after, hc, if_false, beq_iff_eq]
      omega

theorem column_foldl_after {cs : List Char} (h : '\n' ∉ cs) (p : Place) :
    (cs.foldl after p).column = p.column + cs.length := by
  induction cs generalizing p with
  | nil => rfl
  | cons c cs ih =>
    rw [List.mem_cons, not_or] at h
    have hc : c ≠ '\n' := fun heq => h.1 heq.symm
    rw [List.foldl_cons, ih h.2, List.length_cons]
    simp only [after, hc, if_false]
    omega

theorem column_foldl_after_feed {cs : List Char} (h : '\n' ∈ cs.getLast?) (p : Place) :
    (cs.foldl after p).column = 1 := by
  obtain ⟨before, rfl⟩ := List.getLast?_eq_some_iff.1 h
  rw [List.foldl_append]
  rfl

theorem one_le_column (cs : List Char) : 1 ≤ (cs.foldl after start).column := by
  rcases List.eq_nil_or_concat cs with rfl | ⟨before, c, rfl⟩
  · exact Nat.le_refl 1
  · rw [List.concat_eq_append, List.foldl_append]
    show 1 ≤ (after (before.foldl after start) c).column
    unfold after
    split
    · exact Nat.le_refl 1
    · exact Nat.le_add_left ..

/-- A place of a text, in the text that has `before` in front. -/
def behind (before : List Char) (p : Place) : Place :=
  let origin := before.foldl after start
  ⟨origin.line + p.line - 1,
    if p.line = 1 then origin.column + p.column - 1 else p.column⟩

/-- What stands in front of a text moves its places. -/
theorem foldl_after_append (before cs : List Char) :
    (before ++ cs).foldl after start = (cs.foldl after start).behind before := by
  induction cs using List.reverseRecOn with
  | nil =>
    rw [List.append_nil]
    rfl
  | append_singleton cs c ih =>
    have hline := line_foldl_after cs start
    have hcolumn := one_le_column cs
    rw [← List.append_assoc, List.foldl_append, ih, List.foldl_append]
    generalize cs.foldl after start = p at hline hcolumn
    show after (p.behind before) c = (after p c).behind before
    have hpos : 1 ≤ p.line := by
      rw [hline]
      exact Nat.le_add_right ..
    unfold after behind
    by_cases hc : c = '\n'
    · simp only [hc, if_true, mk.injEq]
      constructor
      · omega
      · rw [if_neg (by omega)]
    · simp only [hc, if_false, mk.injEq, true_and]
      split <;> omega

theorem behind_of_feed {before : List Char} (h : '\n' ∈ before.getLast?) {p : Place}
    (hp : 1 ≤ p.line) : p.behind before = ⟨p.line + before.count '\n', p.column⟩ := by
  have hline : (before.foldl after start).line = 1 + before.count '\n' :=
    line_foldl_after before start
  have hcolumn := column_foldl_after_feed h start
  simp only [behind, hline, hcolumn, mk.injEq]
  constructor
  · omega
  · split <;> omega

theorem behind_eq_self_iff {before : List Char} {p : Place} (hp : 1 ≤ p.line) :
    p.behind before = p ↔ '\n' ∉ before ∧ (p.line = 1 → before = []) := by
  have hline : (before.foldl after start).line = 1 + before.count '\n' :=
    line_foldl_after before start
  obtain ⟨line, column⟩ := p
  simp only [behind, hline, mk.injEq]
  by_cases hfeed : '\n' ∈ before
  · have hcount := List.count_pos_iff.2 hfeed
    constructor
    · rintro ⟨hsame, -⟩
      simp only at hp
      omega
    · rintro ⟨hnot, -⟩
      exact absurd hfeed hnot
  · have hcolumn : (before.foldl after start).column = 1 + before.length :=
      column_foldl_after hfeed start
    have hcount := List.count_eq_zero.2 hfeed
    rw [hcount, hcolumn, ← List.length_eq_zero_iff]
    constructor
    · rintro ⟨-, hsame⟩
      refine ⟨hfeed, fun hfirst => ?_⟩
      rw [if_pos hfirst] at hsame
      omega
    · rintro ⟨-, hempty⟩
      refine ⟨by omega, ?_⟩
      by_cases hfirst : line = 1
      · rw [if_pos hfirst, hempty hfirst]
        omega
      · rw [if_neg hfirst]

end Place

/-- The place that a fault names in its message. -/
def SyntaxFault.place (fault : SyntaxFault) : Place :=
  let (line, column) := placeIn ("sql parser error: " ++ fault.message)
  ⟨line, column⟩

theorem message_syntactic (fault : SyntaxFault) :
    (Fault.syntactic fault).message =
      coded "S001" ("SQL parse error at line " ++ toString fault.place.line ++ ", column " ++
        toString fault.place.column ++ ": " ++ ("sql parser error: " ++ fault.message)) := rfl

end Sql

namespace Script

variable {d : Sql.Dialect} {blanks text : String} {fault : Sql.SyntaxFault}

/-- White space in front of a script changes nothing. -/
theorem read_append_of_blank (h : ∀ c ∈ blanks.toList, Text.isBlank c = true) :
    read d (blanks ++ text) = read d text := by
  rw [read, read, String.toList_append, Text.trim_append_of_blank h]

/-- What is wrong with a script is wrong with the text inside its white space. -/
theorem parse_trim_of_read (h : read d text = .error (.syntactic fault)) :
    Sql.parse d (String.ofList (Text.trim text.toList)) = .error fault := by
  unfold read at h
  split at h
  · cases h
  · split at h
    · cases h
    · next hparse =>
      injection h with h
      injection h with h
      rw [hparse, h]

/-- A script with white space in front fails with the same fault, which is found in the
text inside the white space, at the same place.  That is the place in the text as it was
given exactly if the white space ends no line and, should the fault be on the first line,
is empty.  If a line feed is the last of the white space, the fault is as many lines
further down as there are line feeds, in the same column. -/
theorem read_append_fault (hblank : ∀ c ∈ blanks.toList, Text.isBlank c = true)
    (hfault : read d text = .error (.syntactic fault)) (hline : 1 ≤ fault.place.line) :
    read d (blanks ++ text) = .error (.syntactic fault) ∧
    Sql.parse d (String.ofList (Text.trim (blanks ++ text).toList)) = .error fault ∧
    (fault.place.behind blanks.toList = fault.place ↔
      '\n' ∉ blanks.toList ∧ (fault.place.line = 1 → blanks = "")) ∧
    ('\n' ∈ blanks.toList.getLast? → fault.place.behind blanks.toList =
      ⟨fault.place.line + blanks.toList.count '\n', fault.place.column⟩) := by
  have hread : read d (blanks ++ text) = .error (.syntactic fault) :=
    (read_append_of_blank hblank).trans hfault
  refine ⟨hread, parse_trim_of_read hread, ?_,
    fun hfeed => Sql.Place.behind_of_feed hfeed hline⟩
  rw [Sql.Place.behind_eq_self_iff hline, String.toList_eq_nil_iff]

/-- A string literal that is never closed, on the first line. -/
theorem read_unclosed :
    read .hive "SELECT 'a" = .error (.syntactic (.unterminatedString ⟨1, 8⟩)) := by cbv

theorem place_unclosed : (Sql.SyntaxFault.unterminatedString ⟨1, 8⟩).place = ⟨1, 8⟩ := by
  decide +kernel

theorem isBlank_feed : ∀ c ∈ "\n".toList, Text.isBlank c = true := by
  intro c hc
  obtain rfl : c = '\n' := List.mem_singleton.1 hc
  exact Text.isBlank_of_isAsciiBlank (by decide)

/-- Behind a line, the literal would be on the second line. -/
theorem read_append_fault_unclosed :
    (∀ c ∈ "\n".toList, Text.isBlank c = true) ∧
    1 ≤ (Sql.SyntaxFault.unterminatedString ⟨1, 8⟩).place.line ∧
    read .hive "SELECT 'a" = .error (.syntactic (.unterminatedString ⟨1, 8⟩)) ∧
    read .hive ("\n" ++ "SELECT 'a") = .error (.syntactic (.unterminatedString ⟨1, 8⟩)) ∧
    (Sql.SyntaxFault.unterminatedString ⟨1, 8⟩).place.behind "\n".toList = ⟨2, 8⟩ := by
  have hline : 1 ≤ (Sql.SyntaxFault.unterminatedString ⟨1, 8⟩).place.line :=
    Nat.le_of_eq (congrArg Sql.Place.line place_unclosed).symm
  obtain ⟨hread, -, -, hplace⟩ := read_append_fault isBlank_feed read_unclosed hline
  refine ⟨isBlank_feed, hline, read_unclosed, hread, (hplace (by decide)).trans ?_⟩
  rw [place_unclosed]
  decide

/-- A line in front of a script moves no place. -/
theorem not_forall_read_append :
    ¬ ∀ (d : Sql.Dialect) (blanks text : String) (fault : Sql.SyntaxFault),
      (∀ c ∈ blanks.toList, Text.isBlank c = true) → '\n' ∈ blanks.toList.getLast? →
      read d text = .error (.syntactic fault) → 1 ≤ fault.place.line →
      ∃ fault', read d (blanks ++ text) = .error (.syntactic fault') ∧
        fault'.place = ⟨fault.place.line + blanks.toList.count '\n', fault.place.column⟩ := by
  intro h
  have hline : 1 ≤ (Sql.SyntaxFault.unterminatedString ⟨1, 8⟩).place.line :=
    Nat.le_of_eq (congrArg Sql.Place.line place_unclosed).symm
  obtain ⟨fault', hread, hplace⟩ := h .hive "\n" "SELECT 'a" _ isBlank_feed (by decide)
    read_unclosed hline
  rw [read_append_of_blank isBlank_feed, read_unclosed] at hread
  injection hread with hfault
  injection hfault with hfault
  rw [← hfault, place_unclosed] at hplace
  exact absurd hplace (by decide)

end Script
end Lineage
