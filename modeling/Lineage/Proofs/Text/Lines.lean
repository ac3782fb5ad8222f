import Mathlib.Data.List.TakeWhile
import Lineage.Text.Blank

/-
The lines of a text, and the white space around them.

No character but those of a line end is lost between the lines, and a line is blank
where trimming leaves nothing of it.
-/

namespace Lineage
namespace Text

section lines

variable {cs line : List Char} {done : List (List Char)} {c : Char}

theorem go_char (h : c ≠ '\n') : lines.go (c :: cs) line done = lines.go cs (c :: line) done := by
  rw [lines.go]
  · exact h
  · exact fun _ _ hc => h hc

theorem go_feed (h : '\r' ∉ line.head?) :
    lines.go ('\n' :: cs) line done = lines.go cs [] (line.reverse :: done) := by
  rw [lines.go]
  rintro rest rfl
  exact h rfl

theorem go_feed_return : lines.go ('\n' :: cs) ('\r' :: line) done =
    lines.go cs [] (line.reverse :: done) := by
  rw [lines.go]

/-- The lines before the current one come first, whatever is still to be split. -/
theorem go_eq_append (cs line : List Char) (done : List (List Char)) :
    lines.go cs line done = done.reverse ++ lines.go cs line [] := by
  induction cs generalizing line done with
  | nil =>
    cases line with
    | nil => exact (List.append_nil _).symm
    | cons c line => exact List.reverse_cons
  | cons c cs ih =>
    by_cases hc : c = '\n'
    · subst hc
      cases line with
      | nil =>
        rw [go_feed (by simp), go_feed (by simp), ih, ih _ [_], List.reverse_cons,
          List.append_assoc]
        rfl
      | cons last line =>
        by_cases hlast : last = '\r'
        · subst hlast
          rw [go_feed_return, go_feed_return, ih, ih _ [_], List.reverse_cons, List.append_assoc]
          rfl
        · have hhead : '\r' ∉ (last :: line).head? := by simpa using hlast
          rw [go_feed hhead, go_feed hhead, ih, ih _ [_], List.reverse_cons, List.append_assoc]
          rfl
    · rw [go_char hc, go_char hc]
      exact ih (c :: line) done

theorem go_append (h : '\n' ∉ cs) (rest : List Char) :
    lines.go (cs ++ rest) line done = lines.go rest (cs.reverse ++ line) done := by
  induction cs generalizing line with
  | nil => rfl
  | cons c cs ih =>
    have hc : c ≠ '\n' := fun heq => h (heq ▸ List.mem_cons_self)
    rw [List.cons_append, go_char hc, List.reverse_cons, List.append_assoc]
    exact ih (fun hmem => h (List.mem_cons_of_mem _ hmem))

theorem lines_append_feed (h : '\n' ∉ cs) (hlast : '\r' ∉ cs.getLast?) (rest : List Char) :
    lines (cs ++ '\n' :: rest) = cs :: lines rest := by
  have hhead : '\r' ∉ (cs.reverse ++ []).head? := by
    rw [List.append_nil, List.head?_reverse]
    exact hlast
  rw [lines, go_append h, go_feed hhead, go_eq_append, List.append_nil, List.reverse_reverse]
  rfl

/-- The rows of a text that ends each with a line feed are its lines. -/
theorem lines_flatMap_feed {rows : List (List Char)}
    (h : ∀ row ∈ rows, '\n' ∉ row ∧ '\r' ∉ row.getLast?) :
    lines (rows.flatMap (· ++ ['\n'])) = rows := by
  induction rows with
  | nil => rfl
  | cons row rows ih =>
    obtain ⟨hfeed, hreturn⟩ := h row List.mem_cons_self
    rw [List.flatMap_cons, List.append_assoc, List.singleton_append,
      lines_append_feed hfeed hreturn, ih (fun r hr => h r (List.mem_cons_of_mem _ hr))]

theorem lines_replicate_feed (n : Nat) (rest : List Char) :
    lines (List.replicate n '\n' ++ rest) = List.replicate n [] ++ lines rest := by
  induction n with
  | zero => rfl
  | succ n ih =>
    have hempty := @lines_append_feed [] List.not_mem_nil (by simp)
      (List.replicate n '\n' ++ rest)
    rw [List.replicate_succ, List.replicate_succ, List.cons_append, List.cons_append, ← ih]
    exact hempty

theorem mem_go (hfeed : c ≠ '\n') (hreturn : c ≠ '\r') (h : c ∈ cs ∨ c ∈ line) :
    ∃ l ∈ lines.go cs line done, c ∈ l := by
  induction cs generalizing line done with
  | nil =>
    obtain h | h := h
    · exact absurd h List.not_mem_nil
    · cases line with
      | nil => exact absurd h List.not_mem_nil
      | cons x line =>
        refine ⟨(x :: line).reverse, ?_, List.mem_reverse.2 h⟩
        rw [lines.go]
        · exact List.mem_reverse.2 List.mem_cons_self
        · exact List.cons_ne_nil x line
  | cons x cs ih =>
    by_cases hx : x = '\n'
    · subst hx
      have hrest : c ∈ cs ∨ c ∈ line := by
        rcases h with h | h
        · exact .inl ((List.mem_cons.1 h).resolve_left hfeed)
        · exact .inr h
      -- the current line is complete, and what a return ends it with is not the character
      have hcomplete (l : List Char) (hl : c ∈ line → c ∈ l) :
          ∃ l' ∈ lines.go cs [] (l :: done), c ∈ l' := by
        rcases hrest with hrest | hline
        · exact ih (.inl hrest)
        · refine ⟨l, ?_, hl hline⟩
          rw [go_eq_append]
          exact List.mem_append_left _ (List.mem_reverse.2 List.mem_cons_self)
      by_cases hhead : '\r' ∈ line.head?
      · obtain ⟨before, rfl⟩ := List.head?_eq_some_iff.1 hhead
        rw [go_feed_return]
        exact hcomplete _ (fun hc => List.mem_reverse.2 ((List.mem_cons.1 hc).resolve_left hreturn))
      · rw [go_feed hhead]
        exact hcomplete _ (fun hc => List.mem_reverse.2 hc)
    · rw [go_char hx]
      apply ih
      rcases h with h | h
      · rcases List.mem_cons.1 h with rfl | h
        · exact .inr List.mem_cons_self
        · exact .inl h
      · exact .inr (List.mem_cons_of_mem _ h)

/-- A character that ends no line is in some line. -/
theorem exists_mem_lines (hfeed : c ≠ '\n') (hreturn : c ≠ '\r') (h : c ∈ cs) :
    ∃ l ∈ lines cs, c ∈ l := mem_go hfeed hreturn (.inl h)

end lines

/-! ## Blank lines and indentation -/

theorem trim_eq_nil_iff {cs : List Char} : trim cs = [] ↔ ∀ c ∈ cs, isBlank c = true := by
  have hend (l : List Char) : trimEnd l = [] ↔ ∀ c ∈ l, isBlank c = true := by
    rw [trimEnd, List.reverse_eq_nil_iff, List.dropWhile_eq_nil_iff]
    simp only [List.mem_reverse]
  rw [trim, hend]
  constructor
  · intro h c hc
    rw [← List.takeWhile_append_dropWhile (p := isBlank) (l := cs)] at hc
    rcases List.mem_append.1 hc with hc | hc
    · exact List.mem_takeWhile_imp hc
    · exact h c hc
  · intro h c hc
    exact h c ((List.dropWhile_sublist _).subset hc)

theorem trim_append_of_blank {gap : List Char} (h : ∀ c ∈ gap, isBlank c = true)
    (cs : List Char) : trim (gap ++ cs) = trim cs := by
  rw [trim, trimStart, List.dropWhile_append_of_pos h, ← trimStart, ← trim]

section trimmed

variable {gap cs : List Char} (hgap : ∀ c ∈ gap, isBlank c = true)
  (hcs : ∀ c ∈ cs, isBlank c = false)

theorem dropWhile_isBlank {cs : List Char} (hcs : ∀ c ∈ cs, isBlank c = false) :
    cs.dropWhile isBlank = cs := by
  cases cs with
  | nil => rfl
  | cons c cs => exact List.dropWhile_cons_of_neg (Bool.eq_false_iff.1 (hcs c List.mem_cons_self))

include hgap hcs

theorem trimStart_append : trimStart (gap ++ cs) = cs := by
  rw [trimStart, List.dropWhile_append_of_pos hgap, dropWhile_isBlank hcs]

theorem trim_append : trim (gap ++ cs) = cs := by
  have hreverse : ∀ c ∈ cs.reverse, isBlank c = false :=
    fun c hc => hcs c (List.mem_reverse.1 hc)
  rw [trim, trimStart_append hgap hcs, trimEnd, dropWhile_isBlank hreverse, List.reverse_reverse]

end trimmed

theorem byteCount_append (a b : List Char) : byteCount (a ++ b) = byteCount a + byteCount b := by
  have hfold (n : Nat) : b.foldl (fun n c => n + c.utf8Size) n = n + byteCount b := by
    induction b generalizing n with
    | nil => rfl
    | cons c b ih => rw [byteCount, List.foldl_cons, List.foldl_cons, ih, ih, Nat.zero_add,
        Nat.add_assoc]
  rw [byteCount, List.foldl_append, hfold, ← byteCount]

theorem byteCount_cons (c : Char) (cs : List Char) :
    byteCount (c :: cs) = c.utf8Size + byteCount cs := by
  rw [← List.singleton_append, byteCount_append, byteCount, List.foldl_cons, List.foldl_nil,
    Nat.zero_add]

/-- What is trimmed from the start of a line takes the bytes that the line loses. -/
theorem byteCount_takeWhile (cs : List Char) :
    byteCount (cs.takeWhile isBlank) = byteCount cs - byteCount (trimStart cs) := by
  have hsplit : byteCount cs = byteCount (cs.takeWhile isBlank) + byteCount (trimStart cs) := by
    rw [← byteCount_append, trimStart, List.takeWhile_append_dropWhile]
  omega

end Text
end Lineage
