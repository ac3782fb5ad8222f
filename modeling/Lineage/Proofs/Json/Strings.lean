import Mathlib
import Lineage.Record.Json

/-
Reading back what is printed.

A reader gives a value for a text if it does so wherever the text starts, and refuses
a text for a cause likewise.  Both are put together along the reader, and a printed
string is read as the string, escapes and all.
-/

namespace Lineage
namespace Json
namespace Reader

variable {α β : Type}

/-- The reader takes what is before `after` and gives a value for it. -/
def Gives (r : Reader α) (text after : List Char) (a : α) : Prop :=
  ∀ p, ∃ p', r ⟨text, p⟩ = (.ok a, ⟨after, p'⟩)

def Refuses (r : Reader α) (text : List Char) (cause : Cause) : Prop :=
  ∀ p, ∃ place c, r ⟨text, p⟩ = (.error ⟨cause, place⟩, c)

/-- What the reader does with a text is what another one does with the rest of it. -/
def Leads (r r' : Reader α) (text after : List Char) : Prop :=
  ∀ p, ∃ p', r ⟨text, p⟩ = r' ⟨after, p'⟩

section runs

variable {r : Reader α} {f : α → Reader β} {text after rest : List Char} {a : α} {b : β}
  {cause : Cause}

theorem run_bind (r : Reader α) (f : α → Reader β) (c : Cursor) :
    (r >>= f) c = match r c with
      | (.ok a, c) => f a c
      | (.error fault, c) => (.error fault, c) := by
  show (match r c with | (x, c) => ExceptT.bindCont f x c) = _
  cases r c with
  | mk x c => cases x <;> rfl

theorem Gives.leads (h : Gives r text after a) (f : α → Reader β) :
    Leads (r >>= f) (f a) text after := by
  intro p
  obtain ⟨p', hr⟩ := h p
  exact ⟨p', by rw [run_bind, hr]⟩

theorem Leads.trans {r r' r'' : Reader α} (h : Leads r r' text after)
    (h' : Leads r' r'' after rest) : Leads r r'' text rest := by
  intro p
  obtain ⟨p', hr⟩ := h p
  obtain ⟨p'', hr'⟩ := h' p'
  exact ⟨p'', hr.trans hr'⟩

theorem Leads.gives {r r' : Reader α} (h : Leads r r' text after) (h' : Gives r' after rest a) :
    Gives r text rest a := by
  intro p
  obtain ⟨p', hr⟩ := h p
  obtain ⟨p'', hr'⟩ := h' p'
  exact ⟨p'', hr.trans hr'⟩

theorem Leads.refuses {r r' : Reader α} (h : Leads r r' text after)
    (h' : Refuses r' after cause) : Refuses r text cause := by
  intro p
  obtain ⟨p', hr⟩ := h p
  obtain ⟨place, c, hr'⟩ := h' p'
  exact ⟨place, c, hr.trans hr'⟩

theorem Gives.bind (h : Gives r text after a) (hf : Gives (f a) after rest b) :
    Gives (r >>= f) text rest b := (h.leads f).gives hf

theorem Gives.bind_refuses (h : Gives r text after a) (hf : Refuses (f a) after cause) :
    Refuses (r >>= f) text cause := (h.leads f).refuses hf

theorem Refuses.bind (h : Refuses r text cause) : Refuses (r >>= f) text cause := by
  intro p
  obtain ⟨place, c, hr⟩ := h p
  exact ⟨place, c, by rw [run_bind, hr]⟩

theorem gives_pure (a : α) (text : List Char) : Gives (pure a) text text a := fun p => ⟨p, rfl⟩

theorem Gives.located (h : Gives r text after a) : Gives (located r) text after a := by
  intro p
  obtain ⟨p', hr⟩ := h p
  exact ⟨p', by rw [Reader.located, hr]⟩

theorem Refuses.located (h : Refuses r text cause) : Refuses (located r) text cause := by
  intro p
  obtain ⟨place, c, hr⟩ := h p
  cases place with
  | none => exact ⟨some c.place, c, by rw [Reader.located, hr]⟩
  | some place => exact ⟨some place, c, by rw [Reader.located, hr]⟩

theorem Gives.thenEnd {ending : Reader Unit} (h : Gives r text after a)
    (hending : Gives ending after rest ()) : Gives (thenEnd r ending) text rest a := by
  intro p
  obtain ⟨p', hr⟩ := h p
  obtain ⟨p'', hend⟩ := hending p'
  exact ⟨p'', by rw [Reader.thenEnd, hr]; simp only [hend]⟩

theorem Refuses.thenEnd (h : Refuses r text cause) (ending : Reader Unit) :
    Refuses (thenEnd r ending) text cause := by
  intro p
  obtain ⟨place, c, hr⟩ := h p
  exact ⟨place, (ending c).2, by rw [Reader.thenEnd, hr]⟩

theorem gives_advance (c : Char) (rest : List Char) : Gives advance (c :: rest) rest () :=
  fun p => ⟨Cursor.after p c, rfl⟩

theorem gives_next (c : Char) (rest : List Char) : Gives next? (c :: rest) rest (some c) :=
  fun p => ⟨Cursor.after p c, rfl⟩

theorem gives_peek {c : Char} (h : Cursor.isSpace c = false) (rest : List Char) :
    Gives peek (c :: rest) (c :: rest) (some c) := by
  intro p
  have hskip : Cursor.skipSpaces ⟨c :: rest, p⟩ = ⟨c :: rest, p⟩ := by
    rw [Cursor.skipSpaces, Cursor.skipSpaces.go, if_neg (Bool.eq_false_iff.1 h)]
  refine ⟨p, ?_⟩
  show (Except.ok (Cursor.skipSpaces ⟨c :: rest, p⟩).rest.head?,
    Cursor.skipSpaces ⟨c :: rest, p⟩) = _
  rw [hskip]
  rfl

theorem gives_peek_end : Gives peek [] [] none := fun p => ⟨p, rfl⟩

theorem gives_get (text : List Char) {g : Cursor → Reader β}
    (h : ∀ p, Gives (g ⟨text, p⟩) text rest b) : Gives (get >>= g) text rest b := by
  intro p
  exact h p p

theorem refuses_get (text : List Char) {g : Cursor → Reader β}
    (h : ∀ p, Refuses (g ⟨text, p⟩) text cause) : Refuses (get >>= g) text cause := by
  intro p
  exact h p p

end runs

/-! ## Strings -/

def escapeChars (c : Char) : List Char := (escape c).toList

theorem toList_quote (s : String) :
    (quote s).toList = '"' :: (s.toList.flatMap escapeChars ++ ['"']) := by
  have hfold (cs : List Char) (done : String) :
      (cs.foldl (fun done c => done ++ escape c) done).toList =
        done.toList ++ cs.flatMap escapeChars := by
    induction cs generalizing done with
    | nil => exact (List.append_nil _).symm
    | cons c cs ih =>
      rw [List.foldl_cons, ih, String.toList_append, List.append_assoc]
      rfl
  rw [quote, String.toList_append, String.toList_append, String.foldl_eq_foldl_toList, hfold]
  rfl

/-- The two digits of a control character are read as its number. -/
theorem hexDigit?_digitChar {n : Nat} (h : n < 32) :
    hexDigit? (Nat.digitChar (n / 16 % 16)) = some (n / 16) ∧
      hexDigit? (Nat.digitChar (n % 16)) = some (n % 16) := by
  have hall : ∀ n < 32, hexDigit? (Nat.digitChar (n / 16 % 16)) = some (n / 16) ∧
      hexDigit? (Nat.digitChar (n % 16)) = some (n % 16) := by decide
  exact hall n h

theorem gives_hexFour {w x y z : Char} {a b c d : Nat} (hw : hexDigit? w = some a)
    (hx : hexDigit? x = some b) (hy : hexDigit? y = some c) (hz : hexDigit? z = some d)
    (rest : List Char) :
    Gives hexFour (w :: x :: y :: z :: rest) rest (((a * 16 + b) * 16 + c) * 16 + d) := by
  intro p
  refine ⟨[w, x, y, z].foldl Cursor.after p, ?_⟩
  rw [hexFour, run_bind]
  show (do set _; _ : Reader Nat) _ = _
  rw [hw, hx, hy, hz]
  rfl

theorem gives_escaped_control {n : Nat} (h : n < 32) (rest : List Char) :
    Gives escaped ('u' :: '0' :: '0' :: Nat.digitChar (n / 16 % 16) :: Nat.digitChar (n % 16) ::
      rest) rest (Char.ofNat n) := by
  obtain ⟨hhigh, hlow⟩ := hexDigit?_digitChar h
  have hzero : hexDigit? '0' = some 0 := rfl
  have hfour := gives_hexFour hzero hzero hhigh hlow rest
  have hn : ((0 * 16 + 0) * 16 + n / 16) * 16 + n % 16 = n := by omega
  rw [hn] at hfour
  have hlow' : ¬ (decide (0xDC00 ≤ n) && decide (n ≤ 0xDFFF)) = true := by
    rw [Bool.and_eq_true, decide_eq_true_eq, decide_eq_true_eq]
    omega
  have hhigh' : ¬ (decide (0xD800 ≤ n) && decide (n ≤ 0xDBFF)) = true := by
    rw [Bool.and_eq_true, decide_eq_true_eq, decide_eq_true_eq]
    omega
  refine (gives_next 'u' _).bind (hfour.bind ?_)
  rw [if_neg hlow', if_neg hhigh']
  exact gives_pure _ _

/-- The characters that are printed as a letter behind a backslash. -/
def letters : List (Char × Char) :=
  [('"', '"'), ('\\', '\\'), ('\n', 'n'), ('\r', 'r'), ('\t', 't'), ('\x08', 'b'), ('\x0c', 'f')]

theorem escapeChars_letter {c letter : Char} (h : (c, letter) ∈ letters) :
    escapeChars c = ['\\', letter] ∧ ∀ rest, Gives escaped (letter :: rest) rest c := by
  simp only [letters, List.mem_cons, List.not_mem_nil, or_false, Prod.mk.injEq] at h
  rcases h with ⟨rfl, rfl⟩ | ⟨rfl, rfl⟩ | ⟨rfl, rfl⟩ | ⟨rfl, rfl⟩ | ⟨rfl, rfl⟩ | ⟨rfl, rfl⟩ |
    ⟨rfl, rfl⟩
  all_goals exact ⟨rfl, fun rest p => ⟨_, rfl⟩⟩

theorem escapeChars_of_not_letter {c : Char} (h : ∀ letter, (c, letter) ∉ letters) :
    c ≠ '"' ∧ c ≠ '\\' ∧ escapeChars c =
      if c.toNat < 32 then
        ['\\', 'u', '0', '0', Nat.digitChar (c.toNat / 16 % 16), Nat.digitChar (c.toNat % 16)]
      else [c] := by
  have hne (x letter : Char) (hx : (x, letter) ∈ letters) : c ≠ x := by
    rintro rfl
    exact h letter hx
  have hquote : c ≠ '"' := hne '"' '"' (by decide)
  have hslash : c ≠ '\\' := hne '\\' '\\' (by decide)
  have hfeed : c ≠ '\n' := hne '\n' 'n' (by decide)
  have hreturn : c ≠ '\r' := hne '\r' 'r' (by decide)
  have htab : c ≠ '\t' := hne '\t' 't' (by decide)
  have hback : c ≠ '\x08' := hne '\x08' 'b' (by decide)
  have hform : c ≠ '\x0c' := hne '\x0c' 'f' (by decide)
  refine ⟨hquote, hslash, ?_⟩
  rw [escapeChars, escape, if_neg hquote, if_neg hslash, if_neg hfeed, if_neg hreturn, if_neg htab,
    if_neg hback, if_neg hform]
  split
  · simp [hexByte]
  · exact String.toList_singleton c

/-- A character is printed as itself, or behind a backslash as what is read as it. -/
theorem escapeChars_cases (c : Char) :
    (escapeChars c = [c] ∧ c ≠ '"' ∧ c ≠ '\\' ∧ ¬ c.toNat < 32) ∨
    ∃ tail, escapeChars c = '\\' :: tail ∧ ∀ rest, Gives escaped (tail ++ rest) rest c := by
  by_cases hletter : ∃ letter, (c, letter) ∈ letters
  · obtain ⟨letter, hmem⟩ := hletter
    obtain ⟨hchars, hgives⟩ := escapeChars_letter hmem
    exact .inr ⟨[letter], hchars, hgives⟩
  obtain ⟨hquote, hslash, hchars⟩ :=
    escapeChars_of_not_letter (fun letter hmem => hletter ⟨letter, hmem⟩)
  by_cases hcontrol : c.toNat < 32
  · rw [if_pos hcontrol] at hchars
    refine .inr ⟨_, hchars, fun rest => ?_⟩
    have hgives := gives_escaped_control hcontrol rest
    rw [Char.ofNat_toNat] at hgives
    exact hgives
  · rw [if_neg hcontrol] at hchars
    exact .inl ⟨hchars, hquote, hslash, hcontrol⟩

theorem gives_stringFrom (cs : List Char) (rest : List Char) :
    ∀ {limit : Nat} (done : List Char), cs.length < limit →
      Gives (stringFrom limit done) (cs.flatMap escapeChars ++ '"' :: rest) rest
        (String.ofList (done.reverse ++ cs)) := by
  induction cs with
  | nil =>
    intro limit done hlimit
    obtain ⟨limit, rfl⟩ := Nat.exists_eq_add_one_of_ne_zero (Nat.ne_of_gt hlimit)
    rw [stringFrom, List.append_nil]
    exact (gives_next '"' rest).bind (gives_pure _ _)
  | cons c cs ih =>
    intro limit done hlimit
    obtain ⟨limit, rfl⟩ := Nat.exists_eq_add_one_of_ne_zero (Nat.ne_zero_of_lt hlimit)
    have hnext := @ih limit (c :: done) (Nat.lt_of_succ_lt_succ hlimit)
    rw [List.reverse_cons, List.append_assoc, List.singleton_append] at hnext
    rw [stringFrom, List.flatMap_cons, List.append_assoc]
    rcases escapeChars_cases c with ⟨hc, hquote, hslash, hcontrol⟩ | ⟨tail, hc, htail⟩
    · rw [hc]
      refine (gives_next c _).bind ?_
      split
      · next heq => exact absurd heq (by simp)
      · next heq => exact absurd (Option.some.inj heq) hquote
      · next heq => exact absurd (Option.some.inj heq) hslash
      · next heq =>
        obtain rfl := Option.some.inj heq
        rw [if_neg hcontrol]
        exact hnext
    · rw [hc]
      exact (gives_next '\\' _).bind ((htail _).bind hnext)

theorem gives_stringBody (s : String) (rest : List Char) :
    Gives stringBody (s.toList.flatMap escapeChars ++ '"' :: rest) rest s := by
  have hlength (cs : List Char) : cs.length ≤ (cs.flatMap escapeChars).length := by
    induction cs with
    | nil => exact Nat.le_refl _
    | cons c cs ih =>
      have hone : 0 < (escapeChars c).length := by
        rcases escapeChars_cases c with ⟨hc, -⟩ | ⟨tail, hc, -⟩ <;> rw [hc] <;> exact Nat.succ_pos _
      rw [List.flatMap_cons, List.length_append, List.length_cons]
      omega
  unfold stringBody
  refine gives_get _ (fun p => ?_)
  have hlimit : s.toList.length < (s.toList.flatMap escapeChars ++ '"' :: rest).length + 1 := by
    have hle := hlength s.toList
    rw [List.length_append]
    omega
  have hread := gives_stringFrom s.toList rest [] hlimit
  rw [List.reverse_nil, List.nil_append, String.ofList_toList] at hread
  exact hread

end Reader
end Json
end Lineage
