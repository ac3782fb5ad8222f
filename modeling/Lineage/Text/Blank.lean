/-
White space, in the two senses the readers need.
-/

namespace Lineage
namespace Text

/-- The code points with the Unicode property `White_Space`. -/
def blanks : List Nat :=
  [0x9, 0xA, 0xB, 0xC, 0xD, 0x20, 0x85, 0xA0, 0x1680, 0x2000, 0x2001, 0x2002, 0x2003, 0x2004,
    0x2005, 0x2006, 0x2007, 0x2008, 0x2009, 0x200A, 0x2028, 0x2029, 0x202F, 0x205F, 0x3000]

def isBlank (c : Char) : Bool := blanks.contains c.toNat

/-- Space, tab, line feed, form feed and carriage return; the vertical tab is
not among them. -/
def isAsciiBlank (c : Char) : Bool :=
  c = ' ' || c = '\t' || c = '\n' || c = '\x0c' || c = '\r'

def trimStart (cs : List Char) : List Char := cs.dropWhile isBlank

def trimEnd (cs : List Char) : List Char := (cs.reverse.dropWhile isBlank).reverse

def trim (cs : List Char) : List Char := trimEnd (trimStart cs)

def byteCount (cs : List Char) : Nat := cs.foldl (fun n c => n + c.utf8Size) 0

theorem isBlank_of_isAsciiBlank {c : Char} (h : isAsciiBlank c = true) : isBlank c = true := by
  simp only [isAsciiBlank, Bool.or_eq_true, decide_eq_true_eq] at h
  rcases h with (((rfl | rfl) | rfl) | rfl) | rfl <;> decide

/-- The lines of a text.  A line ends with a line feed, which a carriage return
may precede; what follows the last line feed is a line if it is not empty. -/
def lines (cs : List Char) : List (List Char) :=
  go cs [] []
where
  /-- The current line and the lines before it, both in reverse. -/
  go : List Char → List Char → List (List Char) → List (List Char)
    | [], [], done => done.reverse
    | [], line, done => (line.reverse :: done).reverse
    | '\n' :: rest, '\r' :: line, done => go rest [] (line.reverse :: done)
    | '\n' :: rest, line, done => go rest [] (line.reverse :: done)
    | c :: rest, line, done => go rest (c :: line) done

end Text
end Lineage
