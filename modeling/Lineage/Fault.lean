/-
The wording of complaints about input: their codes, the alternatives that they list,
and text between quotes as they show it.
-/

namespace Lineage

def coded (code text : String) : String := "[" ++ code ++ "] " ++ text

def emptyInput : String := coded "S002" "SQL is empty"

def oneOf (names : List String) : String :=
  let quoted := names.map fun n => "`" ++ n ++ "`"
  match quoted with
  | [] => "there are no variants"
  | [a] => "expected " ++ a
  | [a, b] => "expected " ++ a ++ " or " ++ b
  | _ => "expected one of " ++ ", ".intercalate quoted

def unknownVariant (given : String) (names : List String) : String :=
  "unknown variant `" ++ given ++ "`, " ++ oneOf names

namespace Text

/-- The code points, in ranges, that have no visible form of their own: controls,
formatting characters, spaces, combining marks and places without a character. -/
def invisible : List (Nat × Nat) :=
  [(0x0, 0x1F), (0x7F, 0xA0), (0xAD, 0xAD), (0x300, 0x36F), (0x483, 0x489), (0x591, 0x5BD),
    (0x600, 0x605), (0x610, 0x61A), (0x61C, 0x61C), (0x64B, 0x65F), (0x6DD, 0x6DD),
    (0x1680, 0x1680), (0x180B, 0x180F), (0x1AB0, 0x1ACE), (0x1DC0, 0x1DFF), (0x2000, 0x200F),
    (0x2028, 0x202F), (0x205F, 0x206F), (0x20D0, 0x20F0), (0x3000, 0x3000), (0x302A, 0x302F),
    (0x3099, 0x309A), (0xE000, 0xF8FF), (0xFE00, 0xFE0F), (0xFE20, 0xFE2F), (0xFEFF, 0xFEFF),
    (0xFFF0, 0xFFFB), (0xFFFE, 0xFFFF), (0x1D173, 0x1D17A), (0x1FFFE, 0x1FFFF),
    (0x2FFFE, 0x2FFFF), (0x3FFFE, 0x10FFFF)]

def isInvisible (c : Char) : Bool :=
  invisible.any fun (first, last) => first ≤ c.toNat && c.toNat ≤ last

/-- How a character stands between double quotes.  The common controls have a
letter, other invisible characters are written by their code point. -/
def escaped (c : Char) : String :=
  if c = '"' then "\\\"" else if c = '\\' then "\\\\" else if c = '\n' then "\\n"
  else if c = '\r' then "\\r" else if c = '\t' then "\\t" else if c = '\x00' then "\\0"
  else if isInvisible c && c ≠ ' ' then
    "\\u\x7b" ++ String.ofList (Nat.toDigits 16 c.toNat) ++ "\x7d"
  else c.toString

def quoted (s : String) : String :=
  "\"" ++ s.foldl (fun done c => done ++ escaped c) "" ++ "\""

end Text
end Lineage
