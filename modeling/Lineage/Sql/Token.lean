import Lineage.Sql.Fault

/-
Tokens of SQL text.
-/

namespace Lineage
namespace Sql

/-- Letters beyond ASCII whose upper case is written in ASCII letters. -/
def foreignUpper : List (Char × String) :=
  [('\u00df', "SS"), ('\u0131', "I"), ('\u017f', "S"), ('\ufb00', "FF"), ('\ufb01', "FI"),
    ('\ufb02', "FL"), ('\ufb03', "FFI"), ('\ufb04', "FFL"), ('\ufb05', "ST"), ('\ufb06', "ST")]

/-- A word in upper case, as far as it can spell a keyword. -/
def upperCase (word : String) : String :=
  word.foldl (fun done c =>
    if c.toNat < 128 then done.push c.toUpper
    else done ++ (foreignUpper.lookup c).getD c.toString) ""

structure Word where
  value : String
  quote : Option Char
  /-- The word in upper case, or nothing if it is quoted: what keywords are
  compared with. -/
  keyword : String
  deriving DecidableEq

namespace Word

def plain (value : String) : Word := ⟨value, none, upperCase value⟩

def quoted (quote : Char) (value : String) : Word := ⟨value, some quote, ""⟩

/-- A word as an error text shows it.  Doubled quotes are shown once. -/
def spelling (w : Word) : String :=
  match w.quote with
  | none => w.value
  | some q => q.toString ++ w.value ++ q.toString

end Word

inductive TextStyle where
  | single
  | double
  | national
  | hex
  | bytes
  | doubleBytes
  | raw
  | doubleRaw
  | escaped
  | unicode
  | dollar (tag : String)
  deriving DecidableEq

inductive Token where
  | word (word : Word)
  /-- A number, which the letter `L` may end. -/
  | number (digits : String) (long : Bool)
  | text (style : TextStyle) (value : String)
  | symbol (spelling : String)
  | placeholder (spelling : String)
  deriving DecidableEq

namespace Token

def spelling : Token → String
  | word w => w.spelling
  | number digits long => if long then digits ++ "L" else digits
  | text style value =>
    let (opening, closing) := match style with
      | .single => ("'", "'")
      | .double => ("\"", "\"")
      | .national => ("N'", "'")
      | .hex => ("X'", "'")
      | .bytes => ("B'", "'")
      | .doubleBytes => ("B\"", "\"")
      | .raw => ("R'", "'")
      | .doubleRaw => ("R\"", "\"")
      | .escaped => ("E'", "'")
      | .unicode => ("U&'", "'")
      | .dollar tag => ("$" ++ tag ++ "$", "$" ++ tag ++ "$")
    opening ++ value ++ closing
  | symbol s => s
  | placeholder s => s

def isKeyword (t : Token) (keyword : String) : Bool :=
  match t with
  | word w => w.keyword = keyword
  | _ => false

end Token

structure Located where
  token : Token
  place : Place
  deriving DecidableEq

end Sql
end Lineage
