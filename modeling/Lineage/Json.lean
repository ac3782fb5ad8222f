/-
JSON values and their two printed forms.
-/

namespace Lineage

/-- A JSON value.  Members keep their order. -/
inductive Json where
  | bool (b : Bool)
  | nat (n : Nat)
  | str (s : String)
  | arr (items : List Json)
  | obj (members : List (String × Json))

namespace Json

def hexByte (n : Nat) : String :=
  String.ofList [Nat.digitChar (n / 16 % 16), Nat.digitChar (n % 16)]

/-- How a character stands inside a string.  Quotes, backslashes and control
characters are escaped, the common ones by a letter. -/
def escape (c : Char) : String :=
  if c = '"' then "\\\""
  else if c = '\\' then "\\\\"
  else if c = '\n' then "\\n"
  else if c = '\r' then "\\r"
  else if c = '\t' then "\\t"
  else if c = '\x08' then "\\b"
  else if c = '\x0c' then "\\f"
  else if c.toNat < 32 then "\\u00" ++ hexByte c.toNat
  else c.toString

def quote (s : String) : String :=
  "\"" ++ s.foldl (fun done c => done ++ escape c) "" ++ "\""

mutual

def compact : Json → String
  | bool b => if b then "true" else "false"
  | nat n => toString n
  | str s => quote s
  | arr items => "[" ++ ",".intercalate (compactItems items) ++ "]"
  | obj members => "\x7b" ++ ",".intercalate (compactMembers members) ++ "\x7d"

def compactItems : List Json → List String
  | [] => []
  | item :: rest => compact item :: compactItems rest

def compactMembers : List (String × Json) → List String
  | [] => []
  | (key, value) :: rest => (quote key ++ ":" ++ compact value) :: compactMembers rest

end

/-- A bracketed list with one item a line, two spaces deeper than the brackets. -/
def block (opening closing : String) (indent : String) : List String → String
  | [] => opening ++ closing
  | items =>
    opening ++ "\n" ++ ",\n".intercalate (items.map (indent ++ "  " ++ ·)) ++ "\n" ++ indent ++
      closing

mutual

def pretty (indent : String) : Json → String
  | bool b => if b then "true" else "false"
  | nat n => toString n
  | str s => quote s
  | arr items => block "[" "]" indent (prettyItems (indent ++ "  ") items)
  | obj members => block "\x7b" "\x7d" indent (prettyMembers (indent ++ "  ") members)

def prettyItems (indent : String) : List Json → List String
  | [] => []
  | item :: rest => pretty indent item :: prettyItems indent rest

def prettyMembers (indent : String) : List (String × Json) → List String
  | [] => []
  | (key, value) :: rest =>
    (quote key ++ ": " ++ pretty indent value) :: prettyMembers indent rest

end

end Json

end Lineage
