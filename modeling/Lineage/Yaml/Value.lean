import Lineage.Decimal
import Lineage.Fault
import Lineage.Yaml.Token

/-
What scalars stand for.

Only the lower-case, capitalised and upper-case spellings of the words count, and
a number with a leading zero is a text.
-/

namespace Lineage
namespace Yaml

def isNull (s : String) : Bool := ["null", "Null", "NULL", "~"].contains s

def bool? (s : String) : Option Bool :=
  if ["true", "True", "TRUE"].contains s then some true
  else if ["false", "False", "FALSE"].contains s then some false
  else none

/-! ### Integers -/

def digitIn? (radix : Nat) (c : Char) : Option Nat :=
  let digit := if c.isDigit then some (c.toNat - 48)
    else if 'a' ≤ c && c ≤ 'f' then some (c.toNat - 87)
    else if 'A' ≤ c && c ≤ 'F' then some (c.toNat - 55)
    else none
  digit.filter (· < radix)

/-- The number that digits write; there must be one at least. -/
def digits? (radix : Nat) (cs : List Char) : Option Nat :=
  if cs.isEmpty then none
  else cs.foldl (fun n? c => n?.bind fun n => (digitIn? radix c).map (radix * n + ·)) (some 0)

/-- Digits that are no number, because the first of several is a zero. -/
def isPadded (cs : List Char) : Bool :=
  1 < cs.length && cs.head? = some '0' && cs.all Char.isDigit

def magnitude? : List Char → Option Nat
  | '0' :: 'x' :: cs => digits? 16 cs
  | '0' :: 'o' :: cs => digits? 8 cs
  | '0' :: 'b' :: cs => digits? 2 cs
  | cs => if isPadded cs then none else digits? 10 cs

def nat? (s : String) : Option Nat :=
  match s.toList with
  | '+' :: cs => magnitude? cs
  | cs => magnitude? cs

def negative? (s : String) : Option Nat :=
  match s.toList with
  | '-' :: cs => magnitude? cs
  | _ => none

/-- An integer in words.  One that fits no machine word says what it fits. -/
def integer? (s : String) : Option String :=
  match nat? s, negative? s with
  | some n, _ =>
    if n < Decimal.wordCount then some ("integer `" ++ toString n ++ "`")
    else if n < Decimal.doubleWordCount then some ("integer `" ++ toString n ++ "` as u128")
    else none
  | none, some n =>
    let text := (if n = 0 then "" else "-") ++ toString n
    if n ≤ Decimal.wordCount / 2 then some ("integer `" ++ text ++ "`")
    else if n ≤ Decimal.doubleWordCount / 2 then some ("integer `" ++ text ++ "` as i128")
    else none
  | none, none => none

/-! ### Floating point numbers -/

/-- A decimal without a sign: digits with a point among or next to them, and an
exponent.  It is given as its digits and a power of ten. -/
def decimal? (cs : List Char) : Option (Nat × Int) :=
  let whole := cs.takeWhile Char.isDigit
  let cs := cs.drop whole.length
  let (fraction, cs) := match cs with
    | '.' :: cs => (cs.takeWhile Char.isDigit, cs.dropWhile Char.isDigit)
    | cs => ([], cs)
  let exponent? : Option Int := match cs with
    | [] => some 0
    | e :: cs =>
      if e ≠ 'e' && e ≠ 'E' then none
      else
        match cs with
        | '-' :: cs => (digits? 10 cs).map fun n => -(n : Int)
        | '+' :: cs => (digits? 10 cs).map fun n => (n : Int)
        | cs => (digits? 10 cs).map fun n => (n : Int)
  match digits? 10 (whole ++ fraction), exponent? with
  | some mantissa, some exponent => some (mantissa, exponent - fraction.length)
  | _, _ => none

def decimalText? (negative : Bool) (cs : List Char) : Option String :=
  (decimal? cs).bind fun (mantissa, exponent) =>
    let f := Decimal.nearest mantissa exponent
    if f.isInf then none
    else
      let text := if f.toBits = 0 then "0.0" else (Decimal.shortest f.toBits).positional
      some ((if negative then "-" else "") ++ text)

def float? (s : String) : Option String :=
  let unsigned := match s.toList with
    | '+' :: cs => String.ofList cs
    | _ => s
  let text? :=
    if [".inf", ".Inf", ".INF"].contains unsigned then some "inf"
    else if ["-.inf", "-.Inf", "-.INF"].contains s then some "-inf"
    else if [".nan", ".NaN", ".NAN"].contains s then some "NaN"
    else
      match s.toList with
      | '-' :: cs => decimalText? true cs
      | '+' :: cs => decimalText? false cs
      | cs => decimalText? false cs
  text?.map fun text => "floating point `" ++ text ++ "`"

/-! ### Any scalar -/

def string (s : String) : String := "string " ++ Text.quoted s

def plainWords (s : String) : String :=
  let unsigned := match s.toList with
    | '-' :: cs | '+' :: cs => cs
    | cs => cs
  if s.isEmpty || isNull s then "unit value"
  else
    match bool? s with
    | some b => "boolean `" ++ (if b then "true" else "false") ++ "`"
    | none =>
      match integer? s with
      | some words => words
      | none => ((if isPadded unsigned then none else float? s)).getD (string s)

def standardTag (name : String) : String := "tag:yaml.org,2002:" ++ name

/-- What a scalar is, in words.  A standard tag settles it; a text that is not of
the tagged type is an error that names the type. -/
def scalarWords (tag : Option String) (s : String) (style : Style) : Except String String :=
  let orElse (words? : Option String) (expected : String) : Except String String :=
    match words? with
    | some words => .ok words
    | none => .error expected
  match tag with
  | none => .ok (if style = .plain then plainWords s else string s)
  | some tag =>
    if tag = standardTag "bool" then
      orElse ((bool? s).map fun b => "boolean `" ++ (if b then "true" else "false") ++ "`")
        "a boolean"
    else if tag = standardTag "int" then orElse (integer? s) "an integer"
    else if tag = standardTag "float" then orElse (float? s) "a float"
    else if tag = standardTag "null" then
      orElse (if isNull s then some "unit value" else none) "null"
    else if tag.startsWith "!" && style = .plain then .ok (plainWords s)
    else .ok (string s)

end Yaml
end Lineage
