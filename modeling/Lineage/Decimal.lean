/-
Decimals: the numbers that digits write, the binary64 number nearest to a decimal, and
the shortest decimal that reads back as a given binary64 number.

A finite number is `m · 2 ^ q`.  The decimals that read back as it fill an
interval around it that reaches half way to each neighbour, ends included when
`m` is even.  For one, two, three digits and so on the two neighbours of the
number on the decimal grid are tested; the first grid with a hit wins, and of
two hits the nearer one.
-/

namespace Lineage
namespace Decimal

/-- The number that decimal digits write; no digits write zero. -/
def ofDigits (cs : List Char) : Nat := cs.foldl (fun n c => n * 10 + (c.toNat - 48)) 0

/-- How many numbers a word of 64 bits can tell apart. -/
def wordCount : Nat := 0x10000000000000000

def doubleWordCount : Nat := wordCount * wordCount

/-- The number nearest to `mantissa · 10 ^ exponent`; infinite if the decimal is
beyond all finite numbers.  Decimals far outside the range are not worked out. -/
def nearest (mantissa : Nat) (exponent : Int) : Float :=
  let point := ((Nat.toDigits 10 mantissa).length : Int) + exponent
  if mantissa = 0 || point < -400 then 0
  else if 400 < point then 1 / 0
  else
    match exponent with
    | .ofNat e => Float.ofScientific mantissa false e
    | .negSucc e => Float.ofScientific mantissa true (e + 1)

/-! ### Shortest decimals -/

/-- A positive decimal `digits · 10 ^ exponent`. -/
structure Scientific where
  digits : Nat
  exponent : Int
  deriving DecidableEq, Repr

structure Ratio where
  num : Nat
  den : Nat

namespace Ratio

/-- `n · base ^ e` for an exponent of either sign. -/
def scaled (n base : Nat) : Int → Ratio
  | .ofNat e => ⟨n * Nat.pow base e, 1⟩
  | .negSucc e => ⟨n, Nat.pow base (e + 1)⟩

def lt (a b : Ratio) : Bool := a.num * b.den < b.num * a.den

def le (a b : Ratio) : Bool := a.num * b.den ≤ b.num * a.den

def distance (a b : Ratio) : Ratio :=
  let x := a.num * b.den
  let y := b.num * a.den
  ⟨(x - y) + (y - x), a.den * b.den⟩

end Ratio

/-- The bit of a significand that is not stored. -/
def hiddenBit : Nat := 0x10000000000000

def significand (bits : UInt64) : Nat × Int :=
  let fraction := (bits &&& 0xFFFFFFFFFFFFF).toNat
  let exponent := ((bits >>> 52) &&& 0x7FF).toNat
  if exponent = 0 then (fraction, -1074) else (fraction + hiddenBit, (exponent : Int) - 1075)

/-- The numbers that read back as `m · 2 ^ q`: lower end, upper end, and whether
the ends belong to them.  Below a power of two the neighbour is twice as near. -/
def interval (m : Nat) (q : Int) : Ratio × Ratio × Bool :=
  let low := if m = hiddenBit && q ≠ -1074 then 4 * m - 1 else 4 * m - 2
  (.scaled low 2 (q - 2), .scaled (4 * m + 2) 2 (q - 2), m % 2 = 0)

/-- The decimal exponent of the leading digit: the largest `k` with `10 ^ k ≤ v`. -/
def leading (v : Ratio) : Int :=
  let digits (n : Nat) : Nat := (Nat.toDigits 10 n).length
  let guess : Int := (digits v.num : Int) - digits v.den
  if (Ratio.scaled 1 10 guess).le v then guess else guess - 1

/-- The hit among the two neighbours of `v` on the grid of `count` digits. -/
def onGrid? (v low high : Ratio) (closed : Bool) (k : Int) (count : Nat) :
    Option Scientific :=
  let e := k - (count : Int) + 1
  let floor := match Ratio.scaled 1 10 e with
    | ⟨n, d⟩ => v.num * d / (v.den * n)
  let hit (c : Nat) : Bool :=
    let x := Ratio.scaled c 10 e
    0 < c && (if closed then low.le x && x.le high else low.lt x && x.lt high)
  let distance (c : Nat) : Ratio := (Ratio.scaled c 10 e).distance v
  match hit floor, hit (floor + 1) with
  | false, false => none
  | true, false => some ⟨floor, e⟩
  | false, true => some ⟨floor + 1, e⟩
  | true, true =>
    some ⟨if (distance (floor + 1)).lt (distance floor) then floor + 1 else floor, e⟩

def Scientific.reduce : Scientific → Nat → Scientific
  | d, 0 => d
  | d, fuel + 1 =>
    if d.digits ≠ 0 && d.digits % 10 = 0 then
      Scientific.reduce ⟨d.digits / 10, d.exponent + 1⟩ fuel
    else d

def shortest (bits : UInt64) : Scientific :=
  let (m, q) := significand bits
  let (low, high, closed) := interval m q
  let v := Ratio.scaled m 2 q
  let k := leading v
  let found := (List.range 17).findSome? fun i => onGrid? v low high closed k (i + 1)
  (found.getD ⟨0, 0⟩).reduce 20

def withPoint (digits : String) (places : Nat) : String :=
  let cs := digits.toList
  let cs := List.replicate (places + 1 - cs.length) '0' ++ cs
  String.ofList (cs.take (cs.length - places) ++ '.' :: cs.drop (cs.length - places))

/-- Positional text: `0.5`, `120.0`.  There is always a digit after the point. -/
def Scientific.positional (d : Scientific) : String :=
  match d.exponent with
  | .ofNat e => toString (d.digits * Nat.pow 10 e) ++ ".0"
  | .negSucc e => withPoint (toString d.digits) (e + 1)

/-- Positional text near one and a power of ten far from it: a number whose
point falls within 16 digits, or at most four zeros before them, is written out. -/
def Scientific.compact (d : Scientific) : String :=
  let length := (toString d.digits).length
  let point := (length : Int) + d.exponent
  if -5 < point && point ≤ 16 then d.positional
  else
    let mantissa := if length = 1 then toString d.digits
      else withPoint (toString d.digits) (length - 1)
    mantissa ++ "e" ++ toString (point - 1)

end Decimal
end Lineage
