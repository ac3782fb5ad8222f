import Lineage.Text.Letters

/-
The dialects of SQL that can be read, and where they differ.
-/

namespace Lineage
namespace Sql

inductive Dialect where
  | hive
  | spark
  | generic
  deriving DecidableEq

namespace Dialect

def all : List Dialect := [hive, spark, generic]

def name : Dialect → String
  | hive => "hive"
  | spark => "spark"
  | generic => "generic"

def ofName? (s : String) : Option Dialect := all.find? (·.name = s)

/-- A letter in lower case.  The Kelvin sign is the one letter beyond ASCII
whose lower case is an ASCII letter. -/
def lowerLetter (c : Char) : Char := if c = '\u212a' then 'k' else c.toLower

def ofNameIgnoringCase? (s : String) : Option Dialect := ofName? (s.map lowerLetter)

theorem mem_all (d : Dialect) : d ∈ all := by cases d <;> decide

theorem ofName?_name (d : Dialect) : ofName? d.name = some d := by cases d <;> rfl

/-! ### Characters -/

def startsIdentifier : Dialect → Char → Bool
  | hive, c => c.isAlphanum || c = '$'
  | spark, c => c.isAlpha || c = '_'
  | generic, c => Text.isLetter c || c = '_' || c = '#' || c = '@'

def continuesIdentifier : Dialect → Char → Bool
  | hive, c => c.isAlphanum || c = '_' || c = '$' || c = '\x7b' || c = '\x7d'
  | spark, c => c.isAlphanum || c = '_'
  | generic, c => Text.isLetter c || c.isDigit || c = '_' || c = '#' || c = '@' || c = '$'

def quotesIdentifier : Dialect → Char → Bool
  | spark, c => c = '\x60'
  | _, c => c = '\x60' || c = '"'

def digitsStartIdentifier (d : Dialect) : Bool := d = hive

def nestsComments (d : Dialect) : Bool := d ≠ hive

def hashComments (d : Dialect) : Bool := d = hive

/-! ### Expressions -/

/-- `!x` is the negation of `x`. -/
def bangNegates (d : Dialect) : Bool := d = hive

/-- `x -> e` is a function. -/
def hasLambda (d : Dialect) : Bool := d = spark

def hasStructLiteral (d : Dialect) : Bool := d ≠ hive

/-- `EXISTS` may also be a function of its own, and `ARRAY` always is one. -/
def hasCollectionFunctions (d : Dialect) : Bool := d = spark

def intervalNeedsUnit (d : Dialect) : Bool := d ≠ generic

/-- `GROUP BY` takes grouping sets as expressions. -/
def groupsByExpr (d : Dialect) : Bool := d ≠ hive

def valuesInFrom (d : Dialect) : Bool := d ≠ hive

def sampleBeforeAlias (d : Dialect) : Bool := d = hive

/-- The features that only the permissive dialect has. -/
def isPermissive (d : Dialect) : Bool := d = generic

end Dialect
end Sql
end Lineage
