/-
The kinds of node that decide lineage.

Every grammar has node types of its own.  A vocabulary folds each of them into
one of the fourteen kinds below, and `other` takes everything that a grammar
knows and lineage does not.
-/

namespace Lineage

inductive Kind where
  | root
  /-- A statement that writes a table. -/
  | insert
  /-- The clause of a write that names its target. -/
  | destination
  | table
  | tableName
  | tableRef
  | select
  | query
  | join
  | union
  /-- A named subquery. -/
  | subqueryAlias
  | cteDef
  /-- A reference to a `WITH` definition that the grammar resolved already. -/
  | cteRef
  | other
  deriving DecidableEq, Repr, Inhabited

namespace Kind

def all : List Kind :=
  [root, insert, destination, table, tableName, tableRef, select, query, join, union,
    subqueryAlias, cteDef, cteRef, other]

def name : Kind → String
  | root => "ROOT"
  | insert => "INSERT"
  | destination => "DESTINATION"
  | table => "TABLE"
  | tableName => "TABLE_NAME"
  | tableRef => "TABLE_REF"
  | select => "SELECT"
  | query => "QUERY"
  | join => "JOIN"
  | union => "UNION"
  | subqueryAlias => "SUBQUERY_ALIAS"
  | cteDef => "CTE_DEF"
  | cteRef => "CTE_REF"
  | other => "OTHER"

def ofName? (s : String) : Option Kind := all.find? (·.name = s)

/-- A query block opens a scope for the definitions it carries. -/
def opensScope : Kind → Bool
  | select | query => true
  | _ => false

theorem mem_all (k : Kind) : k ∈ all := by cases k <;> decide

/-- No two kinds share a name, so a name can be read back. -/
theorem ofName?_name (k : Kind) : ofName? k.name = some k := by cases k <;> rfl

end Kind

/-- A vocabulary: node types of one grammar, each with its kind. -/
class Vocabulary (κ : Type) where
  kind : κ → Kind

instance : Vocabulary Kind := ⟨id⟩

end Lineage
