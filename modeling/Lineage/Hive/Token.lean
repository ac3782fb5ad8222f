import Lineage.Tree

/-
The node types of a Hive syntax tree.
-/

namespace Lineage
namespace Hive

/-- A grammar token that decides lineage, or any other atom with its
spelling. -/
inductive Token where
  /-- Top of a tree that has no single root of its own. -/
  | nil
  | query
  | insert
  | createTable
  | createView
  | createMaterializedView
  | destination
  | insertInto
  | tab
  | tabName
  | tabRef
  | select
  | selectDistinct
  | join
  | setOperation
  | subquery
  | cte
  | atom (spelling : String)
  deriving DecidableEq

namespace Token

/-- The spellings of the structural tokens.  Joins share one token, and so do
set operations. -/
def spellings : List (String × Token) :=
  [("nil", nil),
    ("TOK_QUERY", query),
    ("TOK_INSERT", insert),
    ("TOK_CREATETABLE", createTable),
    ("TOK_CREATEVIEW", createView),
    ("TOK_CREATE_MATERIALIZED_VIEW", createMaterializedView),
    ("TOK_DESTINATION", destination),
    ("TOK_INSERT_INTO", insertInto),
    ("TOK_TAB", tab),
    ("TOK_TABNAME", tabName),
    ("TOK_TABREF", tabRef),
    ("TOK_SELECT", select),
    ("TOK_SELECTDI", selectDistinct),
    ("TOK_JOIN", join),
    ("TOK_LEFTOUTERJOIN", join),
    ("TOK_RIGHTOUTERJOIN", join),
    ("TOK_FULLOUTERJOIN", join),
    ("TOK_LEFTSEMIJOIN", join),
    ("TOK_CROSSJOIN", join),
    ("TOK_UNIQUEJOIN", join),
    ("TOK_UNIONALL", setOperation),
    ("TOK_UNIONDISTINCT", setOperation),
    ("TOK_INTERSECTALL", setOperation),
    ("TOK_INTERSECTDISTINCT", setOperation),
    ("TOK_EXCEPTALL", setOperation),
    ("TOK_EXCEPTDISTINCT", setOperation),
    ("TOK_SUBQUERY", subquery),
    ("TOK_CTE", cte)]

def ofAtom (spelling : String) : Token := (spellings.lookup spelling).getD (.atom spelling)

def isStructural : Token → Bool
  | atom _ => false
  | _ => true

instance : Vocabulary Token where
  kind
    | nil => .root
    | query => .query
    | insert | createTable | createView | createMaterializedView => .insert
    | destination | insertInto => .destination
    | tab => .table
    | tabName => .tableName
    | tabRef => .tableRef
    | select | selectDistinct => .select
    | join => .join
    | setOperation => .union
    | subquery => .subqueryAlias
    | cte => .cteDef
    | atom _ => .other

/-- An atom without its backticks.  They quote identifiers; the quotes of a
string literal belong to its text. -/
def unquote (spelling : String) : String :=
  match spelling.toList with
  | '\x60' :: rest => if rest.getLast? = some '\x60' then String.ofList rest.dropLast else spelling
  | _ => spelling

def payload : Token → Option String
  | atom spelling => some (unquote spelling)
  | _ => none

def toTree (t : Token) : Tree Token := .node t t.payload []

end Token
end Hive
end Lineage
