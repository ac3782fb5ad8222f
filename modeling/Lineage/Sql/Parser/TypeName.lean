import Lineage.Sql.Parser

/-
Names of data types.

A type is only read over: what matters is where it ends, and whether it is one
of the built-in types, which may stand in front of a string literal.
-/

namespace Lineage
namespace Sql

inductive TypeName where
  | interval
  | builtin
  | custom
  deriving DecidableEq

namespace Parser

/-- `(n)`, where `MAX` and a unit are allowed too. -/
def lengthArgument : Parser Unit := do
  if ← symbol "(" then
    if !(← keyword "MAX") then
      discard literalNat
      discard (oneOf? ["CHARACTERS", "OCTETS"])
    expectSymbol ")"

def precision : Parser Unit := do
  if ← symbol "(" then
    discard literalNat
    expectSymbol ")"

def precisionAndScale : Parser Unit := do
  if ← symbol "(" then
    discard literalNat
    if ← symbol "," then
      discard (symbol "-")
      discard literalNat
    expectSymbol ")"

def timeZone : Parser Unit := do
  if ← keyword "WITH" then expectKeywords ["TIME", "ZONE"]
  else if ← keyword "WITHOUT" then expectKeywords ["TIME", "ZONE"]

def typeModifiers : Parser Unit := do
  if ← symbol "(" then
    discard <| many do
      let t ← next
      match t with
      | some ⟨.symbol ")", _⟩ => return none
      | some ⟨.word _, _⟩ | some ⟨.number .., _⟩ | some ⟨.text .single _, _⟩
      | some ⟨.symbol ",", _⟩ => return some ()
      | _ => unexpected "type modifiers" t

def quotedStrings : Parser Unit := do
  expectSymbol "("
  discard <| commaSeparated do
    discard literalString
    if ← symbol "=" then discard literalNat
  expectSymbol ")"

def integerTypes : List String :=
  ["TINYINT", "INT2", "SMALLINT", "MEDIUMINT", "INT", "INT4", "INT8", "INT16", "INT32", "INT64",
    "INT128", "INT256", "INTEGER", "BIGINT", "HUGEINT", "UBIGINT", "UHUGEINT", "USMALLINT",
    "UTINYINT", "UINT8", "UINT16", "UINT32", "UINT64", "UINT128", "UINT256"]

def lengthTypes : List String :=
  ["VARCHAR", "NVARCHAR", "BINARY", "VARBINARY", "BLOB", "CLOB", "BYTES", "BIT", "VARBIT",
    "STRING"]

def bareTypes : List String :=
  ["BOOLEAN", "BOOL", "FLOAT4", "FLOAT32", "FLOAT64", "FLOAT8", "UUID", "DATE", "DATE32", "JSON",
    "JSONB", "REGCLASS", "TEXT", "TINYTEXT", "MEDIUMTEXT", "LONGTEXT", "TINYBLOB", "MEDIUMBLOB",
    "LONGBLOB", "BYTEA", "TIMESTAMP_NTZ", "TRIGGER"]

def decimalTypes : List String := ["NUMERIC", "DECIMAL", "DEC", "BIGNUMERIC", "BIGDECIMAL"]

/-- A closing angle bracket.  A double one closes two types, which the result
tells; `closed` says that the inner type ended with one. -/
def closeAngle (closed : Bool) : Parser Bool := do
  if closed then return false
  else if ← symbol ">" then return false
  else if ← symbol ">>" then return true
  else expected ">"

/-- A type, and whether its last bracket closes the type around it too.  A type
inside brackets has fewer tokens, so `limit` may be their number. -/
def typeFrom : Nat → Parser (TypeName × Bool)
  | 0 => expected "a data type name"
  | limit + 1 => do
    let d ← dialect
    let word ← keywordAt 0
    let builtin (rest : Parser Unit) : Parser (TypeName × Bool) := do
      advance
      rest
      return (.builtin, false)
    if bareTypes.contains word then builtin (return ())
    else if integerTypes.contains word then builtin do
      precision
      discard (oneOf? ["UNSIGNED", "ZEROFILL", "SIGNED"])
    else if lengthTypes.contains word then builtin lengthArgument
    else if decimalTypes.contains word then builtin do
      precisionAndScale
      discard (keyword "UNSIGNED")
    else if word = "FLOAT" then builtin do
      precisionAndScale
      discard (keyword "UNSIGNED")
    else if word = "REAL" then builtin (discard (keyword "UNSIGNED"))
    else if word = "DOUBLE" then builtin do
      if !(← keyword "PRECISION") then precisionAndScale
      discard (keyword "UNSIGNED")
    else if word = "CHARACTER" || word = "CHAR" then builtin do
      if !(← keyword "VARYING") then discard (keywords ["LARGE", "OBJECT"])
      lengthArgument
    else if word = "DATETIME" || word = "TIMESTAMPTZ" || word = "TIMETZ" then builtin precision
    else if word = "TIMESTAMP" || word = "TIME" then builtin do
      precision
      timeZone
    else if word = "INTERVAL" then
      advance
      return (.interval, false)
    else if word = "ENUM" || word = "SET" then builtin quotedStrings
    else if word = "ARRAY" then
      advance
      expectSymbol "<"
      let (_, closed) ← typeFrom limit
      return (.builtin, ← closeAngle closed)
    else if word = "STRUCT" && d.hasStructLiteral then
      advance
      structFields limit
    else if word = "MAP" && d.isPermissive then
      advance
      expectSymbol "("
      discard (typeFrom limit)
      expectSymbol ","
      discard (typeFrom limit)
      expectSymbol ")"
      return (.builtin, false)
    else
      match ← peek with
      | some (.word _) | some (.text .single _) | some (.text .double _) =>
        discard objectName
        typeModifiers
        return (.custom, false)
      | _ => expected "a data type name"
where
  structFields (limit : Nat) : Parser (TypeName × Bool) := do
    if !(← symbol "<") then return (.builtin, false)
    let rec fields : Nat → Parser Bool
      | 0 => expected ">"
      | count + 1 => do
        let named ← match ← ahead 0, ← ahead 1 with
          | some (.word _), some (.word _) | some (.word _), some (.symbol ":") => pure true
          | _, _ => pure false
        if named then
          discard ident
          discard (symbol ":")
        let (_, closed) ← typeFrom limit
        if ← onlyIf (!closed) (symbol ",") then fields count else return closed
    let closed ← fields ((← get).length + 1)
    return (.builtin, ← closeAngle closed)

def typeName : Parser TypeName := do
  let (kind, closed) ← typeFrom ((← get).length + 1)
  if closed then refuse "unmatched > after parsing data type"
  -- An array type may be written with brackets behind its elements' type.
  if (← dialect).isPermissive then
    discard <| many do
      if ← symbol "[" then
        if !(← isSymbol "]") then discard literalNat
        expectSymbol "]"
        return some ()
      else return none
  return kind

end Parser
end Sql
end Lineage
