import Lineage.Sql.Parser.Expr

/-
Parsers of queries and of the tables they read.
-/

namespace Lineage
namespace Sql
namespace Parser

/-- Keywords that cannot be the alias of a table unless `AS` stands in front of
them. -/
def reservedForTables : List String :=
  ["WITH", "EXPLAIN", "ANALYZE", "SELECT", "WHERE", "GROUP", "SORT", "HAVING", "ORDER", "PIVOT",
    "UNPIVOT", "TOP", "LATERAL", "VIEW", "LIMIT", "OFFSET", "FETCH", "UNION", "EXCEPT",
    "INTERSECT", "MINUS", "ON", "JOIN", "INNER", "CROSS", "FULL", "LEFT", "RIGHT", "NATURAL",
    "USING", "CLUSTER", "DISTRIBUTE", "GLOBAL", "ANTI", "SEMI", "RETURNING", "OUTPUT", "ASOF",
    "MATCH_CONDITION", "OUTER", "SET", "QUALIFY", "WINDOW", "END", "FOR", "PARTITION",
    "PREWHERE", "SETTINGS", "FORMAT", "START", "CONNECT", "MATCH_RECOGNIZE", "SAMPLE",
    "TABLESAMPLE", "FROM", "OPEN"]

def aliasColumns : Parser (List Ident) := do
  if !(← isSymbol "(") then return []
  parenthesized <| commaSeparated do
    let name ← ident
    discard (attempt typeName)
    return name

def tableAlias? : Parser (Option Alias) := do
  match ← aliasName? fun explicit w => explicit || !reservedForTables.contains w with
  | none => return none
  | some name => return some ⟨name, ← aliasColumns⟩

section

variable (n : Nested)

/-! ### Tables -/

def tableSample : Parser (List Expr) := do
  if (← oneOf? ["TABLESAMPLE", "SAMPLE"]).isNone then return []
  discard (oneOf? ["BERNOULLI", "ROW", "SYSTEM", "BLOCK"])
  let opened ← symbol "("
  let amount ← if ← onlyIf opened (keyword "BUCKET") then do
      discard literalNat
      expectKeywords ["OUT", "OF"]
      discard literalNat
      after "ON" (return [← expr n])
    else do
      let amount ← match ← attempt (expr n) with
        | some e => pure [e]
        | none =>
          match ← next with
          | some ⟨.word _, _⟩ => pure []
          | _ => refuse "Expecting number or byte length e.g. 100M"
      discard (oneOf? ["ROWS", "PERCENT"])
      pure amount
  if opened then expectSymbol ")"
  if (← oneOf? ["REPEATABLE", "SEED"]).isSome then
    expectSymbol "("
    discard value
    expectSymbol ")"
  return amount ++ (← after "OFFSET" (return [← expr n]))

def namedExpr : Parser Expr := do
  let e ← expr n
  if ← keyword "AS" then discard ident
  return e

def pivotOf (table : TableFactor) : Parser TableFactor := do
  expectSymbol "("
  let aggregates ← commaSeparated do
    let t ← next
    let name ← match t with
      | some ⟨.word w, _⟩ => pure ⟨[⟨w.value, w.quote⟩]⟩
      | _ => unexpected "a function name" t
    let call ← callFrom n name
    discard (aliasName? fun explicit w =>
      w ≠ "FOR" && (explicit || !reservedForColumns.contains w))
    return call
  expectKeyword "FOR"
  let column : Parser Expr := n.expr Binding.between.precedence
  let columns ← if ← isSymbol "(" then mandatoryList column else pure [← column]
  expectKeyword "IN"
  expectSymbol "("
  let values ← if ← keyword "ANY" then afterAll ["ORDER", "BY"] (orderItems n)
    else if ← isQueryStart then pure [.subquery (← n.query)]
    else commaSeparated (namedExpr n)
  expectSymbol ")"
  let fallback ← afterAll ["DEFAULT", "ON", "NULL"] (tuple n)
  expectSymbol ")"
  return .other "PIVOT" [table] (aggregates ++ columns ++ values ++ fallback) (← tableAlias?)

def unpivotOf (table : TableFactor) : Parser TableFactor := do
  if !(← keywords ["INCLUDE", "NULLS"]) then discard (keywords ["EXCLUDE", "NULLS"])
  expectSymbol "("
  let value ← expr n
  expectKeyword "FOR"
  discard ident
  expectKeyword "IN"
  let columns ← mandatoryList (namedExpr n)
  expectSymbol ")"
  return .other "UNPIVOT" [table] (value :: columns) (← tableAlias?)

/-- A table and the pivots made of it, one of the other. -/
def pivotsFrom : Nat → TableFactor → Parser TableFactor
  | 0, table => return table
  | limit + 1, table => do
    if ← keyword "PIVOT" then pivotsFrom limit (← pivotOf n table)
    else if ← keyword "UNPIVOT" then pivotsFrom limit (← unpivotOf n table)
    else return table

def pivotsOf (table : TableFactor) : Parser TableFactor := do
  pivotsFrom n ((← get).length + 1) table

def derivedTable : Parser TableFactor := do
  let query ← n.query
  expectSymbol ")"
  let aka ← tableAlias?
  return .derived query aka (← tableSample n)

def joinConstraint : Parser (List Expr) := do
  if ← keyword "ON" then return [← expr n]
  else if ← keyword "USING" then
    discard (mandatoryList objectName)
    return []
  else return []

/-- What may follow the right side of a join. -/
inductive JoinTail where
  | condition
  /-- A condition in the permissive dialect only. -/
  | crossed
  /-- A match of rows, and then a condition. -/
  | matched
  | nothing

/-- The keywords between two joined tables, and what follows the right one;
`none` if no join comes next. -/
def joinKeywords? : Parser (Option JoinTail) := do
  discard (keyword "GLOBAL")
  if ← keyword "CROSS" then
    if ← keyword "JOIN" then return some .crossed
    else if ← keyword "APPLY" then return some .nothing
    else expected "JOIN or APPLY after CROSS"
  else if ← keyword "OUTER" then
    expectKeyword "APPLY"
    return some .nothing
  else if ← keyword "ASOF" then
    expectKeyword "JOIN"
    return some .matched
  else
    let natural ← keyword "NATURAL"
    let tail : JoinTail := if natural then .nothing else .condition
    match ← keywordAt 0 with
    | "JOIN" | "STRAIGHT_JOIN" =>
      advance
      return some tail
    | "INNER" | "ANTI" | "SEMI" =>
      advance
      expectKeyword "JOIN"
      return some tail
    | "LEFT" => side "LEFT" tail
    | "RIGHT" => side "RIGHT" tail
    | "FULL" =>
      advance
      discard (keyword "OUTER")
      expectKeyword "JOIN"
      return some tail
    | "OUTER" => expected "LEFT, RIGHT, or FULL"
    | _ => if natural then expected "a join type after NATURAL" else return none
where
  side (which : String) (tail : JoinTail) : Parser (Option JoinTail) := do
    advance
    match ← oneOf? ["OUTER", "SEMI", "ANTI", "JOIN"] with
    | some "JOIN" => return some tail
    | some _ =>
      expectKeyword "JOIN"
      return some tail
    | none => fail (.refused ("expected OUTER, SEMI, ANTI or JOIN after " ++ which) none)

def joins : Parser (List Join) := many do
  match ← joinKeywords? with
  | none => return none
  | some tail =>
    let relation ← n.factor
    match tail with
    | .nothing => return some ⟨relation, []⟩
    | .condition => return some ⟨relation, ← joinConstraint n⟩
    | .crossed =>
      if (← dialect).isPermissive then return some ⟨relation, ← joinConstraint n⟩
      else return some ⟨relation, []⟩
    | .matched =>
      expectKeyword "MATCH_CONDITION"
      let condition ← tuple n
      return some ⟨relation, condition ++ (← joinConstraint n)⟩

def tableWithJoins : Parser TableWithJoins := do
  let relation ← n.factor
  return ⟨relation, ← joins n⟩

def tableList : Parser (List TableWithJoins) := commaSeparated (tableWithJoins n)

def withAlias (table : TableFactor) (aka : Alias) : Parser TableFactor := do
  let inner := match table with
    | .table _ inner _ | .derived _ inner _ | .nested _ inner | .other _ _ _ inner => inner
  match inner with
  | some inner => fail (.refused ("duplicate alias " ++ inner.spelling) none)
  | none =>
    return match table with
      | .table name _ operands => .table name (some aka) operands
      | .derived query _ sample => .derived query (some aka) sample
      | .nested tables _ => .nested tables (some aka)
      | .other head inner operands _ => .other head inner operands (some aka)

/-- What an opening parenthesis holds that starts no derived table: joined
tables, themselves in parentheses or not.  A single table in parentheses is
allowed in the permissive dialect only. -/
def nestedTables : Parser TableFactor := do
  let tables ← tableWithJoins n
  let isNested := match tables.relation with
    | .nested .. => true
    | _ => false
  if !tables.joins.isEmpty || isNested then
    expectSymbol ")"
    return .nested tables (← tableAlias?)
  else if (← dialect).isPermissive then
    expectSymbol ")"
    match ← tableAlias? with
    | none => return tables.relation
    | some aka => withAlias tables.relation aka
  else expected "joined table"

def valueRows : Parser (List Expr) := commaSeparated do
  discard (keyword "ROW")
  return .form "ROW" (← tuple n)

def tableVersion : Parser (List Expr) := do
  if (← dialect) ≠ .spark then return []
  if ← anyOf [keywords ["FOR", "SYSTEM_TIME", "AS", "OF"], keywords ["TIMESTAMP", "AS", "OF"]] then
    return [← expr n]
  if ← keywords ["VERSION", "AS", "OF"] then discard value
  return []

def namedTable : Parser TableFactor := do
  let d ← dialect
  let name ← objectName
  if ← onlyIf d.isPermissive (keyword "PARTITION") then discard identList
  let version ← tableVersion n
  let args ← if ← symbol "(" then
      if ← symbol ")" then pure [] else do
        let items ← commaSeparated (argument n)
        expectSymbol ")"
        pure items
    else pure []
  discard (keywords ["WITH", "ORDINALITY"])
  let early ← if d.sampleBeforeAlias then tableSample n else pure []
  let aka ← tableAlias?
  let hints ← if (← isKeyword "WITH") && (← ahead 1) = some (.symbol "(") then do
      advance
      tuple n
    else pure []
  let late ← if d.sampleBeforeAlias then pure [] else tableSample n
  pivotsOf n (.table name aka (version ++ args ++ early ++ hints ++ late))

def tableFactor : Parser TableFactor := do
  let d ← dialect
  if ← keyword "LATERAL" then
    if ← symbol "(" then derivedTable n
    else
      discard objectName
      expectSymbol "("
      let args ← if ← symbol ")" then pure [] else do
        let items ← commaSeparated (argument n)
        expectSymbol ")"
        pure items
      return .other "LATERAL" [] args (← tableAlias?)
  else if ← keyword "TABLE" then
    let e ← parenthesized (expr n)
    return .other "TABLE" [] [e] (← tableAlias?)
  else if ← symbol "(" then
    match ← attempt (derivedTable n) with
    | some table => pivotsOf n table
    | none => nestedTables n
  else if d.valuesInFrom && (← isKeyword "VALUES") && (← ahead 1) = some (.symbol "(") then
    advance
    let rows ← valueRows n
    return .derived ⟨none, .values rows, [], []⟩ (← tableAlias?) []
  else if ← onlyIf d.isPermissive (keyword "UNNEST") then
    let items ← tuple n
    discard (keywords ["WITH", "ORDINALITY"])
    let aka ← tableAlias?
    if ← keywords ["WITH", "OFFSET"] then
      discard (aliasName? fun explicit w => explicit || !reservedForColumns.contains w)
    return .other "UNNEST" [] items aka
  else namedTable n

/-! ### Select blocks -/

def starOptions : Parser (List Expr) := do
  let d ← dialect
  let names : Parser Unit := do
    if ← isSymbol "(" then discard (parenthesized (commaSeparated objectName))
    else discard objectName
  if ← onlyIf d.isPermissive (keyword "ILIKE") then discard literalString
  if ← onlyIf d.isPermissive (keyword "EXCLUDE") then names
  if ← onlyIf (d ≠ .hive) (keyword "EXCEPT") then
    if ← isSymbol "(" then discard identList else discard ident
  let replaced ← if ← onlyIf d.isPermissive (keyword "REPLACE") then
      parenthesized <| commaSeparated do
        let e ← expr n
        discard (keyword "AS")
        discard ident
        return e
    else pure []
  if ← onlyIf d.isPermissive (keyword "RENAME") then
    let rename : Parser Unit := do
      discard ident
      expectKeyword "AS"
      discard ident
    if ← isSymbol "(" then discard (parenthesized (commaSeparated rename)) else rename
  return replaced

def selectItem : Parser Expr := do
  match ← wildcardOrExpr n with
  | .form "*" [] | .form ".*" [] => return .form "*" (← starOptions n)
  | .column [⟨name, none⟩] =>
    if name.map Char.toLower = "from" then fail (.reservedWord name (← place))
    discard columnAlias?
    return .column [⟨name, none⟩]
  | e =>
    if (← dialect).isPermissive && (← isSymbol ".") && (← ahead 1) = some (.symbol "*") then
      modify (·.drop 2)
      return .form "*" (e :: (← starOptions n))
    discard columnAlias?
    return e

def selectItems : Parser (List Expr) := commaSeparated (selectItem n)

/-- Whether nothing more follows a trailing comma of a projection. -/
def projectionEnds : Parser Bool := do
  if !(← dialect).isPermissive then return false
  match ← peek with
  | none => return true
  | some (.word w) => return reservedForColumns.contains w.keyword
  | some (.symbol s) => return [")", ";", "]", "\x7d"].contains s
  | some _ => return false

def projection : Parser (List Expr) := commaSeparatedUntil projectionEnds (selectItem n)

def distinct : Parser (List Expr) := do
  let all ← keyword "ALL"
  if ← keyword "DISTINCT" then
    if all then refuse "Cannot specify both ALL and DISTINCT"
    if ← keyword "ON" then
      expectSymbol "("
      if ← symbol ")" then return []
      let items ← exprs n
      expectSymbol ")"
      return items
  return []

def top : Parser (List Expr) := do
  if !(← keyword "TOP") then return []
  let amount ← if ← isSymbol "(" then pure [← parenthesized (expr n)] else do
    discard literalNat
    pure []
  discard (keyword "PERCENT")
  discard (keywords ["WITH", "TIES"])
  return amount

def lateralViews : Parser (List Expr) := do
  many do
    if !(← keywords ["LATERAL", "VIEW"]) then return none
    discard (keyword "OUTER")
    let e ← expr n
    discard objectName
    discard <| commaSeparated <| aliasName? fun explicit w =>
      explicit || !(["WHERE", "GROUP", "CLUSTER", "HAVING", "LATERAL"].contains w)
    return some e

def groupingSet : Parser (List Expr) := do
  if ← isSymbol "(" then optionalTuple n else return [← expr n]

def groupItem : Parser (List Expr) := do
  if !(← dialect).groupsByExpr then return [← expr n]
  if ← anyOf [keywords ["GROUPING", "SETS"], keyword "CUBE", keyword "ROLLUP"] then
    return (← parenthesized (commaSeparated (groupingSet n))).flatten
  else if (← isSymbol "(") && (← ahead 1) = some (.symbol ")") then
    modify (·.drop 2)
    return []
  else return [← expr n]

def groupBy : Parser (List Expr) := afterAll ["GROUP", "BY"] do
  let items ← if ← keyword "ALL" then pure [] else
    (return (← commaSeparated (groupItem n)).flatten : Parser (List Expr))
  discard <| many do
    if !(← keyword "WITH") then return none
    return some (← expectOneOf ["ROLLUP", "CUBE", "TOTALS"])
  let sets ← if ← keywords ["GROUPING", "SETS"] then
      parenthesized (commaSeparated (groupingSet n))
    else pure []
  return items ++ sets.flatten

def namedWindow : Parser (List Expr) := do
  discard ident
  expectKeyword "AS"
  if ← symbol "(" then windowSpec n
  else if (← dialect).isPermissive then
    discard ident
    return []
  else expected "("

def windows : Parser (List Expr) := after "WINDOW" do
  return (← commaSeparated (namedWindow n)).flatten

def qualify : Parser (List Expr) := after "QUALIFY" (return [← expr n])

def connectBy : Parser (List Expr) := do
  if !(← dialect).isPermissive then return []
  let start : Parser (List Expr) := afterAll ["START", "WITH"] (return [← expr n])
  let first ← start
  let relation ← afterAll ["CONNECT", "BY"] do
    discard (keyword "NOCYCLE")
    exprs n
  if first.isEmpty then return relation ++ (← start) else return first ++ relation

def intoTable : Parser Unit := do
  if ← keyword "INTO" then
    discard (oneOf? ["TEMPORARY", "TEMP"])
    discard (keyword "UNLOGGED")
    discard (keyword "TABLE")
    discard objectName

/-- A select block behind its keyword, or behind a `FROM` list that came
first. -/
def selectFrom (first : Option (List TableWithJoins)) : Parser Select := do
  let d ← dialect
  let leading := (← distinct n) ++ (← top n)
  let items ← if d.isPermissive && (← isKeyword "FROM") then pure [] else projection n
  intoTable
  let tables ← match first with
    | some tables => pure tables
    | none => after "FROM" (tableList n)
  let views ← lateralViews n
  let prewhere ← if d.isPermissive then after "PREWHERE" (return [← expr n]) else pure []
  let selection ← after "WHERE" (return [← expr n])
  let connect ← connectBy n
  let groups ← groupBy n
  let cluster ← afterAll ["CLUSTER", "BY"] (exprs n)
  let distribute ← afterAll ["DISTRIBUTE", "BY"] (exprs n)
  let sort ← afterAll ["SORT", "BY"] (orderItems n)
  let having ← after "HAVING" (return [← expr n])
  let early ← windows n
  let qualified ← qualify n
  let late ← if early.isEmpty then windows n else pure []
  return ⟨leading, items, tables, views, prewhere, selection, groups,
    cluster ++ distribute ++ sort, having, early ++ late, qualified, connect⟩

def select : Parser Select := do
  if ← onlyIf (← dialect).isPermissive (keyword "FROM") then
    let tables ← tableList n
    if ← keyword "SELECT" then selectFrom n (some tables)
    else return ⟨[], [], tables, [], [], [], [], [], [], [], [], []⟩
  else
    expectKeyword "SELECT"
    selectFrom n none

/-! ### Queries -/

/-- `TABLE t`, which takes three tokens whatever they are. -/
def tableBody : Parser SetExpr := do
  let first ← next
  let second ← next
  let third ← next
  let word (what : String) (t : Option Located) : Parser Ident :=
    match t with
    | some ⟨.word w, _⟩ => return ⟨w.value, w.quote⟩
    | _ => unexpected what t
  if second.map Located.token = some (.symbol ".") then
    let schema ← word "Schema name" first
    return .table ⟨[schema, ← word "Table name" third]⟩
  else return .table ⟨[← word "Table name" first]⟩

def simpleBody : Parser SetExpr := do
  if (← isKeyword "SELECT") || ((← dialect).isPermissive && (← isKeyword "FROM")) then
    return .select (← select n)
  else if ← symbol "(" then
    let query ← n.query
    expectSymbol ")"
    return .query query
  else if ← anyKeyword ["VALUES", "VALUE"] then
    return .values (← valueRows n)
  else if ← keyword "TABLE" then tableBody
  else expected "SELECT, VALUES, or a subquery in the query body"

def setOperator? : Parser (Option SetOperator) := do
  match ← keywordAt 0 with
  | "UNION" => return some .union
  | "EXCEPT" => return some .except
  | "INTERSECT" => return some .intersect
  | "MINUS" => return some .minus
  | _ => return none

def quantifier : Parser Unit := do
  if ← keyword "ALL" then discard (keywords ["BY", "NAME"])
  else if ← keyword "DISTINCT" then discard (keywords ["BY", "NAME"])
  else discard (keywords ["BY", "NAME"])

/-- Bodies joined by `INTERSECT`, which binds tighter than the other
operators. -/
def tightBody : Parser SetExpr := do
  let first ← simpleBody n
  let rest ← many do
    if (← setOperator?) = some .intersect then
      advance
      quantifier
      return some (← simpleBody n)
    else return none
  return rest.foldl (.setOperation .intersect) first

def body : Parser SetExpr := do
  let first ← tightBody n
  let rest ← many do
    match ← setOperator? with
    | none => return none
    | some operator =>
      advance
      quantifier
      return some (operator, ← tightBody n)
  return rest.foldl (fun left (operator, right) => .setOperation operator left right) first

def orderBy : Parser (List Expr) := afterAll ["ORDER", "BY"] do
  let d ← dialect
  if ← onlyIf d.isPermissive (keyword "ALL") then
    discard (oneOf? ["ASC", "DESC"])
    if !(← keywords ["NULLS", "FIRST"]) then discard (keywords ["NULLS", "LAST"])
    return []
  orderItems n

def offset : Parser (List Expr) := after "OFFSET" do
  let e ← expr n
  discard (oneOf? ["ROW", "ROWS"])
  return [e]

def limit : Parser (List Expr) := do
  let d ← dialect
  let early ← offset n
  if !(← keyword "LIMIT") then return early
  let amount ← if ← keyword "ALL" then pure [] else pure [← expr n]
  if ← onlyIf (d.isPermissive && early.isEmpty && !amount.isEmpty) (symbol ",") then
    return amount ++ [← expr n]
  let groups ← if d.isPermissive then after "BY" (exprs n) else pure []
  let late ← if early.isEmpty then offset n else pure []
  return early ++ amount ++ groups ++ late

def fetch : Parser (List Expr) := after "FETCH" do
  discard (oneOf? ["FIRST", "NEXT"])
  let amount ← if (← oneOf? ["ROW", "ROWS"]).isSome then pure [] else do
    let v ← value
    discard (keyword "PERCENT")
    discard (expectOneOf ["ROW", "ROWS"])
    pure [v]
  if !(← keyword "ONLY") then
    if !(← keywords ["WITH", "TIES"]) then expected "one of ONLY or WITH TIES"
  return amount

def locks : Parser Unit := discard <| many do
  if !(← keyword "FOR") then return none
  discard (expectOneOf ["UPDATE", "SHARE"])
  if ← keyword "OF" then discard objectName
  if !(← keyword "NOWAIT") then discard (keywords ["SKIP", "LOCKED"])
  return some ()

def cte : Parser Cte := do
  let name ← ident
  let columns ← if ← keyword "AS" then pure [] else do
    let columns ← aliasColumns
    expectKeyword "AS"
    pure columns
  let query ← parenthesized n.query
  if ← keyword "FROM" then discard ident
  return ⟨⟨name, columns⟩, query⟩

def withList : Parser (Option With) := do
  if !(← keyword "WITH") then return none
  let recursive ← keyword "RECURSIVE"
  return some ⟨recursive, ← commaSeparated (cte n)⟩

def queryBounds : Parser (List Expr) := do
  let d ← dialect
  let rows ← limit n
  let settings ← if ← onlyIf d.isPermissive (keyword "SETTINGS") then
      commaSeparated do
        discard ident
        expectSymbol "="
        expr n
    else pure []
  let fetched ← fetch
  locks
  if ← onlyIf d.isPermissive (keyword "FORMAT") then
    if !(← keyword "NULL") then discard ident
  return rows ++ settings ++ fetched

/-- A query, given how a write statement is read behind a `WITH` list. -/
def queryWith (insert write : Parser Statement) : Parser Query := do
  let definitions ← withList n
  if ← isKeyword "INSERT" then
    return ⟨definitions, .insert (← insert), [], []⟩
  if ["UPDATE", "DELETE", "MERGE"].contains (← keywordAt 0) then
    return ⟨definitions, .write (← write), [], []⟩
  let content ← body n
  let order ← orderBy n
  return ⟨definitions, content, order, ← queryBounds n⟩

end

end Parser
end Sql
end Lineage
