import Lineage.Sql.Parser.TypeName

/-
Parsers of expressions.

An expression is a prefix followed by operators that bind tighter than the
operator in front of it.  What nests is read by the parsers of `Nested`, which
are one level deeper.
-/

namespace Lineage
namespace Sql

/-- The parsers for what stands one level deeper. -/
structure Nested where
  /-- An expression of operators that bind tighter than a given precedence. -/
  expr : Nat → Parser Expr
  query : Parser Query
  statement : Parser Statement
  factor : Parser TableFactor

inductive Binding where
  | period
  | cast
  | timeZone
  | product
  | sum
  | exclusiveOr
  | bitAnd
  | caret
  | bitOr
  | between
  | comparison
  | like
  | is
  | arrow
  | negation
  | conjunction
  | disjunction
  deriving DecidableEq

namespace Binding

def precedence : Binding → Nat
  | period => 100
  | cast => 50
  | timeZone => 41
  | product => 40
  | sum => 30
  | exclusiveOr => 24
  | bitAnd => 23
  | caret => 22
  | bitOr => 21
  | between => 20
  | comparison => 20
  | like => 19
  | is => 17
  | arrow => 16
  | negation => 15
  | conjunction => 10
  | disjunction => 5

end Binding

namespace Parser

/-! ### Words that end a name -/

def reservedForColumns : List String :=
  ["WITH", "EXPLAIN", "ANALYZE", "SELECT", "WHERE", "GROUP", "SORT", "HAVING", "ORDER", "TOP",
    "LATERAL", "VIEW", "LIMIT", "OFFSET", "FETCH", "UNION", "EXCEPT", "EXCLUDE", "INTERSECT",
    "MINUS", "CLUSTER", "DISTRIBUTE", "RETURNING", "VALUES", "FROM", "INTO", "END"]

/-- Words that are never read as identifiers once they were read as the start of
an expression. -/
def reservedForIdentifiers : List String := ["EXISTS", "INTERVAL", "STRUCT", "TRIM"]

/-- An alias.  A word counts if `allowed` says so, given whether `AS` stands in
front of it; a string literal always does. -/
def aliasName? (allowed : Bool → String → Bool) : Parser (Option Ident) := do
  let explicit ← keyword "AS"
  match ← peek with
  | some (.word w) =>
    if allowed explicit w.keyword then
      advance
      return some ⟨w.value, w.quote⟩
  | some (.text .single s) =>
    advance
    return some ⟨s, some '\''⟩
  | some (.text .double s) =>
    advance
    return some ⟨s, some '"'⟩
  | _ => pure ()
  if explicit then expected "an identifier after AS" else return none

def columnAlias? : Parser (Option Ident) :=
  aliasName? fun explicit w => explicit || !reservedForColumns.contains w

/-! ### Literals -/

def isQueryStart : Parser Bool := do
  return ["SELECT", "WITH"].contains (← keywordAt 0)

def value : Parser Expr := do
  let t ← next
  match t with
  | some ⟨.word w, _⟩ =>
    if ["TRUE", "FALSE", "NULL"].contains w.keyword then return .literal w.value
    else if w.quote = some '"' then return .literal w.spelling
    else if w.quote.isSome then unexpected "A value?" t
    else unexpected "a concrete value" t
  | some ⟨.number .., _⟩ | some ⟨.text .., _⟩ | some ⟨.placeholder _, _⟩ =>
    return .literal ((t.map (·.token.spelling)).getD "")
  | some ⟨.symbol ":", _⟩ | some ⟨.symbol "@", _⟩ =>
    let name ← next
    match name with
    | some ⟨.word w, _⟩ => return .literal w.value
    | some ⟨.number digits false, _⟩ => return .literal digits
    | _ => unexpected "placeholder" name
  | _ => unexpected "a value" t

def timeUnits : List String :=
  ["YEAR", "YEARS", "MONTH", "MONTHS", "WEEK", "WEEKS", "DAY", "DAYS", "HOUR", "HOURS", "MINUTE",
    "MINUTES", "SECOND", "SECONDS", "CENTURY", "DECADE", "DOW", "DOY", "EPOCH", "ISODOW",
    "ISOYEAR", "JULIAN", "MICROSECOND", "MICROSECONDS", "MILLENIUM", "MILLENNIUM", "MILLISECOND",
    "MILLISECONDS", "NANOSECOND", "NANOSECONDS", "QUARTER", "TIMEZONE", "TIMEZONE_HOUR",
    "TIMEZONE_MINUTE"]

/-- A unit of time; `DATE`, `TIME` and `DATETIME` count where a field of a date is
taken. -/
def timeField : Parser Unit := do
  let permissive := (← dialect).isPermissive
  let t ← next
  match t with
  | some ⟨.word w, _⟩ =>
    if !permissive && !(timeUnits ++ ["DATE", "DATETIME", "TIME", "ISOWEEK"]).contains w.keyword then
      unexpected "date/time field" t
  | some ⟨.text .single _, _⟩ => return ()
  | _ => unexpected "date/time field" t

/-! ### Prefixes -/

section

variable (n : Nested)

def expr : Parser Expr := n.expr 0

def exprs : Parser (List Expr) := commaSeparated (expr n)

def tuple : Parser (List Expr) := parenthesized (exprs n)

def optionalTuple : Parser (List Expr) := do
  expectSymbol "("
  if ← symbol ")" then return []
  let items ← exprs n
  expectSymbol ")"
  return items

def subquery : Parser Expr := do return .subquery (← parenthesized n.query)

def orderItem : Parser Expr := do
  let e ← expr n
  discard (oneOf? ["ASC", "DESC"])
  if !(← keywords ["NULLS", "FIRST"]) then discard (keywords ["NULLS", "LAST"])
  if ← onlyIf (← dialect).isPermissive (keywords ["WITH", "FILL"]) then
    let from? ← after "FROM" (return [← expr n])
    let to? ← after "TO" (return [← expr n])
    let step? ← after "STEP" (return [← expr n])
    return .form "WITH FILL" (e :: from? ++ to? ++ step?)
  return e

def orderItems : Parser (List Expr) := commaSeparated (orderItem n)

def existsTest : Parser Expr := do
  return .form "EXISTS" [← subquery n]

def negation : Parser Expr := do
  if ← keyword "EXISTS" then return .form "NOT EXISTS" [← subquery n]
  return .form "NOT" [← n.expr Binding.negation.precedence]

def caseExpr : Parser Expr := do
  let operand ← if ← keyword "WHEN" then pure [] else do
    let e ← expr n
    expectKeyword "WHEN"
    pure [e]
  let branch : Parser (List Expr) := do
    let condition ← expr n
    expectKeyword "THEN"
    return [condition, ← expr n]
  let first ← branch
  let rest ← many do
    if ← keyword "WHEN" then return some (← branch) else return none
  let otherwise ← after "ELSE" (return [← expr n])
  expectKeyword "END"
  return .form "CASE" (operand ++ first ++ rest.flatten ++ otherwise)

def castExpr (head : String) : Parser Expr := parenthesized do
  let e ← expr n
  expectKeyword "AS"
  discard typeName
  discard (keyword "ARRAY")
  if ← keyword "FORMAT" then
    discard value
    if ← keywords ["AT", "TIME", "ZONE"] then discard value
  return .form head [e]

def convertExpr : Parser Expr := parenthesized do
  let e ← expr n
  if ← keyword "USING" then discard objectName
  else
    expectSymbol ","
    discard typeName
    if ← keywords ["CHARACTER", "SET"] then discard objectName
  return .form "CONVERT" [e]

def extractExpr : Parser Expr := parenthesized do
  timeField
  if !(← onlyIf (← dialect).isPermissive (symbol ",")) then expectKeyword "FROM"
  return .form "EXTRACT" [← expr n]

def roundExpr (head : String) : Parser Expr := parenthesized do
  let e ← expr n
  if ← keyword "TO" then timeField
  else if ← symbol "," then discard value
  return .form head [e]

def substringExpr : Parser Expr := parenthesized do
  let e ← expr n
  let start ← if ← anyOf [symbol ",", keyword "FROM"] then pure [← expr n] else pure []
  let length ← if ← anyOf [keyword "FOR", symbol ","] then pure [← expr n] else pure []
  return .form "SUBSTRING" (e :: start ++ length)

def overlayExpr : Parser Expr := parenthesized do
  let e ← expr n
  expectKeyword "PLACING"
  let what ← expr n
  expectKeyword "FROM"
  let start ← expr n
  let length ← after "FOR" (return [← expr n])
  return .form "OVERLAY" ([e, what, start] ++ length)

/-- `TRIM`, where the trimmed text comes before the characters to trim even if
it is written behind them. -/
def trimExpr : Parser Expr := parenthesized do
  discard (oneOf? ["BOTH", "LEADING", "TRAILING"])
  let e ← expr n
  if ← keyword "FROM" then return .form "TRIM" [← expr n, e]
  if ← onlyIf (← dialect).isPermissive (symbol ",") then
    return .form "TRIM" (e :: (← exprs n))
  return .form "TRIM" [e]

def interval : Parser Expr := do
  let needsUnit := (← dialect).intervalNeedsUnit
  let amount ← if needsUnit then expr n else n.expr Binding.period.precedence
  if timeUnits.contains (← keywordAt 0) then
    timeField
    precisionAndScale
    if ← keyword "TO" then
      timeField
      precision
  else if needsUnit then refuse "INTERVAL requires a unit after the literal value"
  return .form "INTERVAL" [amount]

def arrayItems : Parser Expr := do
  if ← symbol "]" then return .form "ARRAY" []
  let items ← exprs n
  expectSymbol "]"
  return .form "ARRAY" items

def structLiteral : Parser Expr := do
  if ← isSymbol "<" then discard (typeFrom.structFields ((← get).length + 1))
  let fields ← parenthesized <| commaSeparated do
    let e ← expr n
    if ← keyword "AS" then discard ident
    return e
  return .form "STRUCT" fields

/-! ### Function calls -/

def wildcardOrExpr : Parser Expr := do
  let starred : Parser (Option Expr) := do
    match ← ahead 0, ← ahead 1 with
    | some (.symbol "*"), _ =>
      advance
      return some (.form "*" [])
    | some (.symbol "("), some (.symbol "*") =>
      if (← ahead 2) = some (.symbol ")") then
        modify (·.drop 3)
        return some (.form "*" [])
      else return none
    | some (.word _), some (.symbol ".") | some (.text .single _), some (.symbol ".") =>
      let tokens ← get
      advance
      let parts ← many do
        if !(← symbol ".") then return none
        let t ← next
        match t with
        | some ⟨.word _, _⟩ | some ⟨.text .single _, _⟩ | some ⟨.placeholder _, _⟩ =>
          return some false
        | some ⟨.symbol "*", _⟩ => return some true
        | _ => unexpected "an identifier or a '*' after '.'" t
      if parts.getLast? = some true then return some (.form ".*" [])
      else
        set tokens
        return none
    | _, _ => return none
  match ← starred with
  | some e => return e
  | none => expr n

def argument : Parser Expr := do
  let named ← attempt do
    discard ident
    let d ← dialect
    if !(← anyOf [keyword "VALUE", symbol "=>",
        onlyIf d.isPermissive (anyOf [symbol "=", symbol ":="])]) then
      expected "argument operator"
    wildcardOrExpr n
  match named with
  | some e => return e
  | none => wildcardOrExpr n

def nullTreatment : Parser Bool := do
  if ← keywords ["IGNORE", "NULLS"] then return true
  else keywords ["RESPECT", "NULLS"]

def arguments : Parser (List Expr) := do
  if ← symbol ")" then return []
  if ← keyword "ALL" then
    if ← keyword "DISTINCT" then refuse "Cannot specify both ALL and DISTINCT"
  else discard (keyword "DISTINCT")
  let items ← commaSeparated (argument n)
  discard nullTreatment
  let order ← afterAll ["ORDER", "BY"] (orderItems n)
  let limit ← after "LIMIT" (return [← expr n])
  let having ← if !(← dialect).isPermissive then pure [] else after "HAVING" do
    discard (expectOneOf ["MIN", "MAX"])
    return [← expr n]
  if ← onlyIf (← dialect).isPermissive (keyword "SEPARATOR") then discard value
  if ← keywords ["ON", "OVERFLOW"] then
    if !(← keyword "ERROR") then
      expectKeyword "TRUNCATE"
      match ← peek with
      | some (.text ..) => discard value
      | _ => pure ()
      if !(← keyword "WITH") then
        if !(← keyword "WITHOUT") then
          expected "either WITH or WITHOUT in LISTAGG"
      expectKeyword "COUNT"
  expectSymbol ")"
  return items ++ order ++ limit ++ having

def frameBound : Parser (List Expr) := do
  if ← keywords ["CURRENT", "ROW"] then return []
  let rows ← if ← keyword "UNBOUNDED" then pure [] else
    match ← peek with
    | some (.text .single _) => pure [← interval n]
    | _ => pure [← expr n]
  if (← oneOf? ["PRECEDING", "FOLLOWING"]).isNone then expected "PRECEDING or FOLLOWING"
  return rows

def windowFrame : Parser (List Expr) := do
  if (← oneOf? ["ROWS", "RANGE", "GROUPS"]).isNone then expected "ROWS, RANGE, GROUPS"
  if ← keyword "BETWEEN" then
    let low ← frameBound n
    expectKeyword "AND"
    return low ++ (← frameBound n)
  else frameBound n

def windowSpec : Parser (List Expr) := do
  if !(["", "PARTITION", "ORDER", "ROWS", "RANGE", "GROUPS"].contains (← keywordAt 0)) then
    discard ident
  else
    match ← peek with
    | some (.word ⟨_, some _, _⟩) => discard ident
    | _ => pure ()
  let partition ← afterAll ["PARTITION", "BY"] (exprs n)
  let order ← afterAll ["ORDER", "BY"] (orderItems n)
  if ← symbol ")" then return partition ++ order
  let frame ← windowFrame n
  expectSymbol ")"
  return partition ++ order ++ frame

def callFrom (name : ObjectName) : Parser Expr := do
  let d ← dialect
  expectSymbol "("
  let args ← arguments n
  let more ← if ← onlyIf d.isPermissive (symbol "(") then arguments n else pure []
  let within ← if ← keywords ["WITHIN", "GROUP"] then
      parenthesized do
        expectKeywords ["ORDER", "BY"]
        orderItems n
    else pure []
  let filter ← if !(← keyword "FILTER") then pure []
    else if !(← symbol "(") then pure []
    else if !(← keyword "WHERE") then pure []
    else do
      let e ← expr n
      expectSymbol ")"
      pure [e]
  discard nullTreatment
  let window ← if ← keyword "OVER" then
      if ← symbol "(" then windowSpec n
      else do
        discard ident
        pure []
    else pure []
  return .call name (args ++ more ++ filter ++ window ++ within)

/-! ### Names and what follows them -/

def timeFunction (w : Word) : Parser Expr := do
  let name : ObjectName := ⟨[⟨w.value, w.quote⟩]⟩
  if ← symbol "(" then return .call name (← arguments n) else return .call name []

def reservedPrefix? (w : Word) : Parser (Option Expr) := do
  let d ← dialect
  match w.keyword with
  | "TRUE" | "FALSE" | "NULL" => return some (.literal w.value)
  | "CURRENT_CATALOG" | "CURRENT_USER" | "SESSION_USER" | "USER" =>
    if d.isPermissive then return some (.call ⟨[⟨w.value, w.quote⟩]⟩ []) else return none
  | "CURRENT_TIMESTAMP" | "CURRENT_TIME" | "CURRENT_DATE" | "LOCALTIME" | "LOCALTIMESTAMP" =>
    return some (← timeFunction n w)
  | "CASE" => return some (← caseExpr n)
  | "CONVERT" => return some (← convertExpr n)
  | "TRY_CONVERT" => if d.isPermissive then return some (← convertExpr n) else return none
  | "CAST" | "TRY_CAST" | "SAFE_CAST" => return some (← castExpr n w.keyword)
  | "EXISTS" =>
    if !d.hasCollectionFunctions || ["SELECT", "WITH"].contains (← keywordAt 1) then
      return some (← existsTest n)
    else return none
  | "EXTRACT" => return some (← extractExpr n)
  | "CEIL" | "FLOOR" => return some (← roundExpr n w.keyword)
  | "POSITION" =>
    if !(← isSymbol "(") then return none
    let position ← attempt <| parenthesized do
      let e ← n.expr Binding.between.precedence
      expectKeyword "IN"
      return Expr.form "POSITION" [e, ← expr n]
    match position with
    | some e => return some e
    | none => return some (← callFrom n ⟨[⟨w.value, w.quote⟩]⟩)
  | "SUBSTR" | "SUBSTRING" => return some (← substringExpr n)
  | "OVERLAY" => return some (← overlayExpr n)
  | "TRIM" => return some (← trimExpr n)
  | "INTERVAL" => return some (← interval n)
  | "ARRAY" =>
    if ← symbol "[" then return some (← arrayItems n)
    else if !d.hasCollectionFunctions && (← isSymbol "(") then
      return some (.form "ARRAY" [← subquery n])
    else return none
  | "NOT" => return some (← negation n)
  | "STRUCT" => if d.hasStructLiteral then return some (← structLiteral n) else return none
  | "MAP" =>
    if ← onlyIf d.isPermissive (symbol "\x7b") then
      let entries ← if ← isSymbol "\x7d" then pure [] else commaSeparated do
        let key ← expr n
        expectSymbol ":"
        return [key, ← expr n]
      expectSymbol "\x7d"
      return some (.form "MAP" entries.flatten)
    else return none
  | _ => return none

def namePrefix (w : Word) : Parser Expr := do
  let id : Ident := ⟨w.value, w.quote⟩
  if ← isSymbol "(" then callFrom n ⟨[id]⟩
  else if ← onlyIf (← dialect).hasLambda (symbol "->") then
    return .form "->" [← expr n]
  else return .column [id]

/-- The expression that a word starts.  A word that fails as a reserved one is
tried as a name. -/
def wordPrefix (w : Word) : Parser Expr := do
  let reserved : Parser (Except SyntaxFault (Option Expr)) := fun d tokens =>
    match reservedPrefix? n w d tokens with
    | .ok (e, rest) => .ok (.ok e, rest)
    | .error f => .ok (.error f, tokens)
  match ← reserved with
  | .ok (some e) => return e
  | .ok none => namePrefix n w
  | .error f =>
    if reservedForIdentifiers.contains w.keyword then fail f
    let name : Parser (Option Expr) := fun d tokens =>
      match namePrefix n w d tokens with
      | .ok (e, rest) => .ok (some e, rest)
      | .error _ => .ok (none, tokens)
    match ← name with
    | some e => return e
    | none => fail f

def typedLiteral : Parser Expr := do
  match ← typeName with
  | .interval => interval n
  | .custom => expected "a built-in type"
  | .builtin => value

/-- What stands between parentheses: a query, a function of several variables,
or expressions. -/
def inParentheses : Parser Expr := do
  if ← isQueryStart then
    let q ← n.query
    expectSymbol ")"
    return .subquery q
  let lambda ← if !(← dialect).hasLambda then pure none else attempt do
    discard (commaSeparated ident)
    expectSymbol ")"
    expectSymbol "->"
    return Expr.form "->" [← expr n]
  match lambda with
  | some e => return e
  | none =>
    let items ← exprs n
    expectSymbol ")"
    return .form "()" items

def prefixExpr : Parser Expr := do
  let typed ← match ← peek with
    | some (.word _) => attempt (typedLiteral n)
    | _ => pure none
  if let some e := typed then return e
  let d ← dialect
  let e ← match ← peek with
    | some (.word w) => do
      advance
      wordPrefix n w
    | some (.symbol "[") => do
      advance
      arrayItems n
    | some (.symbol "-") | some (.symbol "+") => do
      advance
      pure (.form "-" [← n.expr Binding.product.precedence])
    | some (.symbol "!") => do
      if !d.bangNegates then expected "an expression"
      advance
      pure (.form "!" [← n.expr Binding.negation.precedence])
    | some (.symbol "~") => do
      advance
      pure (.form "~" [← n.expr Binding.sum.precedence])
    | some (.number ..) | some (.text ..) | some (.placeholder _) | some (.symbol ":")
    | some (.symbol "@") => value
    | some (.symbol "(") => do
      advance
      inParentheses n
    | some (.symbol "\x7b") => do
      advance
      let inner ← if ← keyword "FN" then expr n else expected "an expression"
      expectSymbol "\x7d"
      pure inner
    | _ => expected "an expression"
  if ← keyword "COLLATE" then
    discard objectName
    return .form "COLLATE" [e]
  return e

/-! ### Access to parts -/

def isMember : Expr → Bool
  | .column _ | .literal _ | .call .. => true
  | .form head _ => head = "."
  | .subquery _ => false

def subscript : Parser (List Expr) := do
  let bound? (stop : List String) : Parser (List Expr) := do
    match ← peek with
    | some (.symbol s) => if stop.contains s then return [] else return [← expr n]
    | _ => return [← expr n]
  let low ← bound? [":"]
  if ← onlyIf (!low.isEmpty) (symbol "]") then return low
  expectSymbol ":"
  let high ← bound? ["]", ":"]
  if ← symbol "]" then return low ++ high
  expectSymbol ":"
  let stride ← bound? ["]"]
  expectSymbol "]"
  return low ++ high ++ stride

def access (root : Expr) : Parser Expr := do
  let links ← many do
    if (← isSymbol ".") && (← ahead 1) ≠ some (.symbol "*") then
      advance
      match ← peek with
      | some (.text .single s) =>
        advance
        return some (.inl ⟨s, some '\''⟩)
      | _ =>
        let member ← attempt do
          let e ← n.expr Binding.period.precedence
          if isMember e then return e else expected "an identifier or value"
        match member with
        | some e => return some (.inr [e])
        | none => return some (.inl (← ident))
    else if ← symbol "[" then return some (.inr (← subscript n))
    else return none
  return joinLinks root links
where
  /-- A name behind a column goes on with it. -/
  joinLinks (root : Expr) (links : List (Ident ⊕ List Expr)) : Expr :=
    links.foldl (fun e link =>
      match e, link with
      | .column parts, .inl part => .column (parts ++ [part])
      | .column parts, .inr [.column more] => .column (parts ++ more)
      | e, .inl part => .form "." [e, .column [part]]
      | e, .inr operands => .form "." (e :: operands)) root

/-! ### Operators -/

/-- How tight the operator that comes next binds; zero if none comes. -/
def nextPrecedence : Parser Nat := do
  let binding (b : Binding) : Parser Nat := return b.precedence
  match ← peek with
  | none => return 0
  | some (.word w) =>
    match w.keyword with
    | "OR" => binding .disjunction
    | "AND" => binding .conjunction
    | "XOR" => binding .exclusiveOr
    | "AT" =>
      if (← keywordAt 1) = "TIME" && (← keywordAt 2) = "ZONE" then binding .timeZone
      else return 0
    | "NOT" =>
      match ← keywordAt 1 with
      | "IN" | "BETWEEN" => binding .between
      | "LIKE" | "ILIKE" | "RLIKE" | "REGEXP" | "MATCH" | "SIMILAR" | "MEMBER" => binding .like
      | _ => return 0
    | "IS" => binding .is
    | "IN" | "BETWEEN" | "OVERLAPS" | "OPERATOR" => binding .between
    | "LIKE" | "ILIKE" | "RLIKE" | "REGEXP" | "MATCH" | "SIMILAR" | "MEMBER" => binding .like
    | "DIV" => binding .product
    | _ => return 0
  | some (.symbol s) =>
    match s with
    | "." => binding .period
    | ":=" | "=" | "<" | "<=" | "<>" | ">" | ">=" | "==" | "~" | "~*" | "!~" | "!~*" | "~~"
    | "~~*" | "!~~" | "!~~*" | "<=>" => binding .comparison
    | "|" => binding .bitOr
    | "^" | "#" | ">>" | "<<" => binding .caret
    | "&" => binding .bitAnd
    | "+" | "-" => binding .sum
    | "*" | "/" | "//" | "%" | "||" => binding .product
    | "::" | "!" | "[" | "&&" | "^@" => binding .cast
    | "->" | "->>" | "#>" | "#>>" | "@>" | "<@" | "#-" | "@?" | "@@" => binding .arrow
    | _ => return 0
  | some _ => return 0

def isBinary (d : Dialect) (s : String) : Bool :=
  ["<=>", "==", ":=", "=", "<>", ">", ">=", "<", "<=", "+", "-", "*", "%", "||", "|", "^", "&",
    "/", "~", "~*", "!~", "!~*", "~~", "~~*", "!~~", "!~~*", "->", "->>", "#>", "#>>", "@>",
    "<@", "#-", "@?", "@@"].contains s ||
  d.isPermissive && ["//", "<<", ">>"].contains s

/-- How an error text names a token that no operator is known for. -/
def operatorName : Token → String
  | .word w =>
    "Word(Word \x7b value: \"" ++ w.value ++ "\", quote_style: None, keyword: " ++ w.keyword ++
      " \x7d)"
  | .symbol s =>
    match s with
    | "#" => "Sharp"
    | "<<" => "ShiftLeft"
    | ">>" => "ShiftRight"
    | "!" => "ExclamationMark"
    | "&&" => "Overlap"
    | "^@" => "CaretAt"
    | "[" => "LBracket"
    | s => s
  | t => t.spelling

/-- The right operand of a binary operator, which may be all or any of the rows
of a query. -/
def rightOperand (precedence : Nat) (comparison : Bool) (operator : String) : Parser Expr := do
  match ← oneOf? ["ANY", "ALL", "SOME"] with
  | none => n.expr precedence
  | some quantifier =>
    expectSymbol "("
    let operand ← if ← isQueryStart then do
        let q ← n.query
        expectSymbol ")"
        pure (.subquery q)
      else do
        let e ← n.expr precedence
        expectSymbol ")"
        pure e
    if !comparison then
      refuse ("Expected one of [=, >, <, =>, =<, !=, ~, ~*, !~, !~*, ~~, ~~*, !~~, !~~*] as " ++
        "comparison operator, found: " ++ operator)
    return .form quantifier [operand]

def comparisons : List String :=
  ["=", "==", ">", "<", ">=", "<=", "<>", "~", "~*", "!~", "!~*", "~~", "~~*", "!~~", "!~~*"]

def isTest (left : Expr) : Parser Expr := do
  let plain := [["NULL"], ["NOT", "NULL"], ["TRUE"], ["NOT", "TRUE"], ["FALSE"], ["NOT", "FALSE"],
    ["UNKNOWN"], ["NOT", "UNKNOWN"]]
  let rec test : List (List String) → Parser Bool
    | [] => return false
    | words :: rest => do
      if ← keywords words then return true else test rest
  if ← test plain then return .form "IS" [left]
  if ← anyOf [keywords ["DISTINCT", "FROM"], keywords ["NOT", "DISTINCT", "FROM"]] then
    return .form "IS DISTINCT FROM" [left, ← expr n]
  let normalized ← attempt do
    discard (keyword "NOT")
    discard (oneOf? ["NFC", "NFD", "NFKC", "NFKD"])
    expectKeyword "NORMALIZED"
  if normalized.isSome then return .form "IS NORMALIZED" [left]
  expected "[NOT] NULL | TRUE | FALSE | DISTINCT | [form] NORMALIZED FROM after IS"

def membership (left : Expr) : Parser Expr := do
  if ← keyword "UNNEST" then
    return .form "IN" [left, ← parenthesized (expr n)]
  expectSymbol "("
  let items ← match ← attempt n.query with
    | some q => pure [.subquery q]
    | none => exprs n
  expectSymbol ")"
  return .form "IN" (left :: items)

def negatableTest (left : Expr) : Parser Expr := do
  let escape : Parser Unit := do
    if ← keyword "ESCAPE" then discard value
  let pattern : Parser Expr := n.expr Binding.like.precedence
  discard (keyword "NOT")
  if ← anyKeyword ["REGEXP", "RLIKE"] then
    return .form "RLIKE" [left, ← pattern]
  if ← keyword "IN" then membership n left
  else if ← keyword "BETWEEN" then
    let low ← n.expr Binding.between.precedence
    expectKeyword "AND"
    return .form "BETWEEN" [left, low, ← n.expr Binding.between.precedence]
  else if ← anyKeyword ["LIKE", "ILIKE"] then
    discard (keyword "ANY")
    let p ← pattern
    escape
    return .form "LIKE" [left, p]
  else if ← keywords ["SIMILAR", "TO"] then
    let p ← pattern
    escape
    return .form "SIMILAR TO" [left, p]
  else expected "IN or BETWEEN after NOT"

def infixExpr (left : Expr) (precedence : Nat) : Parser Expr := do
  let d ← dialect
  let token? ← peek
  let unknown : Parser Expr :=
    refuse ("No infix parser for token " ++ (token?.map operatorName).getD "EOF")
  match token? with
  | some (.word w) =>
    match w.keyword with
    | "AND" | "OR" | "XOR" | "OVERLAPS" =>
      advance
      return .form w.keyword [left, ← rightOperand n precedence false w.keyword]
    | "IS" =>
      advance
      isTest n left
    | "AT" =>
      advance
      expectKeywords ["TIME", "ZONE"]
      return .form "AT TIME ZONE" [left, ← n.expr precedence]
    | "NOT" | "IN" | "BETWEEN" | "LIKE" | "ILIKE" | "SIMILAR" | "REGEXP" | "RLIKE" =>
      negatableTest n left
    | "MEMBER" =>
      advance
      if !(← keyword "OF") then expected "OF after MEMBER"
      return .form "MEMBER OF" [left, ← parenthesized (expr n)]
    | _ => unknown
  | some (.symbol "::") =>
    advance
    discard typeName
    return .form "::" [left]
  | some (.symbol s) =>
    if isBinary d s then
      advance
      return .form s [left, ← rightOperand n precedence (comparisons.contains s) s]
    else unknown
  | _ => unknown

/-- Operators that bind tighter than `precedence`, each with its right side. -/
def infixFrom (precedence : Nat) : Nat → Expr → Parser Expr
  | 0, left => return left
  | limit + 1, left => do
    let found ← nextPrecedence
    if found ≤ precedence || (← isSymbol ".") then return left
    infixFrom precedence limit (← infixExpr n left found)

def exprAbove (precedence : Nat) : Parser Expr := do
  let left ← access n (← prefixExpr n)
  infixFrom n precedence ((← get).length + 1) left

end

end Parser
end Sql
end Lineage
