import PeerExchange.Sql.Fault
import PeerExchange.Sql.Syntax
import PeerExchange.Sql.Token

namespace PeerExchange.Sql.Syntax

abbrev Parser := StateT (List Token) (Except Fault)

namespace Parser

def peek : Parser Token := do return ((← get).head?).getD .finish

def refuse {α : Type} : Parser α := do
  match ← peek with
  | .finish => throw .incomplete
  | .illegal text => throw (.unrecognized text)
  | t => throw (.unexpected t.text)

def next (depth : Nat) : Parser Token := do
  if depth < 99 then
    let t ← peek
    modify List.tail
    return t
  else throw .nesting

def isNext (p : Token → Bool) : Parser Bool := do return p (← peek)

def accept (p : Token → Bool) (depth : Nat) : Parser Bool := do
  if ← isNext p then
    discard (next depth)
    return true
  else return false

def expect (p : Token → Bool) (depth : Nat) : Parser Unit := do
  unless ← accept p depth do refuse

def keyword (word : String) (depth : Nat) : Parser Unit := expect (Token.isKeyword word) depth

def keywords (words : List String) (depth : Nat) : Parser Unit :=
  words.forM (keyword · depth)

def sign (text : String) (depth : Nat) : Parser Unit := expect (Token.isSign text) depth

def acceptKeyword (word : String) (depth : Nat) : Parser Bool :=
  accept (Token.isKeyword word) depth

def acceptSign (text : String) (depth : Nat) : Parser Bool := accept (Token.isSign text) depth

def name (depth : Nat) : Parser String := do
  match (← peek).name? with
  | some name =>
    discard (next depth)
    return name
  | none => refuse

def tableName (depth : Nat) : Parser String := do
  let first ← name depth
  if ← acceptSign "." (depth + 1) then return first ++ "." ++ (← name (depth + 2))
  else return first

def label? (depth : Nat) : Parser (Option String) := do
  if ← acceptKeyword "AS" depth then return some (← name (depth + 1))
  else
    match (← peek).label? with
    | some label =>
      discard (next depth)
      return some label
    | none => return none

def separated {α : Type} (item : Parser α) (depth : Nat) : Nat → Parser (List α)
  | 0 => throw .nesting
  | fuel + 1 => do
    let first ← item
    if ← acceptSign "," depth then return first :: (← separated item depth fuel)
    else return [first]

def typeWords (depth : Nat) : Nat → Parser (List String)
  | 0 => throw .nesting
  | fuel + 1 => do
    let t ← peek
    if t.label?.isSome && !t.isKeyword "GENERATED" then
      discard (next depth)
      return t.text :: (← typeWords depth fuel)
    else return []

def typeSize (depth : Nat) : Parser Unit := do
  if ← acceptSign "(" depth then
    let number : Parser Unit := do
      unless ← acceptSign "+" depth do discard (acceptSign "-" depth)
      match ← peek with
      | .integer _ | .constant _ => discard (next depth)
      | _ => refuse
    number
    if ← acceptSign "," depth then number
    sign ")" depth

def mentions (part : List Char) : List Char → Bool
  | [] => part.isEmpty
  | c :: rest => part.isPrefixOf (c :: rest) || mentions part rest

-- The type that columns of a written type have: a type that mentions `INT` holds integers, and one
-- that mentions characters or text holds text.
def typeOf (words : List String) : Option ColumnType :=
  let text := (" ".intercalate words).toUpper.toList
  let has (part : String) := mentions part.toList text
  if words.isEmpty then none
  else if has "INT" then some .integer
  else if has "CHAR" || has "CLOB" || has "TEXT" then some .text
  else if has "BLOB" then none
  else some .integer

inductive Joint where
  | binary (op : BinaryOp)
  | concat
  | other

-- The operators that need nothing but two operands, with their levels.
def joint? (t : Token) : Option (Nat × Joint) :=
  match t with
  | .word text =>
    match text.toUpper with
    | "OR" => some (1, .other)
    | "AND" => some (2, .other)
    | "LIKE" | "GLOB" | "REGEXP" | "MATCH" => some (4, .other)
    | _ => none
  | .sign text =>
    match text with
    | "=" | "==" => some (4, .binary .eq)
    | "!=" | "<>" => some (4, .binary .ne)
    | "<" => some (5, .binary .lt)
    | "<=" => some (5, .binary .le)
    | ">" => some (5, .binary .gt)
    | ">=" => some (5, .binary .ge)
    | "&" | "|" | "<<" | ">>" => some (7, .other)
    | "+" => some (8, .binary .plus)
    | "-" => some (8, .binary .minus)
    | "*" | "/" | "%" => some (9, .other)
    | "||" => some (10, .concat)
    | "->" | "->>" => some (10, .other)
    | _ => none
  | _ => none

def Joint.join (left right : Expr) : Joint → Expr
  | binary op => .binary op left right
  | concat => .concat left right
  | other => .other [left, right]

def function? (name : String) : Option Function :=
  Function.all.find? (·.name = name.toUpper)

def callOf (name : String) (args : List Expr) : Expr :=
  match function? name with
  | some f => .call f args
  | none => .other args

def integerOf (text : String) : Int := (text.toNat?.getD 0 : Nat)

def caseOf (condition value : Expr) (rest : List Expr) : Expr :=
  match condition, rest with
  | .binary .is e .null, [otherwise] => .nullCase e value otherwise
  | _, _ => .other (condition :: value :: rest)

def negated : Expr → Expr
  | .exists false query => .exists true query
  | e => .other [e]

mutual

def expression : Nat → Nat → Nat → Parser Expr
  | 0, _, _ => throw .nesting
  | fuel + 1, depth, level => do
    let left ← operand fuel depth
    operators fuel depth level left

def operand : Nat → Nat → Parser Expr
  | 0, _ => throw .nesting
  | fuel + 1, depth => do
    let t ← peek
    if t.isKeyword "NOT" then
      discard (next depth)
      return negated (← expression fuel (depth + 1) 3)
    else if t.isSign "-" then
      discard (next depth)
      let e ← expression fuel (depth + 1) 12
      match e with
      | .integer n => return if 0 ≤ n then .integer (-n) else .other [e]
      | e => return .other [e]
    else if t.isSign "+" || t.isSign "~" then
      discard (next depth)
      return .other [← expression fuel (depth + 1) 12]
    else if t.isSign "(" then
      discard (next depth)
      parenthesis fuel (depth + 1)
    else if t.isKeyword "NULL" then
      discard (next depth)
      return .null
    else if t.isKeyword "EXISTS" then
      discard (next depth)
      sign "(" (depth + 1)
      let query ← query fuel (depth + 2)
      sign ")" (depth + 3)
      match query.more with
      | [] => return .exists false query.first
      | more => return .other (.exists false query.first :: more.map fun (_, s) =>
          .exists false s)
    else if t.isKeyword "CASE" then
      discard (next depth)
      caseExpression fuel depth
    else if t.isKeyword "CAST" then
      discard (next depth)
      sign "(" (depth + 1)
      let e ← expression fuel (depth + 2) 1
      keyword "AS" (depth + 3)
      let words ← typeWords (depth + 4) fuel
      unless words.isEmpty do typeSize (depth + 5)
      sign ")" (depth + 5)
      return .cast e ((typeOf words).getD .integer)
    else if ["CURRENT_DATE", "CURRENT_TIME", "CURRENT_TIMESTAMP"].any t.isKeyword then
      discard (next depth)
      return .other []
    else if t.isKeyword "RAISE" then
      discard (next depth)
      sign "(" (depth + 1)
      discard (name (depth + 2))
      if ← acceptSign "," (depth + 3) then discard (name (depth + 4))
      sign ")" (depth + 3)
      return .other []
    else
      match t with
      | .integer text =>
        discard (next depth)
        return .integer (integerOf text)
      | .constant _ =>
        discard (next depth)
        return .other []
      | .parameter _ =>
        discard (next depth)
        return .parameter
      | t =>
        match t.name? with
        | none => refuse
        | some first =>
          discard (next depth)
          named fuel depth t first

def named : Nat → Nat → Token → String → Parser Expr
  | 0, _, _, _ => throw .nesting
  | fuel + 1, depth, t, first => do
    if ← acceptSign "." (depth + 1) then
      let second ← name (depth + 2)
      if ← acceptSign "." (depth + 3) then
        return .column (first ++ "." ++ second) (← name (depth + 4))
      else return .column first second
    else if t.identifier?.isNone then return .text first
    else if t.label?.isSome && (← acceptSign "(" (depth + 1)) then
      if ← acceptSign "*" (depth + 2) then
        sign ")" (depth + 3)
        return .other []
      else if ← acceptSign ")" (depth + 3) then return callOf first []
      else
        unless ← acceptKeyword "DISTINCT" (depth + 2) do discard (acceptKeyword "ALL" (depth + 2))
        let args ← arguments fuel (depth + 3)
        sign ")" (depth + 4)
        return callOf first args
    else
      match t with
      | .quotedName text _ => return .name ("\"".isPrefixOf text) first
      | _ => return .name false first

def parenthesis : Nat → Nat → Parser Expr
  | 0, _ => throw .nesting
  | fuel + 1, depth => do
    if ← isNext (Token.isKeyword "SELECT") then
      let query ← query fuel depth
      sign ")" (depth + 1)
      return .other (query.selects.map (.exists false))
    else
      let items ← arguments fuel depth
      sign ")" (depth + 1)
      match items with
      | [e] => return e
      | items => return .other items

def arguments : Nat → Nat → Parser (List Expr)
  | 0, _ => throw .nesting
  | fuel + 1, depth => do
    let first ← expression fuel depth 1
    moreArguments fuel depth [first]

def moreArguments : Nat → Nat → List Expr → Parser (List Expr)
  | 0, _, _ => throw .nesting
  | fuel + 1, depth, reversed => do
    if ← acceptSign "," (depth + 1) then
      let e ← expression fuel (depth + 2) 1
      moreArguments fuel depth (e :: reversed)
    else return reversed.reverse

def caseExpression : Nat → Nat → Parser Expr
  | 0, _ => throw .nesting
  | fuel + 1, depth => do
    let subject ← if ← isNext (Token.isKeyword "WHEN") then pure []
      else List.singleton <$> expression fuel (depth + 1) 1
    keyword "WHEN" (depth + 2)
    let condition ← expression fuel (depth + 3) 1
    keyword "THEN" (depth + 4)
    let value ← expression fuel (depth + 5) 1
    let rest ← alternatives fuel depth
    match subject with
    | [] => return caseOf condition value rest
    | subject => return .other (subject ++ condition :: value :: rest)

def alternatives : Nat → Nat → Parser (List Expr)
  | 0, _ => throw .nesting
  | fuel + 1, depth => do
    if ← acceptKeyword "WHEN" (depth + 3) then
      let condition ← expression fuel (depth + 4) 1
      keyword "THEN" (depth + 5)
      let value ← expression fuel (depth + 6) 1
      return condition :: value :: (← alternatives fuel depth)
    else if ← acceptKeyword "ELSE" (depth + 3) then
      let e ← expression fuel (depth + 4) 1
      keyword "END" (depth + 4)
      return [e]
    else
      keyword "END" (depth + 4)
      return []

def operators : Nat → Nat → Nat → Expr → Parser Expr
  | 0, _, _, _ => throw .nesting
  | fuel + 1, depth, level, left => do
    let t ← peek
    match joint? t with
    | some (binds, op) =>
      if binds < level then return left
      else
        discard (next (depth + 1))
        let right ← expression fuel (depth + 2) (binds + 1)
        if binds = 4 && t.upper?.isSome && (← acceptKeyword "ESCAPE" (depth + 3)) then
          let escape ← expression fuel (depth + 4) 7
          operators fuel depth level (.other [left, right, escape])
        else operators fuel depth level (op.join left right)
    | none =>
      if t.isKeyword "COLLATE" then
        discard (next (depth + 1))
        match (← peek).label? with
        | some _ =>
          discard (next (depth + 2))
          operators fuel depth level (.other [left])
        | none => refuse
      else if level ≤ 4 then
        if t.isKeyword "IS" then
          discard (next (depth + 1))
          let opposite ← acceptKeyword "NOT" (depth + 2)
          let right ← expression fuel (depth + 2 + if opposite then 1 else 0) 5
          operators fuel depth level
            (if opposite then .other [left, right] else .binary .is left right)
        else if t.isKeyword "ISNULL" || t.isKeyword "NOTNULL" then
          discard (next (depth + 1))
          operators fuel depth level (.other [left])
        else if t.isKeyword "BETWEEN" || t.isKeyword "IN" then
          operators fuel depth level (← membership fuel depth left)
        else if t.isKeyword "NOT" then
          discard (next (depth + 1))
          let t ← peek
          if t.isKeyword "NULL" then
            discard (next (depth + 2))
            operators fuel depth level (.other [left])
          else if t.isKeyword "BETWEEN" || t.isKeyword "IN" then
            operators fuel depth level (← membership fuel depth left)
          else if ["LIKE", "GLOB", "REGEXP", "MATCH"].any t.isKeyword then
            discard (next (depth + 2))
            let right ← expression fuel (depth + 2) 5
            operators fuel depth level (.other [left, right])
          else refuse
        else return left
      else return left

def membership : Nat → Nat → Expr → Parser Expr
  | 0, _, _ => throw .nesting
  | fuel + 1, depth, left => do
    if ← acceptKeyword "BETWEEN" (depth + 1) then
      let low ← expression fuel (depth + 2) 5
      keyword "AND" (depth + 3)
      let high ← expression fuel (depth + 4) 5
      return .other [left, low, high]
    else
      keyword "IN" (depth + 1)
      if ← acceptSign "(" (depth + 2) then
        if ← acceptSign ")" (depth + 4) then return .other [left]
        else return .other [left, ← parenthesis fuel (depth + 3)]
      else
        discard (tableName (depth + 2))
        return .other [left]

def conditions : Nat → Nat → Parser (List Expr)
  | 0, _ => throw .nesting
  | fuel + 1, depth => do
    let first ← expression fuel depth 3
    moreConditions fuel depth [first]

def moreConditions : Nat → Nat → List Expr → Parser (List Expr)
  | 0, _, _ => throw .nesting
  | fuel + 1, depth, reversed => do
    if ← acceptKeyword "AND" (depth + 1) then
      let e ← expression fuel (depth + 2) 3
      moreConditions fuel depth (e :: reversed)
    else if ← acceptKeyword "OR" (depth + 1) then
      let e ← expression fuel (depth + 2) 1
      return [.other (reversed.reverse ++ [e])]
    else return reversed.reverse

def query : Nat → Nat → Parser Query
  | 0, _ => throw .nesting
  | fuel + 1, depth => do
    let first ← select fuel depth
    return ⟨first, ← moreSelects fuel depth⟩

def moreSelects : Nat → Nat → Parser (List (Combination × Select))
  | 0, _ => throw .nesting
  | fuel + 1, depth => do
    if ← acceptKeyword "UNION" (depth + 1) then
      let all ← acceptKeyword "ALL" (depth + 2)
      let s ← select fuel (depth + 2)
      return (if all then .unionAll else .union, s) :: (← moreSelects fuel depth)
    else if ← acceptKeyword "EXCEPT" (depth + 1) then
      let s ← select fuel (depth + 2)
      return (.except, s) :: (← moreSelects fuel depth)
    else return []

def select : Nat → Nat → Parser Select
  | 0, _ => throw .nesting
  | fuel + 1, depth => do
    keyword "SELECT" depth
    let distinct ← acceptKeyword "DISTINCT" (depth + 1)
    unless distinct do discard (acceptKeyword "ALL" (depth + 1))
    let projection ← results fuel depth
    let sources ← if ← acceptKeyword "FROM" (depth + 3) then sources fuel depth false true
      else pure []
    let conditions ← if ← acceptKeyword "WHERE" (depth + 4) then conditions fuel (depth + 5)
      else pure []
    clauses fuel (depth + 5)
    return .mk distinct projection sources conditions

def results : Nat → Nat → Parser (List Expr)
  | 0, _ => throw .nesting
  | fuel + 1, depth => do
    let tokens ← get
    let wide := match tokens with
      | t :: .sign "." :: .sign "*" :: _ => if t.name?.isSome then 3 else 0
      | .sign "*" :: _ => 1
      | _ => 0
    let e ← if 0 < wide then
        set (tokens.drop wide)
        pure (.other [])
      else
        let e ← expression fuel (depth + 4) 1
        discard (label? (depth + 6))
        pure e
    if ← acceptSign "," (depth + 3) then return e :: (← results fuel depth)
    else return [e]

def sources : Nat → Nat → Bool → Bool → Parser (List Source)
  | 0, _, _, _ => throw .nesting
  | fuel + 1, depth, outer, first => do
    let table ← tableName (depth + 5)
    let called ← acceptSign "(" (depth + 7)
    if called then
      unless ← acceptSign ")" (depth + 8) do
        discard (arguments fuel (depth + 8))
        sign ")" (depth + 9)
    let label ← label? (depth + 7)
    if ← acceptKeyword "INDEXED" (depth + 8) then
      keyword "BY" (depth + 9)
      discard (name (depth + 10))
    else if ← acceptKeyword "NOT" (depth + 8) then keyword "INDEXED" (depth + 9)
    let on ← if ← acceptKeyword "ON" (depth + 9) then
        let on ← conditions fuel (depth + 10)
        if first then throw .joinRequired
        pure on
      else pure []
    let rest ← joins fuel depth
    return .mk table called label outer on :: rest

def joins : Nat → Nat → Parser (List Source)
  | 0, _ => throw .nesting
  | fuel + 1, depth => do
    if ← acceptSign "," (depth + 5) then sources fuel depth false false
    else if ← acceptKeyword "JOIN" (depth + 5) then sources fuel depth false false
    else if (← peek).upper?.any Token.joinWords.contains then
      let kind ← next (depth + 5)
      let more ← if (← peek).isKeyword "JOIN" then pure [] else
        let second ← name (depth + 6)
        if (← peek).isKeyword "JOIN" then pure [second]
        else (second :: [·]) <$> name (depth + 7)
      keyword "JOIN" (depth + 8)
      let outer := (kind.text :: more).any (·.toUpper = "LEFT")
      sources fuel depth outer false
    else return []

-- Clauses that group, order or limit the rows. No statement needs them, and they are read over.
def clauses : Nat → Nat → Parser Unit
  | 0, _ => throw .nesting
  | fuel + 1, depth => do
    if (← acceptKeyword "GROUP" depth) || (← acceptKeyword "ORDER" depth) then
      keyword "BY" (depth + 1)
      discard (arguments fuel (depth + 2))
      clauses fuel depth
    else if (← acceptKeyword "HAVING" depth) || (← acceptKeyword "LIMIT" depth) then
      discard (expression fuel (depth + 1) 1)
      clauses fuel depth
    else return ()

end

def constraint (fuel depth : Nat) : Parser Bool := do
  let t ← peek
  if t.isKeyword "CONSTRAINT" then
    discard (next depth)
    discard (name (depth + 1))
    return true
  else if t.isKeyword "CHECK" then
    discard (next depth)
    sign "(" (depth + 1)
    discard (expression fuel (depth + 2) 1)
    sign ")" (depth + 3)
    return true
  else return false

def defaultValue (fuel depth : Nat) : Parser Unit := do
  let t ← peek
  if t.isSign "(" then
    discard (next depth)
    discard (expression fuel (depth + 1) 1)
    sign ")" (depth + 2)
  else
    unless ← acceptSign "-" depth do discard (acceptSign "+" depth)
    let t ← peek
    match t with
    | .string _ _ | .integer _ | .constant _ => discard (next depth)
    | t => if t.isKeyword "NULL" || t.label?.isSome then discard (next depth) else refuse

def nameList? (fuel depth : Nat) : Parser Unit := do
  if ← acceptSign "(" depth then
    discard (separated (name depth) depth fuel)
    sign ")" depth

def columnConstraints (depth : Nat) : Nat → Parser Unit
  | 0 => throw .nesting
  | fuel + 1 => do
    let t ← peek
    if t.isKeyword "DEFAULT" then
      discard (next depth)
      defaultValue fuel (depth + 1)
      columnConstraints depth fuel
    else if t.isKeyword "NULL" || t.isKeyword "UNIQUE" then
      discard (next depth)
      columnConstraints depth fuel
    else if t.isKeyword "NOT" then
      discard (next depth)
      keyword "NULL" depth
      columnConstraints depth fuel
    else if t.isKeyword "PRIMARY" then
      keywords ["PRIMARY", "KEY"] depth
      unless ← acceptKeyword "ASC" depth do discard (acceptKeyword "DESC" depth)
      discard (acceptKeyword "AUTOINCREMENT" depth)
      columnConstraints depth fuel
    else if t.isKeyword "REFERENCES" then
      discard (next depth)
      discard (name depth)
      nameList? fuel depth
      columnConstraints depth fuel
    else if t.isKeyword "COLLATE" then
      discard (next depth)
      match (← peek).label? with
      | some _ => discard (next depth)
      | none => refuse
      columnConstraints depth fuel
    else if t.isKeyword "GENERATED" || t.isKeyword "AS" then
      if t.isKeyword "GENERATED" then keywords ["GENERATED", "ALWAYS"] depth
      keyword "AS" depth
      sign "(" depth
      discard (expression fuel (depth + 1) 1)
      sign ")" depth
      columnConstraints depth fuel
    else if ← constraint fuel depth then columnConstraints depth fuel
    else return ()

def endsColumn (t : Token) : Bool :=
  t.isSign "," || t.isSign ")" ||
    ["CONSTRAINT", "CHECK", "DEFAULT", "NULL", "UNIQUE", "NOT", "PRIMARY", "REFERENCES", "COLLATE",
      "GENERATED", "AS"].any t.isKeyword

-- A column, which may not go by the name of one before it.
def column (before : List String) (fuel depth : Nat) : Parser (String × Option ColumnType) := do
  let name ← name depth
  let words ← typeWords (depth + 1) fuel
  unless words.isEmpty do typeSize (depth + 2)
  if before.contains name.toLower && endsColumn (← peek) then throw (.columnTwice name)
  columnConstraints (depth + 2) fuel
  return (name, typeOf words)

def tableConstraints (depth : Nat) : Nat → Parser Unit
  | 0 => throw .nesting
  | fuel + 1 => do
    let t ← peek
    if t.isKeyword "PRIMARY" || t.isKeyword "UNIQUE" then
      discard (next depth)
      if t.isKeyword "PRIMARY" then keyword "KEY" depth
      sign "(" depth
      discard (arguments fuel (depth + 1))
      sign ")" depth
    else if t.isKeyword "FOREIGN" then
      keywords ["FOREIGN", "KEY"] depth
      sign "(" depth
      discard (separated (name depth) depth fuel)
      sign ")" depth
      keyword "REFERENCES" depth
      discard (name depth)
      nameList? fuel depth
    else unless ← constraint fuel depth do refuse
    if ← acceptSign ")" depth then return ()
    else
      discard (acceptSign "," depth)
      tableConstraints depth fuel

-- The columns of a table up to the closing parenthesis, without its constraints. The columns of a
-- table that is there already are not compared with each other.
def columns (fresh : Bool) (before : List String) (depth : Nat) :
    Nat → Parser (List (String × Option ColumnType))
  | 0 => throw .nesting
  | fuel + 1 => do
    let first ← column before fuel depth
    if ← acceptSign "," depth then
      if ["CONSTRAINT", "PRIMARY", "UNIQUE", "CHECK", "FOREIGN"].any (← peek).isKeyword then
        tableConstraints depth fuel
        return [first]
      else
        let before := if fresh then first.1.toLower :: before else before
        return first :: (← columns fresh before depth fuel)
    else
      sign ")" depth
      return [first]

def tableOptions (depth : Nat) : Parser Unit := do
  discard (acceptKeyword "WITHOUT" depth)
  match (← peek).name? with
  | none => return ()
  | some option =>
    discard (next depth)
    match ← peek with
    | .finish | .sign "," | .sign ";" => throw (.tableOption option)
    | _ => refuse

def isReserved (name : String) : Bool := "sqlite_".toList.isPrefixOf name.toLower.toList

-- The two parts of a name with a single dot.
def schemaAndName? (table : String) : Option (String × String) :=
  match table.toList.dropWhile (· ≠ '.') with
  | [] => none
  | _ :: name =>
    if name.contains '.' then none
    else some (String.ofList (table.toList.takeWhile (· ≠ '.')), String.ofList name)

def checkNew (table : String) : Parser String :=
  match schemaAndName? table with
  | some (schema, name) =>
    if isReserved name then throw (.reservedName name)
    else if schema.toLower = "main" then return name
    else if schema.toLower = "temp" then return table
    else throw (.noSchema schema)
  | none => if isReserved table then throw (.reservedName table) else return table

def viewColumn (depth : Nat) : Parser String := do
  let t ← peek
  let name ← name depth
  if (← acceptKeyword "ASC" depth) || (← acceptKeyword "DESC" depth) then
    throw (.afterColumn t.text)
  else return name

def target (depth : Nat) : Parser String := do
  let table ← tableName depth
  if ← acceptKeyword "AS" (depth + 1) then discard (name (depth + 2))
  return table

def lastOfName : Parser Token := do
  match ← get with
  | _ :: .sign "." :: t :: _ => return t
  | t :: _ => return t
  | [] => return .finish

def statement (taken : String → Bool) (fuel : Nat) : Parser Statement := do
  if ← acceptKeyword "CREATE" 0 then
    let view ← acceptKeyword "VIEW" 2
    unless view do keyword "TABLE" 2
    if ← acceptKeyword "IF" 3 then keywords ["NOT", "EXISTS"] 4
    let word ← lastOfName
    let table ← tableName 4
    if view then
      sign "(" 6
      let columns ← separated (viewColumn 7) 8 fuel
      sign ")" 8
      keyword "AS" 7
      return .createView table columns (← query fuel 8)
    else
      sign "(" 1
      let name ← checkNew table
      let columns ← columns (!taken name) [] 2 fuel
      tableOptions 2
      return .createTable name (!word.isKeyword "IF") columns
  else if ← acceptKeyword "INSERT" 1 then
    keyword "INTO" 2
    let table ← target 3
    if ← acceptKeyword "DEFAULT" 4 then
      keyword "VALUES" 5
      refuse
    sign "(" 4
    let columns ← separated (name 5) 6 fuel
    sign ")" 6
    if ← acceptKeyword "VALUES" 5 then
      sign "(" 6
      let values ← arguments fuel 7
      sign ")" 8
      return .insert table columns (.values values)
    else return .insert table columns (.query (← query fuel 5))
  else if ← acceptKeyword "DELETE" 1 then
    keyword "FROM" 2
    let table ← target 3
    if ← acceptKeyword "INDEXED" 4 then
      keyword "BY" 5
      discard (name 6)
    else if ← acceptKeyword "NOT" 4 then keyword "INDEXED" 5
    let conditions ← if ← acceptKeyword "WHERE" 5 then conditions fuel 6 else pure []
    return .delete table conditions
  else if ← acceptKeyword "DROP" 1 then
    keyword "TABLE" 2
    let ifExists ← acceptKeyword "IF" 3
    if ifExists then keyword "EXISTS" 4
    return .drop (← tableName 4) ifExists
  else if ← isNext (Token.isKeyword "SELECT") then return .select (← query fuel 0)
  else refuse

def finish : Parser Unit := do
  unless (← peek) = .finish do sign ";" 1

end Parser

def skipEmpty (tokens : List Token) : List Token := tokens.dropWhile (·.isSign ";")

-- The first statement, with the tokens behind it, or nothing where there is none.
def first? (taken : String → Bool) (tokens : List Token) :
    Except Fault (Option (Statement × List Token)) :=
  match skipEmpty tokens with
  | [] | [.finish] => .ok none
  | tokens =>
    let read : Parser Statement := do
      let s ← Parser.statement taken (8 * tokens.length + 64)
      Parser.finish
      return s
    match read.run tokens with
    | .ok result => .ok (some result)
    | .error fault => .error fault

end PeerExchange.Sql.Syntax
