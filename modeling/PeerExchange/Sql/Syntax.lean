import PeerExchange.Sql.Basic

namespace PeerExchange.Sql.Syntax

mutual

inductive Expr where
  | column (qualifier name : String)
  | name (quoted : Bool) (text : String)
  | integer (n : Int)
  | text (s : String)
  | null
  | parameter
  | binary (op : BinaryOp) (left right : Expr)
  | call (f : Function) (args : List Expr)
  | cast (e : Expr) (type : ColumnType)
  | concat (left right : Expr)
  | nullCase (e onNull otherwise : Expr)
  | exists (negated : Bool) (query : Select)
  | other (parts : List Expr)

-- An item of a FROM clause, which goes by its label where it has one. It is called when arguments
-- are written behind it.
inductive Source where
  | mk (table : String) (called : Bool) (label : Option String) (outer : Bool) (on : List Expr)

inductive Select where
  | mk (distinct : Bool) (projection : List Expr) (sources : List Source) (conditions : List Expr)

end

inductive Combination where
  | union
  | unionAll
  | except
deriving DecidableEq

namespace Combination

def symbol : Combination → String
  | union => "UNION"
  | unionAll => "UNION ALL"
  | except => "EXCEPT"

end Combination

structure Query where
  first : Select
  more : List (Combination × Select) := []

namespace Query

def selects (q : Query) : List Select := q.first :: q.more.map Prod.snd

end Query

inductive InsertSource where
  | values (values : List Expr)
  | query (query : Query)

inductive Statement where
  -- A column without a type keeps values as they are. What is kept of the statement starts with
  -- its name, and may not be readable again.
  | createTable (name : String) (readable : Bool) (columns : List (String × Option ColumnType))
  | createView (name : String) (columns : List String) (query : Query)
  | insert (table : String) (columns : List String) (source : InsertSource)
  | delete (table : String) (conditions : List Expr)
  | drop (table : String) (ifExists : Bool)
  | select (query : Query)

mutual

-- Steps from the top of an expression to its lowest part, with a step for each sign that is
-- written.
def Expr.height : Expr → Nat
  | .column _ _ => 2
  | .name _ _ | .text _ | .null | .parameter => 1
  | .integer n => if n < 0 then 2 else 1
  | .binary _ left right | .concat left right => max left.height right.height + 1
  | .call _ args => Expr.greatest args + 1
  | .cast e _ => e.height + 1
  | .nullCase e onNull otherwise =>
    max (e.height + 1) (max onNull.height otherwise.height) + 1
  | .exists negated query => query.height + if negated then 2 else 1
  | .other parts => Expr.greatest parts + 1

def Expr.greatest : List Expr → Nat
  | [] => 0
  | e :: rest => max e.height (Expr.greatest rest)

def Expr.joined (before : Nat) : List Expr → Nat
  | [] => before
  | e :: rest => Expr.joined (if before = 0 then e.height else max before e.height + 1) rest

def Select.height : Select → Nat
  | .mk _ projection _ conditions => max (Expr.greatest projection) (Expr.joined 0 conditions)

end

def heightLimit : Nat := 1000

mutual

def Expr.goesTooDeep (above : Nat) : Expr → Bool
  | .binary _ left right | .concat left right =>
    left.goesTooDeep above || right.goesTooDeep above
  | .call _ args | .other args => Expr.anyTooDeep above args
  | .cast e _ => e.goesTooDeep above
  | .nullCase e onNull otherwise =>
    e.goesTooDeep above || onNull.goesTooDeep above || otherwise.goesTooDeep above
  | .exists _ query => query.isTooDeep above
  | .column _ _ | .name _ _ | .integer _ | .text _ | .null | .parameter => false

def Expr.anyTooDeep (above : Nat) : List Expr → Bool
  | [] => false
  | e :: rest => e.goesTooDeep above || Expr.anyTooDeep above rest

def Expr.anyTooHigh (above : Nat) : List Expr → Bool
  | [] => false
  | e :: rest =>
    heightLimit < above + e.height || e.goesTooDeep (above + e.height) ||
      Expr.anyTooHigh above rest

def Source.anyTooDeep (above : Nat) : List Source → Bool
  | [] => false
  | .mk _ _ _ _ on :: rest =>
    heightLimit < above + Expr.joined 0 on || Expr.anyTooDeep (above + Expr.joined 0 on) on ||
      Source.anyTooDeep above rest

def Select.isTooDeep (above : Nat) : Select → Bool
  | .mk _ projection sources conditions =>
    let below := above + Expr.joined 0 conditions
    Expr.anyTooHigh above projection || heightLimit < below || Expr.anyTooDeep below conditions ||
      Source.anyTooDeep above sources

end

mutual

def Expr.sourceCount : Expr → Nat
  | .binary _ left right | .concat left right => max left.sourceCount right.sourceCount
  | .call _ args | .other args => Expr.sourceCounts args
  | .cast e _ => e.sourceCount
  | .nullCase e onNull otherwise =>
    max e.sourceCount (max onNull.sourceCount otherwise.sourceCount)
  | .exists _ query => query.sourceCount
  | .column _ _ | .name _ _ | .integer _ | .text _ | .null | .parameter => 0

def Expr.sourceCounts : List Expr → Nat
  | [] => 0
  | e :: rest => max e.sourceCount (Expr.sourceCounts rest)

def Source.sourceCounts : List Source → Nat
  | [] => 0
  | .mk _ _ _ _ on :: rest => max (Expr.sourceCounts on) (Source.sourceCounts rest)

def Select.sourceCount : Select → Nat
  | .mk _ projection sources conditions =>
    max sources.length (max (Expr.sourceCounts projection)
      (max (Expr.sourceCounts conditions) (Source.sourceCounts sources)))

end

namespace Query

def isTooDeep (q : Query) : Bool := q.selects.any (·.isTooDeep 0)

def sourceCount (q : Query) : Nat := (q.selects.map Select.sourceCount).foldl max 0

end Query

namespace Statement

def query? : Statement → Option Query
  | createView _ _ query | insert _ _ (.query query) | select query => some query
  | _ => none

def conditions : Statement → List Expr
  | insert _ _ (.values values) => values
  | delete _ conditions => conditions
  | _ => []

def isTooDeep (s : Statement) : Bool :=
  s.query?.any Query.isTooDeep ||
    match s with
    | delete _ conditions =>
      heightLimit < Expr.joined 0 conditions ||
        Expr.anyTooDeep (Expr.joined 0 conditions) conditions
    | insert _ _ (.values values) => Expr.anyTooHigh 0 values
    | _ => false

def sourceCount (s : Statement) : Nat :=
  max ((s.query?.map Query.sourceCount).getD 0) (Expr.sourceCounts s.conditions)

end Statement

end PeerExchange.Sql.Syntax
