import PeerExchange.Literal

namespace PeerExchange.Sql

inductive BinaryOp where
  | eq
  | ne
  | lt
  | le
  | gt
  | ge
  | is
  | plus
  | minus
deriving DecidableEq

namespace BinaryOp

def symbol : BinaryOp → String
  | eq => "="
  | ne => "!="
  | lt => "<"
  | le => "<="
  | gt => ">"
  | ge => ">="
  | is => "IS"
  | plus => "+"
  | minus => "-"

def all : List BinaryOp := [eq, ne, lt, le, gt, ge, is, plus, minus]

end BinaryOp

inductive Function where
  | substr
  | coalesce
  | min
  | max
deriving DecidableEq

namespace Function

def name : Function → String
  | substr => "SUBSTR"
  | coalesce => "COALESCE"
  | min => "MIN"
  | max => "MAX"

def all : List Function := [substr, coalesce, min, max]

end Function

mutual

inductive Expr where
  | column (qualifier name : String)
  | integer (n : Int)
  | text (s : String)
  | null
  | typedNull (type : ColumnType)
  | param (n : Nat)
  | binary (op : BinaryOp) (left right : Expr)
  | call (f : Function) (args : List Expr)
  | cast (e : Expr) (type : ColumnType)
  | concat (parts : List Expr)
  | nullCase (e onNull otherwise : Expr)
  | exists (negated : Bool) (query : Select)

inductive Source where
  | mk (table qualifier : String) (outer : Bool) (on : List Expr)

inductive Select where
  | mk (distinct : Bool) (projection : List Expr) (sources : List Source) (conditions : List Expr)

end

namespace Source

def joined (table qualifier : String) : Source := mk table qualifier false []

def table : Source → String
  | mk table _ _ _ => table

def qualifier : Source → String
  | mk _ qualifier _ _ => qualifier

def outer : Source → Bool
  | mk _ _ outer _ => outer

def on : Source → List Expr
  | mk _ _ _ on => on

end Source

namespace Select

def sources : Select → List Source
  | mk _ _ sources _ => sources

def distinct : Select → Bool
  | mk distinct _ _ _ => distinct

def projection : Select → List Expr
  | mk _ projection _ _ => projection

end Select

structure Query where
  selects : List Select
  all : Bool := false
  except : Option Select := none

namespace Query

def ofSelect (s : Select) : Query := { selects := [s] }

end Query

inductive InsertSource where
  | values (values : List Expr)
  | query (query : Query)

inductive Statement where
  | createTable (name : String) (columns : List (String × ColumnType))
  | createView (name : String) (columns : List String) (query : Query)
  | insert (table : String) (columns : List String) (source : InsertSource)
  | delete (table : String) (conditions : List Expr)

namespace Statement

def clearTable (table : String) : Statement := .delete table []

end Statement

end PeerExchange.Sql
