import PeerExchange.Text.Hidden

namespace PeerExchange

inductive ColumnType where
  | integer
  | text
deriving DecidableEq

namespace ColumnType

def render : ColumnType → String
  | integer => "int"
  | text => "text"

def sqlName : ColumnType → String
  | integer => "INTEGER"
  | text => "TEXT"

def ofName? (name : String) : Option ColumnType :=
  match name.toLower with
  | "int" | "integer" => some integer
  | "text" | "string" | "varchar" => some text
  | _ => none

end ColumnType

-- A labeled null is an unknown value that equals itself only.
inductive Literal where
  | string (s : String)
  | integer (n : Int)
  | null
  | labeledNull (label : String)
deriving DecidableEq

def fitsWord (n : Int) : Bool := -9223372036854775808 ≤ n && n ≤ 9223372036854775807

namespace Literal

def type? : Literal → Option ColumnType
  | string _ => some .text
  | integer _ => some .integer
  | null | labeledNull _ => none

def tooLarge? : Literal → Option Int
  | integer n => if fitsWord n then none else some n
  | _ => none

-- What the companion of a nullable column says about the value beside it: 0 for null, 1 for a known
-- value, 2 for a labeled null, whose label is then the value.
def marker : Literal → Int
  | null => 0
  | labeledNull _ => 2
  | string _ | integer _ => 1

def render : Literal → String
  | string s => Text.quoted s
  | integer n => toString n
  | null => "null"
  | labeledNull label => "_:" ++ label

def rank : Literal → Nat
  | string _ => 0
  | integer _ => 1
  | null => 2
  | labeledNull _ => 3

def le : Literal → Literal → Bool
  | string a, string b => a ≤ b
  | integer a, integer b => a ≤ b
  | labeledNull a, labeledNull b => a ≤ b
  | a, b => a.rank ≤ b.rank

def rowLe : List Literal → List Literal → Bool
  | [], _ => true
  | _ :: _, [] => false
  | a :: as, b :: bs => if a = b then rowLe as bs else a.le b

def sortRows (rows : List (List Literal)) : List (List Literal) := rows.mergeSort rowLe

def renderRow (row : List Literal) : String :=
  "(" ++ ", ".intercalate (row.map render) ++ ")"

end Literal

end PeerExchange
