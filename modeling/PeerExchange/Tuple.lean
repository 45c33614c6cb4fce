import PeerExchange.Error
import PeerExchange.Sql.Value

namespace PeerExchange

namespace Literal

def toValue : Literal → Compiled Sql.Value
  | string s | labeledNull s => .ok (.text s)
  | integer n => if fitsWord n then .ok (.integer n) else .error (.integerOutOfRange n)
  | null => .ok .null

def ofValue : Sql.Value → Literal
  | .null => null
  | .integer n => integer n
  | .real x => string x.positional
  | .text s => string s

def ofMarked (marker : Option Sql.Value) (v : Sql.Value) : Literal :=
  match marker, v with
  | some (.integer 0), _ => null
  | some (.integer 2), .text label => labeledNull label
  | _, v => ofValue v

end Literal

namespace Relation

def rowOf (columns : List (Column × Option String)) : List Literal → Compiled Sql.Row
  | [] => .ok []
  | literal :: rest => do
    let v ← literal.toValue
    let marker := if columns.head?.any (·.2.isSome) then [.integer literal.marker] else []
    .ok (v :: marker ++ (← rowOf columns.tail rest))

def toRow (r : Relation) (tuple : List Literal) : Compiled Sql.Row := rowOf r.markedColumns tuple

def tupleOf : List (Column × Option String) → Sql.Row → List Literal
  | [], _ => []
  | (_, none) :: columns, row =>
    Literal.ofMarked none (row.headD .null) :: tupleOf columns row.tail
  | (_, some _) :: columns, row =>
    Literal.ofMarked row.tail.head? (row.headD .null) :: tupleOf columns row.tail.tail

def ofRow (r : Relation) (row : Sql.Row) : List Literal := tupleOf r.markedColumns row

end Relation

end PeerExchange
