import PeerExchange.Numeral
import PeerExchange.Sql.Basic

namespace PeerExchange.Sql

inductive Value where
  | null
  | integer (n : Int)
  | real (x : Floating)
  | text (s : String)
deriving DecidableEq

abbrev Row := List Value

namespace Value

def ofFloating (x : Floating) : Value := (x.integer?.map integer).getD (real x)

def ofNumeral (n : Numeral) : Value :=
  match n.integer?.filter fitsWord with
  | some i => integer i
  | none => ofFloating n.toFloating

def ofInteger (n : Int) : Value :=
  if fitsWord n then integer n else real (Numeral.ofInt n).toFloating

def ofNumericText? (s : String) : Option Value := (Numeral.parse? s).map ofNumeral

def toText? : Value → Option String
  | null => none
  | integer n => some (toString n)
  | real x => some x.significant
  | text s => some s

-- A value as a column of a type keeps it. An integer column keeps a text that looks like a number
-- as that number, and a text column keeps a number as its text.
def store : ColumnType → Value → Value
  | .integer, text s => (ofNumericText? s).getD (text s)
  | .integer, real x => ofFloating x
  | .text, integer n => text (toString n)
  | .text, real x => text x.significant
  | _, v => v

def keep : Option ColumnType → Value → Value
  | some type, v => v.store type
  | none, v => v

def rank : Value → Nat
  | null => 0
  | integer _ | real _ => 1
  | text _ => 2

def order : Value → Value → Ordering
  | integer a, integer b => compare a b
  | integer a, real b => (Floating.exactly a).order b
  | real a, integer b => a.order (.exactly b)
  | real a, real b => a.order b
  | text a, text b => compare a b
  | a, b => compare a.rank b.rank

def same (a b : Value) : Bool := a.order b = .eq

def ofBool (b : Bool) : Value := integer (if b then 1 else 0)

def ofTruth : Option Bool → Value
  | some b => ofBool b
  | none => null

def toInteger? : Value → Option Int
  | null => none
  | integer n => some n
  | real x => some x.truncate
  | text s =>
    let (negative, rest) := Numeral.readSign (s.toList.dropWhile Numeral.isBlank)
    let m : Int := Numeral.natural (Numeral.spanDigits rest).1
    some (Floating.exactly (if negative then -m else m)).truncate

def cast : ColumnType → Value → Value
  | .text, v => (v.toText?.map text).getD null
  | .integer, v => (v.toInteger?.map integer).getD null

-- A condition holds where its value is known and not zero.
def isTrue (v : Value) : Bool := v.toInteger?.any (· ≠ 0)

end Value

namespace Row

def same (a b : Row) : Bool := a.length = b.length && (a.zip b).all fun (v, w) => v.same w

end Row

structure Typed where
  value : Value
  type : Option ColumnType := none
deriving DecidableEq

namespace Typed

-- The type that both sides of a comparison are brought to. Two declared types only count when one
-- of them is a number.
def comparisonType : Option ColumnType → Option ColumnType → Option ColumnType
  | some .text, some .text => none
  | some _, some _ => some .integer
  | some t, none => some t
  | none, other => other

def order (a b : Typed) : Ordering :=
  let type := comparisonType a.type b.type
  (a.value.keep type).order (b.value.keep type)

end Typed

namespace BinaryOp

def accepts : BinaryOp → Ordering → Bool
  | eq, o | is, o => o = .eq
  | ne, o => o ≠ .eq
  | lt, o => o = .lt
  | le, o => o ≠ .gt
  | gt, o => o = .gt
  | ge, o => o ≠ .lt
  | plus, _ | minus, _ => false

-- A comparison with null is unknown, unless null is equal to null.
def compare (op : BinaryOp) (a b : Typed) : Option Bool :=
  if op ≠ is && (a.value = .null || b.value = .null) then none else some (op.accepts (a.order b))

-- An integer that is calculated, or the nearest number where it does not fit.
def calculated (n : Int) : Value := if fitsWord n then .integer n else .real (.ofInt n)

def apply (op : BinaryOp) (a b : Typed) : Value :=
  match op, a.value.toInteger?, b.value.toInteger? with
  | plus, some m, some n => calculated (m + n)
  | minus, some m, some n => calculated (m - n)
  | plus, _, _ | minus, _, _ => .null
  | op, _, _ => .ofTruth (op.compare a b)

end BinaryOp

namespace Function

def least : List Value → Value
  | [] => .null
  | v :: rest =>
    if (v :: rest).contains .null then .null
    else rest.foldl (fun best w => if best.order w = .lt then best else w) v

def greatest : List Value → Value
  | [] => .null
  | v :: rest =>
    if (v :: rest).contains .null then .null
    else rest.foldl (fun best w => if best.order w = .lt then w else best) v

def shortLength (n : Int) : Nat := (n.bmod 4294967296).toNat

-- The characters of a text from a position, which counts from one. A null character ends the text.
def substring (v start length : Value) : Value :=
  match v.toText?, start.toInteger?, length.toInteger? with
  | some s, some i, some n =>
    let cs := s.toList.takeWhile (· ≠ '\x00')
    .text (String.ofList ((cs.drop (i - 1).toNat).take (shortLength n)))
  | _, _, _ => .null

def apply : Function → List Value → Value
  | substr, v :: start :: length :: _ => substring v start length
  | substr, _ => .null
  | coalesce, vs => (vs.find? (· ≠ .null)).getD .null
  | min, vs => least vs
  | max, vs => greatest vs

end Function

def concatenate (vs : List Value) : Value :=
  match vs.mapM Value.toText? with
  | some texts => .text (String.join texts)
  | none => .null

end PeerExchange.Sql
