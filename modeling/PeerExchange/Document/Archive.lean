import PeerExchange.Document.Catalog
import PeerExchange.Json.Parser
import PeerExchange.Json.Printer
import PeerExchange.Sql.Archive

namespace PeerExchange.Sql

namespace Value

-- A number by its sign, mantissa and exponent. An infinite one has only a sign.
def floatingJson : Floating → Json
  | .finite negative b => .arr [.bool negative, .int b.mantissa, .int b.exponent]
  | .infinite negative => .arr [.bool negative]

def floatingOfJson? : Json → Option Floating
  | .arr [.bool negative, .int mantissa, .int exponent] =>
    if mantissa < 0 then none else some (.finite negative ⟨mantissa.toNat, exponent⟩)
  | .arr [.bool negative] => some (.infinite negative)
  | _ => none

def toJson : Value → Json
  | null => .null
  | integer n => .int n
  | real x => .obj [("real", floatingJson x)]
  | text s => .str s

def ofJson? : Json → Option Value
  | .null => some null
  | .int n => some (integer n)
  | .str s => some (text s)
  | .obj [("real", j)] => (floatingOfJson? j).map real
  | _ => none

end Value

namespace Table

def columnJson (column : String × Option ColumnType) : Json :=
  .arr [.str column.1, .ofOption ColumnType.toJson column.2]

def columnOfJson? : Json → Option (String × Option ColumnType)
  | .arr [.str name, .null] => some (name, none)
  | .arr [.str name, type] => (ColumnType.ofJson? .direct type).map fun t => (name, some t)
  | _ => none

def toJson (t : Table) : Json := .obj
  [("columns", .list columnJson t.columns), ("rows", .list (.list Value.toJson) t.rows)]

def ofJson? (j : Json) : Option Table := do
  let columns ← Json.list? columnOfJson? (← j.get? "columns")
  let rows ← Json.list? (Json.list? Value.ofJson?) (← j.get? "rows")
  if rows.all (·.length = columns.length) then some ⟨columns, rows⟩ else none

end Table

namespace Archive

def toText (a : Archive) : String :=
  (Json.obj [("tables", a.tables.toJson Table.toJson),
    ("views", .list (fun (_, v) => .str v.text) a.views.entries)]).compact

def withView? (a : Archive) (text : String) : Option Archive :=
  match a.batch text with
  | (a, .ok ()) => some a
  | (_, .error _) => none

def ofText? (s : String) : Option Archive :=
  if s.isEmpty then some .empty
  else do
    let j ← Json.parse? s
    let tables ← NameMap.ofJson? Table.ofJson? (← j.get? "tables")
    let views ← Json.list? Json.str? (← j.get? "views")
    views.foldlM withView? { tables := tables }

end Archive

end PeerExchange.Sql
