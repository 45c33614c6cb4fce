import PeerExchange.NameMap
import PeerExchange.Sql.Value

namespace PeerExchange.Sql

def fold (name : String) : String := String.ofList (name.toList.map Char.toLower)

def listed (names : List String) (name : String) : Bool := (names.map fold).contains (fold name)

def lookup {α : Type} (name : String) : List (String × α) → Option α
  | [] => none
  | (key, value) :: rest => if fold key = fold name then some value else lookup name rest

structure Names (α : Type) where
  byFold : NameMap α

namespace Names

variable {α : Type}

def empty : Names α := ⟨.empty⟩

def get? (m : Names α) (name : String) : Option α := m.byFold.get? (fold name)

def contains (m : Names α) (name : String) : Bool := (m.get? name).isSome

def insert (m : Names α) (name : String) (value : α) : Names α := ⟨m.byFold.insert (fold name) value⟩

def modify (m : Names α) (name : String) (f : α → α) : Names α := ⟨m.byFold.modify (fold name) f⟩

def ofList (entries : List (String × α)) : Names α :=
  entries.foldl (fun m (name, value) => m.insert name value) empty

@[simp] theorem get?_empty (name : String) : (empty : Names α).get? name = none := rfl

@[simp] theorem get?_insert (m : Names α) (name : String) (value : α) (other : String) :
    (m.insert name value).get? other = if fold name = fold other then some value else m.get? other :=
  NameMap.get?_insert _ _ _ _

theorem get?_modify (m : Names α) (name : String) (f : α → α) (other : String) :
    (m.modify name f).get? other = if fold name = fold other then (m.get? name).map f else m.get? other := by
  unfold modify get? NameMap.modify
  cases found : m.byFold.get? (fold name) with
  | none =>
    dsimp only
    split
    · rename_i same
      exact same ▸ found
    · rfl
  | some value => simp

end Names

structure Table where
  columns : List (String × Option ColumnType)
  rows : List Row := []

namespace Table

def columnNames (t : Table) : List String := t.columns.map Prod.fst

-- A row of the table from values for some of its columns: each value is kept as its column's type
-- says, and columns without a value are null.
def fill (t : Table) (names : List String) (values : Row) : Row :=
  t.columns.map fun (name, type) =>
    match lookup name (names.zip values) with
    | some v => v.keep type
    | none => .null

end Table

structure View where
  columns : List String
  query : Query

structure Database where
  tables : Names Table := .empty
  views : Names View := .empty

namespace Database

def empty : Database := {}

def hasName (db : Database) (name : String) : Bool :=
  db.tables.contains name || db.views.contains name

def columns (db : Database) (table : String) : List (String × Option ColumnType) :=
  ((db.tables.get? table).map Table.columns).getD []

def rows (db : Database) (table : String) : List Row :=
  ((db.tables.get? table).map Table.rows).getD []

def setRows (db : Database) (table : String) (rows : List Row) : Database :=
  { db with tables := db.tables.modify table fun t => { t with rows := rows } }

end Database

structure Item where
  name : String
  columns : List (String × Option ColumnType)
  row : Row

namespace Item

def cell? (column : String) : List (String × Option ColumnType) → Row → Option Typed
  | (name, type) :: columns, v :: row =>
    if fold name = fold column then some ⟨v, type⟩ else cell? column columns row
  | _, _ => none

def get? (i : Item) (column : String) : Option Typed := cell? column i.columns i.row

end Item

abbrev Frame := List Item

namespace Frame

def get? (f : Frame) (qualifier column : String) : Option Typed :=
  f.findSome? fun i => if fold i.name = fold qualifier then i.get? column else none

end Frame

abbrev Scope := List Frame

namespace Scope

def get? (s : Scope) (qualifier column : String) : Option Typed :=
  s.findSome? fun f => f.get? qualifier column

end Scope

end PeerExchange.Sql
