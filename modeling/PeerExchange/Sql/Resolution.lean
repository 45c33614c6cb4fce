import PeerExchange.Sql.Database
import PeerExchange.Sql.Fault

namespace PeerExchange.Sql

mutual

def Expr.tables : Expr → List String
  | .binary _ left right => left.tables ++ right.tables
  | .call _ args => Expr.allTables args
  | .cast e _ => e.tables
  | .concat parts => Expr.allTables parts
  | .nullCase e onNull otherwise => e.tables ++ onNull.tables ++ otherwise.tables
  | .exists _ query => query.tables
  | .column _ _ | .integer _ | .text _ | .null | .typedNull _ | .param _ => []

def Expr.allTables : List Expr → List String
  | [] => []
  | e :: rest => e.tables ++ Expr.allTables rest

def Source.tables : List Source → List String
  | [] => []
  | .mk table _ _ _ :: rest => table :: Source.tables rest

def Source.conditionTables : List Source → List String
  | [] => []
  | .mk _ _ _ on :: rest => Expr.allTables on ++ Source.conditionTables rest

def Select.tables : Select → List String
  | .mk _ projection sources conditions =>
    Source.tables sources ++ Expr.allTables projection ++ Expr.allTables conditions ++
      Source.conditionTables sources

end

@[simp] theorem Expr.allTables_eq_flatMap (es : List Expr) :
    Expr.allTables es = es.flatMap Expr.tables := by
  induction es with
  | nil => simp [Expr.allTables]
  | cons e rest ih => simp [Expr.allTables, ih]

theorem Source.tables_eq_map (sources : List Source) :
    Source.tables sources = sources.map Source.table := by
  induction sources with
  | nil => simp [Source.tables]
  | cons s rest ih =>
    cases s
    simp [Source.tables, Source.table, ih]

abbrev Visible := List (String × List String)

def Visible.has (v : Visible) (qualifier column : String) : Bool :=
  v.any fun (name, columns) => fold name = fold qualifier && listed columns column

def Source.visible (db : Database) (sources : List Source) : Visible :=
  sources.map fun s => (s.qualifier, (db.columns s.table).map Prod.fst)

mutual

-- The columns that nothing around an expression has, in order.
def Expr.unresolved (db : Database) (around : List Visible) : Expr → List String
  | .column qualifier name =>
    if around.any (·.has qualifier name) then [] else [qualifier ++ "." ++ name]
  | .binary _ left right => left.unresolved db around ++ right.unresolved db around
  | .call _ args => Expr.allUnresolved db around args
  | .cast e _ => e.unresolved db around
  | .concat parts => Expr.allUnresolved db around parts
  | .nullCase e onNull otherwise =>
    e.unresolved db around ++ onNull.unresolved db around ++ otherwise.unresolved db around
  | .exists _ query => query.unresolved db around
  | .integer _ | .text _ | .null | .typedNull _ | .param _ => []

def Expr.allUnresolved (db : Database) (around : List Visible) : List Expr → List String
  | [] => []
  | e :: rest => e.unresolved db around ++ Expr.allUnresolved db around rest

def Source.unresolved (db : Database) (around : List Visible) : List Source → List String
  | [] => []
  | .mk _ _ _ on :: rest =>
    Expr.allUnresolved db around on ++ Source.unresolved db around rest

def Select.unresolved (db : Database) (around : List Visible) : Select → List String
  | .mk _ projection sources conditions =>
    let around := Source.visible db sources :: around
    Expr.allUnresolved db around projection ++ Expr.allUnresolved db around conditions ++
      Source.unresolved db around sources

end

@[simp] theorem Expr.allUnresolved_eq_flatMap (db : Database) (around : List Visible)
    (es : List Expr) :
    Expr.allUnresolved db around es = es.flatMap (Expr.unresolved db around) := by
  induction es with
  | nil => simp [Expr.allUnresolved]
  | cons e rest ih => simp [Expr.allUnresolved, ih]

-- Fails on the first table that does not exist, then on the first column that nothing has.
def checkNames (db : Database) (tables unresolved : List String) : Except Fault Unit :=
  match tables.find? (!db.tables.contains ·) with
  | some name => .error (.noTable name)
  | none =>
    match unresolved with
    | name :: _ => .error (.noColumn name)
    | [] => .ok ()

namespace Query

def checked (q : Query) : List Select := q.except.toList ++ q.selects.reverse

def check (db : Database) (q : Query) : Except Fault Unit :=
  checkNames db (q.checked.flatMap Select.tables)
    (q.checked.flatMap (Select.unresolved db []))

end Query

namespace InsertSource

def check (db : Database) : InsertSource → Except Fault Unit
  | .values es => checkNames db (Expr.allTables es) (Expr.allUnresolved db [] es)
  | .query q => q.check db

end InsertSource

namespace Database

def target (db : Database) (name : String) : Except Fault Table :=
  match db.tables.get? name with
  | some t => .ok t
  | none => .error (if db.views.contains name then .notATable name else .noTable name)

end Database

namespace Table

def checkColumns (t : Table) (name : String) (columns : List String) : Except Fault Unit :=
  match columns.find? (!listed t.columnNames ·) with
  | some column => .error (.noColumnIn name column)
  | none => .ok ()

end Table

end PeerExchange.Sql
