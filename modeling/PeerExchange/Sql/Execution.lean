import PeerExchange.Sql.Eval
import PeerExchange.Sql.Resolution

namespace PeerExchange.Sql

namespace InsertSource

def rows (w : World) : InsertSource → List Row
  | .values es => [Expr.evalAll w [] es]
  | .query q => q.rows w

end InsertSource

namespace Database

def repeated? (before : List String) : List String → Option String
  | [] => none
  | name :: rest =>
    if listed before name then some name else repeated? (name :: before) rest

def createTable (db : Database) (name : String) (columns : List (String × ColumnType)) :
    Except Fault Database :=
  if columns.isEmpty then .error (.unexpected ")")
  else if db.hasName name then .ok db
  else
    match repeated? [] (columns.map Prod.fst) with
    | some column => .error (.columnTwice column)
    | none =>
      let columns := columns.map fun (column, type) => (column, some type)
      .ok { db with tables := db.tables.insert name { columns := columns } }

-- Does nothing where the name is taken. The query is checked when the view is read.
def createView (db : Database) (name : String) (columns : List String) (query : Query) :
    Database :=
  if db.hasName name then db else { db with views := db.views.insert name ⟨columns, query⟩ }

def insertRows (db : Database) (table : String) (columns : List String) (t : Table)
    (rows : List Row) : Database × Nat :=
  (db.setRows table (t.rows ++ rows.map (t.fill columns)), rows.length)

def load (db : Database) (table : String) (columns : List String) (rows : List Row) :
    Except Fault (Database × Nat) :=
  if columns.isEmpty then .error (.unexpected ")")
  else do
    let t ← db.target table
    t.checkColumns table columns
    .ok (db.insertRows table columns t rows)

def insert (db : Database) (parameter : Int) (table : String) (columns : List String)
    (source : InsertSource) : Except Fault (Database × Nat) :=
  if columns.isEmpty then .error (.unexpected ")")
  else do
    let t ← db.target table
    t.checkColumns table columns
    source.check db
    .ok (db.insertRows table columns t (source.rows ⟨db, parameter⟩))

def isSelected (db : Database) (parameter : Int) (table : String) (t : Table)
    (conditions : List Expr) (row : Row) : Bool :=
  Expr.allHold ⟨db, parameter⟩ [[⟨table, t.columns, row⟩]] conditions

def delete (db : Database) (parameter : Int) (table : String) (conditions : List Expr) :
    Except Fault (Database × Nat) := do
  let t ← db.target table
  checkNames db (Expr.allTables conditions)
    (Expr.allUnresolved db [[(table, t.columnNames)]] conditions)
  let kept := t.rows.filter fun row => !db.isSelected parameter table t conditions row
  .ok (db.setRows table kept, t.rows.length - kept.length)

def execute (db : Database) (parameter : Int) : Statement → Except Fault (Database × Nat)
  | .createTable name columns => do .ok (← db.createTable name columns, 0)
  | .createView name columns query => .ok (db.createView name columns query, 0)
  | .insert table columns source => db.insert parameter table columns source
  | .delete table conditions => db.delete parameter table conditions

def contents (db : Database) (name : String) : Except Fault (List String × List Row) :=
  match db.tables.get? name, db.views.get? name with
  | some t, _ => .ok (t.columnNames, t.rows)
  | none, some v => do
    match v.query.check db with
    | .ok () => .ok (v.columns, v.query.rows ⟨db, 0⟩)
    | .error (.noTable table) => .error (.noTable ("main." ++ table))
    | .error fault => .error fault
  | none, none => .error (.noTable name)

def read (db : Database) (columns : List String) (name : String) : Except Fault (List Row) :=
  if columns.isEmpty then .error (.unexpected "FROM")
  else do
    let (names, rows) ← db.contents name
    match columns.find? (!listed names ·) with
    | some column => .error (.noColumn column)
    | none =>
      .ok (rows.map fun row =>
        columns.map fun column => (lookup column (names.zip row)).getD .null)

end Database

def readText (columns : List String) (name : String) : String :=
  "SELECT " ++ ", ".intercalate columns ++ " FROM " ++ name

end PeerExchange.Sql
