import PeerExchange.Sql.Execution
import PeerExchange.Sql.Syntax.Parser
import PeerExchange.Sql.Syntax.Resolution

namespace PeerExchange.Sql

namespace Syntax

structure View where
  columns : List String
  query : Query
  text : String

namespace Statement

def sizeFault? (s : Statement) : Option Fault :=
  if 200 < s.sourceCount then some (.sourceCount 200)
  else if s.query?.any (500 < ·.selects.length) then some .selectCount
  else if s.isTooDeep then some (.expressionDepth heightLimit)
  else
    match s with
    | createTable name _ columns =>
      if 2000 < columns.length then some (.columnCount name) else none
    | _ => none

end Statement

def joinLimit : Nat := 64

def checkJoins (sources : Nat) : Except Fault Unit :=
  if joinLimit < sources then .error (.joinCount joinLimit) else .ok ()

end Syntax

open Syntax (key)

structure Archive where
  tables : NameMap Table := .empty
  views : NameMap Syntax.View := .empty

namespace Archive

def empty : Archive := {}

def size (a : Archive) : Nat := a.tables.entries.length + a.views.entries.length

def isEmpty (a : Archive) : Bool := a.size = 0

def hasName (a : Archive) (name : String) : Bool :=
  a.tables.contains (key name) || a.views.contains (key name)

def database (a : Archive) : Database := { tables := ⟨a.tables⟩ }

def schemaNames : List String :=
  ["sqlite_master", "sqlite_schema", "sqlite_temp_master", "sqlite_temp_schema"]

-- The table that lists all others. What it lists is not kept.
def schemaTable : Table :=
  ⟨[("type", some .text), ("name", some .text), ("tbl_name", some .text),
    ("rootpage", some .integer), ("sql", some .text)], []⟩

-- A table with rows, which need not be one of the archive's own.
def table? (a : Archive) (name : String) : Option Table :=
  if schemaNames.contains (key name) then some schemaTable else a.tables.get? (key name)

-- The name of a view's column at a position, which is never a truth value.
def viewColumn (name : String) (position : Nat) : String :=
  if (Syntax.truth? name).isSome then "column" ++ toString (position + 1) else key name

def viewTable (a : Archive) (v : Syntax.View) : Except Fault Table := do
  match v.query.tables.find? fun (name, _) => !a.tables.contains (key name) with
  | some (name, _) => .error (.noTable ("main." ++ name))
  | none =>
    let query ← v.query.resolve a.database
    Syntax.checkJoins v.query.sourceCount
    let columns := v.columns.zipIdx.map fun (name, position) => (viewColumn name position, none)
    .ok ⟨columns, query.rows ⟨a.database, 0⟩⟩

def readingOne (a : Archive) (db : Database) : Syntax.Reading → Except Fault Database
  | (name, called) =>
    match a.table? name, a.views.get? (key name) with
    | some t, _ =>
      if called then .error (.notAFunction name)
      else .ok { db with tables := db.tables.insert (key name) t }
    | none, some v =>
      if called then .error (.notAFunction name)
      else do .ok { db with tables := db.tables.insert (key name) (← a.viewTable v) }
    | none, none => .error (.noTable name)

def reading (a : Archive) (names : List Syntax.Reading) : Except Fault Database :=
  names.foldlM (readingOne a) a.database

def target (a : Archive) (name : String) : Except Fault Table :=
  if schemaNames.contains (key name) then .error (.notModifiable "sqlite_master")
  else
    match a.tables.get? (key name) with
    | some t => .ok t
    | none => .error (if a.views.contains (key name) then .notATable name else .noTable name)

def settle (a : Archive) (table : String) (db : Database) : Archive :=
  { a with tables := a.tables.modify (key table) fun t =>
      { t with rows := db.rows (key table) } }

def createTable (a : Archive) (name : String) (readable : Bool)
    (columns : List (String × Option ColumnType)) : Except Fault Archive :=
  if a.hasName name then .ok a
  else if !readable then .error (.unreadable name)
  else
    let columns := columns.map fun (column, type) => (key column, type)
    .ok { a with tables := a.tables.insert (key name) { columns := columns } }

def drop (a : Archive) (name : String) (ifExists : Bool) : Except Fault Archive :=
  if a.tables.contains (key name) then .ok { a with tables := a.tables.erase (key name) }
  else if ifExists then .ok a
  else .error (.noTable name)

def createView (a : Archive) (name : String) (v : Syntax.View) : Archive :=
  if a.hasName name then a else { a with views := a.views.insert (key name) v }

def filled (a : Archive) (table : String) (columns : List String) : Except Fault Table := do
  let t ← a.target table
  match columns.find? fun name => !t.columnNames.contains (key name) with
  | some column => .error (.noColumnIn table column)
  | none => .ok t

def checkWidth (values : Nat) (columns : List String) : Except Fault Unit :=
  if values = columns.length then .ok () else .error (.valueCount values columns.length)

def insert (a : Archive) (parameter : Int) (table : String) (columns : List String)
    (source : Syntax.InsertSource) : Except Fault (Archive × Nat) := do
  let t ← a.filled table columns
  let db ← a.reading source.tables
  let resolved ← source.resolve db
  checkWidth source.width columns
  Syntax.checkJoins (Syntax.Statement.insert table columns source).sourceCount
  let (db, count) := db.insertRows (key table) (columns.map key) t (resolved.rows ⟨db, parameter⟩)
  .ok (a.settle table db, count)

def delete (a : Archive) (parameter : Int) (table : String) (conditions : List Syntax.Expr) :
    Except Fault (Archive × Nat) := do
  let t ← a.target table
  let db ← a.reading (Syntax.Expr.allTables conditions)
  let resolved ← Syntax.Expr.resolveAll db [[(key table, t.columnNames)]] conditions
  Syntax.checkJoins (Syntax.Expr.sourceCounts conditions)
  let (db, count) ← db.delete parameter (key table) resolved
  .ok (a.settle table db, count)

def select (a : Archive) (q : Syntax.Query) : Except Fault (List Row) := do
  let db ← a.reading q.tables
  let resolved ← q.resolve db
  Syntax.checkJoins q.sourceCount
  .ok (resolved.rows ⟨db, 0⟩)

def execute (a : Archive) (parameter : Int) (s : Syntax.Statement) (text : String) :
    Except Fault (Archive × Nat) :=
  match s.sizeFault? with
  | some fault => .error fault
  | none =>
    match s with
    | .createTable name readable columns => do .ok (← a.createTable name readable columns, 0)
    | .createView name columns query => .ok (a.createView name ⟨columns, query, text⟩, 0)
    | .insert table columns source => a.insert parameter table columns source
    | .delete table conditions => a.delete parameter table conditions
    | .drop table ifExists => do .ok (← a.drop table ifExists, 0)
    | .select query => do
      discard (a.select query)
      .ok (a, 0)

def read? (a : Archive) (text : String) : Except Fault (Option Syntax.Statement) := do
  .ok ((← Syntax.first? a.hasName (Token.ofText text)).map Prod.fst)

def evaluate (a : Archive) (parameter : Int) (text : String) : Except Fault (Archive × Nat) := do
  match ← a.read? text with
  | some s => a.execute parameter s text
  | none => .ok (a, 0)

def spelled (tokens rest : List Token) : String :=
  " ".intercalate ((tokens.take (tokens.length - rest.length)).map Token.text)

def runAll : Nat → List Token → Archive → Archive × Except Fault Unit
  | 0, _, a => (a, .ok ())
  | steps + 1, tokens, a =>
    match Syntax.first? a.hasName tokens with
    | .error fault => (a, .error fault)
    | .ok none => (a, .ok ())
    | .ok (some (s, rest)) =>
      match a.execute 0 s (spelled tokens rest) with
      | .error fault => (a, .error fault)
      | .ok (a, _) => runAll steps rest a

def batch (a : Archive) (text : String) : Archive × Except Fault Unit :=
  let tokens := Token.ofText text
  runAll tokens.length tokens a

def load (a : Archive) (text : String) (rows : List Row) : Except Fault (Archive × Nat) := do
  match ← a.read? text with
  | some (.insert table columns source) =>
    let t ← a.filled table columns
    checkWidth source.width columns
    let (db, count) := a.database.insertRows (key table) (columns.map key) t rows
    .ok (a.settle table db, count)
  | _ => .ok (a, 0)

def query (a : Archive) (text : String) : Except Fault (List Row) := do
  match ← a.read? text with
  | some (.select q) =>
    match (Syntax.Statement.select q).sizeFault? with
    | some fault => .error fault
    | none => a.select q
  | _ => .ok []

end Archive

def loadText (table : String) (columns : List String) : String :=
  let parameters := (List.range columns.length).map fun i => "?" ++ toString (i + 1)
  "INSERT INTO " ++ table ++ " (" ++ ", ".intercalate columns ++ ") VALUES (" ++
    ", ".intercalate parameters ++ ")"

end PeerExchange.Sql
