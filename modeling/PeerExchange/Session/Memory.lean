import PeerExchange.Session.Basic
import PeerExchange.Sql.Execution

namespace PeerExchange

structure Store where
  database : Sql.Database := .empty
  saved : Option Sql.Database := none

namespace Store

def toError (fault : Sql.Fault) : RunError := .ofFailure (.failed 1 fault.message)

-- Runs a statement. A parameter that is not bound is zero.
def evaluate (s : Sql.Statement) (parameter : Option Int) : Run Store Nat := do
  let store ← get
  match store.database.execute (parameter.getD 0) s with
  | .ok (database, changed) =>
    set { store with database := database }
    return changed
  | .error fault => throw (toError fault)

def start : Run Store Unit := do
  let store ← get
  match store.saved with
  | none => set { store with saved := some store.database }
  | some _ => throw (toError .openTransaction)

def commit : Run Store Unit := do
  let store ← get
  match store.saved with
  | some _ => set { store with saved := none }
  | none => throw (toError .noTransaction)

def rollback : Run Store Unit :=
  modify fun store => { database := store.saved.getD store.database, saved := none }

def load (table : String) (columns : List String) (rows : List Sql.Row) : Run Store Nat := do
  let store ← get
  match store.database.load table columns rows with
  | .ok (database, count) =>
    set { store with database := database }
    return count
  | .error fault => throw (toError fault)

def query (columns : List String) (name : String) : Run Store (List Sql.Row) := do
  match (← get).database.read columns name with
  | .ok rows => return rows
  | .error fault => throw (toError fault)

def session : Session Store where
  evaluate := evaluate
  batch statements := statements.forM fun s => discard (evaluate s none)
  start := start
  commit := commit
  rollback := rollback
  load := load
  query := query

end Store

end PeerExchange
