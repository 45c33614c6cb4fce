import PeerExchange.Session.Basic
import PeerExchange.Sql.Archive
import PeerExchange.Text.Hidden

namespace PeerExchange

inductive Textual.Access where
  | full
  | readOnly
  | foreign
deriving DecidableEq

structure Textual where
  archive : Sql.Archive := .empty
  saved : Option Sql.Archive := none
  access : Textual.Access := .full

namespace Textual

def settled (t : Textual) : Sql.Archive := t.saved.getD t.archive

def trimmed (text : String) : String := String.ofList (Text.trim text.toList)

def refused {α : Type} (fault : Sql.Fault) : Run Textual α :=
  throw (.ofFailure (.failed fault.code fault.message))

-- The fault of every change that the access does not allow.
def Access.fault? : Access → Option Sql.Fault
  | full => none
  | readOnly => some .readOnly
  | foreign => some .notAnArchive

def change (f : Sql.Archive → Except Sql.Fault (Sql.Archive × Nat)) : Run Textual Nat := do
  let t ← get
  match f t.archive, t.access.fault? with
  | .ok (archive, count), none =>
    set { t with archive := archive }
    return count
  | .ok _, some fault | .error fault, _ => refused fault

-- Runs a statement. A parameter that is not bound is zero.
def evaluate (s : Sql.Statement) (parameter : Option Int) : Run Textual Nat :=
  change (·.evaluate (parameter.getD 0) (trimmed s.render))

def batch (statements : List Sql.Statement) : Run Textual Unit := do
  let t ← get
  let (archive, result) := t.archive.batch (";\n".intercalate (statements.map Sql.Statement.render))
  match t.access.fault?.filter fun _ => archive.size ≠ t.archive.size, result with
  | some fault, _ => refused fault
  | none, .ok () => set { t with archive := archive }
  | none, .error fault =>
    set { t with archive := archive }
    refused fault

def start : Run Textual Unit := do
  let t ← get
  match t.saved with
  | none => set { t with saved := some t.archive }
  | some _ => refused .openTransaction

def commit : Run Textual Unit := do
  let t ← get
  match t.saved with
  | some _ => set { t with saved := none }
  | none => refused .noTransaction

def rollback : Run Textual Unit :=
  modify fun t => { t with archive := t.settled, saved := none }

def load (table : String) (columns : List String) (rows : List Sql.Row) : Run Textual Nat :=
  change (·.load (trimmed (Sql.loadText table columns)) rows)

def query (columns : List String) (name : String) : Run Textual (List Sql.Row) := do
  match (← get).archive.query (Sql.readText columns name) with
  | .ok rows => return rows
  | .error fault => refused fault

def session : Session Textual where
  evaluate := evaluate
  batch := batch
  start := start
  commit := commit
  rollback := rollback
  load := load
  query := query

end Textual

end PeerExchange
