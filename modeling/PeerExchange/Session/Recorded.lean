import PeerExchange.Session.Basic
import PeerExchange.Sql.Execution

namespace PeerExchange

inductive Call where
  | evaluate
  | batch
  | start
  | commit
  | rollback
  | load
  | query
deriving DecidableEq

namespace Call

def name : Call → String
  | evaluate => "evaluate"
  | batch => "batch"
  | start => "begin"
  | commit => "commit"
  | rollback => "reset"
  | load => "import"
  | query => "query"

end Call

inductive JournalEntry where
  | evaluated (sql : String) (parameter : Option Int) (changed : Nat)
  | batched (sql : List String)
  | started
  | committed
  | rolledBack
  | loaded (table : String) (columns : List String) (rows : List Sql.Row)
  | queried (sql : String)
  | failed (call : Call)

-- The state of a session, its journal from the last entry to the first, and how many calls there
-- are before the one that fails.
structure Recorded (σ : Type) where
  state : σ
  reversed : List JournalEntry := []
  callsLeft : Option Nat := none

namespace Recorded

variable {σ α : Type}

def journal (t : Recorded σ) : List JournalEntry := t.reversed.reverse

def inner (r : Run σ α) : Run (Recorded σ) α := r.within state fun s t => { t with state := s }

def note (entry : JournalEntry) : Run (Recorded σ) Unit :=
  modify fun t => { t with reversed := entry :: t.reversed }

def letThrough (call : Call) : Run (Recorded σ) Unit := do
  match (← get).callsLeft with
  | none => return ()
  | some (left + 1) => modify fun t => { t with callsLeft := some left }
  | some 0 =>
    modify fun t => { t with callsLeft := none }
    note (.failed call)
    throw (.connectivity ("injected failure in " ++ call.name))

def noted (call : Call) (entry : JournalEntry) (r : Run σ α) : Run (Recorded σ) α := do
  letThrough call
  note entry
  inner r

def evaluate (session : Session σ) (s : Sql.Statement) (parameter : Option Int) :
    Run (Recorded σ) Nat := do
  letThrough .evaluate
  let changed ← inner (session.evaluate s parameter)
  note (.evaluated s.render parameter changed)
  return changed

def session (inside : Session σ) : Session (Recorded σ) where
  evaluate := evaluate inside
  batch statements := noted .batch (.batched (statements.map Sql.Statement.render))
    (inside.batch statements)
  start := noted .start .started inside.start
  commit := noted .commit .committed inside.commit
  rollback := noted .rollback .rolledBack inside.rollback
  load table columns rows := noted .load (.loaded table columns rows)
    (inside.load table columns rows)
  query columns name := noted .query (.queried (Sql.readText columns name))
    (inside.query columns name)

end Recorded

end PeerExchange
