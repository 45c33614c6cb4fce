import PeerExchange.Error
import PeerExchange.Sql.Printer
import PeerExchange.Sql.Value

namespace PeerExchange

-- An action on a state that may fail. What it did before it failed stays done.
abbrev Run (σ : Type) := ExceptT RunError (StateM σ)

namespace Run

def within {σ τ α : Type} (get : τ → σ) (set : σ → τ → τ) (r : Run σ α) : Run τ α :=
  ExceptT.mk fun t =>
    let (result, s) := r.run (get t)
    (result, set s t)

def ofCompiled {σ α : Type} : Compiled α → Run σ α
  | .ok a => pure a
  | .error cause => throw (.compile cause)

def counted {σ : Type} (changes : Nat) : Run σ Nat :=
  if changes < 18446744073709551616 then pure changes else throw (.uncountable changes)

end Run

structure Session (σ : Type) where
  evaluate : Sql.Statement → Option Int → Run σ Nat
  batch : List Sql.Statement → Run σ Unit
  start : Run σ Unit
  commit : Run σ Unit
  rollback : Run σ Unit
  load : String → List String → List Sql.Row → Run σ Nat
  query : List String → String → Run σ (List Sql.Row)

end PeerExchange
